import SignalCalculus.Proofs.Direct.Reduce

set_option autoImplicit false

/-!
# The stack of frames

The machine without its memo, and why its stack is the recursion of direct reduction: started on a
term below any stack of frames, it gives the term's weak head normal form to that stack, or fails,
or sends, as direct reduction does, and it runs on as long as direct reduction is unfinished.
-/

namespace SignalCalculus.Machine

def bareObey (chain : Chain) (g : Fn) (args : List Term) (stack : List Frame) : Law.Verdict → Step
  | .becomes term => .running ⟨.chase (chain.push (term.apply (Law.surplus g args))), stack⟩
  | .stuck => .running ⟨.give chain.current, stack⟩
  | .fails fault => .failed fault
  | .needs need term => .running ⟨.demand term, .law chain g args need :: stack⟩
  | .sends bits => .sent bits ⟨chain, args, stack⟩

def bareLook (book : Book) (chain : Chain) (stack : List Frame) : Step :=
  match glance book chain.current with
  | .normal => .running ⟨.give chain.current, stack⟩
  | .fails fault => .failed fault
  | .unfolds bound args => .running ⟨.demand bound, .unfold chain args :: stack⟩
  | .fires g args => bareObey chain g args stack (Law.begin g (Law.operands g args))

def barePlace (cells : List (Cell Term Term)) (half : Term) (stack : List Frame) : Step :=
  match place Term.cell cells half with
  | .whole term => .running ⟨.give term, stack⟩
  | .next right cells => .running ⟨.demand right, .force cells :: stack⟩

def bareRebuild (cells : List (Cell Term Term)) (w : Term) (stack : List Frame) : Step :=
  match w.cell? with
  | some (left, right) => .running ⟨.demand left, .force (.left right :: cells) :: stack⟩
  | none => barePlace cells w stack

/-- One step without a memo; a chain that begins notes that so many requests have been sent. -/
def bareStep (book : Book) (sends : Nat) : Machine → Step
  | ⟨.demand term, stack⟩ => .running ⟨.chase ⟨sends, term, []⟩, stack⟩
  | ⟨.chase chain, stack⟩ => bareLook book chain stack
  | ⟨.give w, []⟩ => .finished w
  | ⟨.give w, .unfold chain args :: stack⟩ => .running ⟨.chase (chain.push (w.apply args)), stack⟩
  | ⟨.give w, .law chain g args need :: stack⟩ =>
    bareObey chain g args stack (Law.onTerm g (Law.operands g args) need w)
  | ⟨.give w, .force cells :: stack⟩ => bareRebuild cells w stack

def bareAnswer (reply : List Char) (suspended : Suspended) : Step :=
  bareObey suspended.chain .send suspended.args suspended.stack (Law.onReply reply)

def bareRun (book : Book) (sends : Nat) : Nat → Step → Step
  | 0, step => step
  | count + 1, .running machine => bareRun book sends count (bareStep book sends machine)
  | _ + 1, step => step

def Running : Step → Prop
  | .running _ => True
  | _ => False

variable {book : Book} {sends : Nat}

theorem bareRun_rest {step : Step} (h : ¬Running step) (count : Nat) :
    bareRun book sends count step = step := by
  cases count with
  | zero => rfl
  | succ count =>
    cases step with
    | running machine => exact absurd trivial h
    | sent bits suspended => rfl
    | finished w => rfl
    | failed fault => rfl

theorem bareRun_add (first second : Nat) (step : Step) :
    bareRun book sends (first + second) step =
      bareRun book sends second (bareRun book sends first step) := by
  induction first generalizing step with
  | zero => rw [Nat.zero_add]; rfl
  | succ first ih =>
    by_cases hr : Running step
    · cases step with
      | running machine =>
        rw [Nat.succ_add]
        exact ih _
      | sent bits suspended => cases hr
      | finished w => cases hr
      | failed fault => cases hr
    · rw [bareRun_rest hr, bareRun_rest hr, bareRun_rest hr]

theorem running_of_le {first second : Nat} {step : Step} (hle : first ≤ second)
    (h : Running (bareRun book sends second step)) : Running (bareRun book sends first step) := by
  obtain ⟨more, rfl⟩ := Nat.exists_eq_add_of_le hle
  rw [bareRun_add] at h
  by_cases hr : Running (bareRun book sends first step)
  · exact hr
  · rwa [bareRun_rest hr] at h

/-- What the machine does below a stack is what a dialogue says: it gives the result to the stack,
    fails or sends alike, and for an unfinished dialogue it runs for the given number of steps. The
    steps up to a request and the request itself count. -/
def Follows (book : Book) (stack : List Frame) : Dialogue Term → Nat → Nat → Step → Prop
  | .done w, sends, _, step => ∃ count, bareRun book sends count step = .running ⟨.give w, stack⟩
  | .failed fault, sends, _, step => ∃ count, bareRun book sends count step = .failed fault
  | .ask bits next, sends, limit, step => ∃ count suspended,
      bareRun book sends count step = .sent bits suspended ∧
        (∀ earlier < count, Running (bareRun book sends earlier step)) ∧
        ∀ reply sends', Follows book stack (next reply) sends' (limit - (count + 1))
          (bareAnswer reply suspended)
  | .unfinished, sends, limit, step => ∀ count < limit, Running (bareRun book sends count step)

theorem Follows.le {stack : List Frame} {dialogue : Dialogue Term} {limit limit' : Nat}
    {step : Step} (h : Follows book stack dialogue sends limit step) (hle : limit' ≤ limit) :
    Follows book stack dialogue sends limit' step := by
  induction dialogue generalizing sends limit limit' step with
  | done w => exact h
  | failed fault => exact h
  | unfinished => exact fun count hc => h count (Nat.lt_of_lt_of_le hc hle)
  | ask bits next ih =>
    obtain ⟨count, suspended, hsent, hearlier, hnext⟩ := h
    refine ⟨count, suspended, hsent, hearlier, fun reply sends' => ?_⟩
    exact ih reply (hnext reply sends') (by omega)

theorem Follows.head {stack : List Frame} {dialogue : Dialogue Term} {limit : Nat}
    {machine : Machine}
    (h : Follows book stack dialogue sends (limit - 1) (bareStep book sends machine)) :
    Follows book stack dialogue sends limit (.running machine) := by
  cases dialogue with
  | done w =>
    obtain ⟨count, hc⟩ := h
    exact ⟨count + 1, hc⟩
  | failed fault =>
    obtain ⟨count, hc⟩ := h
    exact ⟨count + 1, hc⟩
  | unfinished =>
    intro count hc
    cases count with
    | zero => trivial
    | succ count => exact h count (by omega)
  | ask bits next =>
    obtain ⟨count, suspended, hsent, hearlier, hnext⟩ := h
    refine ⟨count + 1, suspended, hsent, fun earlier hlt => ?_, fun reply sends' => ?_⟩
    · cases earlier with
      | zero => trivial
      | succ earlier => exact hearlier earlier (by omega)
    · have hlimit : limit - (count + 1 + 1) = limit - 1 - (count + 1) := by omega
      rw [hlimit]
      exact hnext reply sends'

theorem Follows.tail {stack : List Frame} {dialogue : Dialogue Term} {limit count : Nat}
    {step : Step} {machine : Machine} (hrun : bareRun book sends count step = .running machine)
    (h : Follows book stack dialogue sends limit (.running machine)) :
    Follows book stack dialogue sends limit step := by
  induction count generalizing step with
  | zero =>
    obtain rfl : step = .running machine := hrun
    exact h
  | succ count ih =>
    cases step with
    | running first => exact Follows.head ((ih hrun).le (Nat.sub_le limit 1))
    | sent bits suspended => cases hrun
    | finished w => cases hrun
    | failed fault => cases hrun

theorem Follows.bind {stack : List Frame} {frame : Frame} {dialogue : Dialogue Term}
    {f : Term → Dialogue Term} {limit : Nat} {step : Step}
    (h : Follows book (frame :: stack) dialogue sends limit step)
    (hf : ∀ w sends' limit', limit' ≤ limit →
      Follows book stack (f w) sends' limit' (.running ⟨.give w, frame :: stack⟩)) :
    Follows book stack (dialogue.bind f) sends limit step := by
  induction dialogue generalizing sends limit step with
  | done w =>
    obtain ⟨count, hc⟩ := h
    exact Follows.tail hc (hf w sends limit (Nat.le_refl limit))
  | failed fault => exact h
  | unfinished => exact h
  | ask bits next ih =>
    obtain ⟨count, suspended, hsent, hearlier, hnext⟩ := h
    refine ⟨count, suspended, hsent, hearlier, fun reply sends' => ?_⟩
    refine ih reply (hnext reply sends') fun w sends'' limit' hle => ?_
    exact hf w sends'' limit' (by omega)

/-- A chain does what direct reduction of its latest term does, and a law what its verdict says. The
    fuel of direct reduction is used up twice as fast as the machine makes steps. -/
theorem follows_reduce (book : Book) (fuel : Nat) :
    (∀ chain stack sends limit, 2 * limit ≤ fuel →
      Follows book stack (Direct.reduce book fuel chain.current) sends limit
        (.running ⟨.chase chain, stack⟩)) ∧
    ∀ (chain : Chain) g args stack verdict sends limit, 2 * limit ≤ fuel - 1 →
      Follows book stack (Direct.obey book fuel chain.current g args verdict) sends limit
        (bareObey chain g args stack verdict) := by
  induction fuel with
  | zero =>
    constructor
    · intro chain stack sends limit hl count hc
      omega
    · intro chain g args stack verdict sends limit hl count hc
      omega
  | succ fuel ih =>
    obtain ⟨ihr, iho⟩ := ih
    have demanded : ∀ term stack sends limit, 2 * limit ≤ fuel →
        Follows book stack (Direct.reduce book fuel term) sends limit
          (.running ⟨.demand term, stack⟩) := by
      intro term stack sends limit hl
      exact Follows.head (ihr ⟨sends, term, []⟩ stack sends (limit - 1) (by omega))
    constructor
    · intro chain stack sends limit hl
      apply Follows.head
      change Follows book stack _ sends _ (bareLook book chain stack)
      rw [Direct.reduce_succ, bareLook]
      cases hg : glance book chain.current with
      | normal => exact ⟨0, rfl⟩
      | fails fault => exact ⟨0, rfl⟩
      | unfolds bound args =>
        refine Follows.bind (demanded bound _ sends _ (by omega)) ?_
        intro w sends' limit' hle
        exact Follows.head (ihr (chain.push (w.apply args)) stack sends' _ (by omega))
      | fires g args => exact iho chain g args stack _ sends _ (by omega)
    · intro chain g args stack verdict sends limit hl
      cases verdict with
      | becomes term =>
        exact ihr (chain.push (term.apply (Law.surplus g args))) stack sends limit (by omega)
      | stuck => exact ⟨0, rfl⟩
      | fails fault => exact ⟨0, rfl⟩
      | needs need term =>
        refine Follows.bind (demanded term _ sends _ (by omega)) ?_
        intro w sends' limit' hle
        exact Follows.head (iho chain g args stack _ sends' _ (by omega))
      | sends bits =>
        refine ⟨0, ⟨chain, args, stack⟩, rfl, fun earlier hlt => ?_, fun reply sends' => ?_⟩
        · exact absurd hlt (Nat.not_lt_zero earlier)
        exact iho chain .send args stack _ sends' _ (by omega)

theorem follows_demand (book : Book) (fuel : Nat) (term : Term) (stack : List Frame)
    (sends limit : Nat) (hl : 2 * (limit - 1) ≤ fuel) :
    Follows book stack (Direct.reduce book fuel term) sends limit
      (.running ⟨.demand term, stack⟩) :=
  Follows.head ((follows_reduce book fuel).1 ⟨sends, term, []⟩ stack sends (limit - 1) hl)

theorem follows_force (book : Book) (stack : List Frame) (fuel : Nat) (term : Term)
    (cells : List (Cell Term Term)) (f : Term → Dialogue Term) (sends limit : Nat)
    (hl : 2 * limit ≤ fuel)
    (hf : ∀ forced sends' limit', limit' ≤ limit →
      Follows book stack (f forced) sends' limit' (barePlace cells forced stack)) :
    Follows book stack ((Direct.force book fuel term).bind f) sends limit
      (.running ⟨.demand term, .force cells :: stack⟩) := by
  induction fuel generalizing term cells f sends limit with
  | zero =>
    intro count hc
    omega
  | succ fuel ih =>
    rw [Direct.force, Dialogue.bind_assoc]
    refine Follows.bind (follows_demand book fuel term _ sends limit (by omega)) ?_
    intro w sends' limit' hle
    apply Follows.head
    cases hw : w.cell? with
    | none =>
      simp only [bareStep, bareRebuild, hw]
      exact hf w sends' _ (by omega)
    | some halves =>
      obtain ⟨left, right⟩ := halves
      simp only [bareStep, bareRebuild, hw, Dialogue.bind_assoc, Dialogue.bind_done]
      -- The left half is forced inside one more cell, the right half inside that cell half filled.
      apply ih left (.left right :: cells) _ sends' _ (by omega)
      intro l sends'' limit'' hle'
      apply ih right (.right l :: cells) _ sends'' limit'' (by omega)
      intro r sends3 limit3 hle3
      exact hf (Term.cell l r) sends3 limit3 (by omega)

end SignalCalculus.Machine
