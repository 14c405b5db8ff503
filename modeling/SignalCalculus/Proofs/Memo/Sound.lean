import SignalCalculus.Proofs.Direct.Stack

set_option autoImplicit false

/-!
# Sound memos

A memo is sound for a book if every entry is the weak head normal form that direct reduction finds,
without a request, for the term of the entry. The machine keeps its memo sound. The invariant that
carries this says of every chain that is under way, in the control or in a frame: if no request was
sent since the chain began, its earlier terms have the weak head normal form of the latest one, and
the frame below waits for one of the chain's terms. A request makes all of this void for the chains
that are under way, since they are not entered any more, so a machine that waits for a reply keeps
the invariant whatever other machines do meanwhile.
-/

namespace SignalCalculus

open Direct (Reduces Obeys)

/-- Every entry is the weak head normal form of its term. -/
def Memo.Sound (book : Book) (memo : Memo) : Prop :=
  ∀ term w, memo.find? term = some w → Reduces book term w

/-- The earlier terms of a chain have the weak head normal form of the latest one. -/
def Chain.Tracks (book : Book) (chain : Chain) : Prop :=
  ∀ w, Reduces book chain.current w → ∀ term ∈ chain.terms, Reduces book term w

/-- A stack waits for the weak head normal form of a term that was demanded after so many
    requests. -/
def Awaits (book : Book) : Nat → Term → List Frame → Prop
  | _, _, [] => True
  | sends, term, .unfold chain args :: stack =>
    chain.sendsBefore ≤ sends ∧
    (chain.sendsBefore = sends → chain.Tracks book ∧
      ∀ v w, Reduces book term v → Reduces book (v.apply args) w → Reduces book chain.current w) ∧
    ∃ first ∈ chain.terms, Awaits book chain.sendsBefore first stack
  | sends, term, .law chain g args need :: stack =>
    chain.sendsBefore ≤ sends ∧
    (chain.sendsBefore = sends → chain.Tracks book ∧
      ∀ v w, Reduces book term v →
        Obeys book chain.current g args (Law.onTerm g (Law.operands g args) need v) w →
        Reduces book chain.current w) ∧
    ∃ first ∈ chain.terms, Awaits book chain.sendsBefore first stack
  | _, _, .force _ :: stack => stack = []

structure UnderWay (book : Book) (sends : Nat) (chain : Chain) (stack : List Frame) : Prop where
  began : chain.sendsBefore ≤ sends
  tracks : chain.sendsBefore = sends → chain.Tracks book
  awaited : ∃ first ∈ chain.terms, Awaits book chain.sendsBefore first stack

/-- The invariant of a running machine, after so many requests. -/
def Machine.Justified (book : Book) (sends : Nat) : Machine → Prop
  | ⟨.demand term, stack⟩ => Awaits book sends term stack
  | ⟨.chase chain, stack⟩ => UnderWay book sends chain stack
  | ⟨.give w, stack⟩ => stack ≠ [] → ∃ sends' term, sends' ≤ sends ∧
      (sends' = sends → Reduces book term w) ∧ Awaits book sends' term stack

/-- The invariant of a machine that waits for a reply: a request was sent since its chain began. -/
structure Suspended.Justified (book : Book) (sends : Nat) (suspended : Suspended) : Prop where
  sent : suspended.chain.sendsBefore < sends
  awaited : ∃ first ∈ suspended.chain.terms,
    Awaits book suspended.chain.sendsBefore first suspended.stack

def Step.Justified (book : Book) (sends : Nat) : Step → Prop
  | .running machine => machine.Justified book sends
  | .sent _ suspended => suspended.Justified book sends
  | .finished _ => True
  | .failed _ => True

theorem Suspended.Justified.mono {book : Book} {sends sends' : Nat} {suspended : Suspended}
    (h : suspended.Justified book sends) (hle : sends ≤ sends') :
    suspended.Justified book sends' :=
  ⟨Nat.lt_of_lt_of_le h.sent hle, h.awaited⟩

theorem Memo.sound_empty (book : Book) : Memo.empty.Sound book := by
  intro term w h
  simp at h

structure Engine.Quiet (before after : Engine) : Prop where
  memo : after.memo = before.memo
  sends : after.sends = before.sends
  boundTo : after.boundTo = before.boundTo
  stepLimit : after.stepLimit = before.stepLimit

theorem Engine.Quiet.refl (engine : Engine) : engine.Quiet engine := ⟨rfl, rfl, rfl, rfl⟩

theorem Engine.quiet_report (engine : Engine) (report : Trace.Report) :
    engine.Quiet (engine.report report) := ⟨rfl, rfl, rfl, rfl⟩

structure Holds (book : Book) (before : Engine) (step : Step) (after : Engine) : Prop where
  sound : after.memo.Sound book
  justified : step.Justified book after.sends
  grown : before.sends ≤ after.sends
  running : Machine.Running step → after.sends = before.sends
  boundTo : after.boundTo = before.boundTo
  stepLimit : after.stepLimit = before.stepLimit

theorem Holds.trans {book : Book} {first second third : Engine} {step step' : Step}
    (h : Holds book first step second) (h' : Holds book second step' third)
    (hr : ¬Machine.Running step') : Holds book first step' third where
  sound := h'.sound
  justified := h'.justified
  grown := Nat.le_trans h.grown h'.grown
  running := fun hr' => absurd hr' hr
  boundTo := h'.boundTo.trans h.boundTo
  stepLimit := h'.stepLimit.trans h.stepLimit

theorem Holds.of_quiet {book : Book} {engine engine' after : Engine} {step : Step}
    (hq : engine.Quiet engine') (h : Holds book engine' step after) :
    Holds book engine step after where
  sound := h.sound
  justified := h.justified
  grown := hq.sends ▸ h.grown
  running := fun hr => (h.running hr).trans hq.sends
  boundTo := h.boundTo.trans hq.boundTo
  stepLimit := h.stepLimit.trans hq.stepLimit

theorem Holds.of_quiet_after {book : Book} {engine after : Engine} {step : Step}
    (hs : engine.memo.Sound book) (hq : engine.Quiet after)
    (hj : step.Justified book engine.sends) : Holds book engine step after where
  sound := hq.memo ▸ hs
  justified := hq.sends ▸ hj
  grown := hq.sends ▸ Nat.le_refl _
  running := fun _ => hq.sends
  boundTo := hq.boundTo
  stepLimit := hq.stepLimit

namespace Machine

variable {book : Book} {engine : Engine} {chain : Chain} {stack : List Frame}

theorem holds_close {result : Term} (hs : engine.memo.Sound book)
    (hu : UnderWay book engine.sends chain stack)
    (hr : chain.sendsBefore = engine.sends → Reduces book chain.current result) :
    Holds book engine (close engine chain result stack).1 (close engine chain result stack).2 := by
  obtain ⟨first, hfirst, hawait⟩ := hu.awaited
  have hjust : Justified book engine.sends ⟨.give result, stack⟩ := fun _ =>
    ⟨chain.sendsBefore, first, hu.began,
      fun hsame => hu.tracks hsame result (hr hsame) first hfirst, hawait⟩
  by_cases hsame : engine.sends = chain.sendsBefore
  · have hcur := hr hsame.symm
    simp only [close, Engine.settle, if_pos hsame]
    refine ⟨?_, hjust, Nat.le_refl _, fun _ => rfl, rfl, rfl⟩
    intro term w hfind
    rw [Memo.find?_enter, Memo.find?_enterAll] at hfind
    split at hfind
    · rename_i heq
      cases hfind
      exact heq ▸ hcur.self
    · split at hfind
      · rename_i hmem
        cases hfind
        exact hu.tracks hsame.symm _ hcur term hmem
      · exact hs term w hfind
  · -- A request was sent since the chain began: nothing is entered.
    simp only [close, Engine.settle, if_neg hsame]
    exact ⟨hs, hjust, Nat.le_refl _, fun _ => rfl, rfl, rfl⟩

theorem underWay_push {sends : Nat} {term : Term} (hu : UnderWay book sends chain stack)
    (hr : chain.sendsBefore = sends →
      ∀ w, Reduces book term w → Reduces book chain.current w) :
    UnderWay book sends (chain.push term) stack := by
  obtain ⟨first, hfirst, hawait⟩ := hu.awaited
  refine ⟨hu.began, fun hsame w hw t ht => ?_, first, List.mem_cons_of_mem _ hfirst, hawait⟩
  obtain rfl | ht := List.mem_cons.1 ht
  · exact hw
  · exact hu.tracks hsame w (hr hsame w hw) t ht

theorem holds_obey {g : Fn} {args : List Term} {verdict : Law.Verdict}
    (hs : engine.memo.Sound book) (hu : UnderWay book engine.sends chain stack)
    (hv : chain.sendsBefore = engine.sends →
      ∀ w, Obeys book chain.current g args verdict w → Reduces book chain.current w) :
    Holds book engine (obey engine chain g args stack verdict).1
      (obey engine chain g args stack verdict).2 := by
  cases verdict with
  | becomes term =>
    refine .of_quiet_after hs (.refl engine) (underWay_push hu fun hsame w hw => ?_)
    exact hv hsame w (Direct.obeys_iff.2 hw)
  | stuck => exact holds_close hs hu fun hsame => hv hsame _ (Direct.obeys_iff.2 rfl)
  | fails fault => exact .of_quiet_after hs (.refl engine) trivial
  | needs need term =>
    refine .of_quiet_after hs (.refl engine)
      ⟨hu.began, fun hsame => ⟨hu.tracks hsame, ?_⟩, hu.awaited⟩
    intro v w hterm hw
    exact hv hsame w (Direct.obeys_iff.2 ⟨v, hterm, hw⟩)
  | sends bits =>
    exact ⟨hs, ⟨Nat.lt_succ_of_le hu.began, hu.awaited⟩, Nat.le_succ _, fun hr => hr.elim, rfl, rfl⟩

theorem quiet_tick (hlimit : engine.stepLimit = 0) (g : Fn) :
    ∃ engine', engine.Quiet engine' ∧ engine.tick g = (engine', .ok ()) := by
  refine ⟨{ engine with steps := engine.steps + 1 }.report (.applied g.word), ?_, ?_⟩
  · exact ⟨rfl, rfl, rfl, rfl⟩
  · simp [Engine.tick, hlimit]

def heed (engine : Engine) (chain : Chain) (stack : List Frame) : Glance → Step × Engine
  | .normal => close engine chain chain.current stack
  | .fails fault => (.failed fault, engine)
  | .unfolds bound args => (.running ⟨.demand bound, .unfold chain args :: stack⟩, engine)
  | .fires g args => obey engine chain g args stack (Law.begin g (Law.operands g args))

theorem look_eq (hlimit : engine.stepLimit = 0) (book : Book) (chain : Chain)
    (stack : List Frame) :
    ∃ engine', engine.Quiet engine' ∧
      look book engine chain stack = heed engine' chain stack (glance book chain.current) := by
  unfold look glance heed
  obtain ⟨head, args⟩ := chain.current.spine
  cases head with
  | var id =>
    dsimp only
    cases hid : book.resolve id with
    | none => exact ⟨_, engine.quiet_report _, rfl⟩
    | some bound => exact ⟨_, .refl engine, rfl⟩
  | number n => cases args <;> exact ⟨_, .refl engine, rfl⟩
  | bits text => cases args <;> exact ⟨_, .refl engine, rfl⟩
  | picture points => cases args <;> exact ⟨_, .refl engine, rfl⟩
  | mark m => cases args <;> exact ⟨_, .refl engine, rfl⟩
  | fn g =>
    cases hg : g.arity? with
    | none => cases args <;> exact ⟨_, .refl engine, by simp [hg]⟩
    | some arity =>
      by_cases hlen : args.length < arity
      · refine ⟨_, .refl engine, ?_⟩
        cases args <;> simp only [hg, hlen, if_true]
      · obtain ⟨engine', hq, htick⟩ := quiet_tick hlimit g
        refine ⟨engine', hq, ?_⟩
        cases args <;> simp only [hg, hlen, htick, Law.operands, if_false, Option.getD_some]

theorem holds_look (hlimit : engine.stepLimit = 0) (hs : engine.memo.Sound book)
    (hu : UnderWay book engine.sends chain stack) :
    Holds book engine (look book engine chain stack).1 (look book engine chain stack).2 := by
  obtain ⟨engine', hq, heq⟩ := look_eq hlimit book chain stack
  have hs' : engine'.memo.Sound book := hq.memo ▸ hs
  have hu' : UnderWay book engine'.sends chain stack := hq.sends ▸ hu
  rw [heq]
  refine .of_quiet hq ?_
  cases hg : glance book chain.current with
  | normal => exact holds_close hs' hu' fun _ => .normal hg
  | fails fault => exact .of_quiet_after hs' (.refl engine') trivial
  | unfolds bound args =>
    exact .of_quiet_after hs' (.refl engine')
      ⟨hu'.began, fun hsame => ⟨hu'.tracks hsame, fun v w hv hw => .unfold hg hv hw⟩, hu'.awaited⟩
  | fires g args => exact holds_obey hs' hu' fun _ w hw => .fire hg hw

theorem holds_rebuild {cells : List (Cell Term Term)} {w : Term} (hs : engine.memo.Sound book) :
    Holds book engine (rebuild engine cells w []).1 (rebuild engine cells w []).2 := by
  unfold rebuild
  cases w.cell? with
  | some halves => exact .of_quiet_after hs (.refl engine) rfl
  | none =>
    dsimp only
    cases hp : place Term.cell cells w with
    | whole term => exact .of_quiet_after hs (.refl engine) fun hne => absurd rfl hne
    | next right cells => exact .of_quiet_after hs (.refl engine) rfl

/-- Without a step limit, every step keeps the memo sound. -/
theorem holds_step (hlimit : engine.stepLimit = 0) (hs : engine.memo.Sound book)
    {machine : Machine} (hj : machine.Justified book engine.sends) :
    Holds book engine (step book engine machine).1 (step book engine machine).2 := by
  obtain ⟨control, stack⟩ := machine
  cases control with
  | demand term =>
    simp only [step]
    cases hfind : engine.memo.find? term with
    | some w =>
      exact .of_quiet_after hs (engine.quiet_report _) fun _ =>
        ⟨engine.sends, term, Nat.le_refl _, fun _ => hs term w hfind, hj⟩
    | none =>
      refine .of_quiet_after hs (.refl engine) ⟨Nat.le_refl _, fun _ w hw t ht => ?_, term, ?_, hj⟩
      · obtain rfl := List.mem_singleton.1 ht
        exact hw
      · exact List.mem_singleton.2 rfl
  | chase chain =>
    simp only [step]
    split
    · rename_i w _ hfind
      exact holds_close hs hj fun _ => hs _ _ hfind
    · exact holds_look hlimit hs hj
  | give w =>
    cases stack with
    | nil => exact .of_quiet_after hs (.refl engine) trivial
    | cons frame stack =>
      obtain ⟨sends', term, hle, hterm, hawait⟩ := hj (List.cons_ne_nil _ _)
      -- A frame below waits since before its demand, so if nothing was sent since its chain began,
      -- nothing was sent since the demand either.
      cases frame with
      | unfold chain args =>
        obtain ⟨hbegan, hframe, hfirst⟩ := hawait
        have hu : UnderWay book engine.sends chain stack :=
          ⟨Nat.le_trans hbegan hle, fun hsame => (hframe (by omega)).1, hfirst⟩
        refine .of_quiet_after hs (.refl engine) (underWay_push hu fun hsame u hu => ?_)
        exact (hframe (by omega)).2 w u (hterm (by omega)) hu
      | law chain g args need =>
        obtain ⟨hbegan, hframe, hfirst⟩ := hawait
        have hu : UnderWay book engine.sends chain stack :=
          ⟨Nat.le_trans hbegan hle, fun hsame => (hframe (by omega)).1, hfirst⟩
        refine holds_obey hs hu fun hsame u hu => ?_
        exact (hframe (by omega)).2 w u (hterm (by omega)) hu
      | force cells =>
        obtain rfl : stack = [] := hawait
        exact holds_rebuild hs

end Machine

end SignalCalculus
