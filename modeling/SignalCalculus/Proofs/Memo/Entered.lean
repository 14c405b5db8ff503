import SignalCalculus.Proofs.Memo.Transparent

set_option autoImplicit false

namespace SignalCalculus

open Direct (Reduces)

def Memo.Covers (after before : Memo) : Prop :=
  ∀ term, (before.find? term).isSome → (after.find? term).isSome

theorem Memo.Covers.refl (memo : Memo) : memo.Covers memo := fun _ h => h

theorem Memo.Covers.trans {first second third : Memo} (h : second.Covers first)
    (h' : third.Covers second) : third.Covers first := fun term hterm => h' term (h term hterm)

namespace Machine

theorem close_covers (engine : Engine) (chain : Chain) (result : Term) (stack : List Frame) :
    (close engine chain result stack).2.memo.Covers engine.memo := by
  intro term hterm
  simp only [close, Engine.settle]
  split
  · rw [Memo.find?_enter, Memo.find?_enterAll]
    split
    · rfl
    · split
      · rfl
      · exact hterm
  · exact hterm

theorem close_enters {engine : Engine} {chain : Chain} (hsends : chain.sendsBefore = engine.sends)
    (result : Term) (stack : List Frame) {term : Term} (hterm : term ∈ chain.terms) :
    (close engine chain result stack).2.memo.find? term = some result := by
  simp only [close, Engine.settle, if_pos hsends.symm, Memo.find?_enter, Memo.find?_enterAll,
    if_pos hterm, ite_self]

theorem obey_covers (engine : Engine) (chain : Chain) (g : Fn) (args : List Term)
    (stack : List Frame) (verdict : Law.Verdict) :
    (obey engine chain g args stack verdict).2.memo.Covers engine.memo := by
  cases verdict with
  | becomes term => exact .refl _
  | stuck => exact close_covers _ _ _ _
  | fails fault => exact .refl _
  | needs need term => exact .refl _
  | sends bits => exact .refl _

theorem look_covers {engine : Engine} (hlimit : engine.stepLimit = 0) (book : Book) (chain : Chain)
    (stack : List Frame) : (look book engine chain stack).2.memo.Covers engine.memo := by
  obtain ⟨engine', hq, heq⟩ := look_eq hlimit book chain stack
  rw [heq, ← hq.memo]
  cases glance book chain.current with
  | normal => exact close_covers _ _ _ _
  | fails fault => exact .refl _
  | unfolds bound args => exact .refl _
  | fires g args => exact obey_covers _ _ _ _ _ _

theorem step_covers {engine : Engine} (hlimit : engine.stepLimit = 0) (book : Book)
    (machine : Machine) : (step book engine machine).2.memo.Covers engine.memo := by
  obtain ⟨control, stack⟩ := machine
  cases control with
  | demand term =>
    simp only [step]
    split <;> exact .refl _
  | chase chain =>
    simp only [step]
    split
    · exact close_covers _ _ _ _
    · exact look_covers hlimit _ _ _
  | give w =>
    cases stack with
    | nil => exact .refl _
    | cons frame stack =>
      cases frame with
      | unfold chain args => exact .refl _
      | law chain g args need => exact obey_covers _ _ _ _ _ _
      | force cells =>
        simp only [step, rebuild]
        split
        · exact .refl _
        · split <;> exact .refl _

structure Ready (book : Book) (state : Step × Engine) : Prop where
  stepLimit : state.2.stepLimit = 0
  sound : state.2.memo.Sound book
  justified : state.1.Justified book state.2.sends

inductive Leads (book : Book) : Step × Engine → Step × Engine → Prop where
  | refl (state : Step × Engine) : Leads book state state
  | head {machine : Machine} {engine : Engine} {last : Step × Engine}
      (tail : Leads book (step book engine machine) last) :
      Leads book (.running machine, engine) last

variable {book : Book}

theorem Leads.trans {first second third : Step × Engine} (h : Leads book first second)
    (h' : Leads book second third) : Leads book first third := by
  induction h with
  | refl state => exact h'
  | head tail ih => exact .head (ih h')

theorem Ready.step {machine : Machine} {engine : Engine}
    (h : Ready book (.running machine, engine)) : Ready book (step book engine machine) := by
  have hstep := holds_step h.stepLimit h.sound h.justified
  exact ⟨hstep.stepLimit.trans h.stepLimit, hstep.sound, hstep.justified⟩

theorem Leads.ready {first last : Step × Engine} (h : Leads book first last)
    (hready : Ready book first) : Ready book last := by
  induction h with
  | refl state => exact hready
  | head tail ih => exact ih hready.step

theorem Leads.running {first last : Step × Engine} (h : Leads book first last)
    (hr : Running last.1) : Running first.1 := by
  cases h with
  | refl => exact hr
  | head tail => trivial

theorem Leads.sends {first last : Step × Engine} (h : Leads book first last)
    (hready : Ready book first) (hr : Running last.1) : last.2.sends = first.2.sends := by
  induction h with
  | refl state => rfl
  | @head machine engine last tail ih =>
    have hstep := holds_step hready.stepLimit hready.sound hready.justified
    exact (ih hready.step hr).trans (hstep.running (tail.running hr))

theorem Leads.settleFrom {first last : Step × Engine} (h : Leads book first last) {fuel : Nat}
    {rest : Rest × Engine} (hrest : Machine.settleFrom book fuel first.1 first.2 = some rest) :
    ∃ fuel', Machine.settleFrom book fuel' last.1 last.2 = some rest := by
  induction h generalizing fuel with
  | refl state => exact ⟨fuel, hrest⟩
  | head tail ih =>
    cases fuel with
    | zero => cases hrest
    | succ fuel => exact ih hrest

theorem settleFrom_covers {fuel : Nat} {start : Step} {engine engine' : Engine} {rest : Rest}
    (hready : Ready book (start, engine))
    (h : settleFrom book fuel start engine = some (rest, engine')) :
    engine'.memo.Covers engine.memo := by
  revert hready
  apply settleFrom_induction _ _ h
  · exact fun _ => .refl _
  · intro machine engine ih hready
    exact (step_covers hready.stepLimit book machine).trans (ih hready.step)

/-- A run leads to a point where a stack is given a weak head normal form, and some terms have it as
    their entry. -/
def Gives (book : Book) (start : Step × Engine) (w : Term) (stack : List Frame)
    (terms : List Term) : Prop :=
  ∃ engine, Leads book start (.running ⟨.give w, stack⟩, engine) ∧
    ∀ term ∈ terms, engine.memo.find? term = some w

theorem Gives.head {machine : Machine} {engine : Engine} {w : Term} {stack : List Frame}
    {terms : List Term} (h : Gives book (step book engine machine) w stack terms) :
    Gives book (.running machine, engine) w stack terms := by
  obtain ⟨engine', hleads, hterms⟩ := h
  exact ⟨engine', .head hleads, hterms⟩

theorem Gives.bind {start : Step × Engine} {v w : Term} {frame : Frame} {stack : List Frame}
    {terms terms' : List Term} (hready : Ready book start)
    (h : Gives book start v (frame :: stack) terms)
    (hnext : ∀ engine, Ready book (.running ⟨.give v, frame :: stack⟩, engine) →
      engine.sends = start.2.sends →
      Gives book (step book engine ⟨.give v, frame :: stack⟩) w stack terms') :
    Gives book start w stack terms' := by
  obtain ⟨engine, hleads, -⟩ := h
  obtain ⟨engine', hleads', hterms⟩ :=
    hnext engine (hleads.ready hready) (hleads.sends hready trivial)
  exact ⟨engine', hleads.trans (.head hleads'), hterms⟩

theorem Gives.demand {term w : Term} {stack : List Frame} {engine : Engine}
    (hready : Ready book (.running ⟨.demand term, stack⟩, engine)) (hw : Reduces book term w)
    (hchase : Ready book (.running ⟨.chase ⟨engine.sends, term, []⟩, stack⟩, engine) →
      Gives book (.running ⟨.chase ⟨engine.sends, term, []⟩, stack⟩, engine) w stack [term]) :
    Gives book (.running ⟨.demand term, stack⟩, engine) w stack [term] := by
  apply Gives.head
  have hstep := hready.step
  simp only [step] at hstep ⊢
  cases hfind : engine.memo.find? term with
  | some v =>
    obtain rfl := (hready.sound term v hfind).unique hw
    refine ⟨_, .refl _, fun other hother => ?_⟩
    obtain rfl := List.mem_singleton.1 hother
    exact hfind
  | none =>
    rw [hfind] at hstep
    exact hchase hstep

theorem Gives.chase {chain : Chain} {w : Term} {stack : List Frame} {engine : Engine}
    (hready : Ready book (.running ⟨.chase chain, stack⟩, engine))
    (hsends : chain.sendsBefore = engine.sends) (hw : Reduces book chain.current w)
    (hheed : ∀ engine', chain.sendsBefore = engine'.sends →
      Ready book (heed engine' chain stack (glance book chain.current)) →
      Gives book (heed engine' chain stack (glance book chain.current)) w stack chain.terms) :
    Gives book (.running ⟨.chase chain, stack⟩, engine) w stack chain.terms := by
  apply Gives.head
  have hstep := hready.step
  revert hstep
  simp only [step]
  split
  · -- The term that the chain has come to may have an entry of its own.
    rename_i v _ hfind
    intro _
    obtain rfl := (hready.sound _ v hfind).unique hw
    exact ⟨_, .refl _, fun other hother => close_enters hsends _ stack hother⟩
  · intro hstep
    obtain ⟨engine', hq, heq⟩ := look_eq hready.stepLimit book chain stack
    rw [heq] at hstep ⊢
    exact hheed engine' (hsends.trans hq.sends.symm) hstep

/-- Where direct reduction ends without a request, a chain and a law end with all terms of the chain
    entered. -/
theorem gives_reduce (book : Book) :
    (∀ term w, Reduces book term w → ∀ (chain : Chain) stack engine, chain.current = term →
      Ready book (.running ⟨.chase chain, stack⟩, engine) → chain.sendsBefore = engine.sends →
      Gives book (.running ⟨.chase chain, stack⟩, engine) w stack chain.terms) ∧
    ∀ term g args verdict w, Direct.Obeys book term g args verdict w →
      ∀ (chain : Chain) stack engine, chain.current = term →
      Ready book (obey engine chain g args stack verdict) → chain.sendsBefore = engine.sends →
      Gives book (obey engine chain g args stack verdict) w stack chain.terms := by
  apply Direct.reduces_induction
  case normal =>
    rintro term hg chain stack engine rfl hready hsends
    refine Gives.chase hready hsends (.normal hg) fun engine' hsends' _ => ?_
    rw [hg]
    exact ⟨_, .refl _, fun other hother => close_enters hsends' _ stack hother⟩
  case unfold =>
    rintro term bound args v w hg hv ihv hw ihw chain stack engine rfl hready hsends
    refine Gives.chase hready hsends (.unfold hg hv hw) fun engine' hsends' hstep => ?_
    rw [hg] at hstep ⊢
    refine Gives.bind hstep (Gives.demand hstep hv fun hchase => ihv _ _ _ rfl hchase rfl) ?_
    intro engine1 hready1 hsends1
    obtain ⟨engine2, hleads, hterms⟩ := ihw (chain.push (v.apply args)) stack engine1 rfl
      hready1.step (hsends'.trans hsends1.symm)
    exact ⟨engine2, hleads, fun other hother => hterms other (List.mem_cons_of_mem _ hother)⟩
  case fire =>
    rintro term g args w hg hobeys ih chain stack engine rfl hready hsends
    refine Gives.chase hready hsends (.fire hg hobeys) fun engine' hsends' hstep => ?_
    rw [hg] at hstep ⊢
    exact ih chain stack engine' rfl hstep hsends'
  case becomes =>
    rintro term g args result w _ ih chain stack engine rfl hready hsends
    obtain ⟨engine', hleads, hterms⟩ :=
      ih (chain.push (result.apply (Law.surplus g args))) stack engine rfl hready hsends
    exact ⟨engine', hleads, fun other hother => hterms other (List.mem_cons_of_mem _ hother)⟩
  case stuck =>
    rintro term g args chain stack engine rfl _ hsends
    exact ⟨_, .refl _, fun other hother => close_enters hsends _ stack hother⟩
  case needs =>
    rintro term g args need wanted v w hv ihv _ ih chain stack engine rfl hready hsends
    refine Gives.bind hready (Gives.demand hready hv fun hchase => ihv _ _ _ rfl hchase rfl) ?_
    intro engine' hready' hsends'
    exact ih chain stack engine' rfl hready'.step (hsends.trans hsends'.symm)

theorem gives_demand {term w : Term} (h : Reduces book term w) {stack : List Frame}
    {engine : Engine} (hready : Ready book (.running ⟨.demand term, stack⟩, engine)) :
    Gives book (.running ⟨.demand term, stack⟩, engine) w stack [term] :=
  Gives.demand hready h fun hchase =>
    (gives_reduce book).1 term w h ⟨engine.sends, term, []⟩ stack engine rfl hchase rfl

end Machine

end SignalCalculus
