import SignalCalculus.Proofs.Equation.Simulation

set_option autoImplicit false

namespace SignalCalculus

open Direct (reduce obey Reduces SpeakAlike)

variable {book : Book}

namespace Law

variable {g : Fn} {operands : List Term} {result : Term}

theorem operands_redex (h : lazy? g operands = some result) (more : List Term) :
    Law.operands g (operands ++ more) = operands := by
  rw [Law.operands, arity_of_lazy? h]
  exact List.take_left

theorem surplus_redex (h : lazy? g operands = some result) (more : List Term) :
    Law.surplus g (operands ++ more) = more := by
  rw [Law.surplus, arity_of_lazy? h]
  exact List.drop_left

theorem begin_redex (h : lazy? g operands = some result) : begin g operands = .becomes result := by
  simp only [begin, h]

theorem glance_redex (h : lazy? g operands = some result) (more : List Term) :
    glance book (((Term.fn g).apply operands).apply more) = .fires g (operands ++ more) := by
  have hspine : (((Term.fn g).apply operands).apply more).spine = (.fn g, operands ++ more) := by
    rw [Term.spine_apply, Term.spine_apply]
    rfl
  rw [glance_of_fn hspine, arity_of_lazy? h]
  have hlen : ¬(operands ++ more).length < operands.length := by
    rw [List.length_append]
    omega
  simp only [if_neg hlen]

end Law

theorem Direct.speakAlike_redex {g : Fn} {operands : List Term} {result : Term}
    (h : Law.lazy? g operands = some result) (more : List Term) :
    SpeakAlike book (((Term.fn g).apply operands).apply more) (result.apply more) := by
  intro trips pause
  rw [Direct.speaks_iff, Law.glance_redex h]
  dsimp only
  rw [Law.operands_redex h, Law.begin_redex h, Direct.complies_iff]
  dsimp only
  rw [Law.surplus_redex h]

/-- A redex that has been reduced might as well have been replaced: what its reduction went on with
    can be had from the term that it contracts to. -/
theorem Contracts.of_redex {a b w : Term} (h : Contracts book a b) {fuel : Nat} {args : List Term}
    (hw : reduce book fuel (a.apply args) = .done w) :
    ∃ u : Term, reduce book fuel (u.apply args) = .done w ∧
      ∀ more w', Reduces book (u.apply more) w' → Reduces book (b.apply more) w' := by
  cases fuel with
  | zero => simp [reduce] at hw
  | succ fuel =>
    rw [Direct.reduce_succ] at hw
    cases h with
    | @law g operands _ h =>
      rw [Law.glance_redex h] at hw
      dsimp only at hw
      rw [Law.operands_redex h, Law.begin_redex h] at hw
      cases fuel with
      | zero => simp [obey] at hw
      | succ fuel =>
        change reduce book fuel (b.apply (Law.surplus g (operands ++ args))) = .done w at hw
        rw [Law.surplus_redex h] at hw
        exact ⟨b, Direct.reduce_mono (by omega) hw, fun more w' hw' => hw'⟩
    | @definition id _ h =>
      have hspine : ((Term.atom (.var id)).apply args).spine = (.var id, args) := by
        rw [Term.spine_apply]
        rfl
      rw [glance_of_var hspine, h] at hw
      obtain ⟨v, hv, hw⟩ := Dialogue.bind_eq_done.1 hw
      refine ⟨v, Direct.reduce_mono (Nat.le_succ fuel) hw, fun more w' hw' => ?_⟩
      exact Direct.reduces_apply_iff.2 ⟨v, ⟨fuel, hv⟩, hw'⟩

theorem Contracts.of_contractum {a b w : Term} (h : Contracts book a b) {fuel : Nat}
    {args : List Term} (hw : reduce book fuel (b.apply args) = .done w) :
    ∃ u : Term, reduce book fuel (u.apply args) = .done w ∧
      ∀ more w', Reduces book (u.apply more) w' → Reduces book (a.apply more) w' := by
  cases h with
  | @law g operands _ h =>
    refine ⟨b, hw, fun more w' hw' => ?_⟩
    exact (Direct.speakAlike_redex h more).reduces hw'
  | @definition id _ h =>
    obtain ⟨v, hv, hw⟩ := (Direct.done_of_apply book fuel).1 b args w hw
    refine ⟨v, hw, fun more w' hw' => ?_⟩
    have hspine : ((Term.atom (.var id)).apply more).spine = (.var id, more) := by
      rw [Term.spine_apply]
      rfl
    have hglance : glance book ((Term.atom (.var id)).apply more) = .unfolds b more := by
      rw [glance_of_var hspine, h]
    exact .unfold hglance ⟨fuel, hv⟩ hw'

theorem Passes.silently {base : Term → Term → Prop} {a b : Term}
    (h : ∀ {fuel args w}, reduce book fuel (a.apply args) = .done w →
      ∃ u : Term, reduce book fuel (u.apply args) = .done w ∧
        ∀ more w', Reduces book (u.apply more) w' → Reduces book (b.apply more) w') :
    Passes book False base a b := by
  intro fuel args trips pause hallowed ha
  obtain ⟨rfl, w, rfl⟩ := hallowed.resolve_left id
  obtain ⟨u, hu, hback⟩ := h (Dialogue.reaches_ends_iff.1 ha)
  refine ⟨u, u, .refl u, Dialogue.reaches_ends_iff.2 hu, ?_⟩
  intro more trips pause hallowed hw'
  obtain ⟨rfl, w', rfl⟩ := hallowed.resolve_left id
  exact Direct.speaks_ends_iff.2 (hback more w' (Direct.speaks_ends_iff.1 hw'))

theorem contracts_respected : Respected book False (Contracts book) :=
  fun _ _ h => ⟨.silently h.of_redex, .silently h.of_contractum⟩

end SignalCalculus
