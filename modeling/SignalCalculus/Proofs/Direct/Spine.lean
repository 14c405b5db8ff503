import SignalCalculus.Proofs.Direct.Reduce

set_option autoImplicit false

namespace SignalCalculus

namespace Term

theorem apply_append (term : Term) (first second : List Term) :
    term.apply (first ++ second) = (term.apply first).apply second := List.foldl_append

theorem spineOnto_apply (term : Term) (args more : List Term) :
    (term.apply args).spineOnto more = term.spineOnto (args ++ more) := by
  induction args generalizing term with
  | nil => rfl
  | cons arg args ih => exact ih (.app term arg)

theorem spineOnto_eq (term : Term) (args : List Term) :
    term.spineOnto args = (term.spine.1, term.spine.2 ++ args) := by
  induction term generalizing args with
  | atom symbol => rfl
  | app f arg ihf iharg =>
    change f.spineOnto (arg :: args) = ((f.spineOnto [arg]).1, (f.spineOnto [arg]).2 ++ args)
    rw [ihf (arg :: args), ihf [arg], List.append_assoc]
    rfl

@[simp] theorem spine_apply (term : Term) (args : List Term) :
    (term.apply args).spine = (term.spine.1, term.spine.2 ++ args) := by
  rw [spine, spineOnto_apply, List.append_nil, spineOnto_eq]

theorem apply_spine (term : Term) : (atom term.spine.1).apply term.spine.2 = term := by
  induction term with
  | atom symbol => rfl
  | app f arg ihf iharg =>
    have hspine : (app f arg).spine = (f.spine.1, f.spine.2 ++ [arg]) := spineOnto_eq f [arg]
    rw [hspine, apply_append, ihf]
    rfl

theorem cell?_eq_some_iff {term left right : Term} :
    term.cell? = some (left, right) ↔
      term.spine = (.fn .cons, [left, right]) ∨ term.spine = (.fn .vec, [left, right]) := by
  constructor
  · intro h
    unfold cell? at h
    split at h
    · cases h
      exact .inl rfl
    · cases h
      exact .inr rfl
    · cases h
  · rintro (h | h)
    · have hterm := term.apply_spine
      rw [h] at hterm
      rw [← hterm]
      rfl
    · have hterm := term.apply_spine
      rw [h] at hterm
      rw [← hterm]
      rfl

end Term

namespace Law

theorem arity_of_lazy? {g : Fn} {operands : List Term} {result : Term}
    (h : lazy? g operands = some result) : g.arity? = some operands.length := by
  unfold lazy? at h
  split at h <;> first | rfl | cases h

theorem operands_append {g : Fn} {args : List Term} (h : g.arity?.getD 0 ≤ args.length)
    (more : List Term) : operands g (args ++ more) = operands g args :=
  List.take_append_of_le_length h

theorem surplus_append {g : Fn} {args : List Term} (h : g.arity?.getD 0 ≤ args.length)
    (more : List Term) : surplus g (args ++ more) = surplus g args ++ more :=
  List.drop_append_of_le_length h

end Law

theorem glance_of_fn {book : Book} {term : Term} {g : Fn} {args : List Term}
    (h : term.spine = (.fn g, args)) :
    glance book term =
      match g.arity? with
      | none => .fails (.lawless g)
      | some arity => if args.length < arity then .normal else .fires g args := by
  cases hg : g.arity? with
  | none => cases args <;> simp only [glance, h, hg]
  | some arity => cases args <;> simp only [glance, h, hg]

theorem glance_of_var {book : Book} {term : Term} {id : Int} {args : List Term}
    (h : term.spine = (.var id, args)) :
    glance book term =
      match book.resolve id with
      | none => .normal
      | some bound => .unfolds bound args := by
  cases hid : book.resolve id with
  | none => simp only [glance, h, hid]
  | some bound => simp only [glance, h, hid]

theorem glance_apply (book : Book) (term : Term) (more : List Term) :
    match glance book term with
    | .normal => True
    | .fails _ => ∃ fault, glance book (term.apply more) = .fails fault
    | .unfolds bound args => glance book (term.apply more) = .unfolds bound (args ++ more)
    | .fires g args =>
      glance book (term.apply more) = .fires g (args ++ more) ∧ g.arity?.getD 0 ≤ args.length := by
  have hmore := Term.spine_apply term more
  obtain ⟨head, args, hspine⟩ : ∃ head args, term.spine = (head, args) := ⟨_, _, rfl⟩
  rw [hspine] at hmore
  cases head with
  | var id =>
    rw [glance_of_var hspine, glance_of_var hmore]
    cases book.resolve id with
    | none => trivial
    | some bound => rfl
  | fn g =>
    rw [glance_of_fn hspine, glance_of_fn hmore]
    cases hg : g.arity? with
    | none => exact ⟨_, rfl⟩
    | some arity =>
      by_cases hlen : args.length < arity
      · simp only [if_pos hlen]
      · have hlen' : ¬(args ++ more).length < arity := by
          rw [List.length_append]
          omega
        simp only [if_neg hlen, if_neg hlen', hg, Option.getD_some]
        exact ⟨trivial, Nat.le_of_not_lt hlen⟩
  | number n | bits text | picture points =>
    unfold glance
    rw [hspine, hmore]
    cases args with
    | nil => trivial
    | cons arg args => exact ⟨_, rfl⟩
  | mark m =>
    unfold glance
    rw [hspine, hmore]
    cases args <;> exact ⟨.build (.unexpectedMark m), by cases more <;> rfl⟩

namespace Direct

/-- A reduction of a term that is applied to arguments reduces the term first, and a law says about
    it what it says about the term alone. -/
theorem done_of_apply (book : Book) (fuel : Nat) :
    (∀ term more w, reduce book fuel (term.apply more) = .done w →
      ∃ v, reduce book fuel term = .done v ∧ reduce book fuel (v.apply more) = .done w) ∧
    ∀ term g args more verdict w, g.arity?.getD 0 ≤ args.length →
      obey book fuel (term.apply more) g (args ++ more) verdict = .done w →
      ∃ v, obey book fuel term g args verdict = .done v ∧
        (v = term ∨ reduce book fuel (v.apply more) = .done w) := by
  induction fuel with
  | zero =>
    constructor
    · intro term more w h
      simp [reduce] at h
    · intro term g args more verdict w _ h
      simp [obey] at h
  | succ fuel ih =>
    obtain ⟨ihr, iho⟩ := ih
    constructor
    · intro term more w h
      have hmore := glance_apply book term more
      have hfull := h
      rw [reduce_succ] at h
      rw [reduce_succ book fuel term]
      cases hg : glance book term with
      | normal => exact ⟨term, rfl, hfull⟩
      | fails fault =>
        rw [hg] at hmore
        obtain ⟨fault', hmore⟩ := hmore
        rw [hmore] at h
        cases h
      | unfolds bound args =>
        rw [hg] at hmore
        rw [hmore] at h
        obtain ⟨u, hu, hw⟩ := Dialogue.bind_eq_done.1 h
        rw [Term.apply_append] at hw
        obtain ⟨v, hv, hw⟩ := ihr _ _ _ hw
        exact ⟨v, Dialogue.bind_eq_done.2 ⟨u, hu, hv⟩, reduce_mono (Nat.le_succ fuel) hw⟩
      | fires g args =>
        rw [hg] at hmore
        obtain ⟨hmore, hlen⟩ := hmore
        rw [hmore] at h
        dsimp only at h
        rw [Law.operands_append hlen] at h
        -- If the law is held up, the redex is its own weak head normal form.
        obtain ⟨v, hv, rfl | hw⟩ := iho _ _ _ _ _ _ hlen h
        · exact ⟨v, hv, hfull⟩
        · exact ⟨v, hv, reduce_mono (Nat.le_succ fuel) hw⟩
    · intro term g args more verdict w hlen h
      cases verdict with
      | becomes result =>
        change reduce book fuel (result.apply (Law.surplus g (args ++ more))) = .done w at h
        rw [Law.surplus_append hlen, Term.apply_append] at h
        obtain ⟨v, hv, hw⟩ := ihr _ _ _ h
        exact ⟨v, hv, .inr (reduce_mono (Nat.le_succ fuel) hw)⟩
      | stuck => exact ⟨term, rfl, .inl rfl⟩
      | fails fault => cases h
      | needs need wanted =>
        obtain ⟨u, hu, hw⟩ := Dialogue.bind_eq_done.1 h
        rw [Law.operands_append hlen] at hw
        obtain ⟨v, hv, hw⟩ := iho _ _ _ _ _ _ hlen hw
        refine ⟨v, Dialogue.bind_eq_done.2 ⟨u, hu, hv⟩, ?_⟩
        exact hw.imp_right fun hw => reduce_mono (Nat.le_succ fuel) hw
      | sends bits => cases h

/-- What a term applied to arguments says is, with no more fuel, what its weak head normal form says
    that was found without a request. -/
theorem within_of_reduces (book : Book) :
    (∀ term v, Reduces book term v → ∀ fuel more,
      (reduce book fuel (term.apply more)).Within (reduce book fuel (v.apply more))) ∧
    ∀ term g args verdict v, Obeys book term g args verdict v → g.arity?.getD 0 ≤ args.length →
      v = term ∨ ∀ fuel more, (obey book fuel (term.apply more) g (args ++ more) verdict).Within
        (reduce book fuel (v.apply more)) := by
  apply reduces_induction
  case normal => exact fun term _ fuel more => .refl _
  case unfold =>
    intro term bound args u v hg hu _ _ ih fuel more trips pause h
    have hmore := glance_apply book term more
    rw [hg] at hmore
    cases fuel with
    | zero => exact absurd h Dialogue.not_reaches_unfinished
    | succ fuel =>
      rw [reduce_succ, hmore] at h
      have hnext := hu.of_reaches_bind h
      rw [Term.apply_append] at hnext
      exact reduce_within _ (Nat.le_succ fuel) _ _ (ih fuel more _ _ hnext)
  case fire =>
    intro term g args v hg _ ih fuel more
    have hmore := glance_apply book term more
    rw [hg] at hmore
    obtain ⟨hmore, hlen⟩ := hmore
    obtain rfl | ih := ih hlen
    · exact .refl _
    · cases fuel with
      | zero => exact fun _ _ h => absurd h Dialogue.not_reaches_unfinished
      | succ fuel =>
        rw [reduce_succ, hmore]
        dsimp only
        rw [Law.operands_append hlen]
        exact (ih fuel more).trans (reduce_within _ (Nat.le_succ fuel))
  case becomes =>
    intro term g args result v _ ih hlen
    refine .inr fun fuel more => ?_
    cases fuel with
    | zero => exact fun _ _ h => absurd h Dialogue.not_reaches_unfinished
    | succ fuel =>
      rw [obey, Law.surplus_append hlen, Term.apply_append]
      exact (ih fuel more).trans (reduce_within _ (Nat.le_succ fuel))
  case stuck => exact fun term g args _ => .inl rfl
  case needs =>
    intro term g args need wanted u v hu _ _ ih hlen
    refine (ih hlen).imp_right fun ih fuel more trips pause h => ?_
    cases fuel with
    | zero => exact absurd h Dialogue.not_reaches_unfinished
    | succ fuel =>
      rw [obey] at h
      have hnext := hu.of_reaches_bind h
      rw [Law.operands_append hlen] at hnext
      exact reduce_within _ (Nat.le_succ fuel) _ _ (ih fuel more _ _ hnext)

theorem speaks_of_reduces (book : Book) :
    (∀ term v, Reduces book term v → ∀ more trips pause, Speaks book (v.apply more) trips pause →
      Speaks book (term.apply more) trips pause) ∧
    ∀ term g args verdict v, Obeys book term g args verdict v → g.arity?.getD 0 ≤ args.length →
      ∀ more trips pause, Speaks book (v.apply more) trips pause →
        v = term ∨ Complies book (term.apply more) g (args ++ more) verdict trips pause := by
  apply reduces_induction
  case normal => exact fun term _ more trips pause h => h
  case unfold =>
    intro term bound args u v hg hu _ _ ih more trips pause h
    have hmore := glance_apply book term more
    rw [hg] at hmore
    rw [speaks_iff, hmore]
    refine hu.chained_iff.2 ?_
    rw [Term.apply_append]
    exact ih more trips pause h
  case fire =>
    intro term g args v hg _ ih more trips pause h
    have hmore := glance_apply book term more
    rw [hg] at hmore
    obtain ⟨hmore, hlen⟩ := hmore
    obtain rfl | hcomplies := ih hlen more trips pause h
    · exact h
    · rw [speaks_iff, hmore]
      dsimp only
      rw [Law.operands_append hlen]
      exact hcomplies
  case becomes =>
    intro term g args result v _ ih hlen more trips pause h
    refine .inr (complies_iff.2 ?_)
    dsimp only
    rw [Law.surplus_append hlen, Term.apply_append]
    exact ih more trips pause h
  case stuck => exact fun term g args _ more trips pause _ => .inl rfl
  case needs =>
    intro term g args need wanted u v hu _ _ ih hlen more trips pause h
    refine (ih hlen more trips pause h).imp_right fun hcomplies => complies_iff.2 ?_
    refine hu.chained_iff.2 ?_
    rw [Law.operands_append hlen]
    exact hcomplies

theorem Reduces.speaks_apply {book : Book} {term v : Term} (h : Reduces book term v)
    {more : List Term} {trips : List Trip} {pause : Pause Term}
    (hv : Speaks book (v.apply more) trips pause) : Speaks book (term.apply more) trips pause :=
  (speaks_of_reduces book).1 term v h more trips pause hv

/-- Two terms say the same: their reductions pause at the same places. -/
def SpeakAlike (book : Book) (a b : Term) : Prop :=
  ∀ trips pause, Speaks book a trips pause ↔ Speaks book b trips pause

theorem SpeakAlike.trans {book : Book} {a b c : Term} (h : SpeakAlike book a b)
    (h' : SpeakAlike book b c) : SpeakAlike book a c :=
  fun trips pause => (h trips pause).trans (h' trips pause)

theorem SpeakAlike.reduces {book : Book} {a b w : Term} (h : SpeakAlike book a b)
    (hb : Reduces book b w) : Reduces book a w :=
  speaks_ends_iff.1 ((h _ _).2 (speaks_ends_iff.2 hb))

theorem Reduces.speakAlike_apply {book : Book} {term v : Term} (h : Reduces book term v)
    (more : List Term) : SpeakAlike book (term.apply more) (v.apply more) := by
  refine fun trips pause => ⟨?_, h.speaks_apply⟩
  rintro ⟨fuel, hterm⟩
  exact ⟨fuel, (within_of_reduces book).1 term v h fuel more trips pause hterm⟩

theorem reduces_apply_iff {book : Book} {term w : Term} {more : List Term} :
    Reduces book (term.apply more) w ↔
      ∃ v, Reduces book term v ∧ Reduces book (v.apply more) w := by
  constructor
  · rintro ⟨fuel, h⟩
    obtain ⟨v, hv, hw⟩ := (done_of_apply book fuel).1 term more w h
    exact ⟨v, ⟨fuel, hv⟩, ⟨fuel, hw⟩⟩
  · rintro ⟨v, hv, hw⟩
    exact speaks_ends_iff.1 (hv.speaks_apply (speaks_ends_iff.2 hw))

end Direct

end SignalCalculus
