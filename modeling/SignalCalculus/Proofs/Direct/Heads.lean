import Mathlib.Order.Lattice.Nat
import SignalCalculus.Proofs.Direct.Spine

set_option autoImplicit false

namespace SignalCalculus

variable {book : Book} {term bound : Term} {args : List Term}

/-- The head of a term is no bound variable, and looking at it does not fail. -/
inductive Settled (book : Book) (term : Term) : Prop
  | rests (sees : glance book term = .normal)
  | fires {g : Fn} {args : List Term} (sees : glance book term = .fires g args)

theorem glance_eq_unfolds (h : glance book term = .unfolds bound args) :
    ∃ id, term.spine = (.var id, args) ∧ book.resolve id = some bound := by
  unfold glance at h
  split at h
  · rename_i id args' hspine
    cases hid : book.resolve id with
    | none =>
      rw [hid] at h
      cases h
    | some term' =>
      rw [hid] at h
      cases h
      exact ⟨id, hspine, hid⟩
  all_goals try cases h
  split at h
  · cases h
  · split at h <;> cases h

theorem Settled.not_unfolds (h : Settled book term) :
    glance book term ≠ .unfolds bound args := by
  intro hglance
  cases h with
  | rests sees =>
    rw [sees] at hglance
    cases hglance
  | fires sees =>
    rw [sees] at hglance
    cases hglance

theorem Settled.apply_not_unfolds (h : Settled book term) (more : List Term) :
    glance book (term.apply more) ≠ .unfolds bound args := by
  intro hglance
  obtain ⟨id, hspine, hid⟩ := glance_eq_unfolds hglance
  rw [Term.spine_apply] at hspine
  have hhead : term.spine = (.var id, term.spine.2) := Prod.ext (Prod.mk.inj hspine).1 rfl
  have hself : glance book term = _ := glance_of_var hhead
  rw [hid] at hself
  exact h.not_unfolds hself

theorem Settled.head_ne_mark (h : Settled book term) (m : Mark) : term.spine.1 ≠ .mark m := by
  intro hmark
  obtain ⟨args, hspine⟩ : ∃ args, term.spine = (.mark m, args) := ⟨term.spine.2, by rw [← hmark]⟩
  have hfails : glance book term = .fails (.build (.unexpectedMark m)) := by
    unfold glance
    rw [hspine]
  cases h with
  | rests sees =>
    rw [hfails] at sees
    cases sees
  | fires sees =>
    rw [hfails] at sees
    cases sees

namespace Direct

theorem settled_of_reaches (book : Book) (fuel : Nat) :
    (∀ term trips u, (reduce book fuel term).Reaches trips (.ends u) → Settled book u) ∧
    ∀ term g args verdict trips u, Settled book term →
      (obey book fuel term g args verdict).Reaches trips (.ends u) → Settled book u := by
  induction fuel with
  | zero =>
    constructor
    · intro term trips u h
      exact absurd h Dialogue.not_reaches_unfinished
    · intro term g args verdict trips u _ h
      exact absurd h Dialogue.not_reaches_unfinished
  | succ fuel ih =>
    obtain ⟨ihr, iho⟩ := ih
    constructor
    · intro term trips u h
      rw [reduce_succ] at h
      cases hglance : glance book term with
      | normal =>
        rw [hglance] at h
        cases h
        exact .rests hglance
      | fails fault =>
        rw [hglance] at h
        exact absurd h Dialogue.not_reaches_failed
      | unfolds bound args =>
        rw [hglance] at h
        obtain ⟨bits, hpause, -⟩ | ⟨_, after, v, -, -, hnext⟩ := Dialogue.reaches_bind.1 h
        · cases hpause
        · exact ihr _ after u hnext
      | fires g args =>
        rw [hglance] at h
        exact iho term g args _ trips u (.fires hglance) h
    · intro term g args verdict trips u hterm h
      cases verdict with
      | becomes result => exact ihr _ trips u h
      | stuck =>
        -- A law that is held up leaves the redex, and its head is the function of the law.
        cases h
        exact hterm
      | fails fault => exact absurd h Dialogue.not_reaches_failed
      | needs need wanted =>
        obtain ⟨bits, hpause, -⟩ | ⟨_, after, v, -, -, hnext⟩ := Dialogue.reaches_bind.1 h
        · cases hpause
        · exact iho term g args _ after u hterm hnext
      | sends bits =>
        obtain ⟨-, hpause⟩ | ⟨reply, rest, -, hnext⟩ := Dialogue.reaches_ask.1 h
        · cases hpause
        · exact iho term .send args _ rest u hterm hnext

theorem Speaks.settled {trips : List Trip} {u : Term} (h : Speaks book term trips (.ends u)) :
    Settled book u := by
  obtain ⟨fuel, h⟩ := h
  exact (settled_of_reaches book fuel).1 term trips u h

theorem Reduces.settled {w : Term} (h : Reduces book term w) : Settled book w :=
  (speaks_ends_iff.2 h).settled

end Direct

def LooksUp (book : Book) : Nat → Term → Prop
  | 0, _ => True
  | n + 1, term => ∃ bound args, glance book term = .unfolds bound args ∧ LooksUp book n bound

/-- The look-ups at the head of a term go on without end. -/
def Endless (book : Book) (term : Term) : Prop := ∀ n, LooksUp book n term

theorem looksUp_succ_iff {n : Nat} (h : glance book term = .unfolds bound args) :
    LooksUp book (n + 1) term ↔ LooksUp book n bound := by
  constructor
  · rintro ⟨bound', args', hglance, hbound⟩
    rw [h] at hglance
    cases hglance
    exact hbound
  · intro hbound
    exact ⟨bound, args, h, hbound⟩

theorem endless_iff (h : glance book term = .unfolds bound args) :
    Endless book term ↔ Endless book bound := by
  constructor
  · intro hterm n
    exact (looksUp_succ_iff h).1 (hterm (n + 1))
  · intro hbound n
    cases n with
    | zero => trivial
    | succ n => exact (looksUp_succ_iff h).2 (hbound n)

theorem Endless.unfolds (h : Endless book term) :
    ∃ bound args, glance book term = .unfolds bound args ∧ Endless book bound := by
  obtain ⟨bound, args, hglance, -⟩ := h 1
  exact ⟨bound, args, hglance, (endless_iff hglance).1 h⟩

theorem Direct.Reduces.not_endless {w : Term} (h : Reduces book term w) : ¬Endless book term := by
  have hends : (∀ term w, Reduces book term w → ¬Endless book term) ∧
      ∀ term g args verdict w, Obeys book term g args verdict w → True := by
    apply reduces_induction
    case normal =>
      intro term hglance hendless
      obtain ⟨bound, args, hunfolds, -⟩ := hendless.unfolds
      rw [hglance] at hunfolds
      cases hunfolds
    case unfold =>
      intro term bound args v w hglance _ ih _ _ hendless
      exact ih ((endless_iff hglance).1 hendless)
    case fire =>
      intro term g args w hglance _ _ hendless
      obtain ⟨bound, args, hunfolds, -⟩ := hendless.unfolds
      rw [hglance] at hunfolds
      cases hunfolds
    all_goals intros; trivial
  exact hends.1 term w h

/-- How often the head of a term is looked up, if that comes to an end. -/
noncomputable def lookUps (book : Book) (term : Term) : Nat :=
  sInf {n | ¬LooksUp book (n + 1) term}

theorem lookUps_eq_zero (h : ∀ bound args, glance book term ≠ .unfolds bound args) :
    lookUps book term = 0 := by
  refine Nat.le_zero.1 (Nat.sInf_le ?_)
  rintro ⟨bound, args, hglance, -⟩
  exact h bound args hglance

theorem lookUps_lt (h : glance book term = .unfolds bound args) (hends : ¬Endless book bound) :
    lookUps book bound < lookUps book term := by
  have hnonempty : {n | ¬LooksUp book (n + 1) term}.Nonempty := by
    obtain ⟨n, hn⟩ := not_forall.1 hends
    exact ⟨n, fun hterm => hn ((looksUp_succ_iff h).1 hterm)⟩
  have hleast := Nat.sInf_mem hnonempty
  change ¬LooksUp book (lookUps book term + 1) term at hleast
  rw [looksUp_succ_iff h] at hleast
  cases hcount : lookUps book term with
  | zero =>
    rw [hcount] at hleast
    exact absurd trivial hleast
  | succ n =>
    rw [hcount] at hleast
    exact Nat.lt_succ_of_le (Nat.sInf_le hleast)

end SignalCalculus
