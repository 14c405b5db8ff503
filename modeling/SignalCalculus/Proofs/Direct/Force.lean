import SignalCalculus.Proofs.Direct.Spine

set_option autoImplicit false

namespace SignalCalculus.Direct

variable {book : Book} {term w : Term}

def forceHalves (book : Book) (fuel : Nat) (w : Term) : Dialogue Term :=
  match w.cell? with
  | none => .done w
  | some (left, right) =>
    (force book fuel left).bind fun l => (force book fuel right).bind fun r => .done (Term.cell l r)

theorem force_succ (book : Book) (fuel : Nat) (term : Term) :
    force book (fuel + 1) term = (reduce book fuel term).bind (forceHalves book fuel) := rfl

theorem forceHalves_cut {fuel fuel' : Nat} (w : Term)
    (h : ∀ term, (force book fuel term).IsCut (force book fuel' term)) :
    (forceHalves book fuel w).IsCut (forceHalves book fuel' w) := by
  unfold forceHalves
  cases w.cell? with
  | none => exact .refl _
  | some halves => exact .bind (h _) fun l => .bind (h _) fun r => .refl _

theorem force_cut {fuel fuel' : Nat} (term : Term) (hle : fuel ≤ fuel') :
    (force book fuel term).IsCut (force book fuel' term) := by
  induction fuel generalizing fuel' term with
  | zero => exact .unfinished _
  | succ fuel ih =>
    obtain ⟨more, rfl⟩ : ∃ more, fuel' = more + 1 := ⟨fuel' - 1, by omega⟩
    have hle' : fuel ≤ more := by omega
    rw [force_succ, force_succ]
    exact .bind (reduce_cut term hle') fun w => forceHalves_cut w fun term => ih term hle'

/-- The forcing of a term pauses here, after these requests and replies. -/
def Tells (book : Book) (term : Term) (trips : List Trip) (pause : Pause Term) : Prop :=
  ∃ fuel, (force book fuel term).Reaches trips pause

def TellsHalves (book : Book) (w : Term) (trips : List Trip) (pause : Pause Term) : Prop :=
  match w.cell? with
  | none => trips = [] ∧ pause = .ends w
  | some (left, right) =>
    Chained (Tells book left)
      (fun l => Chained (Tells book right) fun r trips pause =>
        trips = [] ∧ pause = .ends (Term.cell l r))
      trips pause

theorem tellsHalves_iff {trips : List Trip} {pause : Pause Term} :
    TellsHalves book w trips pause ↔ ∃ fuel, (forceHalves book fuel w).Reaches trips pause := by
  unfold TellsHalves forceHalves
  cases w.cell? with
  | none => simp only [Dialogue.reaches_done, exists_const]
  | some halves =>
    obtain ⟨left, right⟩ := halves
    have hright : ∀ l trips pause,
        (∃ fuel, ((force book fuel right).bind fun r => .done (Term.cell l r)).Reaches trips pause) ↔
          Chained (Tells book right)
            (fun r trips pause => trips = [] ∧ pause = .ends (Term.cell l r)) trips pause := by
      intro l trips pause
      rw [Dialogue.exists_reaches_bind (force_cut right) fun r _ => .refl _]
      simp only [Dialogue.reaches_done, exists_const]
      exact Iff.rfl
    dsimp only
    rw [Dialogue.exists_reaches_bind (force_cut left)
      fun l hle => .bind (force_cut right hle) fun r => .refl _]
    simp only [hright]
    exact Iff.rfl

theorem tells_iff {trips : List Trip} {pause : Pause Term} :
    Tells book term trips pause ↔ Chained (Speaks book term) (TellsHalves book) trips pause := by
  have hsucc : Tells book term trips pause ↔
      ∃ fuel, (force book (fuel + 1) term).Reaches trips pause :=
    ⟨fun ⟨fuel, h⟩ => ⟨fuel, (force_cut term (Nat.le_succ fuel)).within _ _ h⟩,
      fun ⟨fuel, h⟩ => ⟨_, h⟩⟩
  rw [hsucc]
  simp only [force_succ]
  rw [Dialogue.exists_reaches_bind (reduce_cut term)
    fun w hle => forceHalves_cut w fun term => force_cut term hle]
  simp only [← tellsHalves_iff]
  exact Iff.rfl

/-- Forcing follows the weak head normal form: the halves of a cell are forced in turn. The halves
    are forced with less fuel than the term. -/
theorem force_succ_iff {fuel : Nat} :
    force book (fuel + 1) term = .done w ↔ ∃ u, reduce book fuel term = .done u ∧
      ((u.cell? = none ∧ w = u) ∨ ∃ left right l r, u.cell? = some (left, right) ∧
        force book fuel left = .done l ∧ force book fuel right = .done r ∧ w = Term.cell l r) := by
  rw [force, Dialogue.bind_eq_done]
  constructor
  · rintro ⟨u, hu, hw⟩
    refine ⟨u, hu, ?_⟩
    cases hcell : u.cell? with
    | none =>
      rw [hcell] at hw
      cases hw
      exact .inl ⟨rfl, rfl⟩
    | some halves =>
      rw [hcell] at hw
      obtain ⟨l, hl, hw⟩ := Dialogue.bind_eq_done.1 hw
      obtain ⟨r, hr, hw⟩ := Dialogue.bind_eq_done.1 hw
      cases hw
      exact .inr ⟨_, _, l, r, rfl, hl, hr, rfl⟩
  · rintro ⟨u, hu, ⟨hcell, rfl⟩ | ⟨left, right, l, r, hcell, hl, hr, rfl⟩⟩
    · exact ⟨w, hu, by rw [hcell]⟩
    · refine ⟨u, hu, ?_⟩
      rw [hcell]
      exact Dialogue.bind_eq_done.2 ⟨l, hl, Dialogue.bind_eq_done.2 ⟨r, hr, rfl⟩⟩

/-- A term has a forced form that is found without a request. -/
def Forces (book : Book) (term w : Term) : Prop := ∃ fuel, force book fuel term = .done w

theorem SpeakAlike.tells {a b : Term} (h : SpeakAlike book a b) {trips : List Trip}
    {pause : Pause Term} : Tells book a trips pause ↔ Tells book b trips pause := by
  have hsame : Speaks book a = Speaks book b :=
    funext fun trips => funext fun pause => propext (h trips pause)
  rw [tells_iff, tells_iff, hsame]

theorem tells_ends_iff : Tells book term [] (.ends w) ↔ Forces book term w :=
  exists_congr fun _ => Dialogue.reaches_ends_iff

theorem forces_iff :
    Forces book term w ↔ ∃ u, Reduces book term u ∧
      ((u.cell? = none ∧ w = u) ∨ ∃ left right l r, u.cell? = some (left, right) ∧
        Forces book left l ∧ Forces book right r ∧ w = Term.cell l r) := by
  rw [← tells_ends_iff, tells_iff, chained_silent]
  refine exists_congr fun u => and_congr speaks_ends_iff ?_
  unfold TellsHalves
  cases u.cell? with
  | none => simp
  | some halves =>
    obtain ⟨left, right⟩ := halves
    simp only [chained_silent, tells_ends_iff]
    constructor
    · rintro ⟨l, hl, r, hr, -, hw⟩
      cases hw
      exact .inr ⟨left, right, l, r, rfl, hl, hr, rfl⟩
    · rintro (⟨hcell, -⟩ | ⟨left', right', l, r, hcell, hl, hr, rfl⟩)
      · cases hcell
      · cases hcell
        exact ⟨l, hl, r, hr, trivial, rfl⟩

theorem forces_atom_iff {symbol : Symbol} :
    Forces book term (.atom symbol) ↔ Reduces book term (.atom symbol) := by
  rw [forces_iff]
  constructor
  · rintro ⟨u, hu, ⟨-, rfl⟩ | ⟨left, right, l, r, -, -, -, hw⟩⟩
    · exact hu
    · cases hw
  · intro h
    exact ⟨_, h, .inl ⟨rfl, rfl⟩⟩

theorem forces_cell {left right l r : Term} (hl : Forces book left l) (hr : Forces book right r) :
    Forces book (.cell left right) (.cell l r) :=
  forces_iff.2 ⟨_, .normal rfl, .inr ⟨left, right, l, r, rfl, hl, hr, rfl⟩⟩

theorem SpeakAlike.forces {a b : Term} (h : SpeakAlike book a b) (hb : Forces book b w) :
    Forces book a w :=
  tells_ends_iff.1 (h.tells.2 (tells_ends_iff.2 hb))

end SignalCalculus.Direct
