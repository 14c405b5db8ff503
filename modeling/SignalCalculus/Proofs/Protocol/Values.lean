import SignalCalculus.Proofs.Equation.Contraction
import SignalCalculus.Proofs.Wire.RoundTrip

set_option autoImplicit false

namespace SignalCalculus

def Value.ofPoints : List (Int × Int) → Value
  | [] => .nil
  | (x, y) :: points => .pair (.pair (.num x) (.num y)) (ofPoints points)

def Value.ofPictures : List (List (Int × Int)) → Value
  | [] => .nil
  | points :: pictures => .pair (.ofPoints points) (ofPictures pictures)

def Term.ofPictures : List (List (Int × Int)) → Term
  | [] => .fn .nil
  | points :: pictures => .cell (.atom (.picture points)) (ofPictures pictures)

theorem Law.points_ofPoints (points : List (Int × Int)) :
    Law.points (.ofPoints points) = .ok points := by
  induction points with
  | nil => rfl
  | cons point points ih =>
    obtain ⟨x, y⟩ := point
    rw [Value.ofPoints, Law.points, ih]
    rfl

theorem Term.eq_of_cell? {term left right : Term} (h : term.cell? = some (left, right)) :
    term = (Term.fn .cons).apply [left, right] ∨ term = (Term.fn .vec).apply [left, right] := by
  obtain hspine | hspine := Term.cell?_eq_some_iff.1 h
  · exact .inl (by rw [← term.apply_spine, hspine])
  · exact .inr (by rw [← term.apply_spine, hspine])

namespace Direct

variable {book : Book} {term x u : Term} {trips : List Trip} {pause : Pause Term}

/-- Forcing a term without a request gives the term of this value. -/
def Denotes (book : Book) (term : Term) (value : Value) : Prop :=
  Forces book term (Term.ofValue value)

theorem denotes_nil_iff : Denotes book term .nil ↔ Reduces book term (.fn .nil) := forces_atom_iff

theorem denotes_num_iff {n : Int} : Denotes book term (.num n) ↔ Reduces book term (.num n) :=
  forces_atom_iff

theorem denotes_pair_iff {left right : Value} :
    Denotes book term (.pair left right) ↔ ∃ u l r, Reduces book term u ∧ u.cell? = some (l, r) ∧
      Denotes book l left ∧ Denotes book r right := by
  rw [Denotes, forces_iff]
  constructor
  · rintro ⟨u, hu, ⟨hcell, rfl⟩ | ⟨l, r, l', r', hcell, hl, hr, hw⟩⟩
    · cases hcell
    · cases hw
      exact ⟨u, l, r, hu, hcell, hl, hr⟩
  · rintro ⟨u, l, r, hu, hcell, hl, hr⟩
    exact ⟨u, hu, .inr ⟨l, r, _, _, hcell, hl, hr, rfl⟩⟩

theorem denotes_ofValue (value : Value) : Denotes book (Term.ofValue value) value := by
  induction value with
  | nil => exact denotes_nil_iff.2 (.normal rfl)
  | num n => exact denotes_num_iff.2 (.normal rfl)
  | pair left right ihl ihr =>
    exact denotes_pair_iff.2 ⟨_, _, _, .normal rfl, rfl, ihl, ihr⟩

theorem Denotes.of_reduces {value : Value} (h : Denotes book x value) (hu : Reduces book x u) :
    Denotes book u value :=
  tells_ends_iff.1 ((hu.speakAlike_apply []).tells.1 (tells_ends_iff.2 h))

def SameValue (book : Book) (a b : Term) : Prop :=
  ∃ value, Denotes book a value ∧ Denotes book b value

theorem SameValue.rigid {a b : Term} (h : SameValue book a b) :
    ∃ u u', Reduces book a u ∧ Reduces book b u' ∧ Rigid (SameValue book) u u' := by
  obtain ⟨value, ha, hb⟩ := h
  cases value with
  | nil => exact ⟨_, _, denotes_nil_iff.1 ha, denotes_nil_iff.1 hb, .refl _⟩
  | num n => exact ⟨_, _, denotes_num_iff.1 ha, denotes_num_iff.1 hb, .refl _⟩
  | pair left right =>
    obtain ⟨u, l, r, hu, hcell, hl, hr⟩ := denotes_pair_iff.1 ha
    obtain ⟨u', l', r', hu', hcell', hl', hr'⟩ := denotes_pair_iff.1 hb
    refine ⟨u, u', hu, hu', ?_⟩
    have hleft : Interchanges (SameValue book) l l' := .contract ⟨left, hl, hl'⟩
    have hright : Interchanges (SameValue book) r r' := .contract ⟨right, hr, hr'⟩
    have hargs : List.Forall₂ (Interchanges (SameValue book)) [l, r] [l', r'] :=
      .cons hleft (.cons hright .nil)
    obtain hs | hs := Term.cell?_eq_some_iff.1 hcell <;>
      obtain hs' | hs' := Term.cell?_eq_some_iff.1 hcell'
    · exact .of_spine hs hs' (.same _) hargs
    · exact .of_spine hs hs' .cons hargs
    · exact .of_spine hs hs' .vec hargs
    · exact .of_spine hs hs' (.same _) hargs

/-- Terms that denote the same value can be had from each other, requests included. -/
theorem sameValue_respected : Respected book True (SameValue book) := by
  have hpasses : ∀ a b, SameValue book a b → Passes book True (SameValue book) a b := by
    intro a b hab fuel args trips pause _ ha
    obtain ⟨u, u', hu, hu', hrigid⟩ := hab.rigid
    refine ⟨u, u', hrigid, (within_of_reduces book).1 a u hu fuel args trips pause ha, ?_⟩
    exact fun more trips pause _ hspeaks => hu'.speaks_apply hspeaks
  rintro a b ⟨value, ha, hb⟩
  exact ⟨hpasses a b ⟨value, ha, hb⟩, hpasses b a ⟨value, hb, ha⟩⟩

theorem speakAlike_lazy {g : Fn} {operands : List Term} {result : Term}
    (h : Law.lazy? g operands = some result) :
    SpeakAlike book ((Term.fn g).apply operands) result := speakAlike_redex h []

theorem speakAlike_half {g selector : Fn} {left right half : Term}
    (hg : Law.lazy? g [x] = some (.app x (.fn selector)))
    (hselector : Law.lazy? selector [left, right] = some half) (hu : Reduces book x u)
    (hcell : u.cell? = some (left, right)) : SpeakAlike book (.app (.fn g) x) half := by
  have hselect : SpeakAlike book (.app u (.fn selector))
      ((Term.fn selector).apply [left, right]) := by
    obtain rfl | rfl := Term.eq_of_cell? hcell
    · have hcons : Law.lazy? .cons [left, right, .fn selector] =
          some ((Term.fn selector).apply [left, right]) := rfl
      exact speakAlike_lazy hcons
    · have hvec : Law.lazy? .vec [left, right, .fn selector] =
          some ((Term.fn selector).apply [left, right]) := rfl
      exact speakAlike_lazy hvec
  have hx : SpeakAlike book (.app x (.fn selector)) (.app u (.fn selector)) :=
    hu.speakAlike_apply [.fn selector]
  exact (speakAlike_lazy hg).trans (hx.trans (hselect.trans (speakAlike_lazy hselector)))

theorem Denotes.car {left right : Value} (h : Denotes book x (.pair left right)) :
    Denotes book (.app (.fn .car) x) left := by
  obtain ⟨u, l, r, hu, hcell, hl, -⟩ := denotes_pair_iff.1 h
  exact (speakAlike_half rfl rfl hu hcell).forces hl

theorem Denotes.cdr {left right : Value} (h : Denotes book x (.pair left right)) :
    Denotes book (.app (.fn .cdr) x) right := by
  obtain ⟨u, l, r, hu, hcell, -, hr⟩ := denotes_pair_iff.1 h
  exact (speakAlike_half rfl rfl hu hcell).forces hr

section Strict

variable {g : Fn} {args : List Term}

/-- A law that has exactly its operands, and comes to say that they become a term, says what that
    term says. -/
theorem speakAlike_of_becomes (g : Fn) (operands : List Term)
    (harity : g.arity? = some operands.length) {result : Term}
    (h : ∀ trips pause,
      Complies book ((Term.fn g).apply operands) g operands (Law.begin g operands) trips pause ↔
        Complies book ((Term.fn g).apply operands) g operands (.becomes result) trips pause) :
    SpeakAlike book ((Term.fn g).apply operands) result := by
  intro trips pause
  have hspine : ((Term.fn g).apply operands).spine = (.fn g, operands) := by
    rw [Term.spine_apply]
    rfl
  have hoperands : Law.operands g operands = operands := by
    rw [Law.operands, harity]
    exact List.take_length
  have hsurplus : Law.surplus g operands = [] := by
    rw [Law.surplus, harity]
    exact List.drop_length
  rw [speaks_iff, glance_of_fn hspine, harity]
  simp only [Nat.lt_irrefl, if_false, hoperands]
  rw [h, complies_iff]
  dsimp only
  rw [hsurplus]
  exact Iff.rfl

theorem complies_needs (hu : Reduces book x u) {need : Law.Need} :
    Complies book term g args (.needs need x) trips pause ↔
      Complies book term g args (Law.onTerm g (Law.operands g args) need u) trips pause := by
  rw [complies_iff]
  exact hu.chained_iff

/-- A law that forces a value part by part comes to what it makes of the value. -/
theorem complies_part {value : Value} (hx : Denotes book x value) (cells : List (Cell Term Value)) :
    Complies book term g args (.needs (.part cells) x) trips pause ↔
      Complies book term g args (Law.onPart.settle g cells value) trips pause := by
  induction value generalizing x cells with
  | nil => exact complies_needs (denotes_nil_iff.1 hx)
  | num n => exact complies_needs (denotes_num_iff.1 hx)
  | pair left right ihl ihr =>
    obtain ⟨u, l, r, hu, hcell, hl, hr⟩ := denotes_pair_iff.1 hx
    have hpart : Law.onTerm g (Law.operands g args) (.part cells) u =
        .needs (.part (.left r :: cells)) l := by
      simp only [Law.onTerm, Law.onPart, hcell]
    rw [complies_needs hu, hpart, ihl hl]
    exact ihr hr (.right left :: cells)

end Strict

theorem speakAlike_if0 {c y : Term} {n : Int} (hc : Denotes book c (.num n)) :
    SpeakAlike book ((Term.fn .if0).apply [c, x, y]) (if n = 0 then x else y) :=
  speakAlike_of_becomes .if0 [c, x, y] rfl fun _ _ => complies_needs (denotes_num_iff.1 hc)

theorem Denotes.draw {points : List (Int × Int)} (h : Denotes book x (.ofPoints points)) :
    SpeakAlike book (.app (.fn .draw) x) (.atom (.picture points)) := by
  have hsettle : Law.onPart.settle .draw [] (.ofPoints points) =
      .becomes (.atom (.picture points)) := by
    simp only [Law.onPart.settle, place, Law.onValue, Law.points_ofPoints]
  refine speakAlike_of_becomes .draw [x] rfl fun trips pause => (complies_part h []).trans ?_
  rw [hsettle]

def modulated : Value → Term
  | .num n => .atom (.number ⟨n, true⟩)
  | value => .atom (.bits (Wire.valueBits value))

theorem onTerm_mod_of_cell {operands : List Term} {left right : Term}
    (hcell : u.cell? = some (left, right)) :
    Law.onTerm .mod operands .operand u = .needs (.part []) u := by
  obtain rfl | rfl := Term.eq_of_cell? hcell <;> rfl

theorem onTerm_dem_modulated (operands : List Term) (value : Value) :
    Law.onTerm .dem operands .operand (modulated value) = .becomes (.ofValue value) := by
  have hread := Wire.demodulateChars_valueBits value
  cases value with
  | num n => rfl
  | nil | pair left right =>
    simp only [Law.onTerm, Law.onOperand, modulated, Term.spine, Term.spineOnto, hread]

theorem Denotes.mod {value : Value} (h : Denotes book x value) :
    SpeakAlike book (.app (.fn .mod) x) (modulated value) := by
  refine speakAlike_of_becomes .mod [x] rfl fun trips pause => ?_
  cases value with
  | num n => exact complies_needs (denotes_num_iff.1 h)
  | nil =>
    have hnil := denotes_nil_iff.1 h
    exact (complies_needs hnil).trans (complies_part (h.of_reduces hnil) [])
  | pair left right =>
    obtain ⟨u, l, r, hu, hcell, -, -⟩ := denotes_pair_iff.1 h
    refine (complies_needs hu).trans ?_
    rw [onTerm_mod_of_cell hcell]
    exact complies_part (h.of_reduces hu) []

theorem speakAlike_dem {value : Value} (h : Reduces book x (modulated value)) :
    SpeakAlike book (.app (.fn .dem) x) (.ofValue value) := by
  refine speakAlike_of_becomes .dem [x] rfl fun trips pause => (complies_needs h).trans ?_
  rw [onTerm_dem_modulated]

theorem Denotes.modem {value : Value} (h : Denotes book x value) :
    Denotes book (.app (.fn .modem) x) value := by
  have hmodem : Law.lazy? .modem [x] = some (.app (.fn .dem) (.app (.fn .mod) x)) := rfl
  have hmod : Reduces book (.app (.fn .mod) x) (modulated value) :=
    h.mod.reduces (.normal (by cases value <;> rfl))
  exact ((speakAlike_lazy hmodem).trans (speakAlike_dem hmod)).forces (denotes_ofValue value)

theorem Denotes.multipledraw_nil (h : Denotes book x .nil) :
    SpeakAlike book (.app (.fn .multipledraw) x) (.fn .nil) :=
  speakAlike_of_becomes .multipledraw [x] rfl fun _ _ => complies_needs (denotes_nil_iff.1 h)

theorem Denotes.multipledraw_pair {left right : Value} (h : Denotes book x (.pair left right)) :
    ∃ u, Denotes book u (.pair left right) ∧ SpeakAlike book (.app (.fn .multipledraw) x)
      (.cell (.app (.fn .draw) (.app (.fn .car) u))
        (.app (.fn .multipledraw) (.app (.fn .cdr) u))) := by
  obtain ⟨u, l, r, hu, hcell, -, -⟩ := denotes_pair_iff.1 h
  have hbecomes : Law.onTerm .multipledraw (Law.operands .multipledraw [x]) .operand u =
      .becomes (.cell (.app (.fn .draw) (.app (.fn .car) u))
        (.app (.fn .multipledraw) (.app (.fn .cdr) u))) := by
    obtain rfl | rfl := Term.eq_of_cell? hcell <;> rfl
  refine ⟨u, h.of_reduces hu, speakAlike_of_becomes .multipledraw [x] rfl fun trips pause =>
    (complies_needs hu).trans ?_⟩
  rw [hbecomes]

theorem Denotes.multipledraw {pictures : List (List (Int × Int))}
    (h : Denotes book x (.ofPictures pictures)) :
    Forces book (.app (.fn .multipledraw) x) (.ofPictures pictures) := by
  induction pictures generalizing x with
  | nil => exact h.multipledraw_nil.forces (forces_atom_iff.2 (.normal rfl))
  | cons points pictures ih =>
    obtain ⟨u, hu, hcells⟩ := h.multipledraw_pair
    have hdrawn : Forces book (.app (.fn .draw) (.app (.fn .car) u)) (.atom (.picture points)) :=
      hu.car.draw.forces (forces_atom_iff.2 (.normal rfl))
    exact hcells.forces (forces_cell hdrawn (ih hu.cdr))

end Direct

end SignalCalculus
