import SignalCalculus.Proofs.Protocol.Delivery
import SignalCalculus.Proofs.Protocol.Endings
import SignalCalculus.Proofs.Protocol.Round

set_option autoImplicit false

namespace SignalCalculus

namespace Value

/-- The elements along a chain of pairs, whatever its end. -/
def items : Value → List Value
  | .pair left right => left :: right.items
  | _ => []

def chainEnd : Value → Value
  | .pair _ right => right.chainEnd
  | last => last

def point? : Value → Option (Int × Int)
  | .pair (.num x) (.num y) => some (x, y)
  | _ => none

/-- The points of a proper list of points. The first element that is no point is to blame, or else
    the end of the chain. -/
def picture (value : Value) : Except EvalError (List (Int × Int)) :=
  match value.items.find? (·.point?.isNone) with
  | some other => .error (.expectedPoint other)
  | none =>
    if value.isProper then .ok (value.items.filterMap point?)
    else .error (.openPicture value.chainEnd)

theorem picture_pair {left right : Value} :
    (pair left right).picture =
      match left.point? with
      | some point => right.picture.map (point :: ·)
      | none => .error (.expectedPoint left) := by
  simp only [picture, items, List.find?_cons, isProper, chainEnd, List.filterMap_cons]
  cases left.point? with
  | none => rfl
  | some point =>
    simp only [Option.isNone_some]
    cases right.items.find? (·.point?.isNone) with
    | some other => rfl
    | none => by_cases hproper : right.isProper <;> simp only [hproper] <;> rfl

theorem points_eq_picture (value : Value) : Law.points value = value.picture := by
  induction value with
  | nil => rfl
  | num n => rfl
  | pair left right _ ih =>
    rw [picture_pair, ← ih]
    match left with
    | .pair (.num x) (.num y) => rfl
    | .nil | .num _ | .pair .nil _ | .pair (.pair _ _) _ | .pair (.num _) .nil
    | .pair (.num _) (.pair _ _) => rfl

def drawn (value : Value) : Except Fault Term :=
  (value.picture.mapError .eval).map fun points => .atom (.picture points)

/-- What is drawn of the elements of a list, one after the other: the list of their pictures, or the
    fault of the first one that has none. -/
def drawnEach (value : Value) : Except Fault Term :=
  ((value.items.mapM picture).mapError .eval).map .ofPictures

theorem drawnEach_pair (left right : Value) :
    (pair left right).drawnEach =
      match left.picture with
      | .error e => .error (.eval e)
      | .ok points => right.drawnEach.map (.cell (.atom (.picture points))) := by
  simp only [drawnEach, items, List.mapM_cons]
  cases left.picture with
  | error e => rfl
  | ok points => cases right.items.mapM picture <;> rfl

end Value

namespace Direct

variable {book : Book} {x w : Term} {trips : List Trip} {value : Value}

theorem Tells.draw (hx : Tells book x trips (.ends w)) (hw : Spells w value) :
    ReduceCloses book (.app (.fn .draw) x) trips value.drawn := by
  refine (reduceCloses_fires [x] [] rfl).2 ?_
  rw [← List.append_nil trips]
  refine hx.obeyCloses_part hw [] ?_
  simp only [Law.onPart.settle, place, Law.onValue, Value.points_eq_picture, Value.drawn]
  cases value.picture with
  | error e => exact obeyCloses_iff.2 ⟨rfl, rfl⟩
  | ok points =>
    exact (obeyCloses_becomes [x] [] rfl).2 (reduceCloses_iff.2 ⟨rfl, rfl⟩)

theorem Tells.force_draw (hx : Tells book x trips (.ends w)) (hw : Spells w value) :
    ForceCloses book (.app (.fn .draw) x) trips value.drawn := by
  refine (hx.draw hw).force fun u hu => ?_
  rw [Value.drawn] at hu
  cases hpicture : value.picture with
  | error e =>
    rw [hpicture] at hu
    cases hu
  | ok points =>
    rw [hpicture] at hu
    cases hu
    rfl

theorem Denotes.force_draw (h : Denotes book x value) :
    ForceCloses book (.app (.fn .draw) x) [] value.drawn :=
  Tells.force_draw h.delivers (spells_ofValue value)

theorem Denotes.force_multipledraw (h : Denotes book x value) (hproper : value.isProper) :
    ForceCloses book (.app (.fn .multipledraw) x) [] value.drawnEach := by
  induction value generalizing x with
  | num n => cases hproper
  | nil =>
    have hnil : Reduces book (.fn .nil) (.fn .nil) := .normal rfl
    exact forceCloses_ok_iff.2 (tells_ends_iff.2 (h.multipledraw_nil.forces (forces_atom_iff.2 hnil)))
  | pair left right _ ih =>
    obtain ⟨u, hu, hcells⟩ := h.multipledraw_pair
    have hreduces := hcells.reduces (.normal rfl)
    have hdrawn := hu.car.force_draw
    have hrest := ih hu.cdr hproper
    rw [Value.drawnEach_pair]
    rw [Value.drawn] at hdrawn
    -- The left half is drawn before the right half is looked at, so its error comes first.
    cases hpicture : left.picture with
    | error e =>
      rw [hpicture] at hdrawn
      exact forceCloses_of_left hreduces rfl hdrawn
    | ok points =>
      rw [hpicture] at hdrawn
      exact forceCloses_of_cell hreduces rfl hdrawn hrest

end Direct

namespace Desk

/-- If a term is evaluated without a request to a value with plain numbers, then `draw` of the term
    draws this value, and if the value is a list, `multipledraw` draws its elements, one after the
    other. Neither sends a request. -/
theorem draw_ends_as_picture {book : Book} {desk desk' : Desk} {id : Nat} {x : Term} {value : Value}
    (hdesk : Reached book desk) (hdesk' : Reached book desk') (id' : Nat)
    (hx : Prints book id desk x value.symbols) :
    ClosesSilently book id' desk' (.app (.fn .draw) x) value.drawn ∧
    (value.isProper → ClosesSilently book id' desk' (.app (.fn .multipledraw) x) value.drawnEach) := by
  have hdenotes := hdesk.prints_value_iff.1 hx
  exact ⟨hdesk'.closesSilently id' hdenotes.force_draw,
    fun hproper => hdesk'.closesSilently id' (hdenotes.force_multipledraw hproper)⟩

/-- A list that holds one point twice has a picture; its elements have none. -/
theorem repeated_point_drawn_twice :
    let value : Value := .ofPoints [(1, 2), (1, 2)]
    let x := Term.app (.fn .i) (.ofValue value)
    Reached {} (fresh 0 {}) ∧ Prints {} 0 (fresh 0 {}) x value.symbols ∧
    ClosesSilently {} 0 (fresh 0 {}) (.app (.fn .draw) x) (.ok (.atom (.picture [(1, 2), (1, 2)]))) ∧
    value.isProper ∧
    ClosesSilently {} 0 (fresh 0 {}) (.app (.fn .multipledraw) x)
      (.error (.eval (.expectedPoint (.num 1)))) := by
  intro value x
  have hfresh : Reached {} (fresh 0 {}) := ⟨0, {}, [], [], .nil _⟩
  have hlazy : Law.lazy? .i [Term.ofValue value] = some (.ofValue value) := rfl
  have hx : Prints {} 0 (fresh 0 {}) x value.symbols := hfresh.prints_value_iff.2
    ((Direct.speakAlike_lazy hlazy).forces (Direct.denotes_ofValue value))
  obtain ⟨hdraw, hmultiple⟩ := draw_ends_as_picture hfresh hfresh 0 hx
  exact ⟨hfresh, hx, hdraw, rfl, hmultiple rfl⟩

end Desk

end SignalCalculus
