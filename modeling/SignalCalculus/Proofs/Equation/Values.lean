import Mathlib.Logic.Relation
import SignalCalculus.Proofs.Desk.Transparency
import SignalCalculus.Proofs.Direct.Heads
import SignalCalculus.Proofs.Equation.Contraction

set_option autoImplicit false

namespace SignalCalculus

open Direct (Forces Reduces)

variable {book : Book}

inductive IsValue : Term → Prop where
  | nil : IsValue (.fn .nil)
  | number (n : Tagged) : IsValue (.atom (.number n))
  | cell {left right : Term} (hl : IsValue left) (hr : IsValue right) :
      IsValue (.cell left right)

theorem IsValue.isData {w : Term} (h : IsValue w) : w.IsData := by
  induction h with
  | nil => exact .nil
  | number n => exact .number n
  | cell _ _ ihl ihr => exact .cell ihl ihr

theorem Interchanges.forces {n m w : Term} (h : Interchanges (Contracts book) n m) (hw : IsValue w)
    (hn : Forces book n w) : Forces book m w := by
  obtain ⟨fuel, hn⟩ := hn
  obtain ⟨pause', hpause', halike⟩ := h.tells contracts_respected (.inr ⟨rfl, w, rfl⟩)
    (Dialogue.reaches_ends_iff.2 hn)
  cases halike with
  | ends hdata =>
    rw [hdata hw.isData] at hpause'
    exact Direct.tells_ends_iff.1 hpause'

/-- Any number of replacements, in either direction, keep a forced form that is a value. -/
theorem forces_of_replaces {n m w : Term} (h : Relation.EqvGen (Replaces book) n m)
    (hw : IsValue w) : Forces book n w ↔ Forces book m w := by
  induction h with
  | rel n m h =>
    have hnm := Interchanges.of_replaces h
    exact ⟨hnm.forces hw, hnm.symm.forces hw⟩
  | refl n => exact Iff.rfl
  | symm n m _ ih => exact ih.symm
  | trans n m k _ _ ih ih' => exact ih.trans ih'

namespace Value

variable {program : List Symbol} {cells : List (Cell Unit Value)} {index : Nat} {value : Value}

theorem spelledFrom_ap {rest : List Symbol}
    (h : spelledFrom program cells (.ap :: rest) index = .ok value) :
    ∃ halves, (rest = .ap :: .fn .cons :: halves ∨ rest = .ap :: .fn .vec :: halves) ∧
      spelledFrom program (.left () :: cells) halves (index + 3) = .ok value := by
  unfold spelledFrom at h
  split at h
  · rename_i halves heq
    cases heq
    exact ⟨halves, .inl rfl, h⟩
  · rename_i halves heq
    cases heq
    exact ⟨halves, .inr rfl, h⟩
  · rename_i symbol rest' _ _ heq
    cases heq
    cases h
  · rename_i heq
    cases heq

theorem spelledFrom_leaf {symbol : Symbol} {rest : List Symbol} (hsymbol : symbol ≠ .ap)
    (h : spelledFrom program cells (symbol :: rest) index = .ok value) :
    ∃ leaf, ofSymbol? symbol = some leaf ∧
      match place pair cells leaf with
      | .whole _ => True
      | .next _ cells' => spelledFrom program cells' rest (index + 1) = .ok value := by
  unfold spelledFrom at h
  split at h
  · rename_i heq
    cases heq
    exact absurd rfl hsymbol
  · rename_i heq
    cases heq
    exact absurd rfl hsymbol
  · rename_i heq
    cases heq
    cases hleaf : ofSymbol? symbol with
    | none =>
      rw [hleaf] at h
      cases h
    | some leaf =>
      rw [hleaf] at h
      refine ⟨leaf, rfl, ?_⟩
      revert h
      dsimp only
      generalize place pair _ leaf = placed
      intro h
      cases placed with
      | whole made => trivial
      | next _ cells' => exact h
  · rename_i heq
    cases heq

end Value

section Spelled

variable {program : List Symbol} {cells : List (Cell Unit Value)} {rest : List Symbol} {index : Nat}
  {value : Value}

def GoesOn (program : List Symbol) (cells : List (Cell Unit Value)) (rest : List Symbol)
    (value : Value) : Prop :=
  ∃ part index, match place Value.pair cells part with
    | .whole _ => True
    | .next _ cells' => Value.spelledFrom program cells' rest index = .ok value

theorem isValue_of_not_cell {u : Term} (hcell : u.cell? = none)
    (hmark : ∀ m, u.spine.1 ≠ .mark m)
    (h : Value.spelledFrom program cells (u.symbolsOnto rest) index = .ok value) :
    IsValue u ∧ GoesOn program cells rest value := by
  match u with
  | .atom symbol =>
    obtain ⟨leaf, hleaf, hnext⟩ := Value.spelledFrom_leaf (hmark .ap) h
    refine ⟨?_, leaf, index + 1, hnext⟩
    cases symbol with
    | number n => exact .number n
    | fn g => cases g <;> first | exact .nil | cases hleaf
    | _ => cases hleaf
  | .app (.atom symbol) x =>
    obtain ⟨halves, hrest | hrest, -⟩ := Value.spelledFrom_ap h
    · exact absurd (List.cons.inj hrest).1 (hmark .ap)
    · exact absurd (List.cons.inj hrest).1 (hmark .ap)
  | .app (.app (.atom symbol) x) y =>
    obtain ⟨halves, hrest | hrest, -⟩ := Value.spelledFrom_ap h
    · cases hrest
      cases hcell
    · cases hrest
      cases hcell
  | .app (.app (.app f z) x) y =>
    obtain ⟨halves, hrest | hrest, -⟩ := Value.spelledFrom_ap h
    · cases hrest
    · cases hrest

theorem isValue_of_reaches {fuel : Nat} {term w : Term} {trips : List Trip}
    (hw : (Direct.force book fuel term).Reaches trips (.ends w))
    (h : Value.spelledFrom program cells (w.symbolsOnto rest) index = .ok value) :
    IsValue w ∧ GoesOn program cells rest value := by
  induction fuel generalizing term w trips cells rest index with
  | zero => exact absurd hw Dialogue.not_reaches_unfinished
  | succ fuel ih =>
    rw [Direct.force_succ] at hw
    obtain ⟨bits, hpause, -⟩ | ⟨_, after, u, -, hu, hhalves⟩ := Dialogue.reaches_bind.1 hw
    · cases hpause
    · unfold Direct.forceHalves at hhalves
      cases hcell : u.cell? with
      | none =>
        rw [hcell] at hhalves
        cases hhalves
        have hsettled := (Direct.settled_of_reaches book fuel).1 _ _ _ hu
        exact isValue_of_not_cell hcell hsettled.head_ne_mark h
      | some halves =>
        rw [hcell] at hhalves
        obtain ⟨bits, hpause, -⟩ | ⟨_, _, l, -, hl, hright⟩ := Dialogue.reaches_bind.1 hhalves
        · cases hpause
        · obtain ⟨bits, hpause, -⟩ | ⟨_, _, r, -, hr, hcells⟩ := Dialogue.reaches_bind.1 hright
          · cases hpause
          · cases hcells
            -- What is read behind the left half is the right half, inside the cell that is half
            -- filled.
            obtain ⟨halves, hrest | hrest, h⟩ := Value.spelledFrom_ap h
            · cases hrest
              obtain ⟨hvl, part, index', hnext⟩ := ih hl h
              obtain ⟨hvr, part', index'', hnext'⟩ := ih hr hnext
              exact ⟨.cell hvl hvr, .pair part part', index'', hnext'⟩
            · cases hrest

end Spelled

theorem isValue_of_tells {term w : Term} {trips : List Trip} {value : Value}
    (hw : Direct.Tells book term trips (.ends w)) (h : Value.ofSymbols w.symbols = .ok value) :
    IsValue w := by
  obtain ⟨fuel, hw⟩ := hw
  exact (isValue_of_reaches hw h).1

theorem isValue_of_ofSymbols {term w : Term} {value : Value} (hw : Forces book term w)
    (h : Value.ofSymbols w.symbols = .ok value) : IsValue w :=
  isValue_of_tells (Direct.tells_ends_iff.2 hw) h

namespace Desk

/-- The desk's engine evaluates a term without a request, and the result's program is this one. -/
def Prints (book : Book) (id : Nat) (desk : Desk) (term : Term) (program : List Symbol) : Prop :=
  ∃ fuel w engine, desk.engine.eval id book fuel Link.absent () (some term) =
    some (.ok w, engine, ()) ∧ w.symbols = program

theorem Reached.prints_iff {desk : Desk} (h : Reached book desk) {id : Nat} {term : Term}
    {program : List Symbol} :
    Prints book id desk term program ↔ ∃ w, Forces book term w ∧ w.symbols = program := by
  constructor
  · rintro ⟨fuel, w, engine, hrun, hw⟩
    exact ⟨w, h.valid.eval_absent_iff.1 ⟨fuel, engine, hrun⟩, hw⟩
  · rintro ⟨w, hforces, hw⟩
    obtain ⟨fuel, engine, hrun⟩ := h.valid.eval_absent_iff.2 hforces
    exact ⟨fuel, w, engine, hrun, hw⟩

/-- Replacing redexes of lazy laws and bound variables, or undoing that, at any positions and any
    number of times, keeps the value that a term evaluates to, whatever was done at the desk
    before. -/
theorem prints_iff_of_replaces {desk desk' : Desk} {id id' : Nat} {n m : Term}
    {program : List Symbol} {value : Value} (hdesk : Reached book desk)
    (hdesk' : Reached book desk') (h : Relation.EqvGen (Replaces book) n m)
    (hvalue : Value.ofSymbols program = .ok value) :
    Prints book id desk n program ↔ Prints book id' desk' m program := by
  rw [hdesk.prints_iff, hdesk'.prints_iff]
  refine exists_congr fun w => ?_
  constructor
  · rintro ⟨hw, rfl⟩
    exact ⟨(forces_of_replaces h (isValue_of_ofSymbols hw hvalue)).1 hw, rfl⟩
  · rintro ⟨hw, rfl⟩
    exact ⟨(forces_of_replaces h (isValue_of_ofSymbols hw hvalue)).2 hw, rfl⟩

def oneBinding : Book := ({} : Book).record [.var 1] [.plain 5] (some (1, .num 5))

/-- The operand of `inc` is chosen by `t` and then looked up; the value is 6 before and after. -/
theorem prints_iff_of_selected_operand :
    Reached oneBinding (fresh 0 {}) ∧
    Relation.EqvGen (Replaces oneBinding)
      (.app (.fn .inc) (.app (.app (.fn .t) (.atom (.var 1))) (.fn .nil)))
      (.app (.fn .inc) (.num 5)) ∧
    Value.ofSymbols [.plain 6] = .ok (.num 6) ∧
    Prints oneBinding 0 (fresh 0 {}) (.app (.fn .inc) (.num 5)) [.plain 6] ∧
    (Prints oneBinding 0 (fresh 0 {})
        (.app (.fn .inc) (.app (.app (.fn .t) (.atom (.var 1))) (.fn .nil))) [.plain 6] ↔
      Prints oneBinding 0 (fresh 0 {}) (.app (.fn .inc) (.num 5)) [.plain 6]) := by
  have hfresh : Reached oneBinding (fresh 0 {}) := ⟨0, {}, [], [], .nil _⟩
  have hlaw : Law.lazy? .t [.atom (.var 1), .fn .nil] = some (.atom (.var 1)) := rfl
  have hbound : oneBinding.resolve 1 = some (.num 5) := by decide
  have hreplaced : Relation.EqvGen (Replaces oneBinding)
      (.app (.fn .inc) (.app (.app (.fn .t) (.atom (.var 1))) (.fn .nil)))
      (.app (.fn .inc) (.num 5)) :=
    .trans _ _ _ (.rel _ _ (.right (.root (.law hlaw))))
      (.rel _ _ (.right (.root (.definition hbound))))
  have hvalue : Value.ofSymbols [.plain 6] = .ok (.num 6) := by decide
  have hforce : Direct.force oneBinding 6 (.app (.fn .inc) (.num 5)) = .done (.num 6) := by cbv
  refine ⟨hfresh, hreplaced, hvalue, hfresh.prints_iff.2 ⟨.num 6, ⟨6, hforce⟩, rfl⟩, ?_⟩
  exact prints_iff_of_replaces hfresh hfresh hreplaced hvalue

end Desk

end SignalCalculus
