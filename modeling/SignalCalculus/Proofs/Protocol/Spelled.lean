import SignalCalculus.Proofs.Equation.Values
import SignalCalculus.Proofs.Value.Tree

set_option autoImplicit false

namespace SignalCalculus

/-- A term of cells, `nil` and numbers of either state, and the value that it spells. -/
inductive Spells : Term → Value → Prop where
  | nil : Spells (.fn .nil) .nil
  | number (n : Tagged) : Spells (.atom (.number n)) (.num n.value)
  | cell {left right : Term} {l r : Value} (hl : Spells left l) (hr : Spells right r) :
      Spells (.cell left right) (.pair l r)

theorem spells_ofValue (value : Value) : Spells (.ofValue value) value := by
  induction value with
  | nil => exact .nil
  | num n => exact .number ⟨n, false⟩
  | pair left right ihl ihr => exact .cell ihl ihr

theorem IsValue.exists_spells {w : Term} (h : IsValue w) : ∃ value, Spells w value := by
  induction h with
  | nil => exact ⟨.nil, .nil⟩
  | number n => exact ⟨.num n.value, .number n⟩
  | cell _ _ ihl ihr =>
    obtain ⟨l, hl⟩ := ihl
    obtain ⟨r, hr⟩ := ihr
    exact ⟨.pair l r, .cell hl hr⟩

theorem Spells.treeOf {w : Term} {value : Value} (h : Spells w value) : w.TreeOf value := by
  induction h with
  | nil => exact .nil
  | number n => exact .number n
  | cell _ _ ihl ihr => exact .cell (.inl rfl) ihl ihr

theorem Spells.ofSymbols {w : Term} {value : Value} (h : Spells w value) :
    Value.ofSymbols w.symbols = .ok value := h.treeOf.ofSymbols

theorem IsValue.spells {w : Term} {value : Value} (hw : IsValue w)
    (h : Value.ofSymbols w.symbols = .ok value) : Spells w value := by
  obtain ⟨value', hspells⟩ := hw.exists_spells
  rw [hspells.ofSymbols] at h
  cases h
  exact hspells

end SignalCalculus
