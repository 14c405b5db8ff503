set_option autoImplicit false

namespace SignalCalculus

/-- A cell that waits for one of its halves. -/
inductive Cell (ρ α : Type) where
  /-- The left half is being made, and `rest` is what the right half will be made of. -/
  | left (rest : ρ)
  | right (made : α)

inductive Placed (ρ α : Type) where
  | whole (made : α)
  | next (rest : ρ) (cells : List (Cell ρ α))

/-- Gives a finished half to the innermost cell, and closes every cell that this completes. -/
def place {ρ α : Type} (pair : α → α → α) : List (Cell ρ α) → α → Placed ρ α
  | [], made => .whole made
  | .left rest :: cells, made => .next rest (.right made :: cells)
  | .right first :: cells, made => place pair cells (pair first made)

end SignalCalculus
