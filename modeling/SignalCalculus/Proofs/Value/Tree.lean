import SignalCalculus.Term.Basic

set_option autoImplicit false

namespace SignalCalculus

def Fn.IsPairing (g : Fn) : Prop := g = .cons ∨ g = .vec

namespace Term

/-- A term of `nil`, numbers of either state and cells of either pairing function, and the value that
    it is a tree of. -/
inductive TreeOf : Term → Value → Prop where
  | nil : TreeOf (.fn .nil) .nil
  | number (n : Tagged) : TreeOf (.atom (.number n)) (.num n.value)
  | cell {g : Fn} {left right : Term} {l r : Value} (pairing : g.IsPairing) (hl : TreeOf left l)
      (hr : TreeOf right r) : TreeOf (.app (.app (.fn g) left) right) (.pair l r)

/-- The term with `cons` in place of `vec` and every number demodulated. -/
def plain : Term → Term
  | .atom (.number n) => .num n.value
  | .atom (.fn .vec) => .fn .cons
  | .atom symbol => .atom symbol
  | .app f arg => .app f.plain arg.plain

theorem TreeOf.plain_eq {w : Term} {value : Value} (h : w.TreeOf value) :
    w.plain = .ofValue value := by
  induction h with
  | nil => rfl
  | number n => rfl
  | @cell g left right l r pairing hl hr ihl ihr =>
    have hfn : (fn g).plain = fn .cons := by obtain rfl | rfl := pairing <;> rfl
    rw [plain, plain, hfn, ihl, ihr]
    rfl

theorem TreeOf.spelledFrom {w : Term} {value : Value} (h : w.TreeOf value) (program : List Symbol)
    (cells : List (Cell Unit Value)) (rest : List Symbol) (index : Nat) :
    ∃ index', Value.spelledFrom program cells (w.symbolsOnto rest) index =
      match place Value.pair cells value with
      | .whole whole => if rest.isEmpty then .ok whole else .error (.trailing index')
      | .next _ cells => Value.spelledFrom program cells rest index' := by
  induction h generalizing cells rest index with
  | nil => exact ⟨index + 1, rfl⟩
  | number n => exact ⟨index + 1, rfl⟩
  | @cell g left right l r pairing _ _ ihl ihr =>
    obtain ⟨next, hleft⟩ := ihl (.left () :: cells) (right.symbolsOnto rest) (index + 3)
    obtain ⟨index', hright⟩ := ihr (.right l :: cells) rest next
    obtain rfl | rfl := pairing <;> exact ⟨index', hleft.trans hright⟩

theorem TreeOf.ofSymbols {w : Term} {value : Value} (h : w.TreeOf value) :
    Value.ofSymbols w.symbols = .ok value := by
  obtain ⟨index, hread⟩ := h.spelledFrom w.symbols [] [] 0
  exact hread

end Term

end SignalCalculus
