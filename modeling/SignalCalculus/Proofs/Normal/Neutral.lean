import SignalCalculus.Proofs.Direct.Spine

set_option autoImplicit false

/-!
# Neutral terms and weak head normal forms

A term is neutral if a variable that is bound to nothing holds it up: the variable is its head, or
its head is a strict function with all its operands, and what the function demands first has a
neutral weak head normal form. Weak head normal forms are the literals, the functions that lack
operands, and the neutral terms. A weak head normal form is stuck, by the count of its arguments
alone, exactly if it is neutral.
-/

namespace SignalCalculus

def Fn.unary : List Fn := [.inc, .dec, .neg, .isnil, .dem, .multipledraw]

def Fn.binary : List Fn := [.add, .mul, .div, .eq, .lt]

def Fn.forcing : List Fn := [.mod, .send, .draw]

namespace Direct

/-- The whole of a term is forced to this value. -/
inductive Yields (book : Book) : Term → Value → Prop
  | nil {term : Term} (h : Reduces book term (.fn .nil)) : Yields book term .nil
  | number {term : Term} {n : Tagged} (h : Reduces book term (.atom (.number n))) :
      Yields book term (.num n.value)
  | cell {term w left right : Term} {l r : Value} (h : Reduces book term w)
      (halves : w.cell? = some (left, right)) (hl : Yields book left l) (hr : Yields book right r) :
      Yields book term (.pair l r)

/-- Forcing the whole of a term from left to right comes to this element, inside these cells. -/
inductive ComesTo (book : Book) (whole : Term) : List (Cell Term Value) → Term → Prop
  | whole : ComesTo book whole [] whole
  | left {cells : List (Cell Term Value)} {term w left right : Term}
      (before : ComesTo book whole cells term) (h : Reduces book term w)
      (halves : w.cell? = some (left, right)) : ComesTo book whole (.left right :: cells) left
  | right {cells : List (Cell Term Value)} {term w left right : Term} {l : Value}
      (before : ComesTo book whole cells term) (h : Reduces book term w)
      (halves : w.cell? = some (left, right)) (hl : Yields book left l) :
      ComesTo book whole (.right l :: cells) right

/-- A strict function demands this term of its operands. -/
inductive Demands (book : Book) : Fn → List Term → Term → Prop
  | operand {g : Fn} {x : Term} (strict : g ∈ Fn.unary) : Demands book g [x] x
  | condition {x y z : Term} : Demands book .if0 [x, y, z] x
  | first {g : Fn} {x y : Term} (strict : g ∈ Fn.binary) : Demands book g [x, y] x
  | second {g : Fn} {x y : Term} {n : Tagged} (strict : g ∈ Fn.binary)
      (number : Reduces book x (.atom (.number n))) : Demands book g [x, y] y
  | part {g : Fn} {x y : Term} {cells : List (Cell Term Value)} (strict : g ∈ Fn.forcing)
      (reached : ComesTo book x cells y) : Demands book g [x] y

/-- A term that is held up by a variable that is bound to nothing. -/
inductive Neutral (book : Book) : Term → Prop
  | free {id : Int} (unbound : book.resolve id = none) (args : List Term) :
      Neutral book ((Term.atom (.var id)).apply args)
  | held {g : Fn} {operands : List Term} {x u : Term} (demands : Demands book g operands x)
      (reduces : Reduces book x u) (neutral : Neutral book u) (more : List Term) :
      Neutral book ((Term.fn g).apply (operands ++ more))

inductive IsNormal (book : Book) : Term → Prop
  | number (n : Tagged) : IsNormal book (.atom (.number n))
  | bits (text : List Char) : IsNormal book (.atom (.bits text))
  | picture (points : List (Int × Int)) : IsNormal book (.atom (.picture points))
  | lacking {g : Fn} {arity : Nat} {args : List Term} (takes : g.arity? = some arity)
      (lacks : args.length < arity) : IsNormal book ((Term.fn g).apply args)
  | neutral {w : Term} (h : Neutral book w) : IsNormal book w

end Direct

namespace Term

theorem spine_atom_apply (symbol : Symbol) (args : List Term) :
    ((atom symbol).apply args).spine = (symbol, args) := by
  rw [spine_apply]
  rfl

theorem isStuck_fn_apply {g : Fn} {arity : Nat} (h : g.arity? = some arity) (args : List Term) :
    ((Term.fn g).apply args).isStuck = decide (arity ≤ args.length) := by
  rw [isStuck, spine_atom_apply, isStuckSpine, h]

theorem eq_of_spine_nil {w : Term} {symbol : Symbol} (h : w.spine = (symbol, [])) :
    w = .atom symbol := by
  have happly := w.apply_spine
  rw [h] at happly
  exact happly.symm

end Term

namespace Law

variable {w : Term}

theorem withNumber_of_isStuck (h : w.isStuck = true) (go : Tagged → Verdict) :
    withNumber w go = .stuck := by
  unfold Term.isStuck at h
  unfold withNumber
  split
  · rename_i hspine
    rw [hspine] at h
    cases h
  · rw [if_pos h]

theorem cell?_of_isStuck (h : w.isStuck = true) : w.cell? = none := by
  cases hcell : w.cell? with
  | none => rfl
  | some halves =>
    unfold Term.isStuck at h
    obtain hspine | hspine := Term.cell?_eq_some_iff.1 hcell <;> rw [hspine] at h <;> cases h

theorem onPart_of_isStuck (h : w.isStuck = true) (g : Fn) (cells : List (Cell Term Value)) :
    onPart g cells w = .stuck := by
  unfold onPart
  rw [cell?_of_isStuck h]
  unfold Term.isStuck at h
  dsimp only
  split
  · rename_i hspine
    rw [hspine] at h
    cases h
  · rename_i hspine
    rw [hspine] at h
    cases h
  · rw [if_pos h]

theorem onUnary_of_isStuck {g : Fn} (hg : g ∈ .mod :: Fn.unary) (h : w.isStuck = true) (x : Term) :
    onOperand g [x] w = .stuck := by
  have hnumber := withNumber_of_isStuck h
  unfold Term.isStuck at h
  -- A spine that the laws look for, a number, bits or `nil` alone, is not held up.
  have hspine : ∀ {spine}, w.spine = spine → Term.isStuckSpine spine = true := fun heq => heq ▸ h
  simp only [Fn.unary, List.mem_cons, List.not_mem_nil, or_false] at hg
  obtain rfl | rfl | rfl | rfl | rfl | rfl | rfl := hg
  · unfold onOperand
    dsimp only
    split
    · rename_i heq
      cases hspine heq
    · rw [if_pos h]
  · exact hnumber _
  · exact hnumber _
  · exact hnumber _
  · unfold onOperand
    dsimp only
    rw [if_pos h]
  · unfold onOperand
    dsimp only
    split
    · rename_i heq
      cases hspine heq
    · rename_i heq
      cases hspine heq
    · rw [if_pos h]
  · unfold onOperand
    dsimp only
    split
    · rename_i heq
      cases hspine heq
    · rw [if_pos h]

end Law

namespace Direct

variable {book : Book} {g : Fn} {operands : List Term} {x w : Term}

theorem Demands.arity_eq (h : Demands book g operands x) : g.arity? = some operands.length := by
  have hunary : ∀ g ∈ Fn.unary ++ Fn.forcing, g.arity? = some 1 := by decide
  have hbinary : ∀ g ∈ Fn.binary, g.arity? = some 2 := by decide
  cases h with
  | operand strict => exact hunary g (List.mem_append_left _ strict)
  | condition => rfl
  | first strict => exact hbinary g strict
  | second strict number => exact hbinary g strict
  | part strict reached => exact hunary g (List.mem_append_right _ strict)

theorem Neutral.isStuck (h : Neutral book w) : w.isStuck = true := by
  cases h with
  | free unbound args =>
    rw [Term.isStuck, Term.spine_atom_apply]
    rfl
  | held demands reduces neutral more =>
    rw [Term.isStuck_fn_apply demands.arity_eq, decide_eq_true_eq, List.length_append]
    omega

theorem IsNormal.isStuck_iff (h : IsNormal book w) : w.isStuck = true ↔ Neutral book w := by
  refine ⟨fun hstuck => ?_, Neutral.isStuck⟩
  cases h with
  | number n => cases hstuck
  | bits text => cases hstuck
  | picture points => cases hstuck
  | lacking takes lacks =>
    rw [Term.isStuck_fn_apply takes, decide_eq_true_eq] at hstuck
    omega
  | neutral hn => exact hn

end Direct

end SignalCalculus
