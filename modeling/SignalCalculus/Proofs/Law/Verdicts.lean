import Mathlib.Data.List.Basic
import Mathlib.Logic.Basic
import SignalCalculus.Proofs.Normal.Neutral

set_option autoImplicit false

/-!
# Verdicts of laws

A function that has all its operands has one law, lazy or strict. A strict law goes from need to
need; what it needs next fits the function and its operands, and it is held up by no term but one
that is itself held up.
-/

namespace SignalCalculus

def Fn.strict : List Fn := .if0 :: Fn.unary ++ Fn.binary ++ Fn.forcing

namespace Law

variable {g : Fn} {operands : List Term} {w : Term}

/-- A function that has all its operands has a lazy law, or it is strict in one of four ways. -/
theorem lazy_or_strict (h : g.arity? = some operands.length) :
    (∃ term, lazy? g operands = some term) ∨ lazy? g operands = none ∧
      ((g ∈ Fn.unary ∧ ∃ x, operands = [x]) ∨ (g = .if0 ∧ ∃ x y z, operands = [x, y, z]) ∨
        (g ∈ Fn.binary ∧ ∃ x y, operands = [x, y]) ∨ (g ∈ Fn.forcing ∧ ∃ x, operands = [x])) := by
  have hone : operands.length = 1 → ∃ x, operands = [x] := List.length_eq_one_iff.1
  have htwo : operands.length = 2 → ∃ x y, operands = [x, y] := List.length_eq_two.1
  have hthree : operands.length = 3 → ∃ x y z, operands = [x, y, z] := List.length_eq_three.1
  cases g with
  | inc | dec | neg | isnil | dem | multipledraw =>
    obtain ⟨x, rfl⟩ := hone (Option.some.inj h).symm
    exact .inr ⟨rfl, .inl ⟨by decide, x, rfl⟩⟩
  | mod | send | draw =>
    obtain ⟨x, rfl⟩ := hone (Option.some.inj h).symm
    exact .inr ⟨rfl, .inr (.inr (.inr ⟨by decide, x, rfl⟩))⟩
  | i | car | cdr | nil | modem =>
    obtain ⟨x, rfl⟩ := hone (Option.some.inj h).symm
    exact .inl ⟨_, rfl⟩
  | add | mul | div | eq | lt =>
    obtain ⟨x, y, rfl⟩ := htwo (Option.some.inj h).symm
    exact .inr ⟨rfl, .inr (.inr (.inl ⟨by decide, x, y, rfl⟩))⟩
  | t | f | f38 =>
    obtain ⟨x, y, rfl⟩ := htwo (Option.some.inj h).symm
    exact .inl ⟨_, rfl⟩
  | if0 =>
    obtain ⟨x, y, z, rfl⟩ := hthree (Option.some.inj h).symm
    exact .inr ⟨rfl, .inr (.inl ⟨rfl, x, y, z, rfl⟩)⟩
  | c | b | s | cons | vec | interact =>
    obtain ⟨x, y, z, rfl⟩ := hthree (Option.some.inj h).symm
    exact .inl ⟨_, rfl⟩
  | galaxy => cases h

theorem begin_unary (hg : g ∈ Fn.unary) (x : Term) : begin g [x] = .needs .operand x := by
  simp only [Fn.unary, List.mem_cons, List.not_mem_nil, or_false] at hg
  obtain rfl | rfl | rfl | rfl | rfl | rfl := hg <;> rfl

theorem begin_binary (hg : g ∈ Fn.binary) (x y : Term) : begin g [x, y] = .needs .operand x := by
  simp only [Fn.binary, List.mem_cons, List.not_mem_nil, or_false] at hg
  obtain rfl | rfl | rfl | rfl | rfl := hg <;> rfl

theorem onOperand_binary (hg : g ∈ Fn.binary) (x y : Term) :
    onOperand g [x, y] w = withNumber w fun n => .needs (.second n) y := by
  simp only [Fn.binary, List.mem_cons, List.not_mem_nil, or_false] at hg
  obtain rfl | rfl | rfl | rfl | rfl := hg <;> rfl

inductive Verdict.Settles : Verdict → Prop
  | becomes (term : Term) : Settles (.becomes term)
  | fails (fault : Fault) : Settles (.fails fault)
  | sends (bits : List Char) : Settles (.sends bits)

theorem withInteger_settles (hw : ¬w.isStuck = true) {go : Int → Verdict}
    (hgo : ∀ n, (go n).Settles) : (withInteger w go).Settles := by
  unfold withInteger withNumber
  unfold Term.isStuck at hw
  split
  · dsimp only
    split
    · exact .fails _
    · exact hgo _
  · rw [if_neg hw]
    exact .fails _

theorem onUnary_settles (hg : g ∈ Fn.unary) (hw : ¬w.isStuck = true) (x : Term) :
    (onOperand g [x] w).Settles := by
  have hinteger : ∀ go : Int → Int,
      (withInteger w fun n => .becomes (.num (go n))).Settles :=
    fun go => withInteger_settles hw fun n => .becomes _
  simp only [Fn.unary, List.mem_cons, List.not_mem_nil, or_false] at hg
  unfold Term.isStuck at hw
  obtain rfl | rfl | rfl | rfl | rfl | rfl := hg
  · exact hinteger fun n => n + 1
  · exact hinteger fun n => n - 1
  · exact hinteger fun n => -n
  · unfold onOperand
    dsimp only
    rw [if_neg hw]
    split
    · exact .fails _
    · exact .becomes _
  · unfold onOperand
    dsimp only
    split
    · split
      · exact .becomes _
      · exact .fails _
    · split
      · exact .becomes _
      · exact .fails _
    · rw [if_neg hw]
      exact .fails _
  · unfold onOperand
    dsimp only
    split
    · exact .becomes _
    · rw [if_neg hw]
      exact .becomes _

theorem arithmetic_settles (hg : g ∈ Fn.binary) (a b : Int) : (arithmetic g a b).Settles := by
  simp only [Fn.binary, List.mem_cons, List.not_mem_nil, or_false] at hg
  obtain rfl | rfl | rfl | rfl | rfl := hg
  · exact .becomes _
  · exact .becomes _
  · unfold arithmetic
    dsimp only
    split
    · exact .fails _
    · exact .becomes _
  · exact .becomes _
  · exact .becomes _

theorem onSecond_settles (hg : g ∈ Fn.binary) (hw : ¬w.isStuck = true) (first : Tagged) :
    (onSecond g first w).Settles := by
  unfold onSecond withNumber
  unfold Term.isStuck at hw
  split
  · dsimp only
    split
    · exact .fails _
    · split
      · exact .fails _
      · exact arithmetic_settles hg _ _
  · rw [if_neg hw]
    exact .fails _

theorem onValue_settles (hg : g ∈ Fn.forcing) (value : Value) : (onValue g value).Settles := by
  simp only [Fn.forcing, List.mem_cons, List.not_mem_nil, or_false] at hg
  obtain rfl | rfl | rfl := hg
  · exact .becomes _
  · exact .sends _
  · unfold onValue
    dsimp only
    split
    · exact .becomes _
    · exact .fails _

/-- A strict law with these operands waits for something that it has a case for. -/
inductive Fits : Fn → List Term → Need → Prop
  | operand {g : Fn} {x : Term} (strict : g ∈ Fn.unary) : Fits g [x] .operand
  | condition {x y z : Term} : Fits .if0 [x, y, z] .operand
  | first {g : Fn} {x y : Term} (strict : g ∈ Fn.binary) : Fits g [x, y] .operand
  | second {g : Fn} {x y : Term} {n : Tagged} (strict : g ∈ Fn.binary) : Fits g [x, y] (.second n)
  | whole {x : Term} : Fits .mod [x] .operand
  | part {g : Fn} {x : Term} {cells : List (Cell Term Value)} (strict : g ∈ Fn.forcing) :
      Fits g [x] (.part cells)

/-- The law is not held up, and if it needs something, it has a case for it. -/
inductive Proceeds (g : Fn) (operands : List Term) : Verdict → Prop
  | settles {verdict : Verdict} (h : verdict.Settles) : Proceeds g operands verdict
  | needs {need : Need} {term : Term} (fits : Fits g operands need) :
      Proceeds g operands (.needs need term)

theorem begin_asks (h : g.arity? = some operands.length) (hlazy : lazy? g operands = none) :
    ∃ need term, begin g operands = .needs need term ∧ Fits g operands need := by
  obtain ⟨term, hterm⟩ | ⟨-, hstrict⟩ := lazy_or_strict h
  · rw [hlazy] at hterm
    cases hterm
  · obtain ⟨hg, x, rfl⟩ | ⟨rfl, x, y, z, rfl⟩ | ⟨hg, x, y, rfl⟩ | ⟨hg, x, rfl⟩ := hstrict
    · exact ⟨.operand, x, begin_unary hg x, .operand hg⟩
    · exact ⟨.operand, x, rfl, .condition⟩
    · exact ⟨.operand, x, begin_binary hg x y, .first hg⟩
    · have hpart : Fits g [x] (.part []) := .part hg
      simp only [Fn.forcing, List.mem_cons, List.not_mem_nil, or_false] at hg
      obtain rfl | rfl | rfl := hg
      · exact ⟨.operand, x, rfl, .whole⟩
      · exact ⟨.part [], x, rfl, hpart⟩
      · exact ⟨.part [], x, rfl, hpart⟩

theorem begin_proceeds (h : g.arity? = some operands.length) :
    Proceeds g operands (begin g operands) := by
  cases hlazy : lazy? g operands with
  | some term =>
    unfold begin
    rw [hlazy]
    exact .settles (.becomes term)
  | none =>
    obtain ⟨need, term, hbegin, hfits⟩ := begin_asks h hlazy
    rw [hbegin]
    exact .needs hfits

theorem onPart_proceeds {x : Term} (hg : g ∈ Fn.forcing) (hw : ¬w.isStuck = true)
    (cells : List (Cell Term Value)) : Proceeds g [x] (onPart g cells w) := by
  have hsettle : ∀ leaf, Proceeds g [x] (onPart.settle g cells leaf) := by
    intro leaf
    unfold onPart.settle
    split
    · exact .settles (onValue_settles hg _)
    · exact .needs (.part hg)
  unfold Term.isStuck at hw
  unfold onPart
  split
  · exact .needs (.part hg)
  · split
    · exact hsettle _
    · exact hsettle _
    · rw [if_neg hw]
      exact .settles (.fails _)

theorem onWhole_proceeds {x : Term} (hw : ¬w.isStuck = true) :
    Proceeds .mod [x] (onOperand .mod [x] w) := by
  unfold Term.isStuck at hw
  unfold onOperand
  dsimp only
  split
  · split
    · exact .settles (.fails _)
    · exact .settles (.becomes _)
  · rw [if_neg hw]
    exact .needs (.part (by decide))

theorem onTerm_proceeds {need : Need} (h : Fits g operands need) (hw : ¬w.isStuck = true) :
    Proceeds g operands (onTerm g operands need w) := by
  cases h with
  | operand strict => exact .settles (onUnary_settles strict hw _)
  | @condition x y z =>
    have hinteger : (withInteger w fun n => .becomes (if n = 0 then y else z)).Settles :=
      withInteger_settles hw fun n => .becomes _
    exact .settles hinteger
  | @first _ x y strict =>
    rw [onTerm, onOperand_binary strict]
    unfold withNumber
    unfold Term.isStuck at hw
    split
    · exact .needs (.second strict)
    · rw [if_neg hw]
      exact .settles (.fails _)
  | second strict => exact .settles (onSecond_settles strict hw _)
  | whole => exact onWhole_proceeds hw
  | part strict => exact onPart_proceeds strict hw _

theorem onTerm_of_isStuck {need : Need} (h : Fits g operands need) (hw : w.isStuck = true) :
    onTerm g operands need w = .stuck := by
  have hnumber := withNumber_of_isStuck hw
  cases h with
  | @operand _ x strict => exact onUnary_of_isStuck (List.mem_cons_of_mem _ strict) hw x
  | condition => exact hnumber _
  | @first _ x y strict => exact (onOperand_binary strict x y).trans (hnumber _)
  | second strict => exact hnumber _
  | @whole x => exact onUnary_of_isStuck List.mem_cons_self hw x
  | part strict => exact onPart_of_isStuck hw g _

theorem Fits.arity_eq {need : Need} (h : Fits g operands need) :
    g.arity? = some operands.length := by
  have hunary : ∀ g ∈ Fn.unary, g.arity? = some 1 := by decide
  have hbinary : ∀ g ∈ Fn.binary, g.arity? = some 2 := by decide
  have hforcing : ∀ g ∈ Fn.forcing, g.arity? = some 1 := by decide
  cases h with
  | operand strict => exact hunary _ strict
  | condition => rfl
  | first strict => exact hbinary _ strict
  | second strict => exact hbinary _ strict
  | whole => rfl
  | part strict => exact hforcing _ strict

def IsLazy (g : Fn) (arity : Nat) : Prop :=
  ∀ operands, (∃ term, lazy? g operands = some term) ↔ operands.length = arity

/-- The law of the function is strict and takes just so many operands: it asks for something, has a
    case for whatever it asks for, and goes on unless it is given a term that is held up. -/
structure IsStrict (g : Fn) (arity : Nat) : Prop where
  asks : ∀ operands, operands.length = arity → ∃ need term,
    begin g operands = .needs need term ∧ Fits g operands need
  takes : ∀ operands need, Fits g operands need → operands.length = arity
  proceeds : ∀ operands need w, Fits g operands need → ¬w.isStuck = true →
    Proceeds g operands (onTerm g operands need w)

theorem lazy?_of_strict (hg : g ∈ Fn.strict) (operands : List Term) :
    lazy? g operands = none := by
  cases hlazy : lazy? g operands with
  | none => rfl
  | some term =>
    unfold lazy? at hlazy
    split at hlazy <;> first | exact absurd hg (by decide) | cases hlazy

/-- Every function but the entry word has one law, which takes as many operands as the function's
    arity says. -/
theorem one_law (hg : g ≠ .galaxy) :
    ∃ arity, g.arity? = some arity ∧ Xor (IsLazy g arity) (IsStrict g arity) := by
  obtain ⟨arity, harity⟩ : ∃ arity, g.arity? = some arity := by
    cases g with
    | galaxy => exact absurd rfl hg
    | _ => exact ⟨_, rfl⟩
  have hlength : ∀ operands : List Term, operands.length = arity →
      g.arity? = some operands.length := fun operands h => h ▸ harity
  have hexcludes : IsLazy g arity → ¬IsStrict g arity := by
    intro hlazy hstrict
    have hsome := List.length_replicate (a := Term.fn .nil) (n := arity)
    obtain ⟨term, hterm⟩ := (hlazy _).2 hsome
    obtain ⟨need, wanted, hbegin, -⟩ := hstrict.asks _ hsome
    unfold begin at hbegin
    rw [hterm] at hbegin
    cases hbegin
  refine ⟨arity, harity, ?_⟩
  by_cases hs : g ∈ Fn.strict
  · have hstrict : IsStrict g arity :=
      { asks := fun operands h => begin_asks (hlength operands h) (lazy?_of_strict hs operands)
        takes := fun operands need h => Option.some.inj (h.arity_eq.symm.trans harity)
        proceeds := fun operands need w h hw => onTerm_proceeds h hw }
    exact .inr ⟨hstrict, fun hlazy => hexcludes hlazy hstrict⟩
  · have hlazy : IsLazy g arity := by
      refine fun operands => ⟨?_, fun h => ?_⟩
      · rintro ⟨term, h⟩
        exact Option.some.inj ((arity_of_lazy? h).symm.trans harity)
      · obtain hterm | ⟨-, hmem⟩ := lazy_or_strict (hlength operands h)
        · exact hterm
        · refine absurd ?_ hs
          simp only [Fn.strict, List.cons_append, List.mem_cons, List.mem_append]
          tauto
    exact .inl ⟨hlazy, hexcludes hlazy⟩

end Law

end SignalCalculus
