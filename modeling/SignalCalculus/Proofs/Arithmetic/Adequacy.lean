import SignalCalculus.Proofs.Protocol.Endings

set_option autoImplicit false

namespace SignalCalculus

namespace Arith

inductive Unary where
  | inc | dec | neg

inductive Binary where
  | add | mul | div

inductive Test where
  | eq | lt

namespace Unary

def fn : Unary → Fn
  | inc => .inc
  | dec => .dec
  | neg => .neg

def on : Unary → Int → Int
  | inc, n => n + 1
  | dec, n => n - 1
  | neg, n => -n

end Unary

namespace Binary

def fn : Binary → Fn
  | add => .add
  | mul => .mul
  | div => .div

def on : Binary → Int → Int → Except Int Int
  | add, m, n => .ok (m + n)
  | mul, m, n => .ok (m * n)
  | div, m, n => if n = 0 then .error m else .ok (m.tdiv n)

end Binary

namespace Test

def fn : Test → Fn
  | eq => .eq
  | lt => .lt

def holds : Test → Int → Int → Bool
  | eq, m, n => m == n
  | lt, m, n => m < n

end Test

end Arith

inductive Arith where
  | literal (n : Int)
  | unary (op : Arith.Unary) (x : Arith)
  | binary (op : Arith.Binary) (x y : Arith)
  | if0 (c x y : Arith)
  | choose (test : Arith.Test) (a b x y : Arith)

namespace Arith

def term : Arith → Term
  | literal n => .num n
  | unary op x => (Term.fn op.fn).apply [x.term]
  | binary op x y => (Term.fn op.fn).apply [x.term, y.term]
  | if0 c x y => (Term.fn .if0).apply [c.term, x.term, y.term]
  | choose test a b x y => ((Term.fn test.fn).apply [a.term, b.term]).apply [x.term, y.term]

/-- The integer that an expression denotes, or the dividend of the first division by zero. -/
def denote : Arith → Except Int Int
  | literal n => .ok n
  | unary op x => do
    let n ← x.denote
    .ok (op.on n)
  | binary op x y => do
    let m ← x.denote
    let n ← y.denote
    op.on m n
  | if0 c x y => do
    let n ← c.denote
    if n = 0 then x.denote else y.denote
  | choose test a b x y => do
    let m ← a.denote
    let n ← b.denote
    if test.holds m n then x.denote else y.denote

def outcome : Except Int Int → Except Fault Term
  | .ok n => .ok (.num n)
  | .error dividend => .error (.eval (.divisionByZero dividend))

/-- A quotient is known by its remainder, which is smaller than the divisor and zero or of the sign
    of the dividend. -/
theorem tdiv_eq_iff {m n q : Int} (hn : n ≠ 0) :
    m.tdiv n = q ↔ ∃ r, m = q * n + r ∧ r.natAbs < n.natAbs ∧ (r = 0 ∨ r.sign = m.sign) := by
  constructor
  · rintro rfl
    refine ⟨m.tmod n, (Int.tdiv_mul_add_tmod m n).symm, ?_, ?_⟩
    · rw [Int.natAbs_tmod]
      exact Nat.mod_lt _ (by omega)
    · rw [Int.sign_tmod]
      by_cases hdvd : n ∣ m
      · exact .inl (Int.tmod_eq_zero_of_dvd hdvd)
      · exact .inr (if_neg hdvd)
  · rintro ⟨r, hm, hlt, hsign⟩
    have hsum : r + n * q = m := by rw [hm, Int.mul_comm, Int.add_comm]
    rcases Int.le_total 0 m with hpos | hneg
    · have hr : 0 ≤ r := by
        rcases hsign with rfl | hsign
        · exact Int.le_refl 0
        · exact Int.sign_nonneg_iff.1 (hsign ▸ Int.sign_nonneg_iff.2 hpos)
      exact ((Int.tdiv_tmod_unique hpos hn).2 ⟨hsum, hr, by omega⟩).1
    · have hr : r ≤ 0 := by
        rcases hsign with rfl | hsign
        · exact Int.le_refl 0
        · exact Int.sign_nonpos_iff.1 (hsign ▸ Int.sign_nonpos_iff.2 hneg)
      exact ((Int.tdiv_tmod_unique' hneg hn).2 ⟨hsum, by omega, hr⟩).1

theorem denote_div {x y : Arith} {m n : Int} (hx : x.denote = .ok m) (hy : y.denote = .ok n) :
    (binary .div x y).denote = if n = 0 then .error m else .ok (m.tdiv n) := by
  simp only [denote, hx, hy]
  rfl

section Evaluation

variable {book : Book} {term x : Term} {g : Fn} {args : List Term} {need : Law.Need}

open Direct

theorem obeyCloses_operand {r : Except Int Int} {next : Int → Except Int Int}
    (hx : ReduceCloses book x [] (outcome r))
    (h : ∀ n, ObeyCloses book term g args
      (Law.onTerm g (Law.operands g args) need (.num n)) [] (outcome (next n))) :
    ObeyCloses book term g args (.needs need x) [] (outcome (r >>= next)) := by
  cases r with
  | error dividend => exact .needs_error hx
  | ok n => exact .needs (reduceCloses_ok_iff.1 hx) (h n)

theorem reduceCloses_num (n : Int) : ReduceCloses book (.num n) [] (outcome (.ok n)) :=
  reduceCloses_iff.2 ⟨rfl, rfl⟩

theorem reduceCloses_ofBool {flag : Bool} {y : Term} {result : Except Fault Term}
    (h : ReduceCloses book (if flag then x else y) [] result) :
    ReduceCloses book ((Term.ofBool flag).apply [x, y]) [] result := by
  cases flag with
  | true => exact (reduceCloses_fires [x, y] [] rfl).2 ((obeyCloses_becomes [x, y] [] rfl).2 h)
  | false => exact (reduceCloses_fires [x, y] [] rfl).2 ((obeyCloses_becomes [x, y] [] rfl).2 h)

theorem onTerm_unary (op : Unary) (operands : List Term) (n : Int) :
    Law.onTerm op.fn operands .operand (.num n) = .becomes (.num (op.on n)) := by
  cases op <;> rfl

theorem reduceCloses_unary (op : Unary) {r : Except Int Int}
    (hx : ReduceCloses book x [] (outcome r)) :
    ReduceCloses book ((Term.fn op.fn).apply [x]) [] (outcome (r >>= fun n => .ok (op.on n))) := by
  have hg : op.fn.arity? = some 1 := by cases op <;> rfl
  have hbegin : Law.begin op.fn [x] = .needs .operand x := by cases op <;> rfl
  refine (reduceCloses_fires [x] [] hg).2 ?_
  rw [hbegin]
  refine obeyCloses_operand hx fun n => ?_
  rw [onTerm_unary]
  exact (obeyCloses_becomes [x] [] hg).2 (reduceCloses_num (op.on n))

theorem reduceCloses_operands {y : Term} {more : List Term} {r r' : Except Int Int}
    (next : Int → Int → Except Int Int) (hg : g.arity? = some 2)
    (hbegin : Law.begin g [x, y] = .needs .operand x)
    (hfirst : ∀ m, Law.onTerm g [x, y] .operand (.num m) = .needs (.second ⟨m, false⟩) y)
    (hx : ReduceCloses book x [] (outcome r)) (hy : ReduceCloses book y [] (outcome r'))
    (h : ∀ m n, ObeyCloses book ((Term.fn g).apply ([x, y] ++ more)) g ([x, y] ++ more)
      (Law.arithmetic g m n) [] (outcome (next m n))) :
    ReduceCloses book ((Term.fn g).apply ([x, y] ++ more)) []
      (outcome (do next (← r) (← r'))) := by
  have hoperands : Law.operands g ([x, y] ++ more) = [x, y] := by
    rw [Law.operands, hg]
    rfl
  refine (reduceCloses_fires [x, y] more hg).2 ?_
  rw [hbegin]
  refine obeyCloses_operand hx fun m => ?_
  rw [hoperands, hfirst]
  exact obeyCloses_operand hy (h m)

theorem reduceCloses_binary (op : Binary) {y : Term} {r r' : Except Int Int}
    (hx : ReduceCloses book x [] (outcome r)) (hy : ReduceCloses book y [] (outcome r')) :
    ReduceCloses book ((Term.fn op.fn).apply [x, y]) [] (outcome (do op.on (← r) (← r'))) := by
  refine reduceCloses_operands op.on (by cases op <;> rfl) (by cases op <;> rfl)
    (fun m => by cases op <;> rfl) hx hy fun m n => ?_
  cases op with
  | add => exact obeyCloses_iff.2 (reduceCloses_num (m + n))
  | mul => exact obeyCloses_iff.2 (reduceCloses_num (m * n))
  | div =>
    simp only [Law.arithmetic, Binary.fn, Binary.on]
    by_cases hn : n = 0
    · rw [if_pos hn, if_pos hn]
      exact obeyCloses_iff.2 ⟨rfl, rfl⟩
    · rw [if_neg hn, if_neg hn]
      exact obeyCloses_iff.2 (reduceCloses_num (m.tdiv n))

theorem reduceCloses_if0 {c y : Term} {r rx ry : Except Int Int}
    (hc : ReduceCloses book c [] (outcome r)) (hx : ReduceCloses book x [] (outcome rx))
    (hy : ReduceCloses book y [] (outcome ry)) :
    ReduceCloses book ((Term.fn .if0).apply [c, x, y]) []
      (outcome (r >>= fun n => if n = 0 then rx else ry)) := by
  refine (reduceCloses_fires [c, x, y] [] rfl).2 (obeyCloses_operand hc fun n => ?_)
  refine (obeyCloses_becomes [c, x, y] [] rfl).2 ?_
  by_cases hn : n = 0
  · rw [if_pos hn, if_pos hn]
    exact hx
  · rw [if_neg hn, if_neg hn]
    exact hy

theorem reduceCloses_choose (test : Test) {a b y : Term} {ra rb rx ry : Except Int Int}
    (ha : ReduceCloses book a [] (outcome ra)) (hb : ReduceCloses book b [] (outcome rb))
    (hx : ReduceCloses book x [] (outcome rx)) (hy : ReduceCloses book y [] (outcome ry)) :
    ReduceCloses book ((Term.fn test.fn).apply ([a, b] ++ [x, y])) []
      (outcome (do if test.holds (← ra) (← rb) then rx else ry)) := by
  have hg : test.fn.arity? = some 2 := by cases test <;> rfl
  refine reduceCloses_operands (fun m n => if test.holds m n then rx else ry) hg
    (by cases test <;> rfl) (fun m => by cases test <;> rfl) ha hb fun m n => ?_
  have hverdict : Law.arithmetic test.fn m n = .becomes (.ofBool (test.holds m n)) := by
    cases test <;> rfl
  rw [hverdict]
  refine (obeyCloses_becomes [a, b] [x, y] hg).2 (reduceCloses_ofBool ?_)
  cases test.holds m n with
  | true => exact hx
  | false => exact hy

theorem reduceCloses_denote (e : Arith) : ReduceCloses book e.term [] (outcome e.denote) := by
  -- Both branches have their induction hypothesis, but only the chosen one is reduced.
  induction e with
  | literal n => exact reduceCloses_num n
  | unary op x ih => exact reduceCloses_unary op ih
  | binary op x y ihx ihy => exact reduceCloses_binary op ihx ihy
  | if0 c x y ihc ihx ihy => exact reduceCloses_if0 ihc ihx ihy
  | choose test a b x y iha ihb ihx ihy => exact reduceCloses_choose test iha ihb ihx ihy

theorem forceCloses_denote (e : Arith) : ForceCloses book e.term [] (outcome e.denote) := by
  refine (reduceCloses_denote e).force fun w hw => ?_
  cases hdenote : e.denote with
  | ok n =>
    rw [hdenote] at hw
    cases hw
    rfl
  | error dividend =>
    rw [hdenote] at hw
    cases hw

end Evaluation

end Arith

namespace Desk

open Arith (outcome)

/-- Whatever was done against the book before, the evaluation of an expression sends no request and
    gives the integer that the expression denotes, or fails with the dividend of its first division
    by zero. A division denotes the quotient whose remainder is smaller than the divisor and zero or
    of the dividend's sign. -/
theorem arithmetic_ends_as_denoted {book : Book} {desk : Desk} (h : Reached book desk) (id : Nat)
    (e : Arith) :
    ClosesSilently book id desk e.term (outcome e.denote) ∧
    ∀ (x y : Arith) (m n : Int), x.denote = .ok m → y.denote = .ok n →
      (n = 0 → (Arith.binary .div x y).denote = .error m) ∧
      (n ≠ 0 → ∀ q, (Arith.binary .div x y).denote = .ok q ↔
        ∃ r, m = q * n + r ∧ r.natAbs < n.natAbs ∧ (r = 0 ∨ r.sign = m.sign)) := by
  refine ⟨h.closesSilently id (Arith.forceCloses_denote e), fun x y m n hx hy => ?_⟩
  rw [Arith.denote_div hx hy]
  refine ⟨fun hn => if_pos hn, fun hn q => ?_⟩
  rw [if_neg hn, ← Arith.tdiv_eq_iff hn, Except.ok.injEq]

def chosenQuotient : Arith :=
  .choose .lt (.literal 1) (.literal 2) (.binary .div (.literal (-7)) (.literal 2))
    (.binary .div (.literal 1) (.literal 0))

def twoZeroDivisions : Arith :=
  .binary .div (.literal 5) (.binary .div (.literal 6) (.unary .inc (.literal (-1))))

theorem chosen_quotient_truncated :
    Reached {} (fresh 0 {}) ∧
    ClosesSilently {} 0 (fresh 0 {}) chosenQuotient.term (.ok (.num (-3))) ∧
    ClosesSilently {} 0 (fresh 0 {}) twoZeroDivisions.term (.error (.eval (.divisionByZero 6))) := by
  have hfresh : Reached {} (fresh 0 {}) := ⟨0, {}, [], [], .nil _⟩
  exact ⟨hfresh, (arithmetic_ends_as_denoted hfresh 0 chosenQuotient).1,
    (arithmetic_ends_as_denoted hfresh 0 twoZeroDivisions).1⟩

end Desk

end SignalCalculus
