import SignalCalculus.Text.Numeral

set_option autoImplicit false

namespace SignalCalculus.Text

theorem toNat_of_isDigit {c : Char} (h : c.isDigit = true) : 48 ≤ c.toNat ∧ c.toNat ≤ 57 := by
  unfold Char.isDigit at h
  rw [Bool.and_eq_true, decide_eq_true_eq, decide_eq_true_eq] at h
  exact ⟨UInt32.le_iff_toNat_le.1 h.1, UInt32.le_iff_toNat_le.1 h.2⟩

theorem isAlpha_of_isDigit {c : Char} (h : c.isDigit = true) : c.isAlpha = false := by
  have hrange := toNat_of_isDigit h
  rw [Bool.eq_false_iff]
  unfold Char.isAlpha Char.isUpper Char.isLower
  simp only [ge_iff_le, ne_eq, Bool.or_eq_true, Bool.and_eq_true, decide_eq_true_eq,
    UInt32.le_iff_toNat_le]
  change ¬((65 ≤ c.toNat ∧ c.toNat ≤ 90) ∨ (97 ≤ c.toNat ∧ c.toNat ≤ 122))
  omega

theorem digit?_of_isDigit {c : Char} (h : c.isDigit = true) : digit? c = some (c.toNat - 48) := by
  have hrange := toNat_of_isDigit h
  have hfirst : (0x30 ≤ c.toNat && c.toNat < 0x30 + 10) = true := by
    simp only [Bool.and_eq_true, decide_eq_true_eq]
    omega
  unfold digit? digitZeros
  rw [List.find?_cons_of_pos (by exact hfirst)]
  rfl

theorem spelled?_of_isDigit {text : List Char} (h : ∀ c ∈ text, c.isDigit = true) :
    spelled? 10 text = some (Nat.ofDigitChars 10 text 0) := by
  unfold spelled?
  generalize 0 = start
  induction text generalizing start with
  | nil => rfl
  | cons c rest ih =>
    have hc := digit?_of_isDigit (h c List.mem_cons_self)
    have hlt := digit?_lt hc
    rw [List.foldl_cons, Nat.ofDigitChars_cons, hc]
    simp only [hlt, if_true]
    exact ih (fun d hd => h d (List.mem_cons_of_mem _ hd)) _

theorem isDigit_of_mem_natural {n : Nat} {c : Char} (h : c ∈ natural n) : c.isDigit = true :=
  Nat.isDigit_of_mem_toDigits (by decide) (by decide) h

theorem natural?_natural (n : Nat) : natural? (natural n) = some n := by
  have hne : (natural n).isEmpty = false := by
    rw [List.isEmpty_eq_false_iff]
    exact Nat.toDigits_ne_nil
  rw [natural?, hne, spelled?_of_isDigit fun c hc => isDigit_of_mem_natural hc]
  exact congrArg some Nat.ofDigitChars_ten_toDigits

theorem natural_ne_minus (n : Nat) (rest : List Char) : natural n ≠ '-' :: rest := by
  intro h
  have hminus : ('-').isDigit = true := isDigit_of_mem_natural (h ▸ List.mem_cons_self)
  exact absurd hminus (by decide)

theorem decimal?_decimal (n : Int) : decimal? (decimal n) = some n := by
  unfold decimal
  split
  · rename_i hneg
    have hback : -(n.natAbs : Int) = n := by omega
    rw [decimal?, natural?_natural]
    exact congrArg some hback
  · rename_i hneg
    unfold decimal?
    split
    · rename_i rest heq
      exact absurd heq (natural_ne_minus _ _)
    · rw [natural?_natural]
      exact congrArg some (Int.natAbs_of_nonneg (by omega))

theorem decimal_ne_nil (n : Int) : decimal n ≠ [] := by
  unfold decimal
  split
  · exact List.cons_ne_nil _ _
  · exact Nat.toDigits_ne_nil

theorem mem_decimal {n : Int} {c : Char} (h : c ∈ decimal n) : c = '-' ∨ c.isDigit = true := by
  unfold decimal at h
  split at h
  · exact (List.mem_cons.1 h).imp_right isDigit_of_mem_natural
  · exact .inr (isDigit_of_mem_natural h)

theorem decimal?_eq_none {c : Char} {rest : List Char} (hminus : c ≠ '-') (hdigit : digit? c = none) :
    decimal? (c :: rest) = none := by
  have hspoilt : spelled? 10 (c :: rest) = none := by
    unfold spelled?
    rw [List.foldl_cons, hdigit]
    induction rest with
    | nil => rfl
    | cons d rest ih => exact ih
  unfold decimal?
  split
  · rename_i heq
    exact absurd (List.cons.inj heq).1 hminus
  · rw [natural?, hspoilt]
    rfl

def EndsNumeral (rest : List Char) : Prop := ∀ c ∈ rest.head?, c.isDigit = false

theorem takeWhile_natural {rest : List Char} (h : EndsNumeral rest) (n : Nat) :
    (natural n ++ rest).takeWhile Char.isDigit = natural n := by
  have hrest : rest.takeWhile Char.isDigit = [] := by
    cases rest with
    | nil => rfl
    | cons c rest => simp [h c rfl]
  rw [List.takeWhile_append_of_pos fun c hc => isDigit_of_mem_natural hc, hrest, List.append_nil]

theorem natural_append_inj {n m : Nat} {rest rest' : List Char} (hrest : EndsNumeral rest)
    (hrest' : EndsNumeral rest') (h : natural n ++ rest = natural m ++ rest') :
    n = m ∧ rest = rest' := by
  have hdigits := congrArg (List.takeWhile Char.isDigit) h
  rw [takeWhile_natural hrest, takeWhile_natural hrest'] at hdigits
  have hread := congrArg natural? hdigits
  rw [natural?_natural, natural?_natural] at hread
  rw [hdigits] at h
  exact ⟨Option.some.inj hread, List.append_cancel_left h⟩

theorem natural_append_ne_minus (n : Nat) (rest rest' : List Char) :
    natural n ++ rest ≠ '-' :: rest' := by
  cases hn : natural n with
  | nil => exact absurd hn Nat.toDigits_ne_nil
  | cons c cs =>
    intro h
    have hminus : c = '-' := (List.cons.inj h).1
    exact natural_ne_minus n cs (hminus ▸ hn)

/-- A number is cut off where its digits end, so what is written behind it can be told apart. -/
theorem decimal_append_inj {n m : Int} {rest rest' : List Char} (hrest : EndsNumeral rest)
    (hrest' : EndsNumeral rest') (h : decimal n ++ rest = decimal m ++ rest') :
    n = m ∧ rest = rest' := by
  unfold decimal at h
  by_cases hn : n < 0 <;> by_cases hm : m < 0
  · simp only [hn, hm, if_true, List.cons_append, List.cons.injEq, true_and] at h
    obtain ⟨habs, hsame⟩ := natural_append_inj hrest hrest' h
    exact ⟨by omega, hsame⟩
  · simp only [hn, hm, if_true, if_false, List.cons_append] at h
    exact absurd h.symm (natural_append_ne_minus _ _ _)
  · simp only [hn, hm, if_true, if_false, List.cons_append] at h
    exact absurd h (natural_append_ne_minus _ _ _)
  · simp only [hn, hm, if_false] at h
    obtain ⟨habs, hsame⟩ := natural_append_inj hrest hrest' h
    exact ⟨by omega, hsame⟩

theorem decimal_append_ne_cons {c : Char} (hminus : c ≠ '-') (hdigit : c.isDigit = false) (n : Int)
    (rest rest' : List Char) : decimal n ++ rest ≠ c :: rest' := by
  cases hn : decimal n with
  | nil => exact absurd hn (decimal_ne_nil n)
  | cons d cs =>
    intro h
    obtain rfl : d = c := (List.cons.inj h).1
    have hmem : d ∈ decimal n := hn ▸ List.mem_cons_self
    obtain rfl | hd := mem_decimal hmem
    · exact hminus rfl
    · rw [hd] at hdigit
      cases hdigit

end SignalCalculus.Text
