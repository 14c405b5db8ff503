import SignalCalculus.Wire.Number

set_option autoImplicit false

namespace SignalCalculus.Wire

open Text

def IsBits (text : List Char) : Prop := ∀ c ∈ text, c = '0' ∨ c = '1'

theorem isBits_nil : IsBits [] := by
  intro c hc
  cases hc

theorem isBits_cons {c : Char} {text : List Char} :
    IsBits (c :: text) ↔ (c = '0' ∨ c = '1') ∧ IsBits text := by
  simp [IsBits]

theorem isBits_append {first second : List Char} :
    IsBits (first ++ second) ↔ IsBits first ∧ IsBits second := by
  simp [IsBits, or_imp, forall_and]

theorem isBits_replicate (count : Nat) {c : Char} (hc : c = '0' ∨ c = '1') :
    IsBits (List.replicate count c) := by
  intro d hd
  obtain rfl := List.eq_of_mem_replicate hd
  exact hc

theorem isBits_toDigits (n : Nat) : IsBits (Nat.toDigits 2 n) := by
  induction n using Nat.base_induction 2 (by decide) with
  | single m hm =>
    rw [Nat.toDigits_of_lt_base hm]
    obtain rfl | rfl : m = 0 ∨ m = 1 := by omega
    · simp [IsBits]
    · simp [IsBits]
  | digit m k hk hm ih =>
    rw [← Nat.toDigits_append_toDigits (by decide) hm hk, isBits_append]
    refine ⟨ih, ?_⟩
    rw [Nat.toDigits_of_lt_base hk]
    obtain rfl | rfl : k = 0 ∨ k = 1 := by omega
    · simp [IsBits]
    · simp [IsBits]

theorem firstInvalid?_eq_none {text : List Char} (h : IsBits text) (pos : Nat) :
    firstInvalid? pos text = none := by
  induction text generalizing pos with
  | nil => rfl
  | cons c rest ih =>
    obtain ⟨hc, hrest⟩ := isBits_cons.1 h
    rw [firstInvalid?, if_pos hc, ih hrest]

theorem spelled?_of_isBits {text : List Char} (h : IsBits text) :
    spelled? 2 text = some (Nat.ofDigitChars 2 text 0) := by
  unfold spelled?
  -- The digits before the rest of the text are a number of their own.
  generalize 0 = start
  induction text generalizing start with
  | nil => rfl
  | cons c rest ih =>
    obtain ⟨hc, hrest⟩ := isBits_cons.1 h
    rw [Nat.ofDigitChars_cons, List.foldl_cons, ← ih hrest]
    obtain rfl | rfl := hc <;> rfl

theorem underscored?_of_isBits {text : List Char} (h : IsBits text) (hne : text ≠ []) :
    underscored? text = some text := by
  induction text with
  | nil => exact absurd rfl hne
  | cons c rest ih =>
    obtain ⟨hc, hrest⟩ := isBits_cons.1 h
    cases rest with
    | nil => obtain rfl | rfl := hc <;> rfl
    | cons d rest =>
      obtain ⟨hd, -⟩ := isBits_cons.1 hrest
      have tail := ih hrest (by simp)
      have hc' : c ≠ '_' := by obtain rfl | rfl := hc <;> decide
      have hd' : d ≠ '_' := by obtain rfl | rfl := hd <;> decide
      rw [underscored?, if_neg hc', if_neg hd', tail]
      rfl

theorem binaryDigits?_of_isBits {text : List Char} (h : IsBits text) (hne : text ≠ []) :
    binaryDigits? text = some (Nat.ofDigitChars 2 text 0) := by
  unfold binaryDigits?
  split
  · exact absurd h (by simp [IsBits])
  · exact absurd h (by simp [IsBits])
  · exact absurd h (by simp [IsBits])
  · exact absurd h (by simp [IsBits])
  · rw [underscored?_of_isBits h hne]
    exact spelled?_of_isBits h

theorem map_plainDigit {text : List Char} (h : IsBits text) : text.map plainDigit = text := by
  refine (List.map_congr_left fun c hc => ?_).trans text.map_id
  obtain rfl | rfl := h c hc <;> decide

theorem dropWhile_isNumeralBlank {text : List Char} (h : IsBits text) :
    text.dropWhile isNumeralBlank = text := by
  cases text with
  | nil => rfl
  | cons c rest =>
    have hc : isNumeralBlank c = false := by
      obtain rfl | rfl := (isBits_cons.1 h).1 <;> decide
    simp [hc]

theorem binary?_of_isBits {text : List Char} (h : IsBits text) (hne : text ≠ []) :
    binary? text = some (Nat.ofDigitChars 2 text 0 : Int) := by
  have hrev : IsBits text.reverse := fun c hc => h c (List.mem_reverse.1 hc)
  simp only [binary?, map_plainDigit h, dropWhile_isNumeralBlank h, dropWhile_isNumeralBlank hrev,
    List.reverse_reverse]
  split
  · exact absurd h (by simp [IsBits])
  · exact absurd h (by simp [IsBits])
  · rw [binaryDigits?_of_isBits h hne]
    rfl

end SignalCalculus.Wire
