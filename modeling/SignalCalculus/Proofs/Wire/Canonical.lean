import Mathlib.Algebra.Group.Nat.Defs
import SignalCalculus.Proofs.Wire.Grammar
import SignalCalculus.Proofs.Wire.RoundTrip

set_option autoImplicit false

namespace SignalCalculus.Wire

variable {field : List Char}

theorem ofDigitChars_behind (field : List Char) (start : Nat) :
    Nat.ofDigitChars 2 field start = start * 2 ^ field.length + Nat.ofDigitChars 2 field 0 := by
  induction field generalizing start with
  | nil => simp
  | cons c rest ih =>
    have hshift : 2 * start * 2 ^ rest.length = start * 2 ^ (rest.length + 1) := by
      rw [Nat.mul_comm 2 start, Nat.mul_assoc, Nat.pow_succ']
    rw [Nat.ofDigitChars_cons, Nat.ofDigitChars_cons, ih, ih (2 * 0 + _), Nat.add_mul, hshift,
      List.length_cons, Nat.mul_zero, Nat.zero_add, Nat.add_assoc]

theorem ofDigitChars_lt (h : IsBits field) : Nat.ofDigitChars 2 field 0 < 2 ^ field.length := by
  induction field with
  | nil => simp
  | cons c rest ih =>
    obtain ⟨hc, hrest⟩ := isBits_cons.1 h
    have hlt := ih hrest
    have hdigit : c.toNat - '0'.toNat ≤ 1 := by obtain rfl | rfl := hc <;> decide
    have hfirst := Nat.mul_le_mul_right (2 ^ rest.length) hdigit
    rw [Nat.ofDigitChars_cons, ofDigitChars_behind, List.length_cons, Nat.pow_succ, Nat.mul_zero,
      Nat.zero_add]
    omega

theorem ofDigitChars_injective {other : List Char} (h : IsBits field) (hother : IsBits other)
    (hlen : field.length = other.length)
    (heq : Nat.ofDigitChars 2 field 0 = Nat.ofDigitChars 2 other 0) : field = other := by
  induction field generalizing other with
  | nil => exact (List.eq_nil_of_length_eq_zero hlen.symm).symm
  | cons c rest ih =>
    cases other with
    | nil => cases hlen
    | cons d rest' =>
      obtain ⟨hc, hrest⟩ := isBits_cons.1 h
      obtain ⟨hd, hrest'⟩ := isBits_cons.1 hother
      have hlen' : rest.length = rest'.length := Nat.succ.inj hlen
      have hlt := ofDigitChars_lt hrest
      have hlt' := ofDigitChars_lt hrest'
      rw [Nat.ofDigitChars_cons, Nat.ofDigitChars_cons, ofDigitChars_behind,
        ofDigitChars_behind rest', hlen'] at heq
      rw [hlen'] at hlt
      -- The first digits differ by a whole power of two, which the rests cannot make up for.
      obtain rfl | rfl := hc <;> obtain rfl | rfl := hd <;> simp at heq
      · rw [ih hrest hrest' hlen' heq]
      · omega
      · omega
      · rw [ih hrest hrest' hlen' heq]

/-- A field starts with a group of zeros if and only if fewer groups have room for its number. -/
theorem take_eq_zeros_iff {groups : Nat} (h : IsBits field)
    (hlen : field.length = (groups + 1) * groupSize) :
    field.take groupSize = List.replicate groupSize '0' ↔
      Nat.ofDigitChars 2 field 0 < 2 ^ (groups * groupSize) := by
  have htake : IsBits (field.take groupSize) := fun c hc => h c (List.mem_of_mem_take hc)
  have hdrop : IsBits (field.drop groupSize) := fun c hc => h c (List.mem_of_mem_drop hc)
  have hsize : (field.take groupSize).length = groupSize := by
    rw [List.length_take, hlen]
    simp only [groupSize]
    omega
  have hrest : (field.drop groupSize).length = groups * groupSize := by
    rw [List.length_drop, hlen]
    simp only [groupSize]
    omega
  have hvalue : Nat.ofDigitChars 2 field 0 =
      Nat.ofDigitChars 2 (field.take groupSize) 0 * 2 ^ (groups * groupSize) +
        Nat.ofDigitChars 2 (field.drop groupSize) 0 := by
    rw [← hrest, ← ofDigitChars_behind, ← Nat.ofDigitChars_append, List.take_append_drop]
  have hlt := ofDigitChars_lt hdrop
  rw [hrest] at hlt
  constructor
  · intro hzeros
    rw [hvalue, hzeros, Nat.ofDigitChars_replicate_zero]
    simpa using hlt
  · intro hsmall
    have hzero : Nat.ofDigitChars 2 (field.take groupSize) 0 = 0 := by
      refine Nat.eq_zero_of_not_pos fun hpos => ?_
      have hle := Nat.le_mul_of_pos_left (2 ^ (groups * groupSize)) hpos
      omega
    refine ofDigitChars_injective htake (isBits_replicate _ (.inl rfl)) ?_ ?_
    · rw [hsize, List.length_replicate]
    · rw [hzero, Nat.ofDigitChars_replicate_zero, Nat.mul_zero]

theorem magnitudeGroups_le_iff {n groups : Nat} (hn : n ≠ 0) :
    magnitudeGroups n ≤ groups ↔ n < 2 ^ (groups * groupSize) := by
  have hfits : magnitudeGroups n ≤ groups ↔ (Nat.toDigits 2 n).length ≤ groups * groupSize := by
    simp only [magnitudeGroups, groupsFor, groupSize]
    omega
  rw [hfits]
  cases groups with
  | zero =>
    have hpos := Nat.length_toDigits_pos (b := 2) (n := n)
    simp only [Nat.zero_mul, Nat.pow_zero]
    omega
  | succ groups =>
    refine Nat.length_toDigits_le_iff (by decide) ?_
    simp only [groupSize]
    omega

namespace Message

/-- A number field as it is written: no groups behind a plus sign only, and no group of zeros in
    front of others. -/
def CanonicalNumber (negative : Bool) (groups : Nat) (field : List Char) : Prop :=
  (groups = 0 → negative = false) ∧
    (0 < groups → field.take groupSize ≠ List.replicate groupSize '0')

def Canonical : Message → Prop
  | nil => True
  | pair left right => left.Canonical ∧ right.Canonical
  | number negative groups field _ _ => CanonicalNumber negative groups field

theorem length_text_number (negative : Bool) (groups : Nat) (bits : IsBits field)
    (size : field.length = groups * groupSize) :
    (number negative groups field bits size).text.length = 3 + groups + groups * groupSize := by
  simp only [text_number, List.length_append, List.length_cons, List.length_replicate,
    length_signBits, size]
  omega

theorem ofNumber_zero :
    ofNumber 0 = number false 0 [] isBits_nil (Nat.zero_mul groupSize).symm := rfl

theorem ofNumber_signed (negative : Bool) {n : Nat} (hn : n ≠ 0) :
    ofNumber (signed negative n) =
      number negative (magnitudeGroups n) (magnitudeField n) (isBits_magnitudeField n)
        (length_magnitudeField n) := by
  have hsigned : signed negative n ≠ 0 := by cases negative <;> simp [signed, hn]
  have hneg : decide (signed negative n < 0) = negative := by
    cases negative with
    | false => simp [signed]
    | true =>
      simp [signed]
      omega
  have habs : (signed negative n).natAbs = n := by cases negative <;> simp [signed]
  rw [ofNumber, if_neg hsigned]
  simp only [hneg, habs]

theorem signed_zero (negative : Bool) : signed negative 0 = 0 := by cases negative <;> rfl

theorem magnitudeGroups_le {groups : Nat} (bits : IsBits field)
    (size : field.length = groups * groupSize) (hn : Nat.ofDigitChars 2 field 0 ≠ 0) :
    magnitudeGroups (Nat.ofDigitChars 2 field 0) ≤ groups := by
  rw [magnitudeGroups_le_iff hn, ← size]
  exact ofDigitChars_lt bits

theorem length_ofNumber_le (negative : Bool) (groups : Nat) (bits : IsBits field)
    (size : field.length = groups * groupSize) :
    (ofNumber (signed negative (Nat.ofDigitChars 2 field 0))).text.length ≤
      (number negative groups field bits size).text.length := by
  rw [length_text_number]
  by_cases hn : Nat.ofDigitChars 2 field 0 = 0
  · rw [hn, signed_zero, ofNumber_zero, length_text_number]
    omega
  · have hle := magnitudeGroups_le bits size hn
    rw [ofNumber_signed negative hn, length_text_number]
    simp only [groupSize]
    omega

theorem ofNumber_eq_iff (negative : Bool) (groups : Nat) (bits : IsBits field)
    (size : field.length = groups * groupSize) :
    ofNumber (signed negative (Nat.ofDigitChars 2 field 0)) =
        number negative groups field bits size ↔
      CanonicalNumber negative groups field := by
  cases groups with
  | zero =>
    obtain rfl : field = [] := List.eq_nil_of_length_eq_zero (by simpa using size)
    rw [Nat.ofDigitChars_nil, signed_zero, ofNumber_zero]
    cases negative <;> simp [CanonicalNumber]
  | succ groups =>
    have hpadded := take_eq_zeros_iff bits size
    by_cases hn : Nat.ofDigitChars 2 field 0 = 0
    · -- A zero with groups is padded.
      rw [hn] at hpadded
      rw [hn, signed_zero, ofNumber_zero]
      simp [CanonicalNumber, hpadded.2 (Nat.two_pow_pos _)]
    · have hle := magnitudeGroups_le bits size hn
      rw [ofNumber_signed negative hn]
      have hgroups : CanonicalNumber negative (groups + 1) field ↔
          magnitudeGroups (Nat.ofDigitChars 2 field 0) = groups + 1 := by
        rw [CanonicalNumber, Ne, hpadded, ← magnitudeGroups_le_iff hn]
        omega
      rw [hgroups]
      constructor
      · intro heq
        rw [number.injEq] at heq
        exact heq.2.1
      · intro heq
        have hfield : magnitudeField (Nat.ofDigitChars 2 field 0) = field := by
          refine ofDigitChars_injective (isBits_magnitudeField _) bits ?_
            (ofDigitChars_magnitudeField _)
          rw [length_magnitudeField, heq, size]
        simp [heq, hfield]

theorem length_ofValue_le (message : Message) :
    (ofValue message.value).text.length ≤ message.text.length := by
  induction message with
  | nil => exact Nat.le_refl _
  | pair left right ihl ihr =>
    simp only [value, ofValue, text_pair, List.length_cons, List.length_append]
    omega
  | number negative groups field bits size => exact length_ofNumber_le negative groups bits size

theorem ofValue_eq_iff (message : Message) :
    ofValue message.value = message ↔ message.Canonical := by
  induction message with
  | nil => exact iff_of_true rfl trivial
  | pair left right ihl ihr => rw [value, ofValue, pair.injEq, ihl, ihr, Canonical]
  | number negative groups field bits size => exact ofNumber_eq_iff negative groups bits size

end Message

theorem exists_message_of_demodulate {text : List Char} {value : Value}
    (h : demodulateChars text = .ok value) :
    ∃ message : Message, message.text = text ∧ message.value = value := by
  by_cases hbits : IsBits text
  · obtain ⟨message, rest, rfl⟩ | ⟨message, more, hmore, htext⟩ := messageOrCut_of_isBits text hbits
    · by_cases hrest : rest = []
      · subst hrest
        rw [List.append_nil, demodulateChars_text] at h
        cases h
        exact ⟨message, (List.append_nil _).symm, rfl⟩
      · rw [demodulateChars_trailing hrest hbits] at h
        cases h
    · obtain ⟨start, cut, -, hread⟩ := readInside_cut message hmore htext [] 0
      rw [demodulateChars_error hbits hread] at h
      cases h
  · obtain ⟨before, c, after, rfl, hbefore, hc⟩ := exists_first_invalid hbits
    rw [demodulateChars_invalid hbefore hc] at h
    cases h

/-- A text that is read as a value is no shorter than the text that the value is written as, and it
    is that text if and only if every number field of its only derivation is canonical. -/
theorem modulate_is_shortest (text : String) (value : Value) (h : demodulate text = .ok value) :
    (modulate value).length ≤ text.length ∧
    ∃ message : Message, message.text = text.toList ∧
      (∀ other : Message, other.text = text.toList → other = message) ∧
      (modulate value = text ↔ message.Canonical) := by
  obtain ⟨message, htext, rfl⟩ := exists_message_of_demodulate h
  refine ⟨?_, message, htext, ?_, ?_⟩
  · rw [length_modulate, ← String.length_toList, ← htext, ← Message.text_ofValue]
    exact message.length_ofValue_le
  · exact fun other hother => Message.text_injective (hother.trans htext.symm)
  · rw [← message.ofValue_eq_iff]
    constructor
    · intro hsame
      refine Message.text_injective ?_
      rw [htext, ← hsame, modulate, String.toList_ofList, Message.text_ofValue]
    · intro hsame
      rw [modulate, ← Message.text_ofValue, hsame, htext, String.ofList_toList]

/-- A pair of a number with a group of zeros in front and a zero with a minus sign. -/
theorem padded_pair_shortened :
    demodulate "111011000000101100" = .ok (.pair (.num (-5)) (.num 0)) ∧
    (modulate (.pair (.num (-5)) (.num 0))).length ≤ "111011000000101100".length ∧
    modulate (.pair (.num (-5)) (.num 0)) ≠ "111011000000101100" ∧
    ∃ message : Message, message.text = "111011000000101100".toList ∧ ¬message.Canonical := by
  have hread : demodulate "111011000000101100" = .ok (.pair (.num (-5)) (.num 0)) := by cbv
  have hother : modulate (.pair (.num (-5)) (.num 0)) ≠ "111011000000101100" := by cbv
  obtain ⟨hshort, message, htext, -, hsame⟩ := modulate_is_shortest _ _ hread
  exact ⟨hread, hshort, hother, message, htext, fun h => hother (hsame.2 h)⟩

end SignalCalculus.Wire
