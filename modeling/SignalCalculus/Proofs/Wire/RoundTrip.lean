import SignalCalculus.Proofs.Wire.Message

set_option autoImplicit false

namespace SignalCalculus.Wire

open Text

theorem groupsFor_holds (count : Nat) : count ≤ groupsFor count * groupSize := by
  simp only [groupsFor, groupSize]
  omega

def magnitudeGroups (n : Nat) : Nat := groupsFor (Nat.toDigits 2 n).length

def magnitudeField (n : Nat) : List Char :=
  List.replicate (magnitudeGroups n * groupSize - (Nat.toDigits 2 n).length) '0' ++ Nat.toDigits 2 n

theorem magnitudeBits_eq (n : Nat) :
    magnitudeBits n = List.replicate (magnitudeGroups n) '1' ++ '0' :: magnitudeField n := rfl

theorem isBits_magnitudeField (n : Nat) : IsBits (magnitudeField n) :=
  isBits_append.2 ⟨isBits_replicate _ (.inl rfl), isBits_toDigits n⟩

theorem length_magnitudeField (n : Nat) :
    (magnitudeField n).length = magnitudeGroups n * groupSize := by
  have hfits := groupsFor_holds (Nat.toDigits 2 n).length
  change _ ≤ magnitudeGroups n * groupSize at hfits
  simp only [magnitudeField, List.length_append, List.length_replicate]
  omega

theorem ofDigitChars_magnitudeField (n : Nat) : Nat.ofDigitChars 2 (magnitudeField n) 0 = n := by
  rw [magnitudeField, Nat.ofDigitChars_append, Nat.ofDigitChars_replicate_zero, Nat.mul_zero]
  exact Nat.ofDigitChars_toDigits (by decide) (by decide)

theorem numberBits_of_ne_zero {n : Int} (hz : n ≠ 0) :
    numberBits n = signBits (decide (n < 0)) ++ magnitudeBits n.natAbs := by
  by_cases hn : n < 0
  · have hp : ¬0 < n := by omega
    simp [numberBits, signBits, hz, hp, hn]
  · have hp : 0 < n := by omega
    simp [numberBits, signBits, hz, hp, hn]

theorem signed_natAbs (n : Int) : signed (decide (n < 0)) n.natAbs = n := by
  simp only [signed, decide_eq_true_eq]
  split <;> omega

namespace Message

/-- The derivation that a number is written by: zero has no groups, and other numbers have no more
    groups than they need. -/
def ofNumber (n : Int) : Message :=
  if n = 0 then number false 0 [] isBits_nil rfl
  else
    number (decide (n < 0)) (magnitudeGroups n.natAbs) (magnitudeField n.natAbs)
      (isBits_magnitudeField _) (length_magnitudeField _)

def ofValue : Value → Message
  | .nil => nil
  | .num n => ofNumber n
  | .pair left right => pair (ofValue left) (ofValue right)

theorem text_ofNumber (n : Int) : (ofNumber n).text = numberBits n := by
  by_cases hz : n = 0
  · subst hz
    rfl
  · rw [ofNumber, if_neg hz, text_number, numberBits_of_ne_zero hz, magnitudeBits_eq]

theorem value_ofNumber (n : Int) : (ofNumber n).value = .num n := by
  by_cases hz : n = 0
  · subst hz
    rfl
  · rw [ofNumber, if_neg hz, value, ofDigitChars_magnitudeField, signed_natAbs]

end Message

theorem valueBitsOnto_eq (value : Value) (rest : List Char) :
    valueBitsOnto value rest = valueBits value ++ rest := by
  induction value generalizing rest with
  | nil => rfl
  | num n => simp [valueBits, valueBitsOnto]
  | pair left right ihl ihr =>
    simp only [valueBits, valueBitsOnto]
    rw [ihl, ihr, ihl (valueBitsOnto right [])]
    simp [valueBits]

theorem valueBits_pair (left right : Value) :
    valueBits (.pair left right) = '1' :: '1' :: (valueBits left ++ valueBits right) := by
  rw [valueBits, valueBitsOnto, valueBitsOnto_eq left]
  rfl

namespace Message

theorem text_ofValue (value : Value) : (ofValue value).text = valueBits value := by
  induction value with
  | nil => rfl
  | num n => exact (text_ofNumber n).trans (List.append_nil _).symm
  | pair left right ihl ihr => rw [ofValue, text_pair, ihl, ihr, valueBits_pair]

theorem value_ofValue (v : Value) : (ofValue v).value = v := by
  induction v with
  | nil => rfl
  | num n => exact value_ofNumber n
  | pair left right ihl ihr => rw [ofValue, value, ihl, ihr]

end Message

theorem readValue_valueBits (value : Value) (rest : List Char) (pos : Nat) :
    readValue (valueBits value ++ rest) pos =
      .ok (value, pos + (valueBits value).length, rest) := by
  have hread := readValue_text (Message.ofValue value) rest pos
  rwa [Message.text_ofValue, Message.value_ofValue] at hread

theorem demodulateChars_valueBits (value : Value) :
    demodulateChars (valueBits value) = .ok value := by
  have hread := demodulateChars_text (Message.ofValue value)
  rwa [Message.text_ofValue, Message.value_ofValue] at hread

theorem length_modulate (value : Value) : (modulate value).length = (valueBits value).length := by
  simp [modulate]

theorem readValueAt_append (value : Value) (before after : String) :
    readValueAt (before ++ modulate value ++ after) before.length =
      .ok (value, before.length + (modulate value).length) := by
  have htext : (before ++ modulate value ++ after).toList.drop before.length =
      valueBits value ++ after.toList := by
    simp [modulate, String.toList_append, ← String.length_toList]
  rw [readValueAt, htext, readValue_valueBits, length_modulate]
  rfl

/-- Reads so many values one behind the other, from a place of a text on: the values and the place
    behind the last one. -/
def readValuesAt (text : String) : Nat → Nat → Except WireError (List Value × Nat)
  | 0, pos => .ok ([], pos)
  | count + 1, pos => do
    let (value, pos) ← readValueAt text pos
    let (values, pos) ← readValuesAt text count pos
    return (value :: values, pos)

theorem readValuesAt_append (values : List Value) (before after : String) :
    readValuesAt (before ++ String.join (values.map modulate) ++ after) values.length
      before.length =
      .ok (values, before.length + (String.join (values.map modulate)).length) := by
  induction values generalizing before with
  | nil => simp [readValuesAt, String.join]
  | cons value rest ih =>
    have htext : before ++ String.join ((value :: rest).map modulate) ++ after =
        before ++ modulate value ++ String.join (rest.map modulate) ++ after := by
      simp [String.append_assoc]
    have hfirst := readValueAt_append value before (String.join (rest.map modulate) ++ after)
    have hrest := ih (before ++ modulate value)
    rw [← String.append_assoc] at hfirst
    rw [String.length_append] at hrest
    rw [htext, List.length_cons, readValuesAt, hfirst]
    simp only [bind, Except.bind, hrest]
    simp [pure, Except.pure, Nat.add_assoc]

/-- The message of a value is read back wherever it stands, whatever stands around it; a text that
    is one message is read back whole; and messages one behind the other are read back one by
    one. -/
theorem values_frame_themselves :
    (∀ (value : Value) (before after : String),
      readValueAt (before ++ modulate value ++ after) before.length =
        .ok (value, before.length + (modulate value).length)) ∧
    (∀ value : Value, demodulate (modulate value) = .ok value) ∧
    ∀ (values : List Value) (before after : String),
      readValuesAt (before ++ String.join (values.map modulate) ++ after) values.length
          before.length =
        .ok (values, before.length + (String.join (values.map modulate)).length) := by
  refine ⟨readValueAt_append, ?_, readValuesAt_append⟩
  intro value
  simp only [demodulate, modulate, String.toList_ofList]
  exact demodulateChars_valueBits value

end SignalCalculus.Wire
