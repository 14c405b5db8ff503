import SignalCalculus.Proofs.Wire.Field
import SignalCalculus.Wire.Value

set_option autoImplicit false

/-!
# Messages

The grammar of the wire: a message is `00`, or `11` with two messages behind it, or a number, which
is a sign, a unary width and so many groups of bits. A derivation of a message spells a text and
stands for a value. Wherever the text of a derivation stands, the reader reads its value and stops
right behind it.
-/

namespace SignalCalculus.Wire

def signBits (negative : Bool) : List Char := if negative then ['1', '0'] else ['0', '1']

def signed (negative : Bool) (magnitude : Nat) : Int :=
  if negative then -(magnitude : Int) else magnitude

theorem sign?_signBits (negative : Bool) (rest : List Char) :
    sign? (signBits negative ++ rest) = some (if negative then -1 else 1, rest) := by
  cases negative <;> rfl

theorem takeWhile_width (groups : Nat) (rest : List Char) :
    (List.replicate groups '1' ++ '0' :: rest).takeWhile (· != '0') =
      List.replicate groups '1' := by
  rw [List.takeWhile_append_of_pos]
  · simp
  · intro c hc
    obtain rfl := List.eq_of_mem_replicate hc
    rfl

theorem dropWhile_width (groups : Nat) (rest : List Char) :
    (List.replicate groups '1' ++ '0' :: rest).dropWhile (· != '0') = '0' :: rest := by
  rw [List.dropWhile_append_of_pos]
  · simp
  · intro c hc
    obtain rfl := List.eq_of_mem_replicate hc
    rfl

/-- A sign, a width and a field of so many groups are read as the signed number of the field,
    whether or not the field starts with a group of zeros. -/
theorem readNumber_fields (negative : Bool) (groups : Nat) (field rest : List Char) (pos : Nat)
    (hbits : IsBits field) (hlen : field.length = groups * groupSize) :
    readNumber (signBits negative ++ (List.replicate groups '1' ++ '0' :: (field ++ rest))) pos =
      .ok (signed negative (Nat.ofDigitChars 2 field 0), pos + 3 + groups + groups * groupSize,
        rest) := by
  have htake : (field ++ rest).take (groups * groupSize) = field := by
    rw [← hlen, List.take_left]
  have hdrop : (field ++ rest).drop (groups * groupSize) = rest := by
    rw [← hlen, List.drop_left]
  simp only [readNumber, sign?_signBits, takeWhile_width, dropWhile_width, List.length_replicate,
    htake, hdrop, hlen, Nat.lt_irrefl, if_false]
  by_cases hg : groups = 0
  · subst hg
    obtain rfl : field = [] := List.eq_nil_of_length_eq_zero (by simpa using hlen)
    cases negative <;> simp [signed]
  · have hne : field ≠ [] := by
      intro hf
      simp only [hf, List.length_nil, groupSize] at hlen
      omega
    simp only [if_neg hg, binary?_of_isBits hbits hne]
    cases negative <;> simp [signed]

def readOn (cells : List (Cell Unit Value)) (value : Value) (text : List Char) (pos : Nat) :
    Except WireError (Value × Nat × List Char) :=
  match place Value.pair cells value with
  | .whole whole => .ok (whole, pos, text)
  | .next _ cells => readInside cells text pos

def readBehind (cells : List (Cell Unit Value)) (text : List Char) (pos : Nat) :
    Item → Except WireError (Value × Nat × List Char)
  | .pair => readInside (.left () :: cells) text pos
  | .leaf value => readOn cells value text pos

theorem readInside_item {cells : List (Cell Unit Value)} {text rest : List Char} {pos pos' : Nat}
    {item : Item} (h : readItem text pos = .ok (item, pos', rest)) :
    readInside cells text pos = readBehind cells rest pos' item := by
  rw [readInside]
  split
  · rename_i e he
    rw [h] at he
    cases he
  · rename_i item p r hr
    rw [h] at hr
    cases hr
    cases item <;> rfl

/-- A derivation of a message. The magnitude of a number may start with groups of zeros, and zero
    may have either sign. -/
inductive Message where
  | nil
  | pair (left right : Message)
  | number (negative : Bool) (groups : Nat) (field : List Char) (bits : IsBits field)
      (size : field.length = groups * groupSize)

namespace Message

/-- The fields of a message in order; a field is the tag of a list or a whole number. -/
def fields : Message → List (List Char)
  | nil => [['0', '0']]
  | pair left right => ['1', '1'] :: (left.fields ++ right.fields)
  | number negative groups field _ _ =>
    [signBits negative ++ (List.replicate groups '1' ++ '0' :: field)]

def text (message : Message) : List Char := message.fields.flatten

def value : Message → Value
  | nil => .nil
  | pair left right => .pair left.value right.value
  | number negative _ field _ _ => .num (signed negative (Nat.ofDigitChars 2 field 0))

@[simp] theorem text_nil : nil.text = ['0', '0'] := rfl

@[simp] theorem text_pair (left right : Message) :
    (pair left right).text = '1' :: '1' :: (left.text ++ right.text) := by
  simp [text, fields]

@[simp] theorem text_number (negative : Bool) (groups : Nat) (field : List Char)
    (bits : IsBits field) (size : field.length = groups * groupSize) :
    (number negative groups field bits size).text =
      signBits negative ++ (List.replicate groups '1' ++ '0' :: field) := by
  simp [text, fields]

end Message

theorem length_signBits (negative : Bool) : (signBits negative).length = 2 := by
  cases negative <;> rfl

theorem readItem_of_readNumber {text rest : List Char} {pos pos' : Nat} {n : Int}
    (h : readNumber text pos = .ok (n, pos', rest)) :
    readItem text pos = .ok (.leaf (.num n), pos', rest) := by
  unfold readItem
  split
  · cases h
  · cases h
  · rw [h]
    rfl

/-- Inside any cells, the text of a message is read as its value, and reading goes on behind it. -/
theorem readInside_text (message : Message) (cells : List (Cell Unit Value)) (rest : List Char)
    (pos : Nat) :
    readInside cells (message.text ++ rest) pos =
      readOn cells message.value rest (pos + message.text.length) := by
  induction message generalizing cells rest pos with
  | nil =>
    have hitem : readItem (Message.nil.text ++ rest) pos = .ok (.leaf .nil, pos + 2, rest) := rfl
    exact readInside_item hitem
  | number negative groups field bits size =>
    have hread := readNumber_fields negative groups field rest pos bits size
    have hlen : pos + (Message.number negative groups field bits size).text.length =
        pos + 3 + groups + groups * groupSize := by
      simp only [Message.text_number, List.length_append, List.length_cons, List.length_replicate,
        length_signBits, size]
      omega
    rw [hlen, Message.text_number, List.append_assoc, List.append_assoc, List.cons_append]
    exact readInside_item (readItem_of_readNumber hread)
  | pair left right ihl ihr =>
    have hlen : pos + (Message.pair left right).text.length =
        pos + 2 + left.text.length + right.text.length := by
      simp only [Message.text_pair, List.length_cons, List.length_append]
      omega
    rw [hlen, Message.text_pair]
    simp only [List.cons_append, List.append_assoc]
    -- The left half fills the cell that was opened, and the right half is read inside it.
    have hitem : readItem ('1' :: '1' :: (left.text ++ (right.text ++ rest))) pos =
        .ok (.pair, pos + 2, left.text ++ (right.text ++ rest)) := rfl
    rw [readInside_item hitem, readBehind, ihl]
    change readInside (.right left.value :: cells) (right.text ++ rest) _ = _
    rw [ihr]
    rfl

theorem readValue_text (message : Message) (rest : List Char) (pos : Nat) :
    readValue (message.text ++ rest) pos =
      .ok (message.value, pos + message.text.length, rest) :=
  readInside_text message [] rest pos

theorem Message.isBits_text (message : Message) : IsBits message.text := by
  induction message with
  | nil => simp [IsBits]
  | pair left right ihl ihr =>
    rw [text_pair]
    exact isBits_cons.2 ⟨.inr rfl, isBits_cons.2 ⟨.inr rfl, isBits_append.2 ⟨ihl, ihr⟩⟩⟩
  | number negative groups field bits size =>
    have hsign : IsBits (signBits negative) := by cases negative <;> simp [signBits, IsBits]
    rw [text_number]
    exact isBits_append.2 ⟨hsign, isBits_append.2
      ⟨isBits_replicate _ (.inr rfl), isBits_cons.2 ⟨.inl rfl, bits⟩⟩⟩

theorem demodulateChars_text (message : Message) :
    demodulateChars message.text = .ok message.value := by
  have hread := readValue_text message [] 0
  rw [List.append_nil] at hread
  rw [demodulateChars, firstInvalid?_eq_none message.isBits_text, hread]

end SignalCalculus.Wire
