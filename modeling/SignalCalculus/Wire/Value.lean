import SignalCalculus.Value.Basic
import SignalCalculus.Wire.Number

set_option autoImplicit false

namespace SignalCalculus.Wire

open Text

def valueBitsOnto : Value → List Char → List Char
  | .nil, rest => '0' :: '0' :: rest
  | .num n, rest => numberBits n ++ rest
  | .pair left right, rest => '1' :: '1' :: valueBitsOnto left (valueBitsOnto right rest)

def valueBits (value : Value) : List Char := valueBitsOnto value []

inductive Item where
  | pair
  | leaf (value : Value)

def readItem (text : List Char) (pos : Nat) : Except WireError (Item × Nat × List Char) :=
  match text with
  | '0' :: '0' :: rest => .ok (.leaf .nil, pos + 2, rest)
  | '1' :: '1' :: rest => .ok (.pair, pos + 2, rest)
  | text => (readNumber text pos).map fun (n, pos, rest) => (.leaf (.num n), pos, rest)

theorem readItem_shorter {text : List Char} {pos : Nat} {item : Item} {pos' : Nat}
    {rest : List Char} (h : readItem text pos = .ok (item, pos', rest)) :
    rest.length < text.length := by
  unfold readItem at h
  split at h
  · cases h; simp only [List.length_cons]; omega
  · cases h; simp only [List.length_cons]; omega
  · cases hn : readNumber text pos with
    | error e => rw [hn] at h; cases h
    | ok r =>
      obtain ⟨n, p, tail⟩ := r
      rw [hn] at h
      cases h
      exact readNumber_shorter hn

/-- Reads the value at the start of a text that stands at `pos`, inside the given cells: the value,
    the place behind it and the text from there on. -/
def readInside (cells : List (Cell Unit Value)) (text : List Char) (pos : Nat) :
    Except WireError (Value × Nat × List Char) :=
  match h : readItem text pos with
  | .error e => .error e
  | .ok (item, pos', rest) =>
    have : rest.length < text.length := readItem_shorter h
    match item with
    | .pair => readInside (.left () :: cells) rest pos'
    | .leaf value =>
      match place Value.pair cells value with
      | .whole whole => .ok (whole, pos', rest)
      | .next _ cells => readInside cells rest pos'
termination_by text.length

def readValue (text : List Char) (pos : Nat) : Except WireError (Value × Nat × List Char) :=
  readInside [] text pos

def readValueAt (text : String) (pos : Nat) : Except WireError (Value × Nat) :=
  (readValue (text.toList.drop pos) pos).map fun (value, pos, _) => (value, pos)

/-- The value whose message is the whole text. -/
def demodulateChars (text : List Char) : Except WireError Value :=
  match firstInvalid? 0 text with
  | some (pos, c) => .error (.invalidBit pos c)
  | none =>
    match readValue text 0 with
    | .error e => .error e
    | .ok (value, _, []) => .ok value
    | .ok (_, pos, rest) => .error (.trailing pos rest)

def demodulate (text : String) : Except WireError Value := demodulateChars text.toList

def modulate (value : Value) : String := String.ofList (valueBits value)

end SignalCalculus.Wire
