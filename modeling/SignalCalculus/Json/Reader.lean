import SignalCalculus.Json.Basic

set_option autoImplicit false

namespace SignalCalculus.Json

open Text

def isGap (c : Char) : Bool := c == ' ' || c == '\n' || c == '\r' || c == '\t'

def skipGap (text : List Char) : List Char := text.dropWhile isGap

def hexDigit? (c : Char) : Option Nat :=
  if '0' ≤ c ∧ c ≤ '9' then some (c.toNat - '0'.toNat)
  else if 'a' ≤ c ∧ c ≤ 'f' then some (c.toNat - 'a'.toNat + 10)
  else if 'A' ≤ c ∧ c ≤ 'F' then some (c.toNat - 'A'.toNat + 10)
  else none

def unit? (a b c d : Char) : Option Nat := do
  return (((← hexDigit? a) * 16 + (← hexDigit? b)) * 16 + (← hexDigit? c)) * 16 + (← hexDigit? d)

def shortEscape? (c : Char) : Option Char :=
  if c = '"' ∨ c = '\\' ∨ c = '/' then some c
  else if c = 'n' then some '\n'
  else if c = 'r' then some '\r'
  else if c = 't' then some '\t'
  else if c = 'b' then some (Char.ofNat 8)
  else if c = 'f' then some (Char.ofNat 12)
  else none

/-- The rest of a string, `held` being its characters so far, last first. -/
def readString (held : List Char) : List Char → Option (String × List Char)
  | [] => none
  | '"' :: rest => some (String.ofList held.reverse, rest)
  | '\\' :: 'u' :: a :: b :: c :: d :: '\\' :: 'u' :: e :: f :: g :: h :: rest => do
    let high ← unit? a b c d
    let low ← unit? e f g h
    if 0xD800 ≤ high ∧ high < 0xDC00 ∧ 0xDC00 ≤ low ∧ low < 0xE000 then
      readString (Char.ofNat (0x10000 + (high - 0xD800) * 0x400 + (low - 0xDC00)) :: held) rest
    else readString (Char.ofNat high :: held) ('\\' :: 'u' :: e :: f :: g :: h :: rest)
  | '\\' :: 'u' :: a :: b :: c :: d :: rest => do
    readString (Char.ofNat (← unit? a b c d) :: held) rest
  | '\\' :: c :: rest => do readString ((← shortEscape? c) :: held) rest
  | c :: rest => readString (c :: held) rest

def isNumberChar (c : Char) : Bool :=
  c.isDigit || c == '-' || c == '+' || c == '.' || c == 'e' || c == 'E'

def float? (text : List Char) : Option Float := do
  let negative := text.head? == some '-'
  let body := if negative then text.drop 1 else text
  let mantissa := body.takeWhile fun c => c != 'e' && c != 'E'
  let exponent := (body.dropWhile fun c => c != 'e' && c != 'E').drop 1
  let whole := mantissa.takeWhile (· != '.')
  let fraction := (mantissa.dropWhile (· != '.')).drop 1
  let digits ← natural? (whole ++ fraction)
  let power ← if exponent.isEmpty then some 0
    else decimal? (if exponent.head? == some '+' then exponent.drop 1 else exponent)
  let scale := power - fraction.length
  let size := Float.ofScientific digits (scale < 0) scale.natAbs
  return if negative then -size else size

def number? (text : List Char) : Option Json :=
  match decimal? text with
  | some n => some (.int n)
  | none => (float? text).map .float

mutual

/-- The data at the start of a text and what follows it. -/
def readValue : Nat → List Char → Option (Json × List Char)
  | 0, _ => none
  | fuel + 1, text =>
    match skipGap text with
    | 'n' :: 'u' :: 'l' :: 'l' :: rest => some (.null, rest)
    | 't' :: 'r' :: 'u' :: 'e' :: rest => some (.bool true, rest)
    | 'f' :: 'a' :: 'l' :: 's' :: 'e' :: rest => some (.bool false, rest)
    | '"' :: rest => (readString [] rest).map fun (text, rest) => (.str text, rest)
    | '[' :: rest =>
      match skipGap rest with
      | ']' :: rest => some (.arr [], rest)
      | rest => (readItems fuel [] rest).map fun (items, rest) => (.arr items, rest)
    | '{' :: rest =>
      match skipGap rest with
      | '}' :: rest => some (.obj [], rest)
      | rest => (readFields fuel [] rest).map fun (fields, rest) => (.obj fields, rest)
    | text => do
      let value ← number? (text.takeWhile isNumberChar)
      return (value, text.dropWhile isNumberChar)

def readItems : Nat → List Json → List Char → Option (List Json × List Char)
  | 0, _, _ => none
  | fuel + 1, held, text => do
    let (item, rest) ← readValue fuel text
    match skipGap rest with
    | ',' :: rest => readItems fuel (item :: held) rest
    | ']' :: rest => return ((item :: held).reverse, rest)
    | _ => none

def readFields :
    Nat → List (String × Json) → List Char → Option (List (String × Json) × List Char)
  | 0, _, _ => none
  | fuel + 1, held, text =>
    match skipGap text with
    | '"' :: rest => do
      let (key, rest) ← readString [] rest
      match skipGap rest with
      | ':' :: rest =>
        let (value, rest) ← readValue fuel rest
        match skipGap rest with
        | ',' :: rest => readFields fuel ((key, value) :: held) rest
        | '}' :: rest => return (((key, value) :: held).reverse, rest)
        | _ => none
      | _ => none
    | _ => none

end

def read? (text : String) : Option Json := do
  let cs := text.toList
  let (value, rest) ← readValue (cs.length + 1) cs
  if (skipGap rest).isEmpty then some value else none

end SignalCalculus.Json
