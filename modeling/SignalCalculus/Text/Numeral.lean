import SignalCalculus.Text.Blank
import SignalCalculus.Text.Digit

set_option autoImplicit false

namespace SignalCalculus.Text

def natural (n : Nat) : List Char := Nat.toDigits 10 n

def decimal (n : Int) : List Char :=
  if n < 0 then '-' :: natural n.natAbs else natural n.natAbs

def hex (width n : Nat) : List Char :=
  let digits := Nat.toDigits 16 n
  List.replicate (width - digits.length) '0' ++ digits

/-- The number that a run of digits spells in `base`; a character that is no digit below the base
    spoils it. -/
def spelled? (base : Nat) (cs : List Char) : Option Nat :=
  cs.foldl (fun total c =>
    match total, digit? c with
    | some n, some d => if d < base then some (base * n + d) else none
    | _, _ => none) (some 0)

def natural? (cs : List Char) : Option Nat :=
  if cs.isEmpty then none else spelled? 10 cs

def decimal? : List Char → Option Int
  | '-' :: cs => (natural? cs).map fun n => -(n : Int)
  | cs => (natural? cs).map Int.ofNat

def underscored? : List Char → Option (List Char)
  | [] => none
  | [c] => if c = '_' then none else some [c]
  | c :: d :: rest =>
    if c = '_' then none
    else if d = '_' then (underscored? rest).map (c :: ·)
    else (underscored? (d :: rest)).map (c :: ·)

/-- The binary digits after a sign: `0b` may stand before them, and an underscore after it. -/
def binaryDigits? : List Char → Option Nat
  | '0' :: 'b' :: '_' :: cs | '0' :: 'B' :: '_' :: cs | '0' :: 'b' :: cs | '0' :: 'B' :: cs =>
    (underscored? cs).bind (spelled? 2)
  | cs => (underscored? cs).bind (spelled? 2)

def isNumeralBlank (c : Char) : Bool := isBlank c && !(0x1C ≤ c.toNat && c.toNat ≤ 0x1F)

def plainDigit (c : Char) : Char :=
  match digit? c with
  | some d => Nat.digitChar d
  | none => c

/-- An integer in base two: blanks around it, a sign, a `0b` and underscores are allowed. -/
def binary? (cs : List Char) : Option Int :=
  let cs := cs.map plainDigit
  match ((cs.dropWhile isNumeralBlank).reverse.dropWhile isNumeralBlank).reverse with
  | '-' :: digits => (binaryDigits? digits).map fun n => -(n : Int)
  | '+' :: digits => (binaryDigits? digits).map Int.ofNat
  | digits => (binaryDigits? digits).map Int.ofNat

end SignalCalculus.Text
