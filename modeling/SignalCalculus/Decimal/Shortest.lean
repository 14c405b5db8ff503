import SignalCalculus.Text.Numeral

set_option autoImplicit false

namespace SignalCalculus.Decimal

open Text

/-- A positive number `mantissa * 2 ^ exponent`, and whether the neighbour below is half as far away as
    the neighbour above. -/
structure Binary where
  mantissa : Nat
  exponent : Int
  closeBelow : Bool

structure Digits where
  digits : Nat
  point : Int
  deriving DecidableEq, Repr

/-- A quotient and where the bounds of its interval lie, all over one denominator. -/
structure Scaled where
  value : Nat
  low : Nat
  high : Nat
  denominator : Nat

def Binary.scaled (x : Binary) : Scaled :=
  let value := 4 * x.mantissa
  let up := Nat.pow 2 (x.exponent - 2).toNat
  { value := value * up
    low := (value - if x.closeBelow then 1 else 2) * up
    high := (value + 2) * up
    denominator := Nat.pow 2 (2 - x.exponent).toNat }

def Scaled.inUnits (x : Scaled) (power : Int) : Scaled :=
  let up := Nat.pow 10 (-power).toNat
  ⟨x.value * up, x.low * up, x.high * up, x.denominator * Nat.pow 10 power.toNat⟩

def Scaled.admits (x : Scaled) (closed : Bool) (point : Nat) : Bool :=
  let n := point * x.denominator
  if closed then x.low ≤ n && n ≤ x.high else x.low < n && n < x.high

/-- The grid point that rounds to the number; of two, the nearer, and of two equally near the even
    one. -/
def Scaled.gridPoint? (x : Scaled) (closed : Bool) : Option Nat :=
  let below := x.value / x.denominator
  let remainder := x.value % x.denominator
  let nearest :=
    if 2 * remainder < x.denominator ∨ (2 * remainder = x.denominator ∧ below % 2 = 0) then below
    else below + 1
  let other := if nearest = below then below + 1 else below
  if x.admits closed nearest then some nearest
  else if x.admits closed other then some other
  else none

def Scaled.magnitude (x : Scaled) : Int :=
  let whole := x.value / x.denominator
  if whole ≠ 0 then (Nat.toDigits 10 whole).length
  else
    let inverse := (x.denominator + x.value - 1) / x.value
    1 - (Nat.toDigits 10 (inverse - 1)).length

def Scaled.shortestFrom (x : Scaled) (closed : Bool) (magnitude : Int) (tried : Nat) : Nat → Digits
  | 0 => ⟨x.value / x.denominator, magnitude⟩
  | more + 1 =>
    match (x.inUnits (magnitude - tried)).gridPoint? closed with
    | some point => ⟨point, magnitude + ((Nat.toDigits 10 point).length - tried)⟩
    | none => shortestFrom x closed magnitude (tried + 1) more

def dropZeros : Nat → Nat → Nat
  | 0, n => n
  | fuel + 1, n => if n ≠ 0 ∧ n % 10 = 0 then dropZeros fuel (n / 10) else n

def Binary.shortest (x : Binary) : Digits :=
  let scaled := x.scaled
  let found := scaled.shortestFrom (x.mantissa % 2 = 0) scaled.magnitude 1 20
  { found with digits := dropZeros 20 found.digits }

/-- The place value of a double's lowest exponent bit: below it stand the 52 bits of the fraction. -/
def fractionSize : Nat := Nat.pow 2 52

def exponentCount : Nat := Nat.pow 2 11

def binaryOfBits (bits : UInt64) : Binary :=
  let fraction := bits.toNat % fractionSize
  let exponent := bits.toNat / fractionSize % exponentCount
  if exponent = 0 then ⟨fraction, -1074, false⟩
  else ⟨fractionSize + fraction, (exponent : Int) - 1075, fraction = 0 ∧ 1 < exponent⟩

/-- Digits with a point, or with an exponent of at least two digits if the point would stand more than
    sixteen digits to the right or more than three zeros to the left. -/
def Digits.text (x : Digits) : List Char :=
  let digits := natural x.digits
  let count : Int := digits.length
  if x.point ≤ -4 ∨ 16 < x.point then
    let exponent := x.point - 1
    let size := natural exponent.natAbs
    let size := if size.length < 2 then '0' :: size else size
    let sign := if exponent < 0 then '-' else '+'
    let mantissa := match digits with
      | [d] => [d]
      | d :: rest => d :: '.' :: rest
      | [] => []
    mantissa ++ 'e' :: sign :: size
  else if x.point ≤ 0 then
    '0' :: '.' :: (List.replicate (-x.point).toNat '0' ++ digits)
  else if count ≤ x.point then
    digits ++ List.replicate (x.point - count).toNat '0' ++ ['.', '0']
  else
    digits.take x.point.toNat ++ '.' :: digits.drop x.point.toNat

structure Names where
  infinity : List Char
  notANumber : List Char

def floatText (names : Names) (x : Float) : List Char :=
  let bits := x.toBits
  let signBit := fractionSize * exponentCount
  let negative := signBit ≤ bits.toNat
  let signed := fun text => if negative then '-' :: text else text
  if x.isNaN then names.notANumber
  else if x.isInf then signed names.infinity
  else if bits.toNat % signBit = 0 then signed ['0', '.', '0']
  else signed (binaryOfBits bits).shortest.text

end SignalCalculus.Decimal
