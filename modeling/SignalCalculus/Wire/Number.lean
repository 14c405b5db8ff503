import SignalCalculus.Symbol.Render

set_option autoImplicit false

namespace SignalCalculus.Wire

open Text

inductive WireError where
  | badPrefix (pos : Nat) (found : List Char)
  /-- The width or the magnitude of the number at `pos` runs past the end. -/
  | badWidth (pos : Nat)
  | trailing (pos : Nat) (rest : List Char)
  | invalidBit (pos : Nat) (found : Char)
  /-- A magnitude field does not hold a binary numeral. -/
  | notBinary (field : List Char)
  deriving DecidableEq, Repr

namespace WireError

def pos? : WireError → Option Nat
  | badPrefix pos _ | badWidth pos | trailing pos _ | invalidBit pos _ => some pos
  | notBinary _ => none

def message : WireError → String
  | badPrefix pos found =>
    "bad prefix at bit " ++ String.ofList (natural pos) ++ ": " ++ String.ofList (quoted found)
  | badWidth pos => "truncated width code or magnitude at bit " ++ String.ofList (natural pos)
  | trailing pos rest =>
    "unexpected trailing bits after position " ++ String.ofList (natural pos) ++ ": " ++
      String.ofList (quoted rest)
  | invalidBit pos found =>
    "invalid bit " ++ String.ofList (quoted [found]) ++ " at position " ++ String.ofList (natural pos)
  | notBinary field =>
    "invalid literal for int() with base 2: " ++ String.ofList (quoted field)

end WireError

def groupSize : Nat := 4

def groupsFor (count : Nat) : Nat := (count + (groupSize - 1)) / groupSize

def magnitudeBits (n : Nat) : List Char :=
  let digits := Nat.toDigits 2 n
  let groups := groupsFor digits.length
  List.replicate groups '1' ++
    '0' :: (List.replicate (groups * groupSize - digits.length) '0' ++ digits)

def numberBits (n : Int) : List Char :=
  if n = 0 then ['0', '1', '0']
  else if 0 < n then '0' :: '1' :: magnitudeBits n.natAbs
  else '1' :: '0' :: magnitudeBits n.natAbs

def sign? : List Char → Option (Int × List Char)
  | '0' :: '1' :: rest => some (1, rest)
  | '1' :: '0' :: rest => some (-1, rest)
  | _ => none

/-- Reads the number at the start of a text that stands at `pos`: the number, the place behind it
    and the text from there on. -/
def readNumber (text : List Char) (pos : Nat) : Except WireError (Int × Nat × List Char) :=
  match sign? text with
  | none => .error (.badPrefix pos (text.take 2))
  | some (sign, body) =>
    let groups := (body.takeWhile (· != '0')).length
    match body.dropWhile (· != '0') with
    | [] => .error (.badWidth pos)
    | _ :: rest =>
      let size := groups * groupSize
      let field := rest.take size
      if field.length < size then .error (.badWidth pos)
      else if groups = 0 then .ok (0, pos + 3, rest)
      else
        match binary? field with
        | none => .error (.notBinary field)
        | some magnitude => .ok (sign * magnitude, pos + 3 + groups + size, rest.drop size)

theorem readNumber_shorter {text : List Char} {pos : Nat} {n : Int} {pos' : Nat} {rest : List Char}
    (h : readNumber text pos = .ok (n, pos', rest)) : rest.length < text.length := by
  unfold readNumber at h
  split at h
  · cases h
  · rename_i sign body hsign
    have hbody : body.length + 2 = text.length := by
      unfold sign? at hsign
      split at hsign <;> cases hsign <;> rfl
    dsimp only at h
    split at h
    · cases h
    · rename_i c tail htail
      have hdrop := (List.dropWhile_sublist (l := body) (· != '0')).length_le
      rw [htail] at hdrop
      split at h
      · cases h
      · split at h
        · cases h
          simp only [List.length_cons] at hdrop
          omega
        · split at h
          · cases h
          · cases h
            simp only [List.length_cons, List.length_drop] at hdrop ⊢
            omega

def firstInvalid? (pos : Nat) : List Char → Option (Nat × Char)
  | [] => none
  | c :: rest => if c = '0' ∨ c = '1' then firstInvalid? (pos + 1) rest else some (pos, c)

def readNumberAt (text : String) (pos : Nat) : Except WireError (Int × Nat) :=
  (readNumber (text.toList.drop pos) pos).map fun (n, pos, _) => (n, pos)

def demodulateNumber (text : String) : Except WireError Int :=
  match firstInvalid? 0 text.toList with
  | some (pos, c) => .error (.invalidBit pos c)
  | none =>
    match readNumber text.toList 0 with
    | .error e => .error e
    | .ok (n, _, []) => .ok n
    | .ok (_, pos, rest) => .error (.trailing pos rest)

def modulateNumber (n : Int) : String := String.ofList (numberBits n)

end SignalCalculus.Wire
