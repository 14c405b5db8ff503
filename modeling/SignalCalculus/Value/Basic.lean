import SignalCalculus.Symbol.Render
import SignalCalculus.Value.Cell

set_option autoImplicit false

namespace SignalCalculus

open Text

inductive Value where
  | nil
  | num (n : Int)
  | pair (left right : Value)
  deriving DecidableEq, Repr, Inhabited

namespace Value

def isProper : Value → Bool
  | nil => true
  | num _ => false
  | pair _ right => right.isProper

mutual

def prettyOnto (empty : List Char) : Value → List Char → List Char
  | nil, rest => empty ++ rest
  | num n, rest => decimal n ++ rest
  | pair left right, rest => '(' :: left.prettyOnto empty (right.prettyTail empty rest)

def prettyTail (empty : List Char) : Value → List Char → List Char
  | nil, rest => ')' :: rest
  | num n, rest => ' ' :: '.' :: ' ' :: (decimal n ++ ')' :: rest)
  | pair left right, rest => ',' :: ' ' :: left.prettyOnto empty (right.prettyTail empty rest)

end

/-- A value in tuple notation, with `empty` for the empty list; a chain that ends in a number has it
    after a dot. -/
def prettyWith (empty : String) (value : Value) : String :=
  String.ofList (value.prettyOnto empty.toList [])

def pretty (value : Value) : String := value.prettyWith "nil"

def account : Value → String
  | nil => "NIL"
  | num n => String.ofList (decimal n)
  | pair left right => "Cons(left=" ++ left.account ++ ", right=" ++ right.account ++ ")"

def symbolsOnto : Value → List Symbol → List Symbol
  | nil, rest => .fn .nil :: rest
  | num n, rest => .plain n :: rest
  | pair left right, rest =>
    .ap :: .ap :: .fn .cons :: left.symbolsOnto (right.symbolsOnto rest)

def symbols (value : Value) : List Symbol := value.symbolsOnto []

end Value

inductive SpellingError where
  | truncated (program : List Symbol)
  | notValue (index : Nat) (symbol : Symbol)
  | trailing (index : Nat)
  deriving DecidableEq, Repr

def SpellingError.message : SpellingError → String
  | .truncated program => "truncated list ops: " ++ sequenceAccount (program.map Symbol.account)
  | .notValue index symbol =>
    "not a list value at op " ++ String.ofList (natural index) ++ ": " ++ symbol.account
  | .trailing index => "trailing ops after list value at op " ++ String.ofList (natural index)

namespace Value

def ofSymbol? : Symbol → Option Value
  | .fn .nil => some nil
  | .number n => some (num n.value)
  | _ => none

/-- Reads the value that a rest of `program` spells, inside the given cells; the number is the index
    of the rest. -/
def spelledFrom (program : List Symbol) :
    List (Cell Unit Value) → List Symbol → Nat → Except SpellingError Value
  | cells, .ap :: .ap :: .fn .cons :: rest, index
  | cells, .ap :: .ap :: .fn .vec :: rest, index =>
    spelledFrom program (.left () :: cells) rest (index + 3)
  | cells, symbol :: rest, index =>
    match ofSymbol? symbol with
    | none => .error (.notValue index symbol)
    | some value =>
      match place pair cells value with
      | .whole whole => if rest.isEmpty then .ok whole else .error (.trailing (index + 1))
      | .next _ cells => spelledFrom program cells rest (index + 1)
  | _, [], _ => .error (.truncated program)

/-- The value that a program spells with `cons` or `vec` cells, `nil` and numbers of either state. -/
def ofSymbols (program : List Symbol) : Except SpellingError Value :=
  spelledFrom program [] program 0

def prettySymbols? (program : List Symbol) : Option String :=
  (ofSymbols program).toOption.map pretty

end Value

end SignalCalculus
