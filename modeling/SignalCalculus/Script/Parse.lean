import SignalCalculus.Script.Token

set_option autoImplicit false

namespace SignalCalculus

open Text

inductive ParseError where
  | unknownWord (word : List Char) (line : Option Int)
  | equalsInside (line : Option Int)
  | noEquals (line : Option Int)
  | emptyLeft (line : Option Int)
  | emptyRight (line : Option Int)
  deriving DecidableEq, Repr

namespace ParseError

def line : ParseError → Option Int
  | unknownWord _ line | equalsInside line | noEquals line | emptyLeft line | emptyRight line => line

def word : ParseError → Option (List Char)
  | unknownWord word _ => some word
  | equalsInside _ => some ['=']
  | _ => none

def cause : ParseError → String
  | unknownWord word _ => "unknown token " ++ String.ofList (quoted word)
  | equalsInside _ => "'=' inside an expression"
  | noEquals _ => "statement without '='"
  | emptyLeft _ => "empty left-hand side"
  | emptyRight _ => "empty right-hand side"

def message (e : ParseError) : String :=
  match e.line with
  | none => e.cause
  | some n => e.cause ++ " (line " ++ String.ofList (decimal n) ++ ")"

end ParseError

abbrev Equation := List Symbol × List Symbol

namespace Script

def parseWord (line : Option Int) (word : List Char) : Except ParseError Symbol :=
  match symbol? word with
  | some symbol => .ok symbol
  | none => .error (.unknownWord word line)

def parseWords (line : Option Int) : List (List Char) → Except ParseError (List Symbol)
  | [] => .ok []
  | word :: rest =>
    if word = ['='] then .error (.equalsInside line)
    else do
      let symbol ← parseWord line word
      let symbols ← parseWords line rest
      return symbol :: symbols

def parseExpression (line : Option Int) (text : List Char) : Except ParseError (List Symbol) :=
  parseWords line (words text)

/-- The equation that a text spells: it is cut at its first equals sign. -/
def parseStatement (line : Option Int) (text : List Char) : Except ParseError Equation :=
  match text.dropWhile (· != '=') with
  | [] => .error (.noEquals line)
  | _ :: after => do
    let lhs ← parseExpression line (text.takeWhile (· != '='))
    let rhs ← parseExpression line after
    if lhs.isEmpty then .error (.emptyLeft line)
    else if rhs.isEmpty then .error (.emptyRight line)
    else return (lhs, rhs)

def parseLines : Nat → List (List Char) → Except ParseError (List Equation)
  | _, [] => .ok []
  | number, line :: rest =>
    if line.all isBlank then parseLines (number + 1) rest
    else do
      let equation ← parseStatement (some number) line
      let equations ← parseLines (number + 1) rest
      return equation :: equations

def parseScript (text : List Char) : Except ParseError (List Equation) :=
  parseLines 1 (lines text)

end Script

end SignalCalculus
