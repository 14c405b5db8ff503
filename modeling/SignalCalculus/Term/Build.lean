import SignalCalculus.Term.Basic

set_option autoImplicit false

namespace SignalCalculus

open Text

inductive BuildError where
  | noFunction
  | noArgument (fn : Term)
  | listNotClosed
  | commaWithoutElement
  | unexpectedTerm (term : Term)
  | severalCommas
  | closingAfterComma
  | unexpectedMark (mark : Mark)
  | trailing (index : Nat)
  deriving DecidableEq

def BuildError.message : BuildError → String
  | .noFunction => "ap without a function"
  | .noArgument f => "ap without an argument for function " ++ f.account
  | .listNotClosed => "list syntax not closed with ')'"
  | .commaWithoutElement => "',' without a preceding list element"
  | .unexpectedTerm term => "expected ',' or ')' in list, got " ++ term.account
  | .severalCommas => "several commas in a row inside list"
  | .closingAfterComma => "')' right after ','"
  | .unexpectedMark m => "unexpected list syntax token " ++ m.account
  | .trailing index => "ops after a complete expression, starting at op " ++ String.ofList (natural index)

namespace Term

inductive Slot where
  | start | element | comma
  deriving DecidableEq

/-- What an unfinished term still owes. -/
inductive Owed where
  | function
  | argument (fn : Term)
  /-- An open list with its items so far, last first. -/
  | list (items : List Term) (slot : Slot)

inductive Progress where
  | owing (owed : List Owed)
  | complete (term : Term)

def leaf : Symbol → Term
  | .fn .galaxy => .atom (.var Symbol.entryId)
  | symbol => .atom symbol

def listOnto (rest : Term) (items : List Term) : Term := items.foldl (fun tail item => cell item tail) rest

def feed : List Owed → Term → Except BuildError Progress
  | [], term => .ok (.complete term)
  | .function :: owed, term => .ok (.owing (.argument term :: owed))
  | .argument f :: owed, term => feed owed (.app f term)
  | .list _ .element :: _, term => .error (.unexpectedTerm term)
  | .list items _ :: owed, term => .ok (.owing (.list (term :: items) .element :: owed))

def read (owed : List Owed) : Symbol → Except BuildError Progress
  | .mark .ap => .ok (.owing (.function :: owed))
  | .mark .leftParen => .ok (.owing (.list [] .start :: owed))
  | .mark .comma =>
    match owed with
    | .list _ .comma :: _ => .error .severalCommas
    | .list _ .start :: _ => .error .commaWithoutElement
    | .list items .element :: owed => .ok (.owing (.list items .comma :: owed))
    | _ => .error (.unexpectedMark .comma)
  | .mark .rightParen =>
    match owed with
    | .list _ .comma :: _ => .error .closingAfterComma
    | .list items _ :: owed => feed owed (listOnto (.fn .nil) items)
    | _ => .error (.unexpectedMark .rightParen)
  | symbol => feed owed (leaf symbol)

def readAll : Progress → List Symbol → Nat → Except BuildError Progress
  | progress, [], _ => .ok progress
  | .complete _, _ :: _, index => .error (.trailing index)
  | .owing owed, symbol :: rest, index => do
    let progress ← read owed symbol
    readAll progress rest (index + 1)

/-- The term of a program, or nothing for the empty program. -/
def build (program : List Symbol) : Except BuildError (Option Term) := do
  match ← readAll (.owing []) program 0 with
  | .complete term => return some term
  | .owing [] => return none
  | .owing (.function :: _) => .error .noFunction
  | .owing (.argument f :: _) => .error (.noArgument f)
  | .owing (.list _ _ :: _) => .error .listNotClosed

end Term

end SignalCalculus
