import SignalCalculus.Symbol.Render

set_option autoImplicit false

namespace SignalCalculus.Script

open Text

def isDelimiter (c : Char) : Bool := c == '(' || c == ')' || c == ',' || c == '='

def flush (held : List Char) (words : List (List Char)) : List (List Char) :=
  if held.isEmpty then words else held.reverse :: words

/-- The words of a text, `held` being the current run so far, last character first. -/
def wordsFrom (held : List Char) : List Char → List (List Char)
  | [] => flush held []
  | c :: rest =>
    if isBlank c then flush held (wordsFrom [] rest)
    else if isDelimiter c then flush held ([c] :: wordsFrom [] rest)
    else wordsFrom (c :: held) rest

def words (text : List Char) : List (List Char) := wordsFrom [] text

/-- What stands between an opening character that has been read and the closing one at the end. -/
def enclosed? (close : Char) (rest : List Char) : Option (List Char) :=
  match rest.reverse with
  | c :: inner => if c = close then some inner.reverse else none
  | [] => none

def bits? (inner : List Char) : Option (List Char) :=
  if inner.all fun c => c == '0' || c == '1' then some inner else none

def literal? (word : List Char) : Option Symbol :=
  match decimal? word, word with
  | some n, _ => some (.plain n)
  | none, ':' :: rest | none, 'x' :: rest => (decimal? rest).map .var
  | none, '[' :: rest => ((enclosed? ']' rest).bind decimal?).map fun n => .number ⟨n, true⟩
  | none, '{' :: rest => ((enclosed? '}' rest).bind bits?).map .bits
  | none, _ => none

def symbol? (word : List Char) : Option Symbol :=
  match Mark.ofWord? word, Fn.ofWord? word with
  | some m, _ => some (.mark m)
  | none, some g => some (.fn g)
  | none, none => literal? word

end SignalCalculus.Script
