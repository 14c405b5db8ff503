import SignalCalculus.Script.Parse
import SignalCalculus.Table
import SignalCalculus.Term.Build

set_option autoImplicit false

/-!
# Books of equations

A book keeps the latest right side of every left side of a script, the reverse table from right
sides to left sides, and the order in which the left sides first appeared. An equation whose left
side is one variable also binds it to the term of its right side.
-/

namespace SignalCalculus

structure Book where
  forward : Table (List Symbol) (List Symbol) := []
  backward : Table (List Symbol) (List Symbol) := []
  bindings : Table Int Term := []
  order : List (List Symbol) := []

namespace Book

def boundId? : List Symbol → Option Int
  | [.var id] => some id
  | [.fn .galaxy] => some Symbol.entryId
  | _ => none

/-- The term that an equation binds, if its left side binds a variable; an empty right side binds
    nothing. -/
def binding (lhs rhs : List Symbol) : Except BuildError (Option (Int × Term)) :=
  match boundId? lhs with
  | none => .ok none
  | some id => (Term.build rhs).map fun term => term.map fun term => (id, term)

def contains (book : Book) (key : List Symbol) : Bool := (book.forward.get? key).isSome

def record (book : Book) (lhs rhs : List Symbol) (binding : Option (Int × Term)) : Book where
  order := if book.contains lhs then book.order else book.order ++ [lhs]
  forward := Table.put lhs rhs book.forward
  backward := Table.put rhs lhs book.backward
  bindings :=
    match binding with
    | none => book.bindings
    | some (id, term) => Table.put id term book.bindings

/-- Tries to add an equation, and gives back what the book is then. One that binds a variable to
    something that is no term is refused, before anything is recorded. -/
def enter (book : Book) (equation : Equation) : Book × Except BuildError Unit :=
  match binding equation.1 equation.2 with
  | .error e => (book, .error e)
  | .ok made => (book.record equation.1 equation.2 made, .ok ())

def add (book : Book) (equation : Equation) : Except BuildError Book :=
  match book.enter equation with
  | (_, .error e) => .error e
  | (book, .ok ()) => .ok book

/-- Adds equations up to the first that is refused: the book then, and the reason. -/
def extend (book : Book) : List Equation → Book × Except BuildError Unit
  | [] => (book, .ok ())
  | equation :: rest =>
    match book.enter equation with
    | (book, .error e) => (book, .error e)
    | (book, .ok ()) => book.extend rest

def ofEquations (equations : List Equation) : Except BuildError Book :=
  match extend {} equations with
  | (_, .error e) => .error e
  | (book, .ok ()) => .ok book

def lookup (book : Book) (key : List Symbol) : Option (List Symbol) :=
  match book.forward.get? key with
  | some found => some found
  | none => book.backward.get? key

def resolve (book : Book) (id : Int) : Option Term := book.bindings.get? id

def snapshot (book : Book) : List Equation :=
  book.order.filterMap fun lhs => (book.forward.get? lhs).map fun rhs => (lhs, rhs)

def size (book : Book) : Nat := book.forward.length

end Book

end SignalCalculus
