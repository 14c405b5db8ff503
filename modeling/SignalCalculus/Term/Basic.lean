import SignalCalculus.Symbol.Render
import SignalCalculus.Value.Basic

set_option autoImplicit false

namespace SignalCalculus

inductive Term where
  | atom (symbol : Symbol)
  | app (fn arg : Term)
with
  /-- A number that equal terms share. -/
  @[computed_field] fingerprint : Term → UInt64
    | .atom symbol => symbol.fingerprint
    | .app fn arg => Symbol.mix fn.fingerprint arg.fingerprint

namespace Term

instance : Inhabited Term := ⟨.atom default⟩

instance : Hashable Term := ⟨fingerprint⟩

/-- Decides equality: one object equals itself, and different fingerprints tell terms apart. -/
def decEq (x y : Term) : Decidable (x = y) :=
  withPtrEqDecEq x y fun _ =>
    if differ : x.fingerprint = y.fingerprint then
      match x, y with
      | .atom a, .atom b =>
        if same : a = b then isTrue (same ▸ rfl) else isFalse fun h => same (Term.atom.inj h)
      | .app f a, .app g b =>
        match decEq f g with
        | isFalse h => isFalse fun same => h (Term.app.inj same).1
        | isTrue hf =>
          match decEq a b with
          | isFalse h => isFalse fun same => h (Term.app.inj same).2
          | isTrue ha => isTrue (hf ▸ ha ▸ rfl)
      | .atom _, .app _ _ => isFalse nofun
      | .app _ _, .atom _ => isFalse nofun
    else isFalse fun same => differ (same ▸ rfl)

instance : DecidableEq Term := decEq

abbrev fn (g : Fn) : Term := .atom (.fn g)

abbrev num (n : Int) : Term := .atom (.plain n)

def apply (head : Term) (args : List Term) : Term := args.foldl .app head

def cell (left right : Term) : Term := .app (.app (.fn .cons) left) right

def ofBool (flag : Bool) : Term := if flag then .fn .t else .fn .f

def symbolsOnto : Term → List Symbol → List Symbol
  | .atom symbol, rest => symbol :: rest
  | .app f arg, rest => .ap :: f.symbolsOnto (arg.symbolsOnto rest)

def symbols (term : Term) : List Symbol := term.symbolsOnto []

def render (term : Term) : String := SignalCalculus.render term.symbols

def account (term : Term) : String :=
  match term with
  | .atom _ => "<Literal " ++ term.render ++ ">"
  | .app _ _ => "<App " ++ term.render ++ ">"

def spineOnto : Term → List Term → Symbol × List Term
  | .atom symbol, args => (symbol, args)
  | .app f arg, args => f.spineOnto (arg :: args)

def spine (term : Term) : Symbol × List Term := term.spineOnto []

/-- The halves of a list cell, made by either of the two pairing functions. -/
def cell? : Term → Option (Term × Term)
  | .app (.app (.atom (.fn .cons)) left) right => some (left, right)
  | .app (.app (.atom (.fn .vec)) left) right => some (left, right)
  | _ => none

/-- Whether a head and so many arguments are held up: the head is a variable, or a basis function
    that has all its operands. -/
def isStuckSpine : Symbol × List Term → Bool
  | (.var _, _) => true
  | (.fn g, args) =>
    match g.arity? with
    | some n => n ≤ args.length
    | none => false
  | _ => false

def isStuck (term : Term) : Bool := isStuckSpine term.spine

def ofValue : Value → Term
  | .nil => .fn .nil
  | .num n => .num n
  | .pair left right => cell (ofValue left) (ofValue right)

end Term

end SignalCalculus
