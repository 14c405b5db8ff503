set_option autoImplicit false

namespace SignalCalculus

inductive Fn where
  | inc | dec | add | mul | div | neg | eq | lt
  | t | f | i | c | b | s
  | cons | vec | car | cdr | nil | isnil | if0
  | mod | dem | modem | send | draw | multipledraw | interact | f38
  | galaxy
  deriving DecidableEq, Repr, Inhabited

namespace Fn

def all : List Fn := [
  inc, dec, add, mul, div, neg, eq, lt, t, f, i, c, b, s, cons, vec, car, cdr, nil, isnil, if0,
  mod, dem, modem, send, draw, multipledraw, interact, f38, galaxy]

/-- How many operands a function takes before its law applies. The entry word names a variable and
    has no law. -/
def arity? : Fn → Option Nat
  | inc | dec | neg | i | car | cdr | nil | isnil | mod | dem | modem | send | draw
  | multipledraw => some 1
  | add | mul | div | eq | lt | t | f | f38 => some 2
  | c | b | s | cons | vec | if0 | interact => some 3
  | galaxy => none

end Fn

structure Tagged where
  value : Int
  modulated : Bool := false
  deriving DecidableEq, Repr, Inhabited

inductive Mark where
  | ap | leftParen | comma | rightParen
  deriving DecidableEq, Repr, Inhabited

inductive Symbol where
  | number (n : Tagged)
  | fn (g : Fn)
  | var (id : Int)
  | mark (m : Mark)
  | bits (text : List Char)
  | picture (points : List (Int × Int))
  deriving DecidableEq, Repr, Inhabited

namespace Symbol

abbrev plain (n : Int) : Symbol := .number ⟨n, false⟩

abbrev ap : Symbol := .mark .ap

/-- The variable that the entry word stands for. -/
def entryId : Int := -1

def mix (x y : UInt64) : UInt64 :=
  let h := x * 0x9E3779B97F4A7C15 + y
  (h ^^^ (h >>> 32)) * 0xD6E8FEB86659FD93

def ofInt (n : Int) : UInt64 := mix (if n < 0 then 1 else 0) (UInt64.ofNat n.natAbs)

def ofAll (seed : UInt64) (parts : List UInt64) : UInt64 := parts.foldl mix seed

def fingerprint : Symbol → UInt64
  | .number n => mix (if n.modulated then 2 else 1) (ofInt n.value)
  | .fn g => mix 3 (UInt64.ofNat g.ctorIdx)
  | .var id => mix 4 (ofInt id)
  | .mark m => mix 5 (UInt64.ofNat m.ctorIdx)
  | .bits text => ofAll 6 (text.map fun c => UInt64.ofNat c.toNat)
  | .picture points => ofAll 7 (points.map fun p => mix (ofInt p.1) (ofInt p.2))

def pictures (symbols : List Symbol) : List (List (Int × Int)) :=
  symbols.filterMap fun
    | .picture points => some points
    | _ => none

end Symbol

end SignalCalculus
