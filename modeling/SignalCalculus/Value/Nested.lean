import SignalCalculus.Json.Basic
import SignalCalculus.Value.Basic

set_option autoImplicit false

namespace SignalCalculus

inductive Nested where
  | num (n : Int)
  | list (items : List Nested)
  | pair (left right : Nested)

def Value.nested : Value → Nested
  | .nil => .list []
  | .num n => .num n
  | .pair left right =>
    match right.nested with
    | .list items => .list (left.nested :: items)
    | other => .pair left.nested other

mutual

/-- The value of nested data; a pair counts as a list of two. -/
def Nested.value : Nested → Value
  | .num n => .num n
  | .list items => Nested.listValue items
  | .pair left right => .pair left.value (.pair right.value .nil)

def Nested.listValue : List Nested → Value
  | [] => .nil
  | item :: items => .pair item.value (Nested.listValue items)

end

inductive DataError where
  | notInteger (kind : String)
  | boolean
  | notValue (kind : String)
  deriving DecidableEq, Repr

def DataError.message : DataError → String
  | .notInteger kind => "modulate_number expects int or EncodedNumber, got " ++ kind
  | .boolean => "booleans are not list values"
  | .notValue kind => "cannot convert " ++ kind ++ " to a list value"

namespace Json

def integer : Json → Except DataError Int
  | .int n => .ok n
  | json => .error (.notInteger json.kind)

mutual

def nested : Json → Except DataError Nested
  | .null => .ok (.list [])
  | .int n => .ok (.num n)
  | .arr items => (nestedItems items).map .list
  | .bool _ => .error .boolean
  | json => .error (.notValue json.kind)

/-- The items of a list, of which the last is looked at first. -/
def nestedItems : List Json → Except DataError (List Nested)
  | [] => .ok []
  | item :: items => do
    let rest ← nestedItems items
    let first ← nested item
    return first :: rest

end

end Json

end SignalCalculus
