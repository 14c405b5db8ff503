import SignalCalculus.Json.Basic
import SignalCalculus.Trace.Recorder

set_option autoImplicit false

/-!
# Trace events

The canonical form of an event has its version, type and index, then its rule and its payload if it
has them, with the fields of the payload in order. A trace is a text with one event on each line, in
the order of their indices.
-/

namespace SignalCalculus.Trace

open Text

inductive Kind where
  | applied | cached | stuck | request | reply
  deriving DecidableEq, Repr

namespace Kind

def name : Kind → String
  | applied => "reduction.applied"
  | cached => "reduction.cached"
  | stuck => "reduction.stuck"
  | request => "send.request"
  | reply => "send.reply"

def ofName? (name : String) : Option Kind :=
  [applied, cached, stuck, request, reply].find? (·.name == name)

end Kind

structure Event where
  kind : Kind
  index : Nat
  rule : Option String
  payload : Option Json

inductive EventError where
  | notObject (kind : String)
  | badVersion (found : Json)
  | unhashable (kind : String)
  | unknownType (found : Json)
  | badIndex
  | blankRule
  | notContiguous (found : List Nat)

namespace EventError

def isKindError : EventError → Bool
  | notObject _ | unhashable _ => true
  | _ => false

def label (e : EventError) : String := if e.isKindError then "TypeError" else "ValueError"

def indices (ns : List Nat) : String :=
  "[" ++ ", ".intercalate (ns.map fun n => String.ofList (natural n)) ++ "]"

def message : EventError → String
  | notObject kind => "event must be a mapping, got <class '" ++ kind ++ "'>"
  | badVersion found => "event.v must be 1, got " ++ found.account
  | unhashable kind => "unhashable type: '" ++ kind ++ "'"
  | unknownType found => "unknown event.type " ++ found.account
  | badIndex => "event.i must be an integer >= 0"
  | blankRule => "event.t must be a non-empty string"
  | notContiguous found =>
    "event.i must be contiguous 0..n-1 in-order; got " ++ indices found ++ ", expected " ++
      indices (List.range found.length)

end EventError

namespace Event

/-- Whether some data equal the number one; so does the truth value. -/
def isOne : Json → Bool
  | .int n => n == 1
  | .bool b => b
  | .float x => x == 1.0
  | _ => false

def checkVersion (fields : List (String × Json)) : Except EventError Unit :=
  match Json.field? "v" fields with
  | none => .ok ()
  | some found => if isOne found then .ok () else .error (.badVersion found)

def readKind (fields : List (String × Json)) : Except EventError Kind :=
  match (Json.field? "type" fields).getD .null with
  | .str name =>
    match Kind.ofName? name with
    | some kind => .ok kind
    | none => .error (.unknownType (.str name))
  | .arr items => .error (.unhashable (Json.arr items).kind)
  | .obj inner => .error (.unhashable (Json.obj inner).kind)
  | found => .error (.unknownType found)

def readIndex (fields : List (String × Json)) : Except EventError Nat :=
  match Json.field? "i" fields with
  | some (.int (.ofNat n)) => .ok n
  | _ => .error .badIndex

def readRule (fields : List (String × Json)) : Except EventError (Option String) :=
  match Json.field? "t" fields with
  | none | some .null => .ok none
  | some (.str rule) => if rule.toList.all isBlank then .error .blankRule else .ok (some rule)
  | some _ => .error .blankRule

def readPayload (fields : List (String × Json)) : Option Json :=
  match Json.field? "mu" fields with
  | none | some .null => none
  | some payload => some payload.sorted

def ofJson : Json → Except EventError Event
  | .obj fields => do
    checkVersion fields
    let kind ← readKind fields
    let index ← readIndex fields
    let rule ← readRule fields
    return ⟨kind, index, rule, readPayload fields⟩
  | json => .error (.notObject json.kind)

def toJson (event : Event) : Json :=
  .obj ([("v", .int 1), ("type", .str event.kind.name), ("i", .int event.index)] ++
    (match event.rule with
      | none => []
      | some rule => [("t", .str rule)]) ++
    (match event.payload with
      | none => []
      | some payload => [("mu", payload)]))

/-- The events of some data, whose indices count up from zero. -/
def ofList (data : List Json) : Except EventError (List Event) := do
  let events ← data.mapM ofJson
  let found := events.map Event.index
  if found = List.range found.length then return events else .error (.notContiguous found)

def line (event : Event) : String := event.toJson.line Json.tight

end Event

/-- The trace of some data: a line for each event. -/
def traceOf (data : List Json) : Except EventError String :=
  (Event.ofList data).map fun events => String.join (events.map fun event => event.line ++ "\n")

def Report.toJson (index : Nat) : Report → Json
  | .applied rule => event .applied [("t", .ofChars rule)]
  | .cached => event .cached []
  | .stuck id => event .stuck [("mu", .obj [("variable", .int id)])]
  | .request bits => event .request [("mu", .obj [("bits", .ofChars bits)])]
  | .reply bits => event .reply [("mu", .obj [("bits", .ofChars bits)])]
where
  event (kind : Kind) (more : List (String × Json)) : Json :=
    .obj ([("v", .int 1), ("type", .str kind.name), ("i", .int index)] ++ more)

def Recorder.data (recorder : Recorder) : List Json :=
  recorder.reports.toList.mapIdx fun index report => report.toJson index

def Recorder.trace (recorder : Recorder) : Except EventError String := traceOf recorder.data

end SignalCalculus.Trace
