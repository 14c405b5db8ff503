import SignalCalculus.Symbol.Basic

set_option autoImplicit false

namespace SignalCalculus.Trace

inductive Report where
  | applied (rule : List Char)
  | cached
  | stuck (id : Int)
  | request (bits : List Char)
  | reply (bits : List Char)
  deriving DecidableEq, Repr

/-- Reports in order, and how many were left out. -/
structure Recorder where
  enabled : Bool := false
  limit : Option Int := none
  reports : Array Report := #[]
  dropped : Nat := 0

namespace Recorder

def hasRoom (recorder : Recorder) : Bool :=
  match recorder.limit with
  | none => true
  | some limit => (recorder.reports.size : Int) < limit

def record (recorder : Recorder) (report : Report) : Recorder :=
  if recorder.enabled then
    if recorder.hasRoom then { recorder with reports := recorder.reports.push report }
    else { recorder with dropped := recorder.dropped + 1 }
  else recorder

def clear (recorder : Recorder) : Recorder := { recorder with reports := #[], dropped := 0 }

end Recorder

end SignalCalculus.Trace
