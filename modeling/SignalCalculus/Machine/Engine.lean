import SignalCalculus.Book
import SignalCalculus.Machine.Fault
import SignalCalculus.Machine.Memo
import SignalCalculus.Trace.Recorder

set_option autoImplicit false

/-!
# The engine

What reductions share: the memo of weak head normal forms, the count of applied laws since the last
query began, the count of requests ever sent, the recorder and the limits. A memo is meant for one
book, known by its number. The number stands for a book that is alive, and the same, for as long as
the engine is used: an engine keeps the number only and not the book, so a book that took over the
number of one that is gone would be taken for it.
-/

namespace SignalCalculus

/-- What reductions share. A limit of zero is no limit. -/
structure Engine where
  memo : Memo := .empty
  steps : Nat := 0
  sends : Nat := 0
  /-- The number of a book that outlives every use of the engine. -/
  boundTo : Option Nat := none
  recorder : Trace.Recorder := {}
  stepLimit : Int := 0
  memoLimit : Int := 0

namespace Engine

def report (engine : Engine) (report : Trace.Report) : Engine :=
  { engine with recorder := engine.recorder.record report }

def forget (engine : Engine) : Engine := { engine with memo := .empty }

/-- Gets ready for a query against a book: the memo of another book, or one that has outgrown its
    limit, is emptied, and steps are counted anew. Books are told apart by number alone, which is
    enough as long as no book that was used before is gone. -/
def bind (engine : Engine) (book : Nat) : Engine :=
  if engine.boundTo ≠ some book then
    { engine with memo := .empty, boundTo := some book, steps := 0 }
  else if engine.memoLimit ≠ 0 ∧ engine.memoLimit < engine.memo.size then
    { engine with memo := .empty, steps := 0 }
  else { engine with steps := 0 }

def tick (engine : Engine) (g : Fn) : Engine × Except EvalError Unit :=
  let engine := { engine with steps := engine.steps + 1 }
  if engine.stepLimit ≠ 0 ∧ engine.stepLimit < engine.steps then
    (engine, .error (.stepLimit engine.stepLimit))
  else (engine.report (.applied g.word), .ok ())

end Engine

end SignalCalculus
