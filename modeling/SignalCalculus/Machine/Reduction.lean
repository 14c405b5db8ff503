import SignalCalculus.Machine.Step

set_option autoImplicit false

namespace SignalCalculus

inductive Phase where
  | ready (term : Term)
  | waiting (bits : List Char) (seq : Nat) (suspended : Suspended)
  | finished (result : Term)
  /-- It failed or was cancelled, after it was started or before. -/
  | closed (started : Bool)

structure Reduction where
  book : Nat
  phase : Phase

inductive Outcome where
  | done (result : Term)
  | pending (bits : List Char) (seq : Nat)

namespace Reduction

def start (engine : Engine) (book : Nat) : Option Term → Except EvalError (Reduction × Engine)
  | none => .error .emptyTerm
  | some term => .ok (⟨book, .ready term⟩, engine.bind book)

def isDone (reduction : Reduction) : Bool :=
  match reduction.phase with
  | .finished _ => true
  | _ => false

def pendingSeq? (reduction : Reduction) : Option Nat :=
  match reduction.phase with
  | .waiting _ seq _ => some seq
  | _ => none

def rest (reduction : Reduction) (sent : Nat) : Rest → Except Fault Outcome × Reduction
  | .finished w => (.ok (.done w), { reduction with phase := .finished w })
  | .failed fault => (.error fault, { reduction with phase := .closed true })
  | .sent bits suspended =>
    (.ok (.pending bits (sent + 1)), { reduction with phase := .waiting bits (sent + 1) suspended })

/-- Runs a reduction that is ready up to its first send or its end. -/
def advance (book : Book) (fuel : Nat) (engine : Engine) (reduction : Reduction) :
    Option (Except Fault Outcome × Reduction × Engine) :=
  match reduction.phase with
  | .ready term => do
    let (halt, engine) ← Machine.run book fuel engine (Machine.forcing term)
    let (outcome, reduction) := reduction.rest 0 halt
    return (outcome, reduction, engine)
  | .closed false => some (.error .resultless, { reduction with phase := .closed true }, engine)
  | _ => some (.error (.protocol .alreadyStarted), reduction, engine)

/-- Answers the send that waits, which has to be the one with the given number if there is one, and
    runs on to the next send or the end. -/
def resume (book : Book) (fuel : Nat) (engine : Engine) (reduction : Reduction) (reply : List Char)
    (seq : Option Int) : Option (Except Fault Outcome × Reduction × Engine) :=
  match reduction.phase with
  | .closed _ => some (.error (.protocol .reductionClosed), reduction, engine)
  | .ready _ | .finished _ => some (.error (.protocol .nothingWaiting), reduction, engine)
  | .waiting _ current suspended =>
    match seq.filter (· ≠ (current : Int)) with
    | some wrong => some (.error (.protocol (.alreadyAnswered wrong)), reduction, engine)
    | none => do
      let (halt, engine) ← Machine.resume book fuel engine suspended reply
      let (outcome, reduction) := reduction.rest current halt
      return (outcome, reduction, engine)

/-- Gives a reduction up; one that has finished stays so. -/
def cancel (reduction : Reduction) : Reduction :=
  match reduction.phase with
  | .ready _ => { reduction with phase := .closed false }
  | .waiting .. => { reduction with phase := .closed true }
  | _ => reduction

end Reduction

end SignalCalculus
