import SignalCalculus.Proofs.Direct.Reduction

set_option autoImplicit false

/-!
# Desks

A desk is one engine and the stepped reductions that were started with it. Books are given by
number and do not change; a number stands for one book that is alive during the whole history. The
same operations can be done by direct reduction, with no engine at all. A history is a finite
sequence of operations, each with its answer; an operation that does not halt has no answer, and no
history goes beyond it.
-/

namespace SignalCalculus

abbrev Peer := List (List Char) → Except Fault (List Char)

def Link.ofPeer (peer : Peer) : Link (List (List Char)) := fun bits requests =>
  (peer (requests ++ [bits]), requests ++ [bits])

structure Desk where
  engine : Engine
  reductions : List Reduction := []

namespace Desk

inductive Operation where
  | eval (book : Nat) (term : Option Term) (peer : Peer)
  | weakHead (book : Nat) (term : Term)
  | start (book : Nat) (term : Option Term)
  | advance (index : Nat)
  | resume (index : Nat) (reply : List Char) (seq : Option Int)
  | cancel (index : Nat)
  | forget

def Operation.index? : Operation → Option Nat
  | .advance index | .resume index _ _ | .cancel index => some index
  | _ => none

inductive Answer where
  | evaluated (result : Except Fault Term) (requests : List (List Char))
  | normalized (result : Except Fault Term)
  | started
  | notStarted (e : EvalError)
  | stepped (outcome : Except Fault Outcome)
  | cancelled
  | forgotten
  | unknown

/-- Does an operation; nothing if `fuel` runs out before the answer is there. -/
def perform (books : Nat → Book) (fuel : Nat) (desk : Desk) :
    Operation → Option (Answer × Desk)
  | .eval id term peer => do
    let (result, engine, requests) ←
      desk.engine.eval id (books id) fuel (Link.ofPeer peer) [] term
    return (.evaluated result requests, { desk with engine })
  | .weakHead id term => do
    let (result, engine) ← desk.engine.weakHead id (books id) fuel term
    return (.normalized result, { desk with engine })
  | .start id term =>
    match Reduction.start desk.engine id term with
    | .error e => some (.notStarted e, desk)
    | .ok (reduction, engine) =>
      some (.started, { engine, reductions := desk.reductions ++ [reduction] })
  | .advance index =>
    match desk.reductions[index]? with
    | none => some (.unknown, desk)
    | some reduction => do
      let (outcome, reduction, engine) ←
        reduction.advance (books reduction.book) fuel desk.engine
      return (.stepped outcome, { engine, reductions := desk.reductions.set index reduction })
  | .resume index reply seq =>
    match desk.reductions[index]? with
    | none => some (.unknown, desk)
    | some reduction => do
      let (outcome, reduction, engine) ←
        reduction.resume (books reduction.book) fuel desk.engine reply seq
      return (.stepped outcome, { engine, reductions := desk.reductions.set index reduction })
  | .cancel index =>
    match desk.reductions[index]? with
    | none => some (.unknown, desk)
    | some reduction =>
      some (.cancelled, { desk with reductions := desk.reductions.set index reduction.cancel })
  | .forget => some (.forgotten, { desk with engine := desk.engine.forget })

inductive Performs (books : Nat → Book) (fuel : Nat) (desk : Desk) :
    Operation → Answer → Desk → Prop where
  | evaluates {id : Nat} {query : Option Term} {peer : Peer} {result : Except Fault Term}
      {engine : Engine} {requests : List (List Char)}
      (run : desk.engine.eval id (books id) fuel (Link.ofPeer peer) [] query =
        some (result, engine, requests)) :
      Performs books fuel desk (.eval id query peer) (.evaluated result requests)
        { desk with engine }
  | normalizes {id : Nat} {term : Term} {result : Except Fault Term} {engine : Engine}
      (run : desk.engine.weakHead id (books id) fuel term = some (result, engine)) :
      Performs books fuel desk (.weakHead id term) (.normalized result) { desk with engine }
  | startsNothing {id : Nat} :
      Performs books fuel desk (.start id none) (.notStarted .emptyTerm) desk
  | starts {id : Nat} {term : Term} :
      Performs books fuel desk (.start id (some term)) .started
        ⟨desk.engine.bind id, desk.reductions ++ [⟨id, .ready term⟩]⟩
  | advances {index : Nat} {reduction reduction' : Reduction} {outcome : Except Fault Outcome}
      {engine : Engine} (found : desk.reductions[index]? = some reduction)
      (run : reduction.advance (books reduction.book) fuel desk.engine =
        some (outcome, reduction', engine)) :
      Performs books fuel desk (.advance index) (.stepped outcome)
        ⟨engine, desk.reductions.set index reduction'⟩
  | resumes {index : Nat} {reply : List Char} {seq : Option Int} {reduction reduction' : Reduction}
      {outcome : Except Fault Outcome} {engine : Engine}
      (found : desk.reductions[index]? = some reduction)
      (run : reduction.resume (books reduction.book) fuel desk.engine reply seq =
        some (outcome, reduction', engine)) :
      Performs books fuel desk (.resume index reply seq) (.stepped outcome)
        ⟨engine, desk.reductions.set index reduction'⟩
  | cancels {index : Nat} {reduction : Reduction}
      (found : desk.reductions[index]? = some reduction) :
      Performs books fuel desk (.cancel index) .cancelled
        { desk with reductions := desk.reductions.set index reduction.cancel }
  | misses {operation : Operation} {index : Nat} (about : operation.index? = some index)
      (missing : desk.reductions[index]? = none) : Performs books fuel desk operation .unknown desk
  | forgets :
      Performs books fuel desk .forget .forgotten { desk with engine := desk.engine.forget }

theorem performs_of_perform {books : Nat → Book} {fuel : Nat} {desk next : Desk}
    {operation : Operation} {answer : Answer}
    (h : desk.perform books fuel operation = some (answer, next)) :
    Performs books fuel desk operation answer next := by
  cases operation with
  | eval id query peer =>
    obtain ⟨⟨result, engine, requests⟩, hrun, heq⟩ := Option.bind_eq_some_iff.1 h
    cases heq
    exact .evaluates hrun
  | weakHead id term =>
    obtain ⟨⟨result, engine⟩, hrun, heq⟩ := Option.bind_eq_some_iff.1 h
    cases heq
    exact .normalizes hrun
  | start id query =>
    cases query with
    | none =>
      cases h
      exact .startsNothing
    | some term =>
      cases h
      exact .starts
  | advance index =>
    simp only [perform] at h
    cases hfound : desk.reductions[index]? with
    | none =>
      rw [hfound] at h
      cases h
      exact .misses rfl hfound
    | some reduction =>
      rw [hfound] at h
      obtain ⟨⟨outcome, reduction', engine⟩, hrun, heq⟩ := Option.bind_eq_some_iff.1 h
      cases heq
      exact .advances hfound hrun
  | resume index reply seq =>
    simp only [perform] at h
    cases hfound : desk.reductions[index]? with
    | none =>
      rw [hfound] at h
      cases h
      exact .misses rfl hfound
    | some reduction =>
      rw [hfound] at h
      obtain ⟨⟨outcome, reduction', engine⟩, hrun, heq⟩ := Option.bind_eq_some_iff.1 h
      cases heq
      exact .resumes hfound hrun
  | cancel index =>
    simp only [perform] at h
    cases hfound : desk.reductions[index]? with
    | none =>
      rw [hfound] at h
      cases h
      exact .misses rfl hfound
    | some reduction =>
      rw [hfound] at h
      cases h
      exact .cancels hfound
  | forget =>
    cases h
    exact .forgets

def fresh (memoLimit : Int) (recorder : Trace.Recorder) : Desk :=
  { engine := { memoLimit, recorder } }

/-- A finite history: each operation is allowed where it is done, and halts with its answer. -/
inductive History {σ : Type} (perform : Nat → σ → Operation → Option (Answer × σ))
    (allowed : σ → Operation → Prop) : σ → List Operation → List Answer → σ → Prop where
  | nil (state : σ) : History perform allowed state [] [] state
  | cons {state next last : σ} {operation : Operation} {answer : Answer}
      {operations : List Operation} {answers : List Answer} (fuel : Nat)
      (ok : allowed state operation) (done : perform fuel state operation = some (answer, next))
      (tail : History perform allowed next operations answers last) :
      History perform allowed state (operation :: operations) (answer :: answers) last

end Desk

namespace Direct

open Desk (Operation Answer)

/-- Does an operation by direct reduction. -/
def perform (books : Nat → Book) (fuel : Nat) (reductions : List Reduction) :
    Operation → Option (Answer × List Reduction)
  | .eval id term peer => do
    let (result, requests) ← eval (books id) fuel (Link.ofPeer peer) [] term
    return (.evaluated result requests, reductions)
  | .weakHead id term => do
    let result ← weakHead (books id) fuel term
    return (.normalized result, reductions)
  | .start _ none => some (.notStarted .emptyTerm, reductions)
  | .start id (some term) => some (.started, reductions ++ [⟨id, .ready term⟩])
  | .advance index =>
    match reductions[index]? with
    | none => some (.unknown, reductions)
    | some reduction => do
      let (outcome, reduction) ← reduction.advance (books reduction.book) fuel
      return (.stepped outcome, reductions.set index reduction)
  | .resume index reply seq =>
    match reductions[index]? with
    | none => some (.unknown, reductions)
    | some reduction => do
      let (outcome, reduction) ← reduction.resume (books reduction.book) fuel reply seq
      return (.stepped outcome, reductions.set index reduction)
  | .cancel index =>
    match reductions[index]? with
    | none => some (.unknown, reductions)
    | some reduction => some (.cancelled, reductions.set index reduction.cancel)
  | .forget => some (.forgotten, reductions)

end Direct

end SignalCalculus
