import SignalCalculus.Link.Basic
import SignalCalculus.Machine.Reduction
import SignalCalculus.Proofs.Direct.Reduce

set_option autoImplicit false

namespace SignalCalculus

/-- Answers every request of a dialogue through a link, until it ends. -/
def Dialogue.converse {σ : Type} (link : Link σ) :
    Dialogue Term → σ → Option (Except Fault Term × σ)
  | .done w, state => some (.ok w, state)
  | .failed fault, state => some (.error fault, state)
  | .unfinished, _ => none
  | .ask bits next, state =>
    match link bits state with
    | (.error fault, state) => some (.error fault, state)
    | (.ok reply, state) => (next reply).converse link state

namespace Direct

def eval {σ : Type} (book : Book) (fuel : Nat) (link : Link σ) (state : σ) :
    Option Term → Option (Except Fault Term × σ)
  | none => some (.error (.eval .emptyTerm), state)
  | some term => (force book fuel term).converse link state

theorem eval_eq_ok {book : Book} {fuel : Nat} {term w : Term} :
    eval book fuel Link.absent () (some term) = some (.ok w, ()) ↔
      force book fuel term = .done w := by
  rw [eval]
  constructor
  · intro h
    cases hd : force book fuel term with
    | done v =>
      rw [hd] at h
      cases h
      rfl
    | failed fault => rw [hd] at h; cases h
    | ask bits next => rw [hd] at h; cases h
    | unfinished => rw [hd] at h; cases h
  · intro h
    rw [h]
    rfl

def weakHead (book : Book) (fuel : Nat) (term : Term) : Option (Except Fault Term) :=
  match reduce book fuel term with
  | .done w => some (.ok w)
  | .failed fault => some (.error fault)
  | .ask bits _ => some (.error (.protocol (.noLink bits)))
  | .unfinished => none

theorem weakHead_eq_ok {book : Book} {fuel : Nat} {term w : Term} :
    weakHead book fuel term = some (.ok w) ↔ reduce book fuel term = .done w := by
  unfold weakHead
  cases reduce book fuel term <;> simp

inductive Phase where
  | ready (term : Term)
  | waiting (term : Term) (replies : List (List Char))
  | finished
  | closed (started : Bool)

structure Reduction where
  book : Nat
  phase : Phase

namespace Reduction

/-- The reduction of a term after some replies, and what that leads to. -/
def rest (reduction : Reduction) (term : Term) (replies : List (List Char)) :
    Dialogue Term → Option (Except Fault Outcome × Reduction)
  | .done w => some (.ok (.done w), { reduction with phase := .finished })
  | .failed fault => some (.error fault, { reduction with phase := .closed true })
  | .ask bits _ => some (.ok (.pending bits (replies.length + 1)),
      { reduction with phase := .waiting term replies })
  | .unfinished => none

theorem done_of_rest {reduction reduction' : Reduction} {term w : Term}
    {replies : List (List Char)} {dialogue : Dialogue Term}
    (h : reduction.rest term replies dialogue = some (.ok (.done w), reduction')) :
    dialogue = .done w := by
  cases dialogue with
  | done v => cases h; rfl
  | failed fault => cases h
  | ask bits next => cases h
  | unfinished => cases h

def advance (book : Book) (fuel : Nat) (reduction : Reduction) :
    Option (Except Fault Outcome × Reduction) :=
  match reduction.phase with
  | .ready term => reduction.rest term [] (force book fuel term)
  | .closed false => some (.error .resultless, { reduction with phase := .closed true })
  | _ => some (.error (.protocol .alreadyStarted), reduction)

def resume (book : Book) (fuel : Nat) (reduction : Reduction) (reply : List Char)
    (seq : Option Int) : Option (Except Fault Outcome × Reduction) :=
  match reduction.phase with
  | .closed _ => some (.error (.protocol .reductionClosed), reduction)
  | .ready _ | .finished => some (.error (.protocol .nothingWaiting), reduction)
  | .waiting term replies =>
    match seq.filter (· ≠ ((replies.length + 1 : Nat) : Int)) with
    | some wrong => some (.error (.protocol (.alreadyAnswered wrong)), reduction)
    | none => reduction.rest term (replies ++ [reply])
        ((force book fuel term).after (replies ++ [reply]))

def cancel (reduction : Reduction) : Reduction :=
  match reduction.phase with
  | .ready _ => { reduction with phase := .closed false }
  | .waiting .. => { reduction with phase := .closed true }
  | _ => reduction

end Reduction

end Direct

end SignalCalculus
