import SignalCalculus.Machine.Step

set_option autoImplicit false

namespace SignalCalculus

/-- Something that answers requests, with states of type `σ`. -/
abbrev Link (σ : Type) := List Char → σ → Except Fault (List Char) × σ

/-- A link that gives a reply or says itself why it has none. -/
abbrev Carrier (σ : Type) := List Char → σ → Except LinkError (List Char) × σ

def Carrier.link {σ : Type} (carrier : Carrier σ) : Link σ := fun bits state =>
  let (answer, state) := carrier bits state
  (answer.mapError fun e => .protocol (.link e), state)

namespace Link

def absent {σ : Type} : Link σ := fun bits state => (.error (.protocol (.noLink bits)), state)

structure Recording where
  replies : List (List Char)
  requests : List (List Char) := []

def recording : Carrier Recording := fun bits state =>
  let requests := state.requests ++ [bits]
  match state.replies with
  | [] => (.error (.noReply bits), ⟨[], requests⟩)
  | reply :: replies => (.ok reply, ⟨replies, requests⟩)

def recorded : Link Recording := recording.link

def optional {σ : Type} (link : Link σ) : Link (Option σ) := fun bits state =>
  match state with
  | none => absent bits none
  | some state =>
    let (reply, state) := link bits state
    (reply, some state)

end Link

namespace Engine

/-- Answers every request of a machine at rest through a link, until it finishes or fails. The fuel
    bounds each run between two requests, and the last number bounds how many requests there are. -/
def converse {σ : Type} (book : Book) (fuel : Nat) (link : Link σ) :
    Nat → Rest → Engine → σ → Option (Except Fault Term × Engine × σ)
  | _, .finished w, engine, state => some (.ok w, engine, state)
  | _, .failed fault, engine, state => some (.error fault, engine, state)
  | 0, .sent _ _, _, _ => none
  | rounds + 1, .sent bits suspended, engine, state =>
    match link bits state with
    | (.error fault, state) => some (.error fault, engine, state)
    | (.ok reply, state) => do
      let (halt, engine) ← Machine.resume book fuel engine suspended reply
      converse book fuel link rounds halt engine state

/-- The forced result of a term against the book with number `id`. -/
def eval {σ : Type} (engine : Engine) (id : Nat) (book : Book) (fuel : Nat) (link : Link σ)
    (state : σ) : Option Term → Option (Except Fault Term × Engine × σ)
  | none => some (.error (.eval .emptyTerm), engine, state)
  | some term => do
    let (halt, engine) ← Machine.run book fuel (engine.bind id) (Machine.forcing term)
    converse book fuel link fuel halt engine state

/-- The weak head normal form of a term against the book with number `id`; it may not send. -/
def weakHead (engine : Engine) (id : Nat) (book : Book) (fuel : Nat) (term : Term) :
    Option (Except Fault Term × Engine) := do
  let engine := engine.bind id
  match ← Machine.run book fuel engine (Machine.weakHead engine term) with
  | (.finished w, engine) => return (.ok w, engine)
  | (.failed fault, engine) => return (.error fault, engine)
  | (.sent bits _, engine) => return (.error (.protocol (.noLink bits)), engine)

end Engine

end SignalCalculus
