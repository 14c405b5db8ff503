import SignalCalculus.Link.Basic

set_option autoImplicit false

/-!
# Two tasks and their channels

A reducing task and a serving task exchange requests and replies. A request is handed over when the
server is free to take it, and brings a channel of its own for its reply, which holds one message.
Each end of a channel can be closed, and the other side notices. Every move says what it needs, so
any order of moves that are possible is a run. The reducing task closes the way for requests when it
ends, and then the server stops; the caller waits for both. A fault that has a family is caught
where the reducing task ends, and goes on to the caller as it is. Any other ends the pair of tasks,
and reaches the caller inside a fault of the pair.
-/

namespace SignalCalculus.Exchange

abbrev Reply := Except LinkError (List Char)

/-- A request with the channel that its reply comes back through. -/
structure Ticket where
  bits : List Char
  message : Option Reply := none
  sending : Bool := true
  receiving : Bool := true

/-- The reducing task. A request is known by its number. -/
inductive Client where
  | fresh (term : Option Term)
  | offering (number : Nat) (suspended : Suspended)
  | awaiting (number : Nat) (suspended : Suspended)
  /-- It has the reply, and has closed its end of the channel. -/
  | informed (reply : Reply) (suspended : Suspended)
  /-- It has ended with this; its caller waits for the other task. -/
  | ended (result : Except Fault Term)

inductive Server where
  | listening
  | holding (number : Nat) (bits : List Char)
  | answering (number : Nat) (reply : Reply)
  | closing (number : Nat)
  | stopped

/-- Both tasks, the requests so far, and what the tasks work on. -/
structure State (σ : Type) where
  client : Client
  server : Server
  tickets : List Ticket
  engine : Engine
  carried : σ

inductive Move where
  | start
  /-- The client hands its request to the server. -/
  | handOver
  /-- The client finds that nobody takes requests any more. -/
  | turnAway
  | serve
  | post
  /-- The server finds that nobody listens to the answer. -/
  | drop
  | close
  | collect
  /-- The client finds that no answer will come. -/
  | forsake
  | resume
  /-- The server stops, since no request can come any more; it does so too if it is cancelled. -/
  | stop
  deriving DecidableEq, Repr

def Move.all : List Move :=
  [.start, .handOver, .turnAway, .serve, .post, .drop, .close, .collect, .forsake, .resume, .stop]

namespace State

variable {σ : Type}

def rest (state : State σ) (engine : Engine) : Rest → State σ
  | .sent bits suspended =>
    { state with
      client := .offering state.tickets.length suspended
      tickets := state.tickets ++ [{ bits }]
      engine }
  | .finished w => { state with client := .ended (.ok w), engine }
  | .failed fault => { state with client := .ended (.error fault), engine }

def lose (state : State σ) (number : Nat) (e : ProtocolError) : State σ :=
  { state with
    client := .ended (.error (.protocol e))
    tickets := state.tickets.modify number fun ticket =>
      { ticket with sending := false, receiving := false } }

end State

inductive Moved (σ : Type) where
  | next (state : State σ)
  /-- The move needs something that is not so. -/
  | impossible
  /-- The reduction between two requests ran out of fuel. -/
  | exhausted

def Moved.ofRest {σ : Type} (state : State σ) : Option (Rest × Engine) → Moved σ
  | none => .exhausted
  | some (halt, engine) => .next (state.rest engine halt)

/-- A move of one of the tasks, against the book with number `id`. -/
def move {σ : Type} (book : Book) (id fuel : Nat) (carrier : Carrier σ) (state : State σ) :
    Move → Moved σ
  | .start =>
    match state.client with
    | .fresh none => .next { state with client := .ended (.error (.eval .emptyTerm)) }
    | .fresh (some term) =>
      .ofRest state (Machine.run book fuel (state.engine.bind id) (Machine.forcing term))
    | _ => .impossible
  | .handOver =>
    match state.client, state.server with
    | .offering number suspended, .listening =>
      match state.tickets[number]? with
      | some ticket =>
        .next { state with
          client := .awaiting number suspended, server := .holding number ticket.bits }
      | none => .impossible
    | _, _ => .impossible
  | .turnAway =>
    match state.client, state.server with
    | .offering number _, .stopped => .next (state.lose number .channelClosed)
    | _, _ => .impossible
  | .serve =>
    match state.server with
    | .holding number bits =>
      let (reply, carried) := carrier bits state.carried
      .next { state with server := .answering number reply, carried }
    | _ => .impossible
  | .post =>
    match state.server with
    | .answering number reply =>
      match state.tickets[number]? with
      | some ⟨_, none, _, true⟩ =>
        .next { state with
          server := .closing number
          tickets := state.tickets.modify number fun ticket => { ticket with message := some reply } }
      | _ => .impossible
    | _ => .impossible
  | .drop =>
    match state.server with
    | .answering number _ =>
      match state.tickets[number]? with
      | some ⟨_, _, _, false⟩ => .next { state with server := .closing number }
      | _ => .impossible
    | _ => .impossible
  | .close =>
    match state.server with
    | .closing number =>
      .next { state with
        server := .listening
        tickets := state.tickets.modify number fun ticket => { ticket with sending := false } }
    | _ => .impossible
  | .collect =>
    match state.client with
    | .awaiting number suspended =>
      match state.tickets[number]? with
      | some ⟨_, some reply, _, _⟩ =>
        .next { state with
          client := .informed reply suspended
          tickets := state.tickets.modify number fun ticket =>
            { ticket with message := none, receiving := false } }
      | _ => .impossible
    | _ => .impossible
  | .forsake =>
    match state.client with
    | .awaiting number _ =>
      match state.tickets[number]? with
      | some ⟨_, none, false, _⟩ => .next (state.lose number .noReply)
      | _ => .impossible
    | _ => .impossible
  | .resume =>
    match state.client with
    | .informed (.error e) _ => .next { state with client := .ended (.error (.protocol (.link e))) }
    | .informed (.ok reply) suspended =>
      .ofRest state (Machine.resume book fuel state.engine suspended reply)
    | _ => .impossible
  | .stop =>
    match state.client, state.server with
    | .ended _, .listening => .next { state with server := .stopped }
    | _, _ => .impossible

def firstMove {σ : Type} (book : Book) (id fuel : Nat) (carrier : Carrier σ) (state : State σ) :
    List Move → Moved σ
  | [] => .impossible
  | candidate :: rest =>
    match move book id fuel carrier state candidate with
    | .impossible => firstMove book id fuel carrier state rest
    | moved => moved

/-- What a fault of the reducing task is to the caller of both tasks. -/
def outOfPair (fault : Fault) : Fault :=
  if fault.family?.isSome then fault else .grouped fault

/-- What the caller of both tasks is given, once they have ended. -/
def State.outcome? {σ : Type} (state : State σ) : Option (Except Fault Term) :=
  match state.client, state.server with
  | .ended result, .stopped => some (result.mapError outOfPair)
  | _, _ => none

/-- Moves on until both tasks have ended; the last number bounds how many moves there are. -/
def settle {σ : Type} (book : Book) (id fuel : Nat) (carrier : Carrier σ) :
    Nat → State σ → Option (Except Fault Term × Engine × σ)
  | 0, _ => none
  | moves + 1, state =>
    match state.outcome? with
    | some result => some (result, state.engine, state.carried)
    | none =>
      match firstMove book id fuel carrier state Move.all with
      | .next state => settle book id fuel carrier moves state
      | _ => none

def State.initial {σ : Type} (engine : Engine) (carried : σ) (term : Option Term) : State σ :=
  ⟨.fresh term, .listening, [], engine, carried⟩

/-- The forced result of a term, every request going through a serving task. -/
def eval {σ : Type} (engine : Engine) (id : Nat) (book : Book) (fuel : Nat) (carrier : Carrier σ)
    (carried : σ) (term : Option Term) : Option (Except Fault Term × Engine × σ) :=
  settle book id fuel carrier fuel (.initial engine carried term)

inductive PeerReply where
  | bits (reply : List Char)
  | failure (text : String) (code : Option Int)

/-- A peer that answers in order, and closes the reply channel of the first request that it has no
    answer for. Its own channel may be closed from the start. -/
structure Peer where
  replies : List PeerReply
  closed : Bool := false
  requests : List (List Char) := []

def Peer.link : Link Peer := fun bits peer =>
  if peer.closed then (.error (.protocol .channelClosed), peer)
  else
    let requests := peer.requests ++ [bits]
    match peer.replies with
    | [] => (.error (.protocol .noReply), { peer with requests })
    | .bits reply :: replies => (.ok reply, { peer with replies, requests })
    | .failure text code :: replies =>
      (.error (.protocol (.link (.reported text code))), { peer with replies, requests })

structure Request where
  bits : List Char
  abandoned : Bool := false

inductive Served where
  | answered (reply : Except Fault (List Char))
  | abandoned

/-- Serves requests one after the other; an abandoned one is put through the link all the same. -/
def serveAll {σ : Type} (link : Link σ) : List Request → σ → List Served × σ
  | [], state => ([], state)
  | request :: rest, state =>
    let (reply, state) := link request.bits state
    let (served, state) := serveAll link rest state
    ((if request.abandoned then .abandoned else .answered reply) :: served, state)

end SignalCalculus.Exchange
