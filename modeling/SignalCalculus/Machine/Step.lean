import SignalCalculus.Machine.Engine
import SignalCalculus.Machine.Law

set_option autoImplicit false

/-!
# The machine

Weak head reduction with its continuation as data. A chain follows one demanded term from one
contraction to the next; when it needs another term in weak head normal form it becomes a frame on
the stack and a new chain starts. When a chain ends, every term on it is entered in the memo with
the result, unless a request was sent meanwhile.
-/

namespace SignalCalculus

/-- A demanded term and the terms it has become. -/
structure Chain where
  sendsBefore : Nat
  current : Term
  earlier : List Term := []

namespace Chain

def push (chain : Chain) (term : Term) : Chain :=
  ⟨chain.sendsBefore, term, chain.current :: chain.earlier⟩

def terms (chain : Chain) : List Term := chain.current :: chain.earlier

end Chain

/-- Enters the result of a chain in the memo, unless a request was sent since it began. -/
def Engine.settle (engine : Engine) (chain : Chain) (result : Term) : Engine :=
  if engine.sends = chain.sendsBefore then
    { engine with memo := (engine.memo.enterAll chain.terms result).enter result result }
  else engine

inductive Frame where
  /-- A chain that waits for what its head variable is bound to. -/
  | unfold (chain : Chain) (args : List Term)
  /-- A chain that waits for what a strict law needs. -/
  | law (chain : Chain) (g : Fn) (args : List Term) (need : Law.Need)
  | force (cells : List (Cell Term Term))

inductive Control where
  | demand (term : Term)
  | chase (chain : Chain)
  | give (w : Term)

structure Machine where
  control : Control
  stack : List Frame

/-- A machine that waits for the reply to a request: the chain that sent it, the arguments of the
    sending function, and the frames around them. -/
structure Suspended where
  chain : Chain
  args : List Term
  stack : List Frame

inductive Step where
  | running (machine : Machine)
  | sent (bits : List Char) (suspended : Suspended)
  | finished (w : Term)
  | failed (fault : Fault)

namespace Machine

def weakHead (engine : Engine) (term : Term) : Machine :=
  ⟨.chase ⟨engine.sends, term, []⟩, []⟩

/-- A machine that forces a term: the cells of its result are rebuilt from forced halves. -/
def forcing (term : Term) : Machine := ⟨.demand term, [.force []]⟩

def close (engine : Engine) (chain : Chain) (result : Term) (stack : List Frame) : Step × Engine :=
  (.running ⟨.give result, stack⟩, engine.settle chain result)

def obey (engine : Engine) (chain : Chain) (g : Fn) (args : List Term) (stack : List Frame) :
    Law.Verdict → Step × Engine
  | .becomes term =>
    let rest := args.drop (g.arity?.getD 0)
    (.running ⟨.chase (chain.push (term.apply rest)), stack⟩, engine)
  | .stuck => close engine chain chain.current stack
  | .fails fault => (.failed fault, engine)
  | .needs need term => (.running ⟨.demand term, .law chain g args need :: stack⟩, engine)
  | .sends bits =>
    let engine := engine.report (.request bits)
    (.sent bits ⟨chain, args, stack⟩, { engine with sends := engine.sends + 1 })

def look (book : Book) (engine : Engine) (chain : Chain) (stack : List Frame) : Step × Engine :=
  match chain.current.spine with
  | (.var id, args) =>
    match book.resolve id with
    | none => close (engine.report (.stuck id)) chain chain.current stack
    | some term => (.running ⟨.demand term, .unfold chain args :: stack⟩, engine)
  | (.number _, []) | (.bits _, []) | (.picture _, []) => close engine chain chain.current stack
  | (.number n, arg :: _) => (.failed (.eval (.appliedNumber n arg)), engine)
  | (.mark m, _) => (.failed (.build (.unexpectedMark m)), engine)
  | (.fn g, args) =>
    match g.arity? with
    | none => (.failed (.lawless g), engine)
    | some arity =>
      if args.length < arity then close engine chain chain.current stack
      else
        match engine.tick g with
        | (engine, .error e) => (.failed (.eval e), engine)
        | (engine, .ok ()) => obey engine chain g args stack (Law.begin g (args.take arity))
  | (data, arg :: _) => (.failed (.eval (.appliedData data arg)), engine)

def rebuild (engine : Engine) (cells : List (Cell Term Term)) (w : Term) (stack : List Frame) :
    Step × Engine :=
  match w.cell? with
  | some (left, right) => (.running ⟨.demand left, .force (.left right :: cells) :: stack⟩, engine)
  | none =>
    match place Term.cell cells w with
    | .whole term => (.running ⟨.give term, stack⟩, engine)
    | .next right cells => (.running ⟨.demand right, .force cells :: stack⟩, engine)

/-- One step of the machine. A chain asks the memo about every term but its first, which the demand
    has asked for already. -/
def step (book : Book) (engine : Engine) : Machine → Step × Engine
  | ⟨.demand term, stack⟩ =>
    match engine.memo.find? term with
    | some w => (.running ⟨.give w, stack⟩, engine.report .cached)
    | none => (.running ⟨.chase ⟨engine.sends, term, []⟩, stack⟩, engine)
  | ⟨.chase chain, stack⟩ =>
    match chain.earlier, engine.memo.find? chain.current with
    | _ :: _, some w => close engine chain w stack
    | _, _ => look book engine chain stack
  | ⟨.give w, []⟩ => (.finished w, engine)
  | ⟨.give w, .unfold chain args :: stack⟩ =>
    (.running ⟨.chase (chain.push (w.apply args)), stack⟩, engine)
  | ⟨.give w, .law chain g args need :: stack⟩ =>
    obey engine chain g args stack (Law.onTerm g (args.take (g.arity?.getD 0)) need w)
  | ⟨.give w, .force cells :: stack⟩ => rebuild engine cells w stack

def answer (engine : Engine) (reply : List Char) (suspended : Suspended) : Step × Engine :=
  obey (engine.report (.reply reply)) suspended.chain .send suspended.args suspended.stack
    (Law.onReply reply)

end Machine

inductive Rest where
  | sent (bits : List Char) (suspended : Suspended)
  | finished (w : Term)
  | failed (fault : Fault)

namespace Machine

/-- Steps on from what a step led to, until the machine rests; nothing if `fuel` runs out before. -/
def settleFrom (book : Book) : Nat → Step → Engine → Option (Rest × Engine)
  | _, .sent bits suspended, engine => some (.sent bits suspended, engine)
  | _, .finished w, engine => some (.finished w, engine)
  | _, .failed fault, engine => some (.failed fault, engine)
  | 0, .running _, _ => none
  | fuel + 1, .running machine, engine =>
    let (next, engine) := step book engine machine
    settleFrom book fuel next engine

def run (book : Book) (fuel : Nat) (engine : Engine) (machine : Machine) : Option (Rest × Engine) :=
  settleFrom book fuel (.running machine) engine

def resume (book : Book) (fuel : Nat) (engine : Engine) (suspended : Suspended) (reply : List Char) :
    Option (Rest × Engine) :=
  let (next, engine) := answer engine reply suspended
  settleFrom book fuel next engine

end Machine

end SignalCalculus
