import SignalCalculus.Link.Exchange
import SignalCalculus.Machine.Reduction
import SignalCalculus.Trace.Event

set_option autoImplicit false

namespace SignalCalculus

/-- What a session consists of. Books are numbered in the order they came; the first is the script's
    own. -/
structure Session where
  books : Array Book
  engine : Engine
  link : Option Link.Recording
  bookNames : Table String Nat := []
  reductions : Table String Reduction := []
  state : List Symbol := []

structure Round where
  state : List Symbol
  pictures : List (List (Int × Int))

namespace Round

def pictures? : Term → Except EvalError (List (List (Int × Int)))
  | .app (.app (.atom (.fn .cons)) item) rest => next item (pictures? rest)
  | .app (.app (.atom (.fn .vec)) item) rest => next item (pictures? rest)
  | .atom (.fn .nil) => .ok []
  | other => .error (.expectedList .multipledraw other)
where
  next (item : Term) (rest : Except EvalError (List (List (Int × Int)))) :
      Except EvalError (List (List (Int × Int))) :=
    match item with
    | .atom (.picture points) => rest.map (points :: ·)
    | _ => .error (.expectedList .multipledraw item)

def ofTerm (result : Term) : Except EvalError Round :=
  match result.cell? with
  | none => .error (.expectedList .interact result)
  | some (state, rest) =>
    match rest.cell? with
    | none => .error (.expectedList .interact rest)
    | some (list, _) => (pictures? list).map fun pictures => ⟨state.symbols, pictures⟩

def program (protocol state : List Symbol) (x y : Int) : List Symbol :=
  [.ap, .ap, .ap, .fn .interact] ++ protocol ++ state ++
    [.ap, .ap, .fn .vec, .plain x, .plain y]

end Round

inductive Command where
  | eval (text : String) (book : Option String)
  /-- Evaluates an expression with a serving task beside the reducing one. -/
  | evalServed (text : String)
  | weakHead (text : String) (book : Option String)
  | start (name text : String) (book : Option String)
  | advance (name : String)
  | resume (name reply : String) (seq : Option Int)
  | cancel (name : String)
  | status (name : String)
  /-- One round of a protocol; without a state, the one that the last round left is taken. -/
  | interact (protocol state : Option String) (x y : Int)
  | lookup (text : String)
  | define (text : String)
  | forget
  | recall (text : String)
  | setLink (link : Option Link.Recording)
  | requests
  | trace
  | clearTrace
  | addBook (name script : String)

inductive Answer where
  | result (symbols : List Symbol)
  | term (term : Term)
  | started
  | outcome (outcome : Outcome)
  | cancelled
  | status (done : Bool) (pending : Option Nat)
  | round (round : Round)
  | found (symbols : Option (List Symbol))
  | size (count : Nat)
  | cleared
  | recalled (term : Option Term)
  | linkSet
  | requests (bits : List (List Char))
  | trace (text : String) (dropped : Nat)
  | unknown (name : String)

namespace Session

def readTerm (text : String) : Except Fault (Option Term) := do
  let program ← (Script.parseExpression none text.toList).mapError .parse
  (Term.build program).mapError .build

def ofScript (script : String) (engine : Engine) (link : Option Link.Recording) :
    Except Fault Session := do
  let equations ← (Script.parseScript script.toList).mapError .parse
  let book ← (Book.ofEquations equations).mapError .build
  return { books := #[book], engine, link }

def book (session : Session) (id : Nat) : Book := session.books.getD id {}

def ownBook (session : Session) : Book := session.book 0

def bookId? (session : Session) : Option String → Option Nat
  | none => some 0
  | some name => session.bookNames.get? name

def evalTerm (session : Session) (fuel id : Nat) (term : Option Term) :
    Option (Except Fault Term × Session) := do
  let (result, engine, link) ← session.engine.eval id (session.book id) fuel
    (Link.optional Link.recorded) session.link term
  return (result, { session with engine, link })

/-- What evaluation with a serving task leads to; without a link there is nothing to serve. -/
def evalServed (session : Session) (fuel : Nat) (term : Option Term) :
    Option (Except Fault Term × Session) :=
  match session.link with
  | none => session.evalTerm fuel 0 term
  | some link => do
    let (result, engine, link) ← Exchange.eval session.engine 0 session.ownBook fuel
      Link.recording link term
    return (result, { session with engine, link := some link })

def stepped (session : Session) (name : String)
    (step : Option (Except Fault Outcome × Reduction × Engine)) :
    Option (Except Fault Answer × Session) := do
  let (outcome, reduction, engine) ← step
  let reductions := session.reductions.put name reduction
  return (outcome.map .outcome, { session with engine, reductions })

def readProgram (text : String) : Except Fault (List Symbol) :=
  (Script.parseExpression none text.toList).mapError .parse

def withRead {α : Type} (session : Session) (read : Except Fault α)
    (go : α → Option (Except Fault Answer × Session)) : Option (Except Fault Answer × Session) :=
  match read with
  | .error fault => some (.error fault, session)
  | .ok a => go a

def withBook (session : Session) (name : Option String)
    (go : Nat → Option (Except Fault Answer × Session)) : Option (Except Fault Answer × Session) :=
  match session.bookId? name with
  | none => some (.ok (.unknown (name.getD "")), session)
  | some id => go id

def withReduction (session : Session) (name : String)
    (go : Reduction → Option (Except Fault Answer × Session)) :
    Option (Except Fault Answer × Session) :=
  match session.reductions.get? name with
  | none => some (.ok (.unknown name), session)
  | some reduction => go reduction

def interact (session : Session) (fuel : Nat) (protocol state : List Symbol) (x y : Int) :
    Option (Except Fault Answer × Session) :=
  session.withRead ((Term.build (Round.program protocol state x y)).mapError .build) fun term => do
    let (result, session) ← session.evalTerm fuel 0 term
    match result with
    | .error fault => return (.error fault, session)
    | .ok w =>
      match Round.ofTerm w with
      | .error e => return (.error (.eval e), session)
      | .ok round => return (.ok (.round round), { session with state := round.state })

/-- Does a command; nothing if `fuel` runs out before the answer is there. -/
def perform (session : Session) (fuel : Nat) : Command → Option (Except Fault Answer × Session)
  | .eval text book =>
    session.withBook book fun id =>
      session.withRead (readTerm text) fun term => do
        let (result, session) ← session.evalTerm fuel id term
        return (result.map fun w => .result w.symbols, session)
  | .evalServed text =>
    session.withRead (readTerm text) fun term => do
      let (result, session) ← session.evalServed fuel term
      return (result.map fun w => .result w.symbols, session)
  | .weakHead text book =>
    session.withBook book fun id =>
      session.withRead (readTerm text) fun
        | none => some (.error (.eval .emptyTerm), session)
        | some term => do
          let (result, engine) ← session.engine.weakHead id (session.book id) fuel term
          return (result.map .term, { session with engine })
  | .start name text book =>
    session.withBook book fun id =>
      session.withRead (readTerm text) fun term =>
        match Reduction.start session.engine id term with
        | .error e => some (.error (.eval e), session)
        | .ok (reduction, engine) =>
          let reductions := session.reductions.put name reduction
          some (.ok .started, { session with engine, reductions })
  | .advance name =>
    session.withReduction name fun reduction =>
      session.stepped name (reduction.advance (session.book reduction.book) fuel session.engine)
  | .resume name reply seq =>
    session.withReduction name fun reduction =>
      session.stepped name
        (reduction.resume (session.book reduction.book) fuel session.engine reply.toList seq)
  | .cancel name =>
    session.withReduction name fun reduction =>
      let reductions := session.reductions.put name reduction.cancel
      some (.ok .cancelled, { session with reductions })
  | .status name =>
    session.withReduction name fun reduction =>
      some (.ok (.status reduction.isDone reduction.pendingSeq?), session)
  | .interact protocol state x y =>
    session.withRead (state.mapM readProgram) fun state =>
      session.withRead (protocol.mapM readProgram) fun protocol =>
        session.interact fuel (protocol.getD [.fn .galaxy]) (state.getD session.state) x y
  | .lookup text =>
    session.withRead (readProgram text) fun program =>
      some (.ok (.found (session.ownBook.lookup program)), session)
  | .define text =>
    session.withRead ((Script.parseStatement none text.toList).mapError .parse) fun equation =>
      let (book, added) := session.ownBook.enter equation
      let session := { session with books := session.books.set! 0 book }
      session.withRead (added.mapError .build) fun () => some (.ok (.size book.size), session)
  | .forget => some (.ok .cleared, { session with engine := session.engine.forget })
  | .recall text =>
    session.withRead (readTerm text) fun term =>
      some (.ok (.recalled (term.bind session.engine.memo.find?)), session)
  | .setLink link => some (.ok .linkSet, { session with link })
  | .requests => some (.ok (.requests ((session.link.map (·.requests)).getD [])), session)
  | .trace =>
    match session.engine.recorder.trace with
    | .error _ => some (.ok (.trace "" session.engine.recorder.dropped), session)
    | .ok text => some (.ok (.trace text session.engine.recorder.dropped), session)
  | .clearTrace =>
    some (.ok .cleared,
      { session with engine := { session.engine with recorder := session.engine.recorder.clear } })
  | .addBook name script =>
    session.withRead ((Script.parseScript script.toList).mapError .parse) fun equations =>
      session.withRead ((Book.ofEquations equations).mapError .build) fun book =>
        some (.ok (.size book.size),
          { session with
            books := session.books.push book
            bookNames := session.bookNames.put name session.books.size })

end Session

end SignalCalculus
