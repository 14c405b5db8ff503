import SignalCalculus.Proofs.Exchange.Schedules
import SignalCalculus.Proofs.Limit.Queries
import SignalCalculus.Session

set_option autoImplicit false

/-!
# Sessions that answer queries

A session of a script that has been asked queries only, of any kind and with any limits, still has
the script's book and no other. Its engine is valid for that book, and the reductions that were
started can be stepped on.
-/

namespace SignalCalculus

def Command.IsQuery : Command → Prop
  | .define _ | .addBook _ _ => False
  | _ => True

/-- Evaluation with a serving task leaves what evaluation with the link alone leaves. -/
theorem Exchange.exists_eval {σ : Type} {engine engine' : Engine} {id : Nat} {book : Book}
    {fuel : Nat} {carrier : Carrier σ} {carried carried' : σ} {term : Option Term}
    {result : Except Fault Term}
    (h : Exchange.eval engine id book fuel carrier carried term =
      some (result, engine', carried')) :
    ∃ fuel' own, engine.eval id book fuel' carrier.link carried term =
      some (own, engine', carried') := by
  let query : Query σ := ⟨book, id, carrier, engine, carried, term⟩
  obtain ⟨moves, last, own, hrun, hover, hlast⟩ := (Run.none : Run query [] _).of_settle h
  cases hlast
  obtain ⟨fuel', hplain⟩ := ((Query.Tracks.run hrun).ends hover).plain
  exact ⟨fuel', own, hplain⟩

namespace Reduction

variable {book : Book} {fuel : Nat} {engine engine' : Engine} {reduction reduction' : Reduction}
  {outcome : Except Fault Outcome}

theorem rest_book (reduction : Reduction) (sent : Nat) (rest : Rest) :
    (reduction.rest sent rest).2.book = reduction.book := by
  cases rest <;> rfl

theorem advance_book (h : reduction.advance book fuel engine = some (outcome, reduction', engine')) :
    reduction'.book = reduction.book := by
  unfold advance at h
  split at h
  · obtain ⟨⟨rest, engine1⟩, -, heq⟩ := Option.bind_eq_some_iff.1 h
    cases heq
    exact rest_book reduction 0 rest
  · cases h
    rfl
  · cases h
    rfl

theorem resume_book {reply : List Char} {seq : Option Int}
    (h : reduction.resume book fuel engine reply seq = some (outcome, reduction', engine')) :
    reduction'.book = reduction.book := by
  unfold resume at h
  split at h
  · cases h
    rfl
  · cases h
    rfl
  · cases h
    rfl
  · split at h
    · cases h
      rfl
    · obtain ⟨⟨rest, engine1⟩, -, heq⟩ := Option.bind_eq_some_iff.1 h
      cases heq
      exact rest_book reduction _ rest

theorem cancel_book (reduction : Reduction) : reduction.cancel.book = reduction.book := by
  obtain ⟨book, phase⟩ := reduction
  cases phase <;> rfl

end Reduction

namespace Session

variable {script : String} {book : Book} {session next : Session} {fuel : Nat}
  {answer : Except Fault Answer}

def evalProgram (session : Session) (fuel : Nat) (program : List Symbol) :
    Option (Except Fault Answer × Session) :=
  session.withRead ((Term.build program).mapError .build) fun term => do
    let (result, session) ← session.evalTerm fuel 0 term
    return (result.map fun w => .result w.symbols, session)

theorem perform_eval (session : Session) (fuel : Nat) (text : String) :
    session.perform fuel (.eval text none) =
      session.withRead (readProgram text) (session.evalProgram fuel) := by
  have hread : readTerm text =
      (readProgram text).bind fun program => (Term.build program).mapError Fault.build := rfl
  change session.withRead (readTerm text) _ = _
  rw [hread]
  cases readProgram text <;> rfl

/-- A session of a script whose engine was new and that has been asked queries only. -/
inductive Queried (script : String) : Session → Prop
  | start {session : Session} {stepLimit memoLimit : Int} {recorder : Trace.Recorder}
      {link : Option Link.Recording}
      (opened : ofScript script { stepLimit, memoLimit, recorder } link = .ok session) :
      Queried script session
  | ask {session next : Session} {fuel : Nat} {command : Command} {answer : Except Fault Answer}
      (before : Queried script session) (query : command.IsQuery)
      (done : session.perform fuel command = some (answer, next)) : Queried script next
  | evaluate {session next : Session} {fuel : Nat} {program : List Symbol}
      {answer : Except Fault Answer} (before : Queried script session)
      (done : session.evalProgram fuel program = some (answer, next)) : Queried script next

/-- The session has one book, for which its engine is valid, and its reductions are justified. -/
structure Sound (book : Book) (session : Session) : Prop where
  books : session.books = #[book]
  names : session.bookNames = []
  valid : session.engine.unlimited.Valid fun _ => book
  each : ∀ name reduction, session.reductions.get? name = some reduction → reduction.book = 0 ∧
    session.engine.boundTo ≠ none ∧ reduction.Justified (fun _ => book) session.engine.sends

theorem Sound.book_zero (h : session.Sound book) : session.book 0 = book := by
  rw [Session.book, h.books]
  rfl

theorem Sound.served (h : session.Sound book) (hbooks : next.books = session.books)
    (hnames : next.bookNames = session.bookNames) (hreductions : next.reductions = session.reductions)
    (hs : session.engine.unlimited.Served (fun _ => book) next.engine.unlimited) :
    next.Sound book where
  books := hbooks.trans h.books
  names := hnames.trans h.names
  valid := hs.valid
  each := fun name reduction hget => by
    rw [hreductions] at hget
    obtain ⟨hbook, hbound, hj⟩ := h.each name reduction hget
    exact ⟨hbook, hs.bound hbound, hj.mono hs.grown⟩

theorem Sound.put (h : session.Sound book) {name : String} {reduction : Reduction}
    {engine' : Engine} (hbook : reduction.book = 0) (hbound : engine'.boundTo ≠ none)
    (hintact : Reduction.Intact (fun _ => book) session.engine reduction engine') :
    Sound book { session with
      engine := engine', reductions := session.reductions.put name reduction } where
  books := h.books
  names := h.names
  valid := hintact.1.valid
  each := fun other started hget => by
    change Table.get? other (Table.put name reduction session.reductions) = _ at hget
    rw [Table.get?_put] at hget
    split at hget
    · cases hget
      exact ⟨hbook, hbound, hintact.2⟩
    · obtain ⟨hbook', -, hj⟩ := h.each other started hget
      exact ⟨hbook', hbound, hj.mono hintact.1.grown⟩

theorem withRead_eq_some {α : Type} {read : Except Fault α}
    {go : α → Option (Except Fault Answer × Session)}
    (h : session.withRead read go = some (answer, next)) :
    next = session ∨ ∃ a, read = .ok a ∧ go a = some (answer, next) := by
  cases read with
  | error fault =>
    cases h
    exact .inl rfl
  | ok a => exact .inr ⟨a, rfl, h⟩

theorem Sound.withBook_eq_some (hs : session.Sound book) {name : Option String}
    {go : Nat → Option (Except Fault Answer × Session)}
    (h : session.withBook name go = some (answer, next)) :
    next = session ∨ go 0 = some (answer, next) := by
  cases name with
  | none => exact .inr h
  | some name =>
    have hid : session.bookId? (some name) = none := by
      rw [bookId?, hs.names]
      rfl
    rw [withBook, hid] at h
    cases h
    exact .inl rfl

theorem withReduction_eq_some {name : String}
    {go : Reduction → Option (Except Fault Answer × Session)}
    (h : session.withReduction name go = some (answer, next)) :
    next = session ∨ ∃ reduction, session.reductions.get? name = some reduction ∧
      go reduction = some (answer, next) := by
  unfold withReduction at h
  cases hget : session.reductions.get? name with
  | none =>
    rw [hget] at h
    cases h
    exact .inl rfl
  | some reduction =>
    rw [hget] at h
    exact .inr ⟨reduction, rfl, h⟩

theorem Sound.evalTerm (h : session.Sound book) {term : Option Term} {result : Except Fault Term}
    (hrun : session.evalTerm fuel 0 term = some (result, next)) : next.Sound book := by
  obtain ⟨⟨result', engine', link⟩, heval, heq⟩ := Option.bind_eq_some_iff.1 hrun
  cases heq
  rw [h.book_zero] at heval
  exact h.served rfl rfl rfl (Engine.eval_served h.valid heval)

theorem Sound.evalProgram (h : session.Sound book) {program : List Symbol}
    (hrun : session.evalProgram fuel program = some (answer, next)) : next.Sound book := by
  obtain rfl | ⟨term, -, hgo⟩ := withRead_eq_some hrun
  · exact h
  · obtain ⟨⟨result, between⟩, heval, heq⟩ := Option.bind_eq_some_iff.1 hgo
    cases heq
    exact h.evalTerm heval

theorem Sound.evalServed (h : session.Sound book) {term : Option Term}
    {result : Except Fault Term} (hrun : session.evalServed fuel term = some (result, next)) :
    next.Sound book := by
  unfold Session.evalServed at hrun
  cases hlink : session.link with
  | none =>
    rw [hlink] at hrun
    exact h.evalTerm hrun
  | some link =>
    rw [hlink] at hrun
    obtain ⟨⟨result', engine', link'⟩, hserved, heq⟩ := Option.bind_eq_some_iff.1 hrun
    cases heq
    obtain ⟨fuel', own, heval⟩ := Exchange.exists_eval hserved
    rw [ownBook, h.book_zero] at heval
    exact h.served rfl rfl rfl (Engine.eval_served h.valid heval)

theorem Sound.weakHead (h : session.Sound book) {term : Term} {result : Except Fault Term}
    {engine' : Engine}
    (hrun : session.engine.weakHead 0 (session.book 0) fuel term = some (result, engine')) :
    Sound book { session with engine := engine' } := by
  rw [h.book_zero] at hrun
  exact h.served rfl rfl rfl (Engine.weakHead_served h.valid hrun)

theorem Sound.start (h : session.Sound book) {name : String} {term : Term} :
    Sound book { session with
      engine := session.engine.bind 0
      reductions := session.reductions.put name ⟨0, .ready term⟩ } := by
  have hvalid := h.valid.bind 0
  rw [← Engine.unlimited_bind] at hvalid
  have hbound : (session.engine.bind 0).boundTo ≠ none := by
    rw [Engine.bind_boundTo]
    exact nofun
  have hsends : session.engine.unlimited.sends ≤ (session.engine.bind 0).unlimited.sends :=
    Nat.le_of_eq (Engine.bind_sends session.engine 0).symm
  exact h.put rfl hbound ⟨⟨hvalid, hsends, fun _ => hbound⟩, nofun⟩

theorem Sound.stepped (h : session.Sound book) {name : String} {reduction : Reduction}
    (hget : session.reductions.get? name = some reduction)
    {step : Option (Except Fault Outcome × Reduction × Engine)}
    (hstep : ∀ outcome reduction' engine', step = some (outcome, reduction', engine') →
      reduction'.book = reduction.book ∧
      Reduction.Intact (fun _ => book) session.engine reduction' engine')
    (hrun : session.stepped name step = some (answer, next)) : next.Sound book := by
  obtain ⟨⟨outcome, reduction', engine'⟩, hsome, heq⟩ := Option.bind_eq_some_iff.1 hrun
  cases heq
  obtain ⟨hbook, hbound, -⟩ := h.each name reduction hget
  obtain ⟨hsame, hintact⟩ := hstep outcome reduction' engine' hsome
  exact h.put (hsame.trans hbook) (hintact.1.bound hbound) hintact

theorem Sound.interact (h : session.Sound book) {protocol state : List Symbol} {x y : Int}
    (hrun : session.interact fuel protocol state x y = some (answer, next)) : next.Sound book := by
  obtain rfl | ⟨term, -, hgo⟩ := withRead_eq_some hrun
  · exact h
  · obtain ⟨⟨result, between⟩, heval, hnext⟩ := Option.bind_eq_some_iff.1 hgo
    have hbetween := h.evalTerm heval
    cases result with
    | error fault =>
      cases hnext
      exact hbetween
    | ok w =>
      cases hround : Round.ofTerm w with
      | error e =>
        simp only [hround] at hnext
        cases hnext
        exact hbetween
      | ok round =>
        simp only [hround] at hnext
        cases hnext
        exact hbetween.served rfl rfl rfl ⟨hbetween.valid, Nat.le_refl _, fun hne => hne⟩

theorem Sound.perform (h : session.Sound book) {command : Command} (query : command.IsQuery)
    (hrun : session.perform fuel command = some (answer, next)) : next.Sound book := by
  have hstay : session.engine.unlimited.Served (fun _ => book) session.engine.unlimited :=
    ⟨h.valid, Nat.le_refl _, fun hne => hne⟩
  -- There is one book, so no reduction runs while the engine is bound to another.
  have hsuits : ∀ reduction : Reduction, reduction.Suits (fun _ => book) session.engine :=
    fun _ _ _ => .refl book
  cases command with
  | eval text name =>
    obtain rfl | hgo := h.withBook_eq_some hrun
    · exact h
    obtain rfl | ⟨term, -, hgo⟩ := withRead_eq_some hgo
    · exact h
    obtain ⟨⟨result, between⟩, heval, heq⟩ := Option.bind_eq_some_iff.1 hgo
    cases heq
    exact h.evalTerm heval
  | evalServed text =>
    obtain rfl | ⟨term, -, hgo⟩ := withRead_eq_some hrun
    · exact h
    obtain ⟨⟨result, between⟩, heval, heq⟩ := Option.bind_eq_some_iff.1 hgo
    cases heq
    exact h.evalServed heval
  | weakHead text name =>
    obtain rfl | hgo := h.withBook_eq_some hrun
    · exact h
    obtain rfl | ⟨term, -, hgo⟩ := withRead_eq_some hgo
    · exact h
    cases term with
    | none =>
      cases hgo
      exact h
    | some term =>
      obtain ⟨⟨result, engine'⟩, hweak, heq⟩ := Option.bind_eq_some_iff.1 hgo
      cases heq
      exact h.weakHead hweak
  | start name text chosen =>
    obtain rfl | hgo := h.withBook_eq_some hrun
    · exact h
    obtain rfl | ⟨term, -, hgo⟩ := withRead_eq_some hgo
    · exact h
    cases term with
    | none =>
      cases hgo
      exact h
    | some term =>
      cases hgo
      exact h.start
  | advance name =>
    obtain rfl | ⟨reduction, hget, hgo⟩ := withReduction_eq_some hrun
    · exact h
    obtain ⟨hbook, hbound, hj⟩ := h.each name reduction hget
    rw [hbook, h.book_zero] at hgo
    refine h.stepped hget (fun outcome reduction' engine' hstep => ?_) hgo
    exact ⟨Reduction.advance_book hstep,
      Reduction.advance_intact hj h.valid hbound (fun _ _ => hsuits reduction) hstep⟩
  | resume name reply seq =>
    obtain rfl | ⟨reduction, hget, hgo⟩ := withReduction_eq_some hrun
    · exact h
    obtain ⟨hbook, hbound, hj⟩ := h.each name reduction hget
    rw [hbook, h.book_zero] at hgo
    refine h.stepped hget (fun outcome reduction' engine' hstep => ?_) hgo
    exact ⟨Reduction.resume_book hstep,
      Reduction.resume_intact hj h.valid hbound (fun _ _ _ _ => hsuits reduction) hstep⟩
  | cancel name =>
    obtain rfl | ⟨reduction, hget, hgo⟩ := withReduction_eq_some hrun
    · exact h
    cases hgo
    obtain ⟨hbook, hbound, hj⟩ := h.each name reduction hget
    exact h.put (reduction.cancel_book.trans hbook) hbound ⟨hstay, hj.cancel⟩
  | status name =>
    obtain rfl | ⟨reduction, -, hgo⟩ := withReduction_eq_some hrun
    · exact h
    cases hgo
    exact h
  | interact protocol state x y =>
    obtain rfl | ⟨state, -, hgo⟩ := withRead_eq_some hrun
    · exact h
    obtain rfl | ⟨protocol, -, hgo⟩ := withRead_eq_some hgo
    · exact h
    exact h.interact hgo
  | lookup text =>
    obtain rfl | ⟨program, -, hgo⟩ := withRead_eq_some hrun
    · exact h
    cases hgo
    exact h
  | forget =>
    cases hrun
    exact h.served rfl rfl rfl ⟨h.valid.forget, Nat.le_refl _, fun hne => hne⟩
  | setLink link =>
    cases hrun
    exact h.served rfl rfl rfl hstay
  | clearTrace =>
    cases hrun
    have hvalid : Engine.Valid (fun _ => book)
        { session.engine.unlimited with recorder := session.engine.recorder.clear } :=
      ⟨rfl, h.valid.entries⟩
    exact h.served rfl rfl rfl ⟨hvalid, Nat.le_refl _, fun hne => hne⟩
  | requests =>
    cases hrun
    exact h
  | trace =>
    unfold Session.perform at hrun
    dsimp only at hrun
    split at hrun <;> cases hrun <;> exact h
  | define text | addBook name text => exact query.elim
  | _ =>
    -- What is left only asks the memo.
    obtain rfl | ⟨term, -, hgo⟩ := withRead_eq_some hrun
    · exact h
    cases hgo
    exact h

def Opens (script : String) (book : Book) : Prop :=
  ∃ equations, Script.parseScript script.toList = .ok equations ∧
    Book.ofEquations equations = .ok book

theorem Opens.unique {other : Book} (h : Opens script book) (h' : Opens script other) :
    book = other := by
  obtain ⟨equations, hparse, hbook⟩ := h
  obtain ⟨equations', hparse', hbook'⟩ := h'
  rw [hparse] at hparse'
  cases hparse'
  rw [hbook] at hbook'
  cases hbook'
  rfl

theorem mapError_bind_eq_ok {ε α β : Type} {x : Except ε α} {f : ε → Fault}
    {go : α → Except Fault β} {b : β} (h : (x.mapError f).bind go = .ok b) :
    ∃ a, x = .ok a ∧ go a = .ok b := by
  cases x with
  | error e => cases h
  | ok a => exact ⟨a, rfl, h⟩

theorem ofScript_eq_ok {engine : Engine} {link : Option Link.Recording}
    (h : ofScript script engine link = .ok session) :
    ∃ book, Opens script book ∧ session = { books := #[book], engine, link } := by
  obtain ⟨equations, hparse, h⟩ := mapError_bind_eq_ok h
  obtain ⟨book, hbook, h⟩ := mapError_bind_eq_ok h
  cases h
  exact ⟨book, ⟨equations, hparse, hbook⟩, rfl⟩

theorem Queried.sound (h : Queried script session) :
    ∃ book, Opens script book ∧ session.Sound book := by
  induction h with
  | start opened =>
    obtain ⟨book, hopens, rfl⟩ := ofScript_eq_ok opened
    refine ⟨book, hopens, rfl, rfl, ⟨rfl, fun term w hfind => ?_⟩, nofun⟩
    simp [Engine.unlimited] at hfind
  | ask before query done ih =>
    obtain ⟨book, hopens, hsound⟩ := ih
    exact ⟨book, hopens, hsound.perform query done⟩
  | evaluate before done ih =>
    obtain ⟨book, hopens, hsound⟩ := ih
    exact ⟨book, hopens, hsound.evalProgram done⟩

end Session

end SignalCalculus
