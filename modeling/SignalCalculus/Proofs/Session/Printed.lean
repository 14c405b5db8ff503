import SignalCalculus.Proofs.Direct.Leaves
import SignalCalculus.Proofs.Normal.Queries
import SignalCalculus.Proofs.Script.RoundTrip
import SignalCalculus.Proofs.Session.Queries

set_option autoImplicit false

namespace SignalCalculus.Session

open Direct (Forces)

variable {script : String} {book : Book} {session next : Session} {fuel : Nat} {w : Term}

theorem readProgram_render {symbols : List Symbol} (h : ∀ symbol ∈ symbols, symbol.IsWritable) :
    readProgram (render symbols) = .ok (symbols.map Symbol.reread) := by
  rw [readProgram, render, String.toList_ofList, Script.parseExpression_renderChars none h]
  rfl

/-- A result that took no request was forced, and was built of leaves that programs can name. -/
theorem Sound.forced (h : session.Sound book) (hbook : book.Over Symbol.IsLeaf)
    {program symbols : List Symbol}
    (heval : session.evalProgram fuel program = some (.ok (.result symbols), next))
    (hsilent : next.engine.sends = session.engine.sends) :
    ∃ w, symbols = w.symbols ∧ Forces book w w ∧ w.Over Symbol.IsLeaf := by
  unfold Session.evalProgram at heval
  cases hbuild : Term.build program with
  | error e =>
    rw [hbuild] at heval
    cases heval
  | ok term =>
    rw [hbuild] at heval
    obtain ⟨⟨result, between⟩, hterm, heq⟩ := Option.bind_eq_some_iff.1 heval
    obtain ⟨⟨result', engine', link'⟩, hrun, heq'⟩ := Option.bind_eq_some_iff.1 hterm
    cases heq'
    rw [h.book_zero] at hrun
    cases result with
    | error fault => cases heq
    | ok w =>
      cases heq
      cases term with
      | none => cases hrun
      | some term =>
        have hforces := Engine.forces_of_eval (h.valid.bound_unlimited 0) hrun hsilent
        have hover := hforces.over Law.admits_isLeaf hbook (Term.over_of_build hbuild)
        exact ⟨w, rfl, hforces.self, hover⟩

theorem Sound.evalProgram_of_forces (h : session.Sound book) (hw : Forces book w w)
    {program : List Symbol} (hbuild : Term.build program = .ok (some w)) :
    ∃ fuel result last, session.evalProgram fuel program = some (result, last) ∧
      last.engine.sends = session.engine.sends ∧ last.link = session.link ∧
      (result = .ok (.result w.symbols) ∨ session.engine.stepLimit ≠ 0 ∧
        result = .error (.eval (.stepLimit session.engine.stepLimit))) := by
  obtain ⟨fuel, result, engine', hrun, hsends, hresult⟩ :=
    Engine.eval_of_forces (h.valid.bound_unlimited 0) hw (Link.optional Link.recorded) session.link
  have hterm : session.evalTerm fuel 0 (some w) =
      some (result, { session with engine := engine', link := session.link }) := by
    unfold Session.evalTerm
    rw [h.book_zero, hrun]
    rfl
  have heval : session.evalProgram fuel program =
      some (result.map fun w => .result w.symbols,
        { session with engine := engine', link := session.link }) := by
    unfold Session.evalProgram
    rw [hbuild]
    change (session.evalTerm fuel 0 (some w)).bind _ = _
    rw [hterm]
    rfl
  refine ⟨fuel, _, _, heval, hsends, rfl, ?_⟩
  obtain rfl | ⟨hlimit, rfl⟩ := hresult
  · exact .inl rfl
  · exact .inr ⟨hlimit, rfl⟩

/-- A result that took no request and that can be written, printed and evaluated against the same
    script in a session with any queries behind it, takes no request and gives itself again, unless
    the step limit of that session stops it. A text is evaluated as its program is
    (`perform_eval`). -/
theorem printed_results_evaluate_to_themselves {first second : Session}
    (hfirst : Queried script first) (hsecond : Queried script second)
    {program symbols : List Symbol}
    (heval : first.evalProgram fuel program = some (.ok (.result symbols), next))
    (hsilent : next.engine.sends = first.engine.sends)
    (hwritable : ∀ symbol ∈ symbols, symbol.IsWritable) :
    ∃ fuel result last,
      second.perform fuel (.eval (render symbols) none) = some (result, last) ∧
      last.engine.sends = second.engine.sends ∧ last.link = second.link ∧
      (result = .ok (.result symbols) ∨ second.engine.stepLimit ≠ 0 ∧
        result = .error (.eval (.stepLimit second.engine.stepLimit))) := by
  obtain ⟨book, hopens, hsound⟩ := hfirst.sound
  obtain ⟨book', hopens', hsound'⟩ := hsecond.sound
  obtain rfl := hopens.unique hopens'
  obtain ⟨equations, -, hbook⟩ := hopens
  obtain ⟨w, rfl, hforces, hover⟩ :=
    hsound.forced (Book.over_of_ofEquations hbook) heval hsilent
  -- The entry variable is printed as the entry word, which builds the variable again.
  have hbuild : Term.build (w.symbols.map Symbol.reread) = .ok (some w) := by
    rw [Term.build_reread, hover.build_symbols_eq]
  simp only [perform_eval, readProgram_render hwritable, withRead]
  exact hsound'.evalProgram_of_forces hforces hbuild

section Held

open Desk (heldOnce heldTwice boundEngine onceEngine twiceEngine limited)
open Machine (settleFrom forcing)

def heldSession (engine : Engine) : Session := { books := #[{}], engine, link := none }

theorem heldSession_opened (engine : Engine) :
    ofScript "" engine none = .ok (heldSession engine) := rfl

theorem run_forcing_of_chase {engine : Engine} {term : Term} {halt : Option (Rest × Engine)}
    (hfind : engine.memo.find? term = none)
    (h : settleFrom book fuel (.running ⟨.chase ⟨engine.sends, term, []⟩, [.force []]⟩) engine =
      halt) : Machine.run book (fuel + 1) engine (forcing term) = halt := by
  rw [Machine.run, settleFrom, forcing, Machine.step, hfind]
  exact h

theorem run_heldOnce :
    Machine.run {} 7 boundEngine (forcing heldOnce) = some (.finished heldOnce, onceEngine) := by
  refine run_forcing_of_chase ?_ (Desk.chase_heldOnce 2 [.force []])
  simp [boundEngine]

theorem run_heldTwice :
    Machine.run {} 6 { onceEngine with steps := 0 } (forcing heldTwice) =
      some (.finished heldTwice, twiceEngine) := by
  refine run_forcing_of_chase ?_ (Desk.chase_heldTwice 2 [.force []])
  simp [onceEngine, Desk.onceMemo, Memo.find?_enter, heldOnce, heldTwice]

theorem run_heldTwice_fails : ∃ engine,
    Machine.run {} 4 boundEngine (forcing heldTwice) =
      some (.failed (.eval (.stepLimit 1)), engine) := by
  obtain ⟨engine, hrun⟩ := Desk.chase_heldTwice_fails 0 [.force []]
  refine ⟨engine, run_forcing_of_chase ?_ hrun⟩
  simp [boundEngine]

theorem evalProgram_heldSession {engine engine' : Engine} {term : Term} {rest : Rest}
    {result : Except Fault Term} (hterm : Term.build term.symbols = .ok (some term))
    (hrun : Machine.run {} fuel (engine.bind 0) (forcing term) = some (rest, engine'))
    (hrest : engine'.converse {} fuel (Link.optional Link.recorded) fuel rest none =
      some (result, engine', none)) :
    (heldSession engine).evalProgram fuel term.symbols =
      some (result.map fun w => .result w.symbols, heldSession engine') := by
  have heval : engine.eval 0 {} fuel (Link.optional Link.recorded) none (some term) =
      some (result, engine', none) := Option.bind_eq_some_iff.2 ⟨_, hrun, hrest⟩
  have hevalTerm : (heldSession engine).evalTerm fuel 0 (some term) =
      some (result, heldSession engine') := Option.bind_eq_some_iff.2 ⟨_, heval, rfl⟩
  rw [evalProgram, hterm]
  exact Option.bind_eq_some_iff.2 ⟨_, hevalTerm, rfl⟩

theorem evalProgram_heldTwice :
    (heldSession onceEngine).evalProgram 6 heldTwice.symbols =
      some (.ok (.result heldTwice.symbols), heldSession twiceEngine) := by
  refine evalProgram_heldSession rfl ?_ (Engine.converse_finished ..)
  rw [Desk.bind_onceEngine]
  exact run_heldTwice

theorem queried_onceEngine : Queried "" (heldSession onceEngine) := by
  have hfirst : (heldSession (limited 1 2 {}).engine).evalProgram 7 heldOnce.symbols =
      some (.ok (.result heldOnce.symbols), heldSession onceEngine) :=
    evalProgram_heldSession rfl run_heldOnce (Engine.converse_finished ..)
  exact .evaluate (.start (heldSession_opened _)) hfirst

/-- Without a step limit, the result of the session above gives itself again in a new one. -/
theorem heldTwice_evaluates_to_itself : ∃ fuel last,
    (heldSession {}).perform fuel (.eval (render heldTwice.symbols) none) =
        some (.ok (.result heldTwice.symbols), last) ∧ last.engine.sends = 0 := by
  obtain ⟨fuel, result, last, hrun, hsends, -, hresult⟩ :=
    printed_results_evaluate_to_themselves queried_onceEngine
      (.start (heldSession_opened {})) evalProgram_heldTwice rfl (by decide)
  obtain rfl | ⟨hlimit, -⟩ := hresult
  · exact ⟨fuel, last, hrun, hsends⟩
  · exact absurd rfl hlimit

/-- A session may give a result without a request and be stopped when it evaluates that result,
    printed, right after. -/
theorem printed_result_stops_at_limit :
    Queried "" (heldSession onceEngine) ∧
    (heldSession onceEngine).evalProgram 6 heldTwice.symbols =
      some (.ok (.result heldTwice.symbols), heldSession twiceEngine) ∧
    (heldSession twiceEngine).engine.sends = (heldSession onceEngine).engine.sends ∧
    (∀ symbol ∈ heldTwice.symbols, symbol.IsWritable) ∧
    (∃ last, (heldSession twiceEngine).perform 4 (.eval (render heldTwice.symbols) none) =
      some (.error (.eval (.stepLimit 1)), last)) ∧
    ∀ fuel last, (heldSession twiceEngine).perform fuel (.eval (render heldTwice.symbols) none) ≠
      some (.ok (.result heldTwice.symbols), last) := by
  have hwritable : ∀ symbol ∈ heldTwice.symbols, symbol.IsWritable := by decide
  have hread : heldTwice.symbols.map Symbol.reread = heldTwice.symbols := rfl
  obtain ⟨engine, hrun⟩ := run_heldTwice_fails
  rw [← Desk.bind_twiceEngine] at hrun
  refine ⟨queried_onceEngine, evalProgram_heldTwice, rfl, hwritable, ?_, fun fuel last h => ?_⟩
  · rw [perform_eval, readProgram_render hwritable, hread]
    exact ⟨_, evalProgram_heldSession rfl hrun (Engine.converse_failed ..)⟩
  · rw [perform_eval, readProgram_render hwritable, hread] at h
    obtain ⟨⟨result, between⟩, hterm, heq⟩ := Option.bind_eq_some_iff.1 h
    obtain ⟨⟨result', engine', link'⟩, heval, heq'⟩ := Option.bind_eq_some_iff.1 hterm
    obtain ⟨⟨rest, engine1⟩, hrun', hconverse⟩ := Option.bind_eq_some_iff.1 heval
    -- The machine comes to the same rest, with whatever fuel.
    cases Machine.settleFrom_unique hrun hrun'
    dsimp only at hconverse
    rw [Engine.converse_failed] at hconverse
    cases hconverse
    cases heq'
    cases heq

end Held

end SignalCalculus.Session
