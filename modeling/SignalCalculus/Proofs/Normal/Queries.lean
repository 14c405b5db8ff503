import SignalCalculus.Proofs.Exchange.Trips
import SignalCalculus.Proofs.Limit.Desk
import SignalCalculus.Proofs.Normal.Forms

set_option autoImplicit false

namespace SignalCalculus

open Direct (IsNormal Neutral)

theorem Engine.weakHead_unique {engine : Engine} {id first second : Nat} {book : Book} {term : Term}
    {out out' : Except Fault Term × Engine} (h : engine.weakHead id book first term = some out)
    (h' : engine.weakHead id book second term = some out') : out = out' := by
  rw [weakHead_eq] at h h'
  obtain ⟨rest, hrun, rfl⟩ := Option.map_eq_some_iff.1 h
  obtain ⟨rest', hrun', rfl⟩ := Option.map_eq_some_iff.1 h'
  rw [Machine.settleFrom_unique hrun hrun']

theorem Memo.size_enter (memo : Memo) (term result : Term) :
    (memo.enter term result).size =
      if (memo.find? term).isSome then memo.size else memo.size + 1 := by
  simp [enter, size, find?, Std.HashMap.size_insert]

namespace Desk

/-- An engine that gives a weak head normal form gives a literal, a function that lacks operands, or
    a neutral term, and the latter exactly if the result is stuck. Every term of these shapes is its
    own weak head normal form, for engines of any history and with any limits, but the step limit
    may stop them. -/
theorem weakHead_finds_normal_forms {books : Nat → Book} {desk : Desk} (h : desk.Arises books)
    (id : Nat) :
    (∀ fuel term w engine, desk.engine.weakHead id (books id) fuel term = some (.ok w, engine) →
      IsNormal (books id) w ∧ (w.isStuck = true ↔ Neutral (books id) w)) ∧
    ∀ w, IsNormal (books id) w → ∃ fuel result engine,
      desk.engine.weakHead id (books id) fuel w = some (result, engine) ∧
      (result = .ok w ∨ desk.engine.stepLimit ≠ 0 ∧
        result = .error (.eval (.stepLimit desk.engine.stepLimit))) := by
  have hs := h.sound.valid.bound_unlimited id
  refine ⟨fun fuel term w engine hrun => ?_, fun w hw => Engine.weakHead_of_reduces hs hw.reduces⟩
  have hnormal := (Engine.reduces_of_weakHead hs hrun).isNormal
  exact ⟨hnormal, hnormal.isStuck_iff⟩

def heldOnce : Term := .app (.fn .inc) (.atom (.var 9))

def heldTwice : Term := .app (.fn .inc) heldOnce

def onceMemo : Memo :=
  (((Memo.empty.enter (.atom (.var 9)) (.atom (.var 9))).enter (.atom (.var 9))
    (.atom (.var 9))).enter heldOnce heldOnce).enter heldOnce heldOnce

def twiceMemo : Memo := (onceMemo.enter heldTwice heldTwice).enter heldTwice heldTwice

theorem size_twiceMemo : twiceMemo.size = 3 := by
  simp [twiceMemo, onceMemo, Memo.size_empty, Memo.size_enter, Memo.find?_enter, heldOnce, heldTwice]

def onceEngine : Engine :=
  { memo := onceMemo, steps := 1, boundTo := some 0, stepLimit := 1, memoLimit := 2 }

def twiceEngine : Engine := { onceEngine with memo := twiceMemo }

def boundEngine : Engine := { boundTo := some 0, stepLimit := 1, memoLimit := 2 }

theorem bind_limited : (limited 1 2 {}).engine.bind 0 = boundEngine := rfl

theorem bind_onceEngine : onceEngine.bind 0 = { onceEngine with steps := 0 } := by
  simp [onceEngine, onceMemo, Engine.bind, Memo.size_empty, Memo.size_enter, Memo.find?_enter,
    heldOnce]

theorem bind_twiceEngine : twiceEngine.bind 0 = boundEngine := by
  simp [twiceEngine, onceEngine, boundEngine, Engine.bind, size_twiceMemo]

section Run

open Machine

variable (fuel : Nat) (stack : List Frame)

theorem chase_heldOnce :
    settleFrom {} (fuel + 4) (.running ⟨.chase ⟨0, heldOnce, []⟩, stack⟩) boundEngine =
      settleFrom {} fuel (.running ⟨.give heldOnce, stack⟩) onceEngine := by
  simp [boundEngine, onceEngine, onceMemo, heldOnce, settleFrom, step, look, obey, close,
    Engine.tick, Engine.report, Engine.settle, Trace.Recorder.record, Chain.terms, Memo.enterAll,
    Book.resolve, Table.get?, Fn.arity?, Law.begin, Law.lazy?, Law.onTerm, Law.onOperand,
    Law.withInteger, Law.withNumber, Term.spine, Term.spineOnto, Term.isStuckSpine]

theorem chase_heldTwice :
    settleFrom {} (fuel + 3) (.running ⟨.chase ⟨0, heldTwice, []⟩, stack⟩)
        { onceEngine with steps := 0 } =
      settleFrom {} fuel (.running ⟨.give heldTwice, stack⟩) twiceEngine := by
  simp [twiceEngine, twiceMemo, onceEngine, onceMemo, heldOnce, heldTwice, Memo.find?_enter,
    settleFrom, step, look, obey, close, Engine.tick, Engine.report, Engine.settle,
    Trace.Recorder.record, Chain.terms, Memo.enterAll, Fn.arity?, Law.begin, Law.lazy?, Law.onTerm,
    Law.onOperand, Law.withInteger, Law.withNumber, Term.spine, Term.spineOnto, Term.isStuckSpine]

theorem chase_heldTwice_fails : ∃ engine,
    settleFrom {} (fuel + 3) (.running ⟨.chase ⟨0, heldTwice, []⟩, stack⟩) boundEngine =
      some (.failed (.eval (.stepLimit 1)), engine) := by
  simp [boundEngine, heldOnce, heldTwice, settleFrom, step, look, obey, Engine.tick, Engine.report,
    Trace.Recorder.record, Fn.arity?, Law.begin, Law.lazy?, Term.spine, Term.spineOnto]

end Run

theorem weakHead_heldOnce :
    (limited 1 2 {}).engine.weakHead 0 {} 5 heldOnce = some (.ok heldOnce, onceEngine) := by
  have hrun := chase_heldOnce 1 []
  rw [Engine.weakHead_eq, bind_limited]
  exact congrArg (Option.map _) hrun

theorem weakHead_heldTwice :
    onceEngine.weakHead 0 {} 4 heldTwice = some (.ok heldTwice, twiceEngine) := by
  have hrun := chase_heldTwice 1 []
  rw [Engine.weakHead_eq, bind_onceEngine]
  exact congrArg (Option.map _) hrun

theorem weakHead_heldTwice_again : ∃ engine,
    twiceEngine.weakHead 0 {} 3 heldTwice = some (.error (.eval (.stepLimit 1)), engine) := by
  obtain ⟨engine, hrun⟩ := chase_heldTwice_fails 0 []
  rw [Engine.weakHead_eq, bind_twiceEngine]
  exact ⟨engine, congrArg (Option.map _) hrun⟩

theorem arises_onceEngine : Arises (fun _ => {}) ⟨onceEngine, []⟩ := by
  refine ⟨1, 2, {}, [.weakHead 0 heldOnce], [.normalized (.ok heldOnce)], ?_⟩
  refine .cons 5 trivial ?_ (.nil _)
  rw [perform, weakHead_heldOnce]
  rfl

theorem heldTwice_isNormal : IsNormal {} heldTwice ∧ Neutral {} heldTwice ∧
    ∃ fuel result engine, onceEngine.weakHead 0 {} fuel heldTwice = some (result, engine) ∧
      (result = .ok heldTwice ∨ onceEngine.stepLimit ≠ 0 ∧
        result = .error (.eval (.stepLimit onceEngine.stepLimit))) := by
  obtain ⟨hfinds, hgives⟩ := weakHead_finds_normal_forms arises_onceEngine 0
  obtain ⟨hnormal, hstuck⟩ := hfinds 4 heldTwice heldTwice twiceEngine weakHead_heldTwice
  exact ⟨hnormal, hstuck.1 rfl, hgives heldTwice hnormal⟩

/-- An engine may give a weak head normal form and be stopped when it is asked for that of its own
    result. -/
theorem weakHead_stops_at_own_result :
    Arises (fun _ => {}) ⟨onceEngine, []⟩ ∧
    onceEngine.weakHead 0 {} 4 heldTwice = some (.ok heldTwice, twiceEngine) ∧
    (∃ engine,
      twiceEngine.weakHead 0 {} 3 heldTwice = some (.error (.eval (.stepLimit 1)), engine)) ∧
    ∀ fuel engine, twiceEngine.weakHead 0 {} fuel heldTwice ≠ some (.ok heldTwice, engine) := by
  refine ⟨arises_onceEngine, weakHead_heldTwice, weakHead_heldTwice_again, fun fuel engine h => ?_⟩
  obtain ⟨engine', hstop⟩ := weakHead_heldTwice_again
  cases Engine.weakHead_unique h hstop

end Desk

end SignalCalculus
