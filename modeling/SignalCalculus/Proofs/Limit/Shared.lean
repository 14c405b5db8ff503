import Mathlib
import SignalCalculus.Proofs.Limit.Counting
import SignalCalculus.Proofs.Limit.Desk

set_option autoImplicit false

/-!
# One step limit for all reductions at a desk

Stepped reductions that share an engine share its count of steps, which starts anew whenever one of
them is started. So the step limit bounds what all reductions together apply from one start to the
next. It bounds what a reduction applies in its life if no other has a part in that count.
-/

namespace SignalCalculus

namespace Reduction

variable {book : Book} {fuel n : Nat} {engine engine' : Engine} {reduction reduction' : Reduction}
  {outcome : Except Fault Outcome} {reply : List Char} {seq : Option Int}

def advanceLaws (book : Book) (fuel : Nat) (engine : Engine) (reduction : Reduction) : Nat :=
  match reduction.phase with
  | .ready term => Machine.lawsFrom book fuel (.running (Machine.forcing term)) engine
  | _ => 0

def resumeLaws (book : Book) (fuel : Nat) (engine : Engine) (reduction : Reduction)
    (reply : List Char) (seq : Option Int) : Nat :=
  match reduction.phase with
  | .waiting _ current suspended =>
    match seq.filter (· ≠ (current : Int)) with
    | some _ => 0
    | none =>
      let (next, engine) := Machine.answer engine reply suspended
      Machine.lawsFrom book fuel next engine
  | _ => 0

/-- What stepping a reduction does to an engine with the limit `n`. -/
structure Charges (n : Nat) (engine : Engine) (laws : Nat) (outcome : Except Fault Outcome)
    (engine' : Engine) : Prop where
  stepLimit : engine'.stepLimit = n
  steps : min engine'.steps n = min engine.steps n + laws
  limit : ∀ limit, outcome = .error (.eval (.stepLimit limit)) → limit = n ∧ n < engine'.steps

theorem charges_nothing (hlimit : engine.stepLimit = n) {fault : Fault}
    (hfault : fault.isLimit = false) : Charges n engine 0 (.error fault) engine :=
  ⟨hlimit, rfl, fun _ h => by cases h; cases hfault⟩

theorem charges_rest {laws sent : Nat} {rest : Rest} (hlimit : engine'.stepLimit = n)
    (h : Machine.Tallies n engine laws rest engine') :
    Charges n engine laws (reduction.rest sent rest).1 engine' := by
  refine ⟨hlimit, h.steps, fun limit houtcome => ?_⟩
  cases rest with
  | sent bits suspended => cases houtcome
  | finished w => cases houtcome
  | failed fault =>
    cases houtcome
    exact h.limit limit rfl

theorem advance_charges (hn : 0 < n) (hlimit : engine.stepLimit = n)
    (h : reduction.advance book fuel engine = some (outcome, reduction', engine')) :
    Charges n engine (reduction.advanceLaws book fuel engine) outcome engine' := by
  obtain ⟨id, phase⟩ := reduction
  cases phase with
  | ready term =>
    obtain ⟨⟨rest, engine1⟩, hrun, heq⟩ := Option.bind_eq_some_iff.1 h
    cases heq
    have hsame := (Machine.settleFrom_accounts hrun).1.trans hlimit
    exact charges_rest hsame (Machine.tallies_settleFrom hn hlimit trivial hrun)
  | waiting bits current suspended =>
    cases h
    exact charges_nothing hlimit rfl
  | finished w =>
    cases h
    exact charges_nothing hlimit rfl
  | closed started => cases started <;> cases h <;> exact charges_nothing hlimit rfl

theorem resume_charges (hn : 0 < n) (hlimit : engine.stepLimit = n)
    (h : reduction.resume book fuel engine reply seq = some (outcome, reduction', engine')) :
    Charges n engine (reduction.resumeLaws book fuel engine reply seq) outcome engine' := by
  obtain ⟨id, phase⟩ := reduction
  cases phase with
  | waiting bits current suspended =>
    simp only [resume, resumeLaws] at h ⊢
    cases hseq : seq.filter (· ≠ (current : Int)) with
    | some wrong =>
      rw [hseq] at h
      cases h
      exact charges_nothing hlimit rfl
    | none =>
      rw [hseq] at h
      obtain ⟨⟨rest, engine1⟩, hrun, heq⟩ := Option.bind_eq_some_iff.1 h
      cases heq
      -- The answer itself applies no law, and it fails only over a text that is no message.
      have hanswer : (Machine.answer engine reply suspended).2.stepLimit = n :=
        (Machine.obey_accounts ..).stepLimit.trans hlimit
      have hsteps : (Machine.answer engine reply suspended).2.steps = engine.steps :=
        Machine.steps_obey ..
      have hfails : (Machine.answer engine reply suspended).1.FailsWith
          fun fault => fault.isLimit = false :=
        Machine.obey_failsWith _ _ _ _ _ (Law.onReply_failsWith Law.blames_notLimit reply)
      have hsame := (Machine.settleFrom_accounts hrun).1.trans hanswer
      obtain ⟨hcount, hfault⟩ := Machine.tallies_settleFrom hn hanswer hfails hrun
      rw [hsteps] at hcount
      exact charges_rest hsame ⟨hcount, hfault⟩
  | ready term | finished w | closed started =>
    cases h
    exact charges_nothing hlimit rfl

end Reduction

namespace Desk

namespace Operation

def starts : Operation → Bool
  | .start _ (some _) => true
  | _ => false

def isStepped : Operation → Bool
  | .eval .. | .weakHead .. => false
  | _ => true

end Operation

def lawsOf (books : Nat → Book) (fuel : Nat) (desk : Desk) : Operation → Nat
  | .advance index =>
    match desk.reductions[index]? with
    | none => 0
    | some reduction => reduction.advanceLaws (books reduction.book) fuel desk.engine
  | .resume index reply seq =>
    match desk.reductions[index]? with
    | none => 0
    | some reduction => reduction.resumeLaws (books reduction.book) fuel desk.engine reply seq
  | _ => 0

theorem lawsOf_advance {books : Nat → Book} {fuel index : Nat} {desk : Desk} {reduction : Reduction}
    (found : desk.reductions[index]? = some reduction) :
    desk.lawsOf books fuel (.advance index) =
      reduction.advanceLaws (books reduction.book) fuel desk.engine := by
  simp only [lawsOf, found]

theorem lawsOf_resume {books : Nat → Book} {fuel index : Nat} {desk : Desk} {reduction : Reduction}
    {reply : List Char} {seq : Option Int} (found : desk.reductions[index]? = some reduction) :
    desk.lawsOf books fuel (.resume index reply seq) =
      reduction.resumeLaws (books reduction.book) fuel desk.engine reply seq := by
  simp only [lawsOf, found]

theorem lawsOf_missing {books : Nat → Book} {fuel index : Nat} {desk : Desk} {operation : Operation}
    (about : operation.index? = some index) (missing : desk.reductions[index]? = none) :
    desk.lawsOf books fuel operation = 0 := by
  cases operation <;> cases about <;> simp only [lawsOf, missing]

structure Entry where
  operation : Operation
  answer : Answer
  laws : Nat

/-- Does operations one after the other, and enters them in a log, latest first. -/
def replay (books : Nat → Book) (fuel : Nat) :
    List Operation → Desk → List Entry → Option (List Entry × Desk)
  | [], desk, log => some (log, desk)
  | operation :: rest, desk, log => do
    let done ← desk.perform books fuel operation
    replay books fuel rest done.2 (⟨operation, done.1, desk.lawsOf books fuel operation⟩ :: log)

/-- How many laws all reductions have applied since the last start. -/
def sinceStart : List Entry → Nat
  | [] => 0
  | entry :: earlier => if entry.operation.starts then 0 else entry.laws + sinceStart earlier

def lawsBy (index : Nat) : List Entry → Nat
  | [] => 0
  | entry :: earlier =>
    (if entry.operation.index? = some index then entry.laws else 0) + lawsBy index earlier

def started : List Entry → Nat
  | [] => 0
  | entry :: earlier => entry.operation.starts.toNat + started earlier

/-- Since a reduction was started, no other was, and no other has applied a law. -/
def Alone (index : Nat) : List Entry → Prop
  | [] => False
  | entry :: earlier =>
    if entry.operation.starts then started earlier = index
    else (entry.operation.index? = some index ∨ entry.laws = 0) ∧ Alone index earlier

def Answer.Stopped (limit : Int) (answer : Answer) : Prop :=
  answer = .stepped (.error (.eval (.stepLimit limit)))

/-- What a log with the limit `n` says about the desk. -/
structure Accounted (n : Nat) (log : List Entry) (desk : Desk) : Prop where
  stepLimit : desk.engine.stepLimit = n
  steps : min desk.engine.steps n = sinceStart log
  length : desk.reductions.length = started log
  absent : ∀ index, started log ≤ index → lawsBy index log = 0
  alone : ∀ index, Alone index log → lawsBy index log = sinceStart log
  stopped : ∀ entry earlier limit, log = entry :: earlier → entry.answer.Stopped limit →
    limit = n ∧ sinceStart log = n

variable {books : Nat → Book} {fuel n : Nat} {desk next : Desk} {log : List Entry}
  {operation : Operation} {answer : Answer}

theorem accounted_limited (n : Nat) (memoLimit : Int) (recorder : Trace.Recorder) :
    Accounted n [] (limited n memoLimit recorder) where
  stepLimit := rfl
  steps := Nat.zero_min n
  length := rfl
  absent := fun _ _ => rfl
  alone := fun _ h => h.elim
  stopped := fun _ _ _ h => by cases h

theorem Accounted.start (h : Accounted n log desk) (id : Nat) (term : Term) (answer : Answer)
    (hanswer : ∀ limit, ¬answer.Stopped limit) :
    Accounted n (⟨.start id (some term), answer, 0⟩ :: log)
      ⟨desk.engine.bind id, desk.reductions ++ [⟨id, .ready term⟩]⟩ where
  stepLimit := (Engine.bind_stepLimit desk.engine id).trans h.stepLimit
  steps := by
    simp only [Engine.steps_bind, sinceStart, Operation.starts]
    exact Nat.zero_min n
  length := by
    rw [List.length_append, h.length]
    exact Nat.add_comm ..
  absent := by
    intro index hindex
    have hearlier := h.absent index (by simp only [started, Operation.starts, Bool.toNat_true] at hindex; omega)
    simpa [lawsBy, Operation.index?] using hearlier
  alone := by
    intro index halone
    have hindex : started log = index := by simpa [Alone, Operation.starts] using halone
    have hearlier := h.absent index (Nat.le_of_eq hindex)
    simpa [lawsBy, sinceStart, Operation.index?, Operation.starts] using hearlier
  stopped := by
    rintro _ _ limit ⟨⟩ hstopped
    exact absurd hstopped (hanswer limit)

theorem Accounted.step (h : Accounted n log desk) {laws : Nat} (hstarts : operation.starts = false)
    (hlimit : next.engine.stepLimit = n)
    (hsteps : min next.engine.steps n = min desk.engine.steps n + laws)
    (hlength : next.reductions.length = desk.reductions.length)
    (hown : ∀ index, operation.index? = some index → desk.reductions.length ≤ index → laws = 0)
    (hstopped : ∀ limit, answer.Stopped limit → limit = n ∧ n < next.engine.steps) :
    Accounted n (⟨operation, answer, laws⟩ :: log) next := by
  have hsince : sinceStart (⟨operation, answer, laws⟩ :: log) = laws + sinceStart log := by
    simp [sinceStart, hstarts]
  have hcount : min next.engine.steps n = sinceStart (⟨operation, answer, laws⟩ :: log) := by
    rw [hsteps, h.steps, hsince, Nat.add_comm]
  have hstarted : started (⟨operation, answer, laws⟩ :: log) = started log := by
    simp [started, hstarts]
  refine ⟨hlimit, hcount, by rw [hlength, h.length, hstarted], fun index hindex => ?_,
    fun index halone => ?_, ?_⟩
  · rw [hstarted] at hindex
    have hearlier := h.absent index hindex
    rw [← h.length] at hindex
    simp only [lawsBy, hearlier, Nat.add_zero]
    split
    · rename_i hop
      exact hown index hop hindex
    · rfl
  · simp only [Alone, hstarts, Bool.false_eq_true, if_false] at halone
    have hearlier := h.alone index halone.2
    rw [hsince]
    simp only [lawsBy, hearlier]
    split
    · rfl
    · rename_i hop
      obtain hsame | hnone := halone.1
      · exact absurd hsame hop
      · rw [hnone]
  · rintro _ _ limit ⟨⟩ hanswer
    obtain ⟨hsame, hfull⟩ := hstopped limit hanswer
    exact ⟨hsame, by omega⟩

theorem Accounted.idle (h : Accounted n log desk) (hstarts : operation.starts = false)
    (hlimit : next.engine.stepLimit = desk.engine.stepLimit)
    (hsteps : next.engine.steps = desk.engine.steps)
    (hlength : next.reductions.length = desk.reductions.length)
    (hanswer : ∀ limit, ¬answer.Stopped limit) :
    Accounted n (⟨operation, answer, 0⟩ :: log) next :=
  h.step hstarts (hlimit.trans h.stepLimit) (by rw [hsteps, Nat.add_zero]) hlength (fun _ _ _ => rfl)
    fun limit hstopped => absurd hstopped (hanswer limit)

theorem Accounted.perform (h : Accounted n log desk) (hn : 0 < n)
    (hstepped : operation.isStepped = true)
    (hrun : desk.perform books fuel operation = some (answer, next)) :
    Accounted n (⟨operation, answer, desk.lawsOf books fuel operation⟩ :: log) next := by
  have hfound : ∀ {index : Nat} {reduction : Reduction} {laws : Nat},
      desk.reductions[index]? = some reduction → desk.reductions.length ≤ index → laws = 0 := by
    intro index reduction laws found hle
    rw [List.getElem?_eq_none hle] at found
    cases found
  cases performs_of_perform hrun with
  | evaluates run => cases hstepped
  | normalizes run => cases hstepped
  | startsNothing => exact h.idle rfl rfl rfl rfl fun _ => nofun
  | @starts id term => exact h.start id term .started fun _ => nofun
  | @advances index reduction reduction' outcome engine' found run =>
    have hcharges := Reduction.advance_charges hn h.stepLimit run
    rw [lawsOf_advance found]
    refine h.step rfl hcharges.stepLimit hcharges.steps List.length_set (fun other hother => ?_)
      fun limit hstopped => hcharges.limit limit (Answer.stepped.inj hstopped)
    cases hother
    exact hfound found
  | @resumes index reply seq reduction reduction' outcome engine' found run =>
    have hcharges := Reduction.resume_charges hn h.stepLimit run
    rw [lawsOf_resume found]
    refine h.step rfl hcharges.stepLimit hcharges.steps List.length_set (fun other hother => ?_)
      fun limit hstopped => hcharges.limit limit (Answer.stepped.inj hstopped)
    cases hother
    exact hfound found
  | cancels found => exact h.idle rfl rfl rfl List.length_set fun _ => nofun
  | misses about missing =>
    rw [lawsOf_missing about missing]
    refine h.idle ?_ rfl rfl rfl fun _ => nofun
    cases operation <;> cases about <;> rfl
  | forgets => exact h.idle rfl rfl rfl rfl fun _ => nofun

theorem Accounted.replay {operations : List Operation} {log' : List Entry}
    (h : Accounted n log desk) (hn : 0 < n)
    (hstepped : ∀ operation ∈ operations, operation.isStepped = true)
    (hrun : replay books fuel operations desk log = some (log', next)) : Accounted n log' next := by
  induction operations generalizing desk log with
  | nil =>
    cases hrun
    exact h
  | cons operation rest ih =>
    obtain ⟨⟨answer, between⟩, hdone, hrest⟩ := Option.bind_eq_some_iff.1 hrun
    have hnext := h.perform hn (hstepped operation List.mem_cons_self) hdone
    exact ih hnext (fun other hother => hstepped other (List.mem_cons_of_mem _ hother)) hrest

/-- The step limit `n` bounds what all reductions together apply from one start to the next, and a
    reduction is stopped by it only when that many laws have been applied. A reduction that has had
    the count for itself since it was started has applied at most `n` laws in its life, and is
    stopped only when it has applied `n` itself. -/
theorem step_limit_is_shared {n : Nat} (hn : 0 < n) (books : Nat → Book) (fuel : Nat)
    (memoLimit : Int) (recorder : Trace.Recorder) {operations : List Operation} {log : List Entry}
    {desk : Desk} (hstepped : ∀ operation ∈ operations, operation.isStepped = true)
    (h : replay books fuel operations (limited n memoLimit recorder) [] = some (log, desk)) :
    sinceStart log ≤ n ∧
    (∀ entry earlier limit, log = entry :: earlier → entry.answer.Stopped limit →
      limit = n ∧ sinceStart log = n) ∧
    ∀ index, Alone index log → lawsBy index log ≤ n ∧
      ∀ entry earlier limit, log = entry :: earlier → entry.answer.Stopped limit →
        limit = n ∧ lawsBy index log = n := by
  have haccounted := (accounted_limited n memoLimit recorder).replay hn hstepped h
  have hbound : sinceStart log ≤ n := by
    rw [← haccounted.steps]
    exact Nat.min_le_right _ _
  refine ⟨hbound, haccounted.stopped, fun index halone => ?_⟩
  rw [haccounted.alone index halone]
  exact ⟨hbound, haccounted.stopped⟩

def startInc (m : Int) : Operation := .start 0 (some (.app (.fn .inc) (.num m)))

def startTwice : Operation := .start 0 (some (.app (.fn .inc) (.app (.fn .inc) (.num 1))))

def loneLog : List Entry :=
  [⟨.advance 1, .stepped (.error (.eval (.stepLimit 1))), 1⟩, ⟨startTwice, .started, 0⟩,
    ⟨.advance 0, .stepped (.ok (.done (.num 6))), 1⟩, ⟨startInc 5, .started, 0⟩]

/-- With the limit one, a reduction that is alone is stopped when it has applied one law itself. -/
theorem lone_reduction_stopped_at_limit :
    0 < 1 ∧
    (∀ operation ∈ [startInc 5, .advance 0, startTwice, .advance 1],
      operation.isStepped = true) ∧
    Alone 1 loneLog ∧
    ∃ desk, replay (fun _ => {}) 20 [startInc 5, .advance 0, startTwice, .advance 1]
        (limited 1 0 {}) [] = some (loneLog, desk) ∧
      lawsBy 1 loneLog = 1 := by
  have hone : 0 < 1 := by decide
  have hstepped : ∀ operation ∈ [startInc 5, .advance 0, startTwice, .advance 1],
      operation.isStepped = true := by
    simp [startInc, startTwice, Operation.isStepped]
  have hrun : (replay (fun _ => {}) 20 [startInc 5, .advance 0, startTwice, .advance 1]
      (limited 1 0 {}) []).map (fun (log, _) => log) = some loneLog := by cbv
  obtain ⟨⟨_, desk⟩, hrun, rfl⟩ := Option.map_eq_some_iff.1 hrun
  have halone : Alone 1 loneLog := by
    simp [loneLog, startInc, startTwice, Alone, started, Operation.starts, Operation.index?]
  obtain ⟨-, -, hlone⟩ := step_limit_is_shared hone (fun _ => {}) 20 0 {} hstepped hrun
  obtain ⟨-, hstopped⟩ := hlone 1 halone
  exact ⟨hone, hstepped, halone, desk, hrun, (hstopped _ _ 1 rfl rfl).2⟩

def startReply : Operation := .start 0 (some (.app (.app (.fn .send) (.num 0)) (.num 7)))

/-- With the limit one: of two reductions that were started, the second is stopped though it has
    applied no law; and a reduction during whose wait another is started applies two laws. -/
theorem step_limit_not_per_reduction :
    (∃ log desk, replay (fun _ => {}) 20 [startInc 1, startInc 2, .advance 0, .advance 1]
        (limited 1 0 {}) [] = some (log, desk) ∧
      (∃ entry earlier, log = entry :: earlier ∧ entry.operation = .advance 1 ∧
        entry.answer.Stopped 1) ∧
      lawsBy 1 log = 0) ∧
    ∃ log desk, replay (fun _ => {}) 20
        [startReply, .advance 0, .start 0 (some (.num 1)), .resume 0 ['0', '0'] none]
        (limited 1 0 {}) [] = some (log, desk) ∧
      lawsBy 0 log = 2 := by
  have hfirst : (replay (fun _ => {}) 20 [startInc 1, startInc 2, .advance 0, .advance 1]
      (limited 1 0 {}) []).map (fun (log, _) => log) =
      some [⟨.advance 1, .stepped (.error (.eval (.stepLimit 1))), 0⟩,
        ⟨.advance 0, .stepped (.ok (.done (.num 2))), 1⟩, ⟨startInc 2, .started, 0⟩,
        ⟨startInc 1, .started, 0⟩] := by cbv
  have hsecond : (replay (fun _ => {}) 20
      [startReply, .advance 0, .start 0 (some (.num 1)), .resume 0 ['0', '0'] none]
      (limited 1 0 {}) []).map (fun (log, _) => log) =
      some [⟨.resume 0 ['0', '0'] none, .stepped (.ok (.done (.fn .t))), 1⟩,
        ⟨.start 0 (some (.num 1)), .started, 0⟩,
        ⟨.advance 0, .stepped (.ok (.pending ['0', '1', '0'] 1)), 1⟩, ⟨startReply, .started, 0⟩] := by
    cbv
  obtain ⟨⟨log, desk⟩, hrun, rfl⟩ := Option.map_eq_some_iff.1 hfirst
  obtain ⟨⟨log', desk'⟩, hrun', rfl⟩ := Option.map_eq_some_iff.1 hsecond
  exact ⟨⟨_, desk, hrun, ⟨_, _, rfl, rfl, rfl⟩, rfl⟩, _, desk', hrun', rfl⟩

end Desk

end SignalCalculus
