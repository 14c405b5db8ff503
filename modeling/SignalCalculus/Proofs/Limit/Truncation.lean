import SignalCalculus.Proofs.Direct.Force
import SignalCalculus.Proofs.Machine.Turns
import SignalCalculus.Proofs.Memo.Query

set_option autoImplicit false

namespace SignalCalculus

open Direct (Reduces Forces)

def Engine.unlimited (engine : Engine) : Engine := { engine with stepLimit := 0 }

def Engine.overLimit (engine : Engine) : Fault := .eval (.stepLimit engine.stepLimit)

namespace Machine

def erase (state : Step × Engine) : Step × Engine := (state.1, state.2.unlimited)

def Stops (engine : Engine) (state : Step × Engine) : Prop :=
  engine.Spent ∧ state = (.failed engine.overLimit, engine.charged)

theorem tick_unlimited (engine : Engine) (g : Fn) :
    (∃ engine', engine.tick g = (engine', .ok ()) ∧
      engine.unlimited.tick g = (engine'.unlimited, .ok ())) ∨
    engine.Spent ∧ engine.tick g = (engine.charged, .error (.stepLimit engine.stepLimit)) := by
  by_cases hspent : engine.Spent
  · exact .inr ⟨hspent, Engine.tick_of_spent hspent g⟩
  · have hroom : ¬engine.unlimited.Spent := fun h => h.1 rfl
    exact .inl ⟨_, Engine.tick_of_not_spent hspent g, Engine.tick_of_not_spent hroom g⟩

theorem settle_unlimited (engine : Engine) (chain : Chain) (result : Term) :
    engine.unlimited.settle chain result = (engine.settle chain result).unlimited := by
  unfold Engine.settle
  by_cases hsame : engine.sends = chain.sendsBefore
  · rw [if_pos hsame, if_pos (show engine.unlimited.sends = _ from hsame)]
    rfl
  · rw [if_neg hsame, if_neg (show ¬engine.unlimited.sends = _ from hsame)]

theorem close_unlimited (engine : Engine) (chain : Chain) (result : Term) (stack : List Frame) :
    close engine.unlimited chain result stack = erase (close engine chain result stack) := by
  rw [close, settle_unlimited]
  rfl

theorem obey_unlimited (engine : Engine) (chain : Chain) (g : Fn) (args : List Term)
    (stack : List Frame) (verdict : Law.Verdict) :
    obey engine.unlimited chain g args stack verdict =
      erase (obey engine chain g args stack verdict) := by
  cases verdict with
  | stuck => exact close_unlimited engine chain chain.current stack
  | becomes term => rfl
  | fails fault => rfl
  | needs need term => rfl
  | sends bits => rfl

theorem look_unlimited (book : Book) (engine : Engine) (chain : Chain) (stack : List Frame) :
    look book engine.unlimited chain stack = erase (look book engine chain stack) ∨
      Stops engine (look book engine chain stack) := by
  unfold look
  obtain ⟨head, args⟩ := chain.current.spine
  cases head with
  | var id =>
    left
    dsimp only
    cases book.resolve id with
    | none => exact close_unlimited (engine.report (.stuck id)) chain chain.current stack
    | some bound => rfl
  | number n | bits text | picture points =>
    left
    cases args with
    | nil => exact close_unlimited engine chain chain.current stack
    | cons arg args => rfl
  | mark m => cases args <;> exact .inl rfl
  | fn g =>
    cases hg : g.arity? with
    | none => cases args <;> exact .inl (by simp only [hg]; rfl)
    | some arity =>
      by_cases hlen : args.length < arity
      · have hclose := close_unlimited engine chain chain.current stack
        cases args <;> exact .inl (by simpa only [hg, hlen, if_true] using hclose)
      -- Laws are counted here and nowhere else, so only here the limit can stop the machine.
      · obtain ⟨engine', htick, hplain⟩ | ⟨hlimit, htick⟩ := tick_unlimited engine g
        · have hobey := obey_unlimited engine' chain g args stack (Law.begin g (args.take arity))
          cases args <;>
            exact .inl (by simpa only [hg, hlen, htick, hplain, if_false] using hobey)
        · cases args <;> exact .inr ⟨hlimit, by simp only [hg, hlen, htick, if_false]; rfl⟩

theorem rebuild_unlimited (engine : Engine) (cells : List (Cell Term Term)) (w : Term)
    (stack : List Frame) :
    rebuild engine.unlimited cells w stack = erase (rebuild engine cells w stack) := by
  unfold rebuild
  cases w.cell? with
  | some halves => rfl
  | none => cases place Term.cell cells w <;> rfl

/-- One step with the limit is the same step without it, unless the limit forbids it. -/
theorem step_unlimited (book : Book) (engine : Engine) (machine : Machine) :
    step book engine.unlimited machine = erase (step book engine machine) ∨
      Stops engine (step book engine machine) := by
  obtain ⟨control, stack⟩ := machine
  cases control with
  | demand term =>
    left
    have hmemo : engine.unlimited.memo = engine.memo := rfl
    simp only [step, hmemo]
    cases engine.memo.find? term <;> rfl
  | chase chain =>
    have hmemo : engine.unlimited.memo = engine.memo := rfl
    simp only [step, hmemo]
    split
    · exact .inl (close_unlimited ..)
    · exact look_unlimited ..
  | give w =>
    left
    cases stack with
    | nil => rfl
    | cons frame stack =>
      cases frame with
      | unfold chain args => rfl
      | law chain g args need => exact obey_unlimited ..
      | force cells => exact rebuild_unlimited ..

end Machine

def Step.asked : Step → Nat
  | .sent _ _ => 1
  | _ => 0

namespace Machine

structure Accounts (engine : Engine) (state : Step × Engine) : Prop where
  stepLimit : state.2.stepLimit = engine.stepLimit
  sends : state.2.sends = engine.sends + state.1.asked

theorem close_accounts (engine : Engine) (chain : Chain) (result : Term) (stack : List Frame) :
    Accounts engine (close engine chain result stack) := by
  unfold close Engine.settle
  split <;> exact ⟨rfl, rfl⟩

theorem obey_accounts (engine : Engine) (chain : Chain) (g : Fn) (args : List Term)
    (stack : List Frame) (verdict : Law.Verdict) :
    Accounts engine (obey engine chain g args stack verdict) := by
  cases verdict with
  | stuck => exact close_accounts ..
  | becomes term => exact ⟨rfl, rfl⟩
  | fails fault => exact ⟨rfl, rfl⟩
  | needs need term => exact ⟨rfl, rfl⟩
  | sends bits => exact ⟨rfl, rfl⟩

theorem tick_accounts (engine : Engine) (g : Fn) :
    (engine.tick g).1.stepLimit = engine.stepLimit ∧ (engine.tick g).1.sends = engine.sends := by
  unfold Engine.tick
  dsimp only
  split <;> exact ⟨rfl, rfl⟩

theorem look_accounts (book : Book) (engine : Engine) (chain : Chain) (stack : List Frame) :
    Accounts engine (look book engine chain stack) := by
  unfold look
  split
  · split
    · rename_i id _ _ _ _
      have hclose := close_accounts (engine.report (.stuck id)) chain chain.current stack
      exact ⟨hclose.stepLimit, hclose.sends⟩
    · exact ⟨rfl, rfl⟩
  · exact close_accounts ..
  · exact close_accounts ..
  · exact close_accounts ..
  · exact ⟨rfl, rfl⟩
  · exact ⟨rfl, rfl⟩
  · split
    · exact ⟨rfl, rfl⟩
    · split
      · exact close_accounts ..
      · rename_i g args _ _ arity _ _
        obtain ⟨hlimit, hsends⟩ := tick_accounts engine g
        split
        · rename_i engine' e htick
          rw [htick] at hlimit hsends
          exact ⟨hlimit, hsends⟩
        · rename_i engine' htick
          rw [htick] at hlimit hsends
          obtain ⟨hlimit', hsends'⟩ :=
            obey_accounts engine' chain g args stack (Law.begin g (args.take arity))
          exact ⟨hlimit'.trans hlimit, hsends'.trans (by rw [hsends])⟩
  · exact ⟨rfl, rfl⟩

theorem step_accounts (book : Book) (engine : Engine) (machine : Machine) :
    Accounts engine (step book engine machine) := by
  unfold step
  split
  · split <;> exact ⟨rfl, rfl⟩
  · split
    · exact close_accounts ..
    · exact look_accounts ..
  · exact ⟨rfl, rfl⟩
  · exact ⟨rfl, rfl⟩
  · exact obey_accounts ..
  · unfold rebuild
    split
    · exact ⟨rfl, rfl⟩
    · split <;> exact ⟨rfl, rfl⟩

variable {book : Book} {engine engine' : Engine}

theorem settleFrom_accounts {fuel : Nat} {start : Step} {rest : Rest}
    (h : settleFrom book fuel start engine = some (rest, engine')) :
    engine'.stepLimit = engine.stepLimit ∧
      engine'.sends + start.asked = engine.sends + rest.step.asked := by
  apply settleFrom_induction _ _ h
  · exact ⟨rfl, rfl⟩
  · intro machine engine ih
    obtain ⟨hlimit, hsends⟩ := step_accounts book engine machine
    refine ⟨ih.1.trans hlimit, ?_⟩
    have hrunning : (Step.running machine).asked = 0 := rfl
    omega

theorem settleFrom_unlimited (book : Book) (fuel : Nat) (start : Step) (engine : Engine) :
    settleFrom book fuel start engine.unlimited =
        (settleFrom book fuel start engine).map (fun (rest, after) => (rest, after.unlimited)) ∨
      engine.stepLimit ≠ 0 ∧ ∃ after,
        settleFrom book fuel start engine = some (.failed engine.overLimit, after) := by
  induction fuel generalizing start engine with
  | zero => cases start <;> exact .inl rfl
  | succ fuel ih =>
    obtain ⟨machine, rfl⟩ | ⟨rest, rfl⟩ := start.running_or_rest
    · rw [settleFrom_running, settleFrom_running]
      obtain heq | ⟨hlimit, heq⟩ := step_unlimited book engine machine
      -- The step leaves the limit alone, so the rest of the run has the same limit.
      · have hsame : (step book engine machine).2.stepLimit = engine.stepLimit :=
          (step_accounts book engine machine).stepLimit
        rw [heq, Engine.overLimit, ← hsame]
        exact ih (step book engine machine).1 (step book engine machine).2
      · refine .inr ⟨hlimit.1, engine.charged, ?_⟩
        rw [heq]
        exact settleFrom_rest book fuel (.failed engine.overLimit) _
    · rw [settleFrom_rest, settleFrom_rest]
      exact .inl rfl

theorem holds_limited_step (hs : engine.memo.Sound book) {machine : Machine}
    (hj : machine.Justified book engine.sends) :
    Holds book engine (step book engine machine).1 (step book engine machine).2 := by
  obtain heq | ⟨-, heq⟩ := step_unlimited book engine machine
  · have hplain : Holds book engine.unlimited (step book engine.unlimited machine).1
        (step book engine.unlimited machine).2 :=
      holds_step (show engine.unlimited.stepLimit = 0 from rfl) hs hj
    rw [heq] at hplain
    exact ⟨hplain.sound, hplain.justified, hplain.grown, hplain.running, hplain.boundTo,
      (step_accounts book engine machine).stepLimit⟩
  · rw [heq]
    exact .of_quiet_after hs ⟨rfl, rfl, rfl, rfl⟩ trivial

theorem holds_settleFrom {fuel : Nat} {start : Step} {rest : Rest} (hs : engine.memo.Sound book)
    (hj : start.Justified book engine.sends)
    (h : settleFrom book fuel start engine = some (rest, engine')) :
    Holds book engine rest.step engine' := by
  revert hs hj
  apply settleFrom_induction _ _ h
  · intro hs hj
    exact .of_quiet_after hs (.refl _) hj
  · intro machine engine ih hs hj
    have hstep := holds_limited_step hs hj
    exact hstep.trans (ih hstep.sound hstep.justified) rest.not_running

/-- What a machine comes to whose dialogue ends without a request: its result, or it is stopped by
    the limit. -/
theorem Attuned.run_limited {say : Nat → Dialogue Term} {machine : Machine} {fuel : Nat} {w : Term}
    (h : Attuned book say (.running machine)) (hs : engine.memo.Sound book)
    (hj : machine.Justified book engine.sends) (hw : say fuel = .done w) :
    ∃ fuel' rest engine', run book fuel' engine machine = some (rest, engine') ∧
      (rest = .finished w ∨ engine.stepLimit ≠ 0 ∧ rest = .failed engine.overLimit) := by
  have hd : say fuel ≠ .unfinished := by
    rw [hw]
    exact nofun
  have hlimit : engine.unlimited.stepLimit = 0 := rfl
  obtain ⟨fuel', rest, after, hplain⟩ := h.settles hlimit hs hj hd
  obtain ⟨hrest, -, -⟩ := atRest_run h hlimit hs hj hplain
  have hm := hrest.tells fuel hd
  obtain heq | ⟨hlimited, after', heq⟩ := settleFrom_unlimited book fuel' (.running machine) engine
  · rw [hplain] at heq
    obtain ⟨⟨rest', engine'⟩, hrun, hsame⟩ := Option.map_eq_some_iff.1 heq.symm
    cases hsame
    refine ⟨fuel', rest, engine', hrun, .inl ?_⟩
    rw [hw] at hm
    cases rest with
    | finished w' => cases hm; rfl
    | failed fault => cases hm
    | sent bits suspended => cases hm.choose_spec
  · exact ⟨fuel', _, after', heq, .inr ⟨hlimited, rfl⟩⟩

theorem Attuned.done_of_run {say : Nat → Dialogue Term} {machine : Machine} {fuel : Nat} {w : Term}
    (h : Attuned book say (.running machine)) (hs : engine.memo.Sound book)
    (hj : machine.Justified book engine.sends)
    (hrun : run book fuel engine machine = some (.finished w, engine')) :
    ∃ fuel', say fuel' = .done w := by
  obtain heq | ⟨-, after, heq⟩ := settleFrom_unlimited book fuel (.running machine) engine
  · have hplain : run book fuel engine.unlimited machine = some (.finished w, engine'.unlimited) := by
      rw [run, heq, show settleFrom book fuel (.running machine) engine = _ from hrun]
      rfl
    have hlimit : engine.unlimited.stepLimit = 0 := rfl
    obtain ⟨hrest, -, -⟩ := atRest_run h hlimit hs hj hplain
    obtain ⟨fuel', hd⟩ := hrest.reached
    exact ⟨fuel', hrest.tells fuel' hd⟩
  · rw [show settleFrom book fuel (.running machine) engine = _ from hrun] at heq
    cases heq

end Machine

end SignalCalculus
