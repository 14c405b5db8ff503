import SignalCalculus.Proofs.Limit.Truncation
import SignalCalculus.Proofs.Machine.Course
import SignalCalculus.Proofs.Machine.Faults

set_option autoImplicit false

namespace SignalCalculus

theorem Engine.steps_settle (engine : Engine) (chain : Chain) (w : Term) :
    (engine.settle chain w).steps = engine.steps := by
  unfold Engine.settle
  split <;> rfl

theorem Engine.steps_bind (engine : Engine) (id : Nat) : (engine.bind id).steps = 0 := by
  unfold Engine.bind
  split
  · rfl
  · split <;> rfl

theorem Engine.spent_iff {engine : Engine} {n : Nat} (hn : 0 < n) (hlimit : engine.stepLimit = n) :
    engine.Spent ↔ n ≤ engine.steps := by
  unfold Engine.Spent
  omega

namespace Machine

variable {book : Book} {engine engine' : Engine}

theorem steps_obey (engine : Engine) (chain : Chain) (g : Fn) (args : List Term)
    (stack : List Frame) (verdict : Law.Verdict) :
    (obey engine chain g args stack verdict).2.steps = engine.steps := by
  cases verdict with
  | stuck => exact engine.steps_settle chain chain.current
  | becomes term => rfl
  | fails fault => rfl
  | needs need term => rfl
  | sends bits => rfl

theorem steps_rebuild (engine : Engine) (cells : List (Cell Term Term)) (w : Term)
    (stack : List Frame) : (rebuild engine cells w stack).2.steps = engine.steps := by
  unfold rebuild
  split
  · rfl
  · split <;> rfl

inductive Counts (book : Book) (engine : Engine) (machine : Machine) (state : Step × Engine) : Prop
  | refused (due : machine.due book engine.memo = true) (spent : engine.Spent)
      (stops : state = (.failed engine.overLimit, engine.charged))
  | applied (due : machine.due book engine.memo = true) (room : ¬engine.Spent)
      (steps : state.2.steps = engine.steps + 1)
      (fails : state.1.FailsWith fun fault => fault.isLimit = false)
  | idle (due : machine.due book engine.memo = false) (steps : state.2.steps = engine.steps)
      (fails : state.1.FailsWith fun fault => fault.isLimit = false)

theorem counts_sees {chain : Chain} {stack : List Frame} {state : Step × Engine}
    (unknown : chain.earlier ≠ [] → engine.memo.find? chain.current = none)
    (h : Sees book engine chain stack state) :
    Counts book engine ⟨.chase chain, stack⟩ state := by
  have hdue : due book engine.memo ⟨.chase chain, stack⟩ = true ↔
      ∃ g args, glance book chain.current = .fires g args := due_chase unknown
  have hidle : (∀ g args, glance book chain.current ≠ .fires g args) →
      due book engine.memo ⟨.chase chain, stack⟩ = false := by
    intro hglance
    refine Bool.eq_false_iff.2 fun h => ?_
    obtain ⟨g, args, hfires⟩ := hdue.1 h
    exact hglance g args hfires
  cases h with
  | free spine unbound =>
    refine .idle (hidle fun g args => ?_) (Engine.steps_settle _ _ _) trivial
    rw [glance_of_var spine, unbound]
    exact nofun
  | rests sees unheld =>
    refine .idle (hidle fun g args => ?_) (Engine.steps_settle _ _ _) trivial
    rw [sees]
    exact nofun
  | @fails fault sees =>
    have hfails : fault.isLimit = false := by
      obtain ⟨n, arg, rfl⟩ | ⟨data, arg, rfl⟩ | ⟨m, -, rfl⟩ | ⟨g, -, -, rfl⟩ := glance_eq_fails sees
      all_goals rfl
    refine .idle (hidle fun g args => ?_) rfl hfails
    rw [sees]
    exact nofun
  | unfolds sees =>
    refine .idle (hidle fun g args => ?_) rfl trivial
    rw [sees]
    exact nofun
  | refuses sees spent => exact .refused (hdue.2 ⟨_, _, sees⟩) spent rfl
  | fires sees room =>
    exact .applied (hdue.2 ⟨_, _, sees⟩) room (steps_obey _ _ _ _ _ _)
      (obey_failsWith _ _ _ _ _ (Law.begin_failsWith _ _))

theorem step_counts (book : Book) (engine : Engine) (machine : Machine) :
    Counts book engine machine (step book engine machine) := by
  have hturn := step_turn book engine machine
  generalize step book engine machine = state at hturn
  cases hturn with
  | recalls entry => exact .idle rfl rfl trivial
  | begins => exact .idle rfl rfl trivial
  | meets later entry =>
    exact .idle (due_of_entry later entry) (Engine.steps_settle _ _ _) trivial
  | looks unknown sees => exact counts_sees unknown sees
  | ends => exact .idle rfl rfl trivial
  | unfolded => exact .idle rfl rfl trivial
  | hears =>
    exact .idle rfl (steps_obey _ _ _ _ _ _)
      (obey_failsWith _ _ _ _ _ (Law.onTerm_failsWith Law.blames_notLimit _ _ _ _))
  | forced => exact .idle rfl (steps_rebuild _ _ _ _) (rebuild_failsWith _ _ _ _)

def lawsFrom (book : Book) : Nat → Step → Engine → Nat
  | fuel + 1, .running machine, engine =>
    let (next, engine') := step book engine machine
    (machine.applies book engine).toNat + lawsFrom book fuel next engine'
  | _, _, _ => 0

theorem lawsFrom_rest (book : Book) (fuel : Nat) (rest : Rest) (engine : Engine) :
    lawsFrom book fuel rest.step engine = 0 := by
  cases fuel <;> cases rest <;> rfl

/-- What a run with the limit `n` does to the count of steps: up to `n` it goes up by the laws that
    are applied, and it goes beyond `n` if the run fails with the limit. -/
structure Tallies (n : Nat) (engine : Engine) (laws : Nat) (rest : Rest) (engine' : Engine) : Prop where
  steps : min engine'.steps n = min engine.steps n + laws
  limit : ∀ limit, rest = .failed (.eval (.stepLimit limit)) → limit = n ∧ n < engine'.steps

theorem tallies_rest {n fuel : Nat} {rest rest' : Rest}
    (hfails : rest.step.FailsWith fun fault => fault.isLimit = false)
    (h : settleFrom book fuel rest.step engine = some (rest', engine')) :
    Tallies n engine (lawsFrom book fuel rest.step engine) rest' engine' := by
  rw [settleFrom_rest] at h
  cases h
  refine ⟨by rw [lawsFrom_rest, Nat.add_zero], ?_⟩
  rintro limit rfl
  cases hfails

theorem tallies_settleFrom {n fuel : Nat} (hn : 0 < n) {start : Step} {rest : Rest}
    (hlimit : engine.stepLimit = n)
    (hstart : start.FailsWith fun fault => fault.isLimit = false)
    (h : settleFrom book fuel start engine = some (rest, engine')) :
    Tallies n engine (lawsFrom book fuel start engine) rest engine' := by
  induction fuel generalizing start engine with
  | zero =>
    obtain ⟨machine, rfl⟩ | ⟨rest', rfl⟩ := start.running_or_rest
    · cases h
    · exact tallies_rest hstart h
  | succ fuel ih =>
    obtain ⟨machine, rfl⟩ | ⟨rest', rfl⟩ := start.running_or_rest
    · have hlaws : lawsFrom book (fuel + 1) (.running machine) engine =
          (machine.applies book engine).toNat +
            lawsFrom book fuel (step book engine machine).1 (step book engine machine).2 := rfl
      have hsame := (step_accounts book engine machine).stepLimit.trans hlimit
      have hspent := Engine.spent_iff hn hlimit
      rw [settleFrom_running] at h
      rw [hlaws]
      cases step_counts book engine machine with
      | refused due spent stops =>
        have happlies : machine.applies book engine = false := by
          simp only [applies, spent, decide_true, Bool.not_true, Bool.and_false]
        have hfull := hspent.1 spent
        have hcharged : engine.charged.steps = engine.steps + 1 := rfl
        have hended := settleFrom_rest book fuel (.failed engine.overLimit) engine.charged
        have hnone : lawsFrom book fuel (.failed engine.overLimit) engine.charged = 0 :=
          lawsFrom_rest book fuel (.failed engine.overLimit) engine.charged
        rw [stops] at h ⊢
        cases hended.symm.trans h
        rw [happlies, hnone, Bool.toNat_false]
        refine ⟨by omega, fun limit hrest => ?_⟩
        cases hrest
        exact ⟨hlimit, by omega⟩
      | applied due room steps fails =>
        have happlies : machine.applies book engine = true := by
          simp only [applies, due, room, decide_false, Bool.not_false, Bool.and_self]
        have hroom : ¬n ≤ engine.steps := fun hfull => room (hspent.2 hfull)
        obtain ⟨hcount, hfault⟩ := ih hsame fails h
        refine ⟨?_, hfault⟩
        rw [hcount, happlies, steps, Bool.toNat_true]
        omega
      | idle due steps fails =>
        have happlies : machine.applies book engine = false := by
          simp only [applies, due, Bool.false_and]
        obtain ⟨hcount, hfault⟩ := ih hsame fails h
        refine ⟨?_, hfault⟩
        rw [hcount, happlies, steps, Bool.toNat_false, Nat.zero_add]
    · exact tallies_rest hstart h

end Machine

end SignalCalculus
