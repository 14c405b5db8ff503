import Mathlib
import SignalCalculus.Proofs.Limit.Counting
import SignalCalculus.Proofs.Limit.Queries
import SignalCalculus.Proofs.Machine.Reports

set_option autoImplicit false

namespace SignalCalculus

def Engine.limitedTo (engine : Engine) (limit : Int) : Engine := { engine with stepLimit := limit }

namespace Machine

variable {book : Book} {engine : Engine} {machine : Machine}

theorem step_unlimited_of_room (h : ¬(machine.due book engine.memo = true ∧ engine.Spent)) :
    step book engine.unlimited machine = erase (step book engine machine) := by
  obtain heq | ⟨hspent, hstops⟩ := step_unlimited book engine machine
  · exact heq
  · cases step_counts book engine machine with
    | refused due spent stops => exact absurd ⟨due, spent⟩ h
    | applied due room steps fails => exact absurd hspent room
    | idle due steps fails =>
      rw [hstops] at steps
      exact absurd steps (Nat.succ_ne_self engine.steps)

theorem applies_unlimited (book : Book) (engine : Engine) (machine : Machine) :
    machine.applies book engine.unlimited = machine.due book engine.memo := by
  have hroom : ¬engine.unlimited.Spent := fun h => h.1 rfl
  simp only [applies, hroom, decide_false, Bool.not_false, Bool.and_true]
  rfl

theorem applies_of_room (h : ¬(machine.due book engine.memo = true ∧ engine.Spent)) :
    machine.applies book engine = machine.due book engine.memo := by
  unfold applies
  by_cases hspent : engine.Spent
  · have hdue : machine.due book engine.memo = false :=
      Bool.eq_false_iff.2 fun hdue => h ⟨hdue, hspent⟩
    rw [hdue, Bool.false_and]
  · simp only [hspent, decide_false, Bool.not_false, Bool.and_true]

end Machine

namespace Point

variable {σ : Type} {book : Book} {link : Link σ} {point : Point σ}

def unlimited (point : Point σ) : Point σ := { point with engine := point.engine.unlimited }

/-- A law is due that the step limit forbids. -/
def Refused (book : Book) (point : Point σ) : Prop :=
  ∃ machine, point.step = .running machine ∧ machine.due book point.engine.memo = true ∧
    point.engine.Spent

theorem unlimited_next (h : ¬point.Refused book) :
    point.unlimited.next book link = (point.next book link).unlimited := by
  obtain ⟨step, engine, state, laws⟩ := point
  cases step with
  | running machine =>
    have hroom : ¬(machine.due book engine.memo = true ∧ engine.Spent) :=
      fun hrefused => h ⟨machine, rfl, hrefused⟩
    have hstep := Machine.step_unlimited_of_room hroom
    have hlaws := (Machine.applies_unlimited book engine machine).trans
      (Machine.applies_of_room hroom).symm
    simp only [next, unlimited, hstep, hlaws]
    rfl
  | sent bits suspended =>
    have hanswer := fun reply => Machine.obey_unlimited (engine.report (.reply reply))
      suspended.chain .send suspended.args suspended.stack (Law.onReply reply)
    rcases hlink : link bits state with ⟨fault | reply, between⟩
    · simp only [next, unlimited, hlink]
    · simp only [next, unlimited, hlink]
      exact congrArg (fun after => (⟨after.1, after.2, between, laws⟩ : Point σ)) (hanswer reply)
  | finished w => rfl
  | failed fault => rfl

theorem stepLimit_next (book : Book) (link : Link σ) (point : Point σ) :
    (point.next book link).engine.stepLimit = point.engine.stepLimit := by
  obtain ⟨step, engine, state, laws⟩ := point
  cases step with
  | running machine => exact (Machine.step_accounts book engine machine).stepLimit
  | sent bits suspended =>
    rcases hlink : link bits state with ⟨fault | reply, between⟩
    · simp only [next, hlink]
    · simp only [next, hlink]
      exact (Machine.obey_accounts ..).stepLimit
  | finished w => rfl
  | failed fault => rfl

theorem stepLimit_after (moves : Nat) :
    (point.after book link moves).engine.stepLimit = point.engine.stepLimit := by
  induction moves with
  | zero => rfl
  | succ moves ih => exact (stepLimit_next book link _).trans ih

theorem laws_next (book : Book) (link : Link σ) (point : Point σ) :
    (point.next book link).laws = point.laws ∨
      (point.next book link).laws = point.laws + 1 ∧
        ∃ machine, point.step = .running machine ∧ machine.due book point.engine.memo = true := by
  obtain ⟨step, engine, state, laws⟩ := point
  cases step with
  | running machine =>
    cases happlies : machine.applies book engine with
    | false =>
      simp only [next, happlies]
      exact .inl rfl
    | true =>
      simp only [next, happlies]
      exact .inr ⟨rfl, machine, rfl, (Bool.and_eq_true_iff.1 happlies).1⟩
  | sent bits suspended =>
    left
    rcases hlink : link bits state with ⟨fault | reply, between⟩ <;> simp only [next, hlink]
  | finished w => exact .inl rfl
  | failed fault => exact .inl rfl

theorem exists_crossing {n moves : Nat} (hstart : point.laws ≤ n)
    (h : n < (point.after book link moves).laws) :
    ∃ before, before < moves ∧ (point.after book link before).laws = n ∧
      (point.after book link (before + 1)).laws = n + 1 := by
  induction moves with
  | zero => exact absurd h (by simpa only [after, Nat.not_lt] using hstart)
  | succ moves ih =>
    by_cases hearlier : n < (point.after book link moves).laws
    · obtain ⟨before, hlt, hcrossing⟩ := ih hearlier
      exact ⟨before, by omega, hcrossing⟩
    · have hnext := laws_next book link (point.after book link moves)
      simp only [after] at h
      refine ⟨moves, by omega, ?_⟩
      simp only [after]
      omega

/-- Steps and laws are the same number as long as no law has been refused. -/
theorem steps_next (h : ¬point.Refused book) (hsteps : point.engine.steps = point.laws) :
    (point.next book link).engine.steps = (point.next book link).laws := by
  obtain ⟨step, engine, state, laws⟩ := point
  cases step with
  | running machine =>
    have hroom : ¬(machine.due book engine.memo = true ∧ engine.Spent) :=
      fun hrefused => h ⟨machine, rfl, hrefused⟩
    have happlies := Machine.applies_of_room hroom
    dsimp only at hsteps
    cases Machine.step_counts book engine machine with
    | refused due spent stops => exact absurd ⟨due, spent⟩ hroom
    | applied due room steps fails =>
      simp only [next, happlies, due, steps, hsteps]
      rfl
    | idle due steps fails =>
      simp only [next, happlies, due, steps, hsteps]
      rfl
  | sent bits suspended =>
    rcases hlink : link bits state with ⟨fault | reply, between⟩
    · simp only [next, hlink]
      exact hsteps
    · simp only [next, hlink]
      exact (Machine.steps_obey ..).trans hsteps
  | finished w => exact hsteps
  | failed fault => exact hsteps

theorem next_of_refused (h : point.Refused book) :
    point.next book link =
      ⟨.failed point.engine.overLimit, point.engine.charged, point.state, point.laws⟩ := by
  obtain ⟨step, engine, state, laws⟩ := point
  obtain ⟨machine, rfl, hdue, hspent⟩ := h
  have happlies : machine.applies book engine = false := by
    simp only [Machine.applies, hspent, decide_true, Bool.not_true, Bool.and_false]
  cases Machine.step_counts book engine machine with
  | refused due spent stops =>
    simp only [next, happlies, stops]
    rfl
  | applied due room steps fails => exact absurd hspent room
  | idle due steps fails =>
    rw [hdue] at due
    cases due

theorem laws_next_of_refused (h : point.Refused book) (link : Link σ) :
    (point.unlimited.next book link).laws = point.laws + 1 := by
  obtain ⟨step, engine, state, laws⟩ := point
  obtain ⟨machine, rfl, hdue, -⟩ := h
  have happlies := (Machine.applies_unlimited book engine machine).trans hdue
  simp only [next, unlimited, happlies]
  rfl

/-- As long as no more laws are applied than the limit allows, the limit makes no difference. -/
theorem after_unlimited {n : Nat} (hlimit : point.engine.stepLimit = n)
    (hsteps : point.engine.steps = point.laws) {moves : Nat}
    (h : (point.unlimited.after book link moves).laws ≤ n) :
    (point.after book link moves).unlimited = point.unlimited.after book link moves ∧
      (point.after book link moves).engine.steps = (point.after book link moves).laws := by
  induction moves with
  | zero => exact ⟨rfl, hsteps⟩
  | succ moves ih =>
    simp only [after] at h ⊢
    have hgrown := laws_next book link (point.unlimited.after book link moves)
    obtain ⟨hsame, hcount⟩ := ih (by omega)
    have hroom : ¬(point.after book link moves).Refused book := by
      intro hrefused
      have hmore := laws_next_of_refused hrefused link
      obtain ⟨-, -, -, -, hspent⟩ := hrefused
      rw [stepLimit_after, hlimit] at hspent
      rw [hsame] at hmore
      omega
    rw [← hsame]
    exact ⟨(unlimited_next hroom).symm, steps_next hroom hcount⟩

theorem after_of_le {first second : Nat} (h : first ≤ second) :
    point.after book link second = (point.after book link first).after book link (second - first) := by
  rw [← after_add, Nat.add_sub_cancel' h]

theorem requests_after {peer : Peer} {point : Point (List (List Char))} (moves : Nat) :
    point.state <+: (point.after book (Link.ofPeer peer) moves).state := by
  induction moves with
  | zero => exact List.prefix_refl _
  | succ moves ih =>
    refine ih.trans ?_
    simp only [after]
    generalize point.after book (Link.ofPeer peer) moves = point
    obtain ⟨step, engine, state, laws⟩ := point
    cases step with
    | running machine => exact List.prefix_refl _
    | sent bits suspended =>
      cases hpeer : peer (state ++ [bits]) with
      | error fault =>
        simp only [next, Link.ofPeer, hpeer]
        exact List.prefix_append _ _
      | ok reply =>
        simp only [next, Link.ofPeer, hpeer]
        exact List.prefix_append _ _
    | finished w => exact List.prefix_refl _
    | failed fault => exact List.prefix_refl _

theorem steps_after (hlimit : point.engine.stepLimit = 0)
    (hsteps : point.engine.steps = point.laws) (moves : Nat) :
    (point.after book link moves).engine.steps = (point.after book link moves).laws := by
  induction moves with
  | zero => exact hsteps
  | succ moves ih =>
    refine steps_next (fun hrefused => ?_) ih
    obtain ⟨-, -, -, hne, -⟩ := hrefused
    rw [stepLimit_after] at hne
    exact hne hlimit

theorem eq_limitedTo {step : Step} {after : Engine} {state : σ} {laws : Nat} {limit : Int}
    (h : point.unlimited = ⟨step, after, state, laws⟩) (hlimit : point.engine.stepLimit = limit) :
    point = ⟨step, after.limitedTo limit, state, laws⟩ := by
  subst hlimit
  cases h
  rfl

theorem unlimited_outset (engine : Engine) (limit : Int) (id : Nat) (term : Term) (state : σ) :
    (outset (engine.limitedTo limit) id term state).unlimited =
      outset engine.unlimited id term state := by
  have hbind := Engine.unlimited_bind (engine.limitedTo limit) id
  exact congrArg (fun engine => (⟨.running (Machine.forcing term), engine, state, 0⟩ : Point σ)) hbind

theorem stepLimit_outset (engine : Engine) (id : Nat) (term : Term) (state : σ) :
    (outset engine id term state).engine.stepLimit = engine.stepLimit :=
  Engine.bind_stepLimit engine id

theorem steps_outset (engine : Engine) (id : Nat) (term : Term) (state : σ) :
    (outset engine id term state).engine.steps = (outset engine id term state).laws := by
  unfold outset Engine.bind
  split
  · rfl
  · split <;> rfl

/-- Where the course without the limit applies one law more than `n`, the course with the limit `n`
    ends. -/
theorem after_crossing {n before : Nat} (hn : 0 < n) (hlimit : point.engine.stepLimit = n)
    (hsteps : point.engine.steps = point.laws)
    (hlaws : (point.unlimited.after book link before).laws = n)
    (hmore : (point.unlimited.after book link (before + 1)).laws = n + 1) :
    point.after book link (before + 1) =
      ⟨.failed (.eval (.stepLimit n)),
        ((point.unlimited.after book link before).engine.limitedTo n).charged,
        (point.unlimited.after book link before).state, n⟩ := by
  obtain ⟨hsame, hcount⟩ := after_unlimited hlimit hsteps (Nat.le_of_eq hlaws)
  have hpoint := eq_limitedTo hsame ((stepLimit_after before).trans hlimit)
  rw [hpoint, hlaws] at hcount
  simp only [after] at hmore ⊢
  obtain hidle | ⟨-, machine, hstep, hdue⟩ :=
    laws_next book link (point.unlimited.after book link before)
  · omega
  · have hspent : ((point.unlimited.after book link before).engine.limitedTo n).Spent := by
      refine ⟨Int.natCast_ne_zero.2 (Nat.ne_of_gt hn), ?_⟩
      rw [hcount]
      exact Int.ofNat_lt.2 (Nat.lt_succ_self n)
    have hrefused : (point.after book link before).Refused book := by
      rw [hpoint]
      exact ⟨machine, hstep, hdue, hspent⟩
    rw [next_of_refused hrefused, hpoint]
    simp only [hlaws]
    rfl

end Point

namespace Engine

section

variable {σ : Type} {book : Book} {link : Link σ} {engine after : Engine} {id n moves laws : Nat}
  {term : Term} {state state' : σ} {result : Except Fault Term}

theorem steps_of_course
    (h : (Point.outset engine.unlimited id term state).after book link moves =
      ⟨.ofResult result, after, state', laws⟩) : after.steps = laws := by
  have hlimit := Point.stepLimit_outset engine.unlimited id term state
  have hsteps := Point.steps_outset engine.unlimited id term state
  have hcount : _ = ((Point.outset engine.unlimited id term state).after book link moves).laws :=
    Point.steps_after hlimit hsteps moves
  rwa [h] at hcount

theorem eval_limitedTo
    (h : (Point.outset engine.unlimited id term state).after book link moves =
      ⟨.ofResult result, after, state', laws⟩) (hle : laws ≤ n) :
    ∃ fuel, (engine.limitedTo n).eval id book fuel link state (some term) =
      some (result, after.limitedTo n, state') := by
  rw [← Point.unlimited_outset engine n] at h
  have hlimit := Point.stepLimit_outset (engine.limitedTo n) id term state
  have hsteps := Point.steps_outset (engine.limitedTo n) id term state
  have hwithin := congrArg Point.laws h
  obtain ⟨hsame, -⟩ := Point.after_unlimited hlimit hsteps (Nat.le_trans (Nat.le_of_eq hwithin) hle)
  have hend := Point.eq_limitedTo (hsame.trans h) ((Point.stepLimit_after moves).trans hlimit)
  exact eval_iff_course.2 ⟨moves, laws, hend⟩

theorem eval_stops (hn : 0 < n)
    (h : n < ((Point.outset engine.unlimited id term state).after book link moves).laws) :
    ∃ fuel before after, before < moves ∧
      (Point.outset (engine.limitedTo n) id term state).after book link (before + 1) =
        ⟨.failed (.eval (.stepLimit n)), after.charged,
          ((Point.outset engine.unlimited id term state).after book link before).state, n⟩ ∧
      after = ((Point.outset engine.unlimited id term state).after book link before).engine.limitedTo
        n ∧
      after.steps = n ∧
      (engine.limitedTo n).eval id book fuel link state (some term) =
        some (.error (.eval (.stepLimit n)), after.charged,
          ((Point.outset engine.unlimited id term state).after book link before).state) := by
  rw [← Point.unlimited_outset engine n] at h ⊢
  have hlimit := Point.stepLimit_outset (engine.limitedTo n) id term state
  have hsteps := Point.steps_outset (engine.limitedTo n) id term state
  obtain ⟨before, hbefore, hlaws, hmore⟩ := Point.exists_crossing (Nat.zero_le n) h
  have hend := Point.after_crossing hn hlimit hsteps hlaws hmore
  obtain ⟨hsame, hcount⟩ := Point.after_unlimited hlimit hsteps (Nat.le_of_eq hlaws)
  have hengine := congrArg (fun point => point.engine.steps) hsame
  have happlied := congrArg Point.laws hsame
  have heval : ∃ fuel, (engine.limitedTo n).eval id book fuel link state (some term) =
      some (.error (.eval (.stepLimit n)), _, _) := eval_iff_course.2 ⟨before + 1, n, hend⟩
  obtain ⟨fuel, heval⟩ := heval
  refine ⟨fuel, before, _, hbefore, hend, rfl, ?_, heval⟩
  exact hengine.symm.trans (hcount.trans (happlied.trans hlaws))

end

/-- A step limit truncates an evaluation and does nothing else. An evaluation that ends without the
    limit after at most `n` laws ends with the limit `n` in the same way: the result, the requests,
    and the engine but for its limit are the same. If more than `n` laws are applied without the
    limit, whether or not that evaluation ever ends, then with the limit `n` the evaluation ends
    with the error of the limit when it has applied `n` laws and counted one more; its requests and
    reports are the first of those without the limit. -/
theorem step_limit_only_truncates (book : Book) (id : Nat) (engine : Engine) (peer : Peer)
    (term : Term) {n : Nat} (hn : 0 < n) :
    let link := Link.ofPeer peer
    let free := Point.outset engine.unlimited id term []
    (∀ fuel result after requests,
      engine.unlimited.eval id book fuel link [] (some term) = some (result, after, requests) →
      ∃ moves laws, free.after book link moves = ⟨.ofResult result, after, requests, laws⟩ ∧
        after.steps = laws ∧
        (laws ≤ n → ∃ fuel', (engine.limitedTo n).eval id book fuel' link [] (some term) =
          some (result, after.limitedTo n, requests))) ∧
    (∀ moves, n < (free.after book link moves).laws → ∃ fuel after requests moves',
      (engine.limitedTo n).eval id book fuel link [] (some term) =
        some (.error (.eval (.stepLimit n)), after, requests) ∧
      after.steps = n + 1 ∧
      (Point.outset (engine.limitedTo n) id term []).after book link moves' =
        ⟨.failed (.eval (.stepLimit n)), after, requests, n⟩ ∧
      requests <+: (free.after book link moves).state ∧
      after.recorder.Grows (fun _ => True) (free.after book link moves).engine.recorder) ∧
    ∀ fuel, (engine.limitedTo n).eval id book fuel link [] none =
      (engine.unlimited.eval id book fuel link [] none).map
        fun (result, after, requests) => (result, after.limitedTo n, requests) := by
  intro link free
  refine ⟨fun fuel result after requests heval => ?_, fun moves hmany => ?_, fun fuel => rfl⟩
  · obtain ⟨moves, laws, hcourse⟩ := eval_iff_course.1 ⟨fuel, heval⟩
    exact ⟨moves, laws, hcourse, steps_of_course hcourse, eval_limitedTo hcourse⟩
  · obtain ⟨fuel, before, after, hbefore, hend, rfl, hsteps, heval⟩ := eval_stops hn hmany
    refine ⟨fuel, _, _, before + 1, heval, congrArg Nat.succ hsteps, hend, ?_, ?_⟩
    · rw [Point.after_of_le (Nat.le_of_lt hbefore)]
      exact Point.requests_after _
    · rw [Point.after_of_le (Nat.le_of_lt hbefore)]
      exact Point.grows_after ⟨fun _ => trivial, trivial, fun _ => trivial, fun _ => trivial⟩
        (fun _ _ _ => trivial) _

def incOfReply : Term := .app (.fn .inc) (.app (.fn .send) (.num 0))

/-- Two laws are needed, and one request: a limit of two makes no difference, and a limit of one
    stops the evaluation before its request. -/
theorem incOfReply_truncated :
    let link := Link.ofPeer fun _ => .ok ['0', '1', '0']
    (0 < 2 ∧ ∃ fuel after, (limitedTo {} 2).eval 0 {} fuel link [] (some incOfReply) =
      some (.ok (.num 1), after, [['0', '1', '0']])) ∧
    0 < 1 ∧ ∃ fuel after, (limitedTo {} 1).eval 0 {} fuel link [] (some incOfReply) =
      some (.error (.eval (.stepLimit 1)), after, []) ∧ after.steps = 2 := by
  intro link
  have htwo : 0 < 2 := by decide
  have hone : 0 < 1 := by decide
  refine ⟨⟨htwo, ?_⟩, hone, ?_⟩
  · have heval : ((unlimited {}).eval 0 {} 15 link [] (some incOfReply)).map
        (fun (result, after, requests) => (result, after.steps, requests)) =
          some (.ok (.num 1), 2, [['0', '1', '0']]) := by cbv
    obtain ⟨⟨result, after, requests⟩, heval, hsame⟩ := Option.map_eq_some_iff.1 heval
    obtain ⟨rfl, hsteps, rfl⟩ :
        result = .ok (.num 1) ∧ after.steps = 2 ∧ requests = [['0', '1', '0']] := by
      simpa only [Prod.mk.injEq] using hsame
    obtain ⟨hends, -⟩ := step_limit_only_truncates {} 0 {} (fun _ => .ok ['0', '1', '0']) incOfReply
      htwo
    obtain ⟨moves, laws, -, hlaws, hlimited⟩ := hends 15 _ after _ heval
    obtain ⟨fuel, hlimited⟩ := hlimited (by omega)
    exact ⟨fuel, _, hlimited⟩
  · have hcourse : ((Point.outset (unlimited {}) 0 incOfReply []).after {} link 4).laws = 2 := by cbv
    have hnone : ((Point.outset (unlimited {}) 0 incOfReply []).after {} link 4).state = [] := by cbv
    obtain ⟨-, hstops, -⟩ := step_limit_only_truncates {} 0 {} (fun _ => .ok ['0', '1', '0'])
      incOfReply hone
    obtain ⟨fuel, after, requests, moves, heval, hsteps, -, hrequests, -⟩ :=
      hstops 4 (by rw [hcourse]; decide)
    rw [hnone] at hrequests
    obtain rfl := List.prefix_nil.1 hrequests
    exact ⟨fuel, after, heval, hsteps⟩

end Engine

end SignalCalculus
