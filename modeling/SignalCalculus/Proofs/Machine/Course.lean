import SignalCalculus.Proofs.Machine.Turns
import SignalCalculus.Proofs.Memo.Conversation

set_option autoImplicit false

/-!
# The course of an evaluation

An evaluation goes from point to point: a running machine steps, and a request is put through the
link. Every point carries the number of laws that have been applied on the way to it. Evaluation
comes to a result exactly if its course comes to a point that has this result.
-/

namespace SignalCalculus

def Machine.applies (book : Book) (engine : Engine) (machine : Machine) : Bool :=
  machine.due book engine.memo && !decide engine.Spent

/-- A point of an evaluation: what the last move led to, the engine and the link's state, and how
    many laws have been applied. -/
structure Point (σ : Type) where
  step : Step
  engine : Engine
  state : σ
  laws : Nat := 0

namespace Point

variable {σ : Type}

/-- The next move of an evaluation; one that is over stays where it is. -/
def next (book : Book) (link : Link σ) (point : Point σ) : Point σ :=
  match point.step with
  | .running machine =>
    let (step, engine) := Machine.step book point.engine machine
    ⟨step, engine, point.state, point.laws + (machine.applies book point.engine).toNat⟩
  | .sent bits suspended =>
    match link bits point.state with
    | (.error fault, state) => ⟨.failed fault, point.engine, state, point.laws⟩
    | (.ok reply, state) =>
      let (step, engine) := Machine.answer point.engine reply suspended
      ⟨step, engine, state, point.laws⟩
  | .finished _ | .failed _ => point

def after (book : Book) (link : Link σ) : Nat → Point σ → Point σ
  | 0, point => point
  | moves + 1, point => (point.after book link moves).next book link

def outset (engine : Engine) (id : Nat) (term : Term) (state : σ) : Point σ :=
  ⟨.running (Machine.forcing term), engine.bind id, state, 0⟩

variable {book : Book} {link : Link σ} {point : Point σ}

theorem after_add (first second : Nat) :
    point.after book link (first + second) =
      (point.after book link first).after book link second := by
  induction second with
  | zero => rfl
  | succ second ih => exact congrArg (next book link) ih

theorem after_succ (moves : Nat) :
    point.after book link (moves + 1) = (point.next book link).after book link moves := by
  rw [Nat.add_comm, after_add]
  rfl

end Point

def Step.ofResult : Except Fault Term → Step
  | .ok w => .finished w
  | .error fault => .failed fault

namespace Machine

variable {σ : Type} {book : Book} {engine engine' : Engine}

theorem settleFrom_course {fuel : Nat} {start : Step} {rest : Rest}
    (h : settleFrom book fuel start engine = some (rest, engine')) (link : Link σ) (state : σ)
    (laws : Nat) : ∃ moves laws',
      (⟨start, engine, state, laws⟩ : Point σ).after book link moves =
        ⟨rest.step, engine', state, laws'⟩ := by
  revert laws
  apply settleFrom_induction _ _ h
  · exact fun laws => ⟨0, laws, rfl⟩
  · intro machine engine ih laws
    obtain ⟨moves, laws', hafter⟩ := ih (laws + (machine.applies book engine).toNat)
    exact ⟨moves + 1, laws', (Point.after_succ moves).trans hafter⟩

end Machine

namespace Engine

variable {σ : Type} {book : Book} {link : Link σ} {engine engine' : Engine} {state state' : σ}
  {result : Except Fault Term} {fuel id : Nat} {term : Term}

theorem converse_course {rounds : Nat} {rest : Rest}
    (h : converse book fuel link rounds rest engine state = some (result, engine', state'))
    (laws : Nat) : ∃ moves laws',
      (⟨rest.step, engine, state, laws⟩ : Point σ).after book link moves =
        ⟨.ofResult result, engine', state', laws'⟩ := by
  fun_induction converse book fuel link rounds rest engine state generalizing laws with
  | case1 rounds w engine state =>
    cases h
    exact ⟨0, laws, rfl⟩
  | case2 rounds fault engine state =>
    cases h
    exact ⟨0, laws, rfl⟩
  | case3 bits suspended engine state => cases h
  | case4 rounds bits suspended engine state fault between hlink =>
    cases h
    refine ⟨1, laws, ?_⟩
    simp only [Point.after, Point.next, Rest.step, hlink]
    rfl
  | case5 rounds bits suspended engine state reply between hlink ih =>
    obtain ⟨⟨rest', engine1⟩, hresume, hnext⟩ := Option.bind_eq_some_iff.1 h
    obtain ⟨first, laws1, hfirst⟩ := Machine.settleFrom_course hresume link between laws
    obtain ⟨second, laws2, hsecond⟩ := ih rest' engine1 hnext laws1
    refine ⟨1 + first + second, laws2, ?_⟩
    have hmove : (⟨.sent bits suspended, engine, state, laws⟩ : Point σ).after book link 1 =
        ⟨(Machine.answer engine reply suspended).1, (Machine.answer engine reply suspended).2,
          between, laws⟩ := by
      simp only [Point.after, Point.next, hlink]
    rw [Point.after_add, Point.after_add]
    exact (congrArg (fun point => (point.after book link first).after book link second) hmove).trans
      ((congrArg (Point.after book link second) hfirst).trans hsecond)

/-- If a course comes to a result, the machine's runs along it and the conversation between them
    halt with enough fuel. -/
theorem halts_of_course {moves laws laws' : Nat} {start : Step}
    (h : (⟨start, engine, state, laws⟩ : Point σ).after book link moves =
      ⟨.ofResult result, engine', state', laws'⟩) :
    ∃ enough, ∀ fuel rounds, enough ≤ fuel → enough ≤ rounds → ∃ rest between,
      Machine.settleFrom book fuel start engine = some (rest, between) ∧
      converse book fuel link rounds rest between state = some (result, engine', state') := by
  induction moves generalizing start engine state laws with
  | zero =>
    refine ⟨0, fun fuel rounds _ _ => ?_⟩
    cases h
    cases result with
    | ok w =>
      exact ⟨_, _, Machine.settleFrom_rest book fuel (.finished w) engine', converse_finished ..⟩
    | error fault =>
      exact ⟨_, _, Machine.settleFrom_rest book fuel (.failed fault) engine', converse_failed ..⟩
  | succ moves ih =>
    rw [Point.after_succ] at h
    cases start with
    | running machine =>
      obtain ⟨enough, henough⟩ := ih h
      refine ⟨enough + 1, fun fuel rounds hfuel hrounds => ?_⟩
      obtain ⟨less, rfl⟩ : ∃ less, fuel = less + 1 := ⟨fuel - 1, by omega⟩
      obtain ⟨rest, between, hrun, hconverse⟩ := henough (less + 1) rounds (by omega) (by omega)
      -- The step takes one unit of fuel, and the run behind it ends with what is left.
      obtain ⟨rest', between', hless, -⟩ := henough less rounds (by omega) (by omega)
      have hsame := Machine.settleFrom_mono (Nat.le_succ less) hless
      rw [hrun] at hsame
      cases hsame
      exact ⟨rest, between, hless, hconverse⟩
    | sent bits suspended =>
      have hrest := fun fuel => Machine.settleFrom_rest book fuel (.sent bits suspended) engine
      rcases hlink : link bits state with ⟨fault | reply, between⟩
      · simp only [Point.next, hlink] at h
        obtain ⟨enough, henough⟩ := ih h
        obtain ⟨rest, engine1, hfailed, hconverse⟩ :=
          henough enough enough (Nat.le_refl _) (Nat.le_refl _)
        rw [show Step.failed fault = (Rest.failed fault).step from rfl,
          Machine.settleFrom_rest] at hfailed
        cases hfailed
        rw [converse_failed] at hconverse
        cases hconverse
        refine ⟨1, fun fuel rounds _ hrounds => ⟨_, _, hrest fuel, ?_⟩⟩
        obtain ⟨less, rfl⟩ : ∃ less, rounds = less + 1 := ⟨rounds - 1, by omega⟩
        simp only [converse, hlink]
      · simp only [Point.next, hlink] at h
        obtain ⟨enough, henough⟩ := ih h
        refine ⟨enough + 1, fun fuel rounds hfuel hrounds => ⟨_, _, hrest fuel, ?_⟩⟩
        obtain ⟨less, rfl⟩ : ∃ less, rounds = less + 1 := ⟨rounds - 1, by omega⟩
        obtain ⟨rest, engine1, hrun, hconverse⟩ := henough fuel less (by omega) (by omega)
        simp only [converse, hlink]
        exact Option.bind_eq_some_iff.2 ⟨_, hrun, hconverse⟩
    | finished w => exact ih h
    | failed fault => exact ih h

theorem eval_iff_course :
    (∃ fuel, engine.eval id book fuel link state (some term) = some (result, engine', state')) ↔
      ∃ moves laws, (Point.outset engine id term state).after book link moves =
        ⟨.ofResult result, engine', state', laws⟩ := by
  constructor
  · rintro ⟨fuel, h⟩
    obtain ⟨⟨rest, between⟩, hrun, hconverse⟩ := Option.bind_eq_some_iff.1 h
    obtain ⟨first, laws, hfirst⟩ := Machine.settleFrom_course hrun link state 0
    obtain ⟨second, laws', hsecond⟩ := converse_course hconverse laws
    refine ⟨first + second, laws', ?_⟩
    rw [Point.after_add]
    exact (congrArg (Point.after book link second) hfirst).trans hsecond
  · rintro ⟨moves, laws, h⟩
    obtain ⟨enough, henough⟩ := halts_of_course h
    obtain ⟨rest, between, hrun, hconverse⟩ :=
      henough enough enough (Nat.le_refl _) (Nat.le_refl _)
    exact ⟨enough, Option.bind_eq_some_iff.2 ⟨_, hrun, hconverse⟩⟩

end Engine

end SignalCalculus
