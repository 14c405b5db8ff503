import SignalCalculus.Proofs.Direct.Spine

set_option autoImplicit false

namespace SignalCalculus

namespace Engine

def Spent (engine : Engine) : Prop :=
  engine.stepLimit ≠ 0 ∧ engine.stepLimit < ((engine.steps + 1 : Nat) : Int)

instance (engine : Engine) : Decidable engine.Spent :=
  inferInstanceAs (Decidable (_ ∧ _))

def charged (engine : Engine) : Engine := { engine with steps := engine.steps + 1 }

theorem tick_of_spent {engine : Engine} (h : engine.Spent) (g : Fn) :
    engine.tick g = (engine.charged, .error (.stepLimit engine.stepLimit)) :=
  if_pos h

theorem tick_of_not_spent {engine : Engine} (h : ¬engine.Spent) (g : Fn) :
    engine.tick g = (engine.charged.report (.applied g.word), .ok ()) :=
  if_neg h

end Engine

theorem glance_eq_fails {book : Book} {term : Term} {fault : Fault}
    (h : glance book term = .fails fault) :
    (∃ n arg, fault = .eval (.appliedNumber n arg)) ∨
      (∃ data arg, fault = .eval (.appliedData data arg)) ∨
      (∃ m, term.spine.1 = .mark m ∧ fault = .build (.unexpectedMark m)) ∨
      ∃ g, term.spine.1 = .fn g ∧ g.arity? = none ∧ fault = .lawless g := by
  unfold glance at h
  split at h
  · split at h <;> cases h
  · cases h
  · cases h
  · cases h
  · cases h
    exact .inl ⟨_, _, rfl⟩
  · rename_i hspine
    cases h
    exact .inr (.inr (.inl ⟨_, by rw [hspine], rfl⟩))
  · rename_i hspine
    split at h
    · rename_i harity
      cases h
      exact .inr (.inr (.inr ⟨_, by rw [hspine], harity, rfl⟩))
    · split at h <;> cases h
  · cases h
    exact .inr (.inl ⟨_, _, rfl⟩)

namespace Machine

inductive Sees (book : Book) (engine : Engine) (chain : Chain) (stack : List Frame) :
    Step × Engine → Prop where
  | free {id : Int} {args : List Term} (spine : chain.current.spine = (.var id, args))
      (unbound : book.resolve id = none) :
      Sees book engine chain stack
        (close (engine.report (.stuck id)) chain chain.current stack)
  | rests (sees : glance book chain.current = .normal) (unheld : chain.current.isStuck = false) :
      Sees book engine chain stack (close engine chain chain.current stack)
  | fails {fault : Fault} (sees : glance book chain.current = .fails fault) :
      Sees book engine chain stack (.failed fault, engine)
  | unfolds {bound : Term} {args : List Term}
      (sees : glance book chain.current = .unfolds bound args) :
      Sees book engine chain stack
        (.running ⟨.demand bound, .unfold chain args :: stack⟩, engine)
  | refuses {g : Fn} {args : List Term} (sees : glance book chain.current = .fires g args)
      (spent : engine.Spent) :
      Sees book engine chain stack (.failed (.eval (.stepLimit engine.stepLimit)), engine.charged)
  | fires {g : Fn} {args : List Term} (sees : glance book chain.current = .fires g args)
      (room : ¬engine.Spent) :
      Sees book engine chain stack
        (obey (engine.charged.report (.applied g.word)) chain g args stack
          (Law.begin g (Law.operands g args)))

theorem look_sees (book : Book) (engine : Engine) (chain : Chain) (stack : List Frame) :
    Sees book engine chain stack (look book engine chain stack) := by
  obtain ⟨head, args, hspine⟩ : ∃ head args, chain.current.spine = (head, args) := ⟨_, _, rfl⟩
  cases head with
  | var id =>
    have hglance : glance book chain.current = _ := glance_of_var hspine
    cases hid : book.resolve id with
    | none =>
      simp only [look, hspine, hid]
      exact .free hspine hid
    | some bound =>
      rw [hid] at hglance
      simp only [look, hspine, hid]
      exact .unfolds hglance
  | fn g =>
    have hglance : glance book chain.current = _ := glance_of_fn hspine
    cases harity : g.arity? with
    | none =>
      rw [harity] at hglance
      cases args <;> (simp only [look, hspine, harity]; exact .fails hglance)
    | some arity =>
      rw [harity] at hglance
      dsimp only at hglance
      by_cases hlacks : args.length < arity
      · have hunheld : chain.current.isStuck = false := by
          simp only [Term.isStuck, Term.isStuckSpine, hspine, harity, decide_eq_false_iff_not]
          omega
        rw [if_pos hlacks] at hglance
        cases args <;> (simp only [look, hspine, harity, hlacks]; exact .rests hglance hunheld)
      · rw [if_neg hlacks] at hglance
        have hoperands : args.take arity = Law.operands g args := by
          rw [Law.operands, harity]
          rfl
        by_cases hspent : engine.Spent
        · have htick := Engine.tick_of_spent hspent g
          cases args <;>
            (simp only [look, hspine, harity, hlacks, htick]; exact .refuses hglance hspent)
        · have htick := Engine.tick_of_not_spent hspent g
          cases args <;>
            (simp only [look, hspine, harity, hlacks, htick, hoperands]
             exact .fires hglance hspent)
  | number n | bits text | picture points =>
    cases args with
    | nil =>
      have hunheld : chain.current.isStuck = false := by
        simp only [Term.isStuck, Term.isStuckSpine, hspine]
      simp only [look, hspine]
      exact .rests (by simp only [glance, hspine]) hunheld
    | cons arg args =>
      simp only [look, hspine]
      exact .fails (by simp only [glance, hspine])
  | mark m =>
    cases args <;> (simp only [look, hspine]; exact .fails (by simp only [glance, hspine]))

/-- Whether the application of a law is due: a term that the memo does not know has a function with
    all its operands at its head. A chain asks the memo about every term but its first. -/
def due (book : Book) (memo : Memo) : Machine → Bool
  | ⟨.chase chain, _⟩ =>
    match chain.earlier, memo.find? chain.current, glance book chain.current with
    | _ :: _, some _, _ => false
    | _, _, .fires _ _ => true
    | _, _, _ => false
  | _ => false

/-- Everything that one step can do. -/
inductive Turn (book : Book) (engine : Engine) : Machine → Step × Engine → Prop where
  | recalls {term w : Term} {stack : List Frame} (entry : engine.memo.find? term = some w) :
      Turn book engine ⟨.demand term, stack⟩
        (.running ⟨.give w, stack⟩, engine.report .cached)
  | begins {term : Term} {stack : List Frame} :
      Turn book engine ⟨.demand term, stack⟩
        (.running ⟨.chase ⟨engine.sends, term, []⟩, stack⟩, engine)
  | meets {chain : Chain} {w : Term} {stack : List Frame} (later : chain.earlier ≠ [])
      (entry : engine.memo.find? chain.current = some w) :
      Turn book engine ⟨.chase chain, stack⟩ (close engine chain w stack)
  | looks {chain : Chain} {stack : List Frame} {state : Step × Engine}
      (unknown : chain.earlier ≠ [] → engine.memo.find? chain.current = none)
      (sees : Sees book engine chain stack state) : Turn book engine ⟨.chase chain, stack⟩ state
  | ends {w : Term} : Turn book engine ⟨.give w, []⟩ (.finished w, engine)
  | unfolded {w : Term} {chain : Chain} {args : List Term} {stack : List Frame} :
      Turn book engine ⟨.give w, .unfold chain args :: stack⟩
        (.running ⟨.chase (chain.push (w.apply args)), stack⟩, engine)
  | hears {w : Term} {chain : Chain} {g : Fn} {args : List Term} {need : Law.Need}
      {stack : List Frame} :
      Turn book engine ⟨.give w, .law chain g args need :: stack⟩
        (obey engine chain g args stack (Law.onTerm g (Law.operands g args) need w))
  | forced {w : Term} {cells : List (Cell Term Term)} {stack : List Frame} :
      Turn book engine ⟨.give w, .force cells :: stack⟩ (rebuild engine cells w stack)

theorem step_turn (book : Book) (engine : Engine) (machine : Machine) :
    Turn book engine machine (step book engine machine) := by
  obtain ⟨control, stack⟩ := machine
  cases control with
  | demand term =>
    simp only [step]
    cases hfind : engine.memo.find? term with
    | some w => exact .recalls hfind
    | none => exact .begins
  | chase chain =>
    simp only [step]
    split
    · rename_i hearlier hfind
      exact .meets (by rw [hearlier]; exact List.cons_ne_nil _ _) hfind
    · rename_i hunknown
      refine .looks (fun hlater => ?_) (look_sees book engine chain stack)
      obtain ⟨term, terms, hearlier⟩ := List.exists_cons_of_ne_nil hlater
      exact Option.eq_none_iff_forall_ne_some.2 fun w => hunknown term terms w hearlier
  | give w =>
    cases stack with
    | nil => exact .ends
    | cons frame stack =>
      cases frame with
      | unfold chain args => exact .unfolded
      | law chain g args need => exact .hears
      | force cells => exact .forced

variable {book : Book} {engine : Engine}

theorem due_chase {memo : Memo} {chain : Chain} {stack : List Frame}
    (unknown : chain.earlier ≠ [] → memo.find? chain.current = none) :
    due book memo ⟨.chase chain, stack⟩ = true ↔
      ∃ g args, glance book chain.current = .fires g args := by
  unfold due
  dsimp only
  split
  · rename_i hearlier hfind
    have hnone := unknown (by rw [hearlier]; exact List.cons_ne_nil _ _)
    rw [hnone] at hfind
    cases hfind
  · rename_i hsees _
    exact iff_of_true rfl ⟨_, _, hsees⟩
  · rename_i hsees
    exact iff_of_false nofun fun ⟨g, args, hfires⟩ => hsees g args hfires

theorem due_of_entry {memo : Memo} {chain : Chain} {stack : List Frame} {w : Term}
    (later : chain.earlier ≠ []) (entry : memo.find? chain.current = some w) :
    due book memo ⟨.chase chain, stack⟩ = false := by
  obtain ⟨term, terms, hearlier⟩ := List.exists_cons_of_ne_nil later
  simp only [due, hearlier, entry]

end Machine

end SignalCalculus
