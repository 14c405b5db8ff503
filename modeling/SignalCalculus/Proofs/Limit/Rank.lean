import Mathlib
import SignalCalculus.Proofs.Direct.Heads
import SignalCalculus.Proofs.Law.Needs
import SignalCalculus.Proofs.Limit.Counting

set_option autoImplicit false

/-!
# What the moves of an evaluation use up

Under a step limit, every move of an evaluation uses something up. A move that applies a law uses
up one of the laws that the limit allows. Every other move lets a law go on with what it waited for,
takes in a part of a value whose cells are open, or follows the variable at the head of a term. The
rank of a point counts what is left of these, the laws first. It gets smaller with every move, as
long as no more than so many cells are open and look-ups at heads come to an end.
-/

namespace SignalCalculus

section Cells

variable {ρ α : Type}

/-- How many terms are demanded at most for a part of a value that has room for so many cells. -/
def visits : Nat → Nat
  | 0 => 0
  | room + 1 => 2 * visits room + 1

def visitsPutOff (most : Nat) : List (Cell ρ α) → Nat
  | [] => 0
  | .left _ :: cells => visits (most - cells.length) + visitsPutOff most cells
  | .right _ :: cells => visitsPutOff most cells

/-- How many terms are demanded at most for a value inside these cells, with the next one. -/
def visitsInside (most : Nat) (cells : List (Cell ρ α)) : Nat :=
  visits (most + 1 - cells.length) + visitsPutOff most cells

theorem visits_pos {room : Nat} (h : 0 < room) : 0 < visits room := by
  cases room with
  | zero => omega
  | succ room => exact Nat.succ_pos _

theorem visitsInside_opens {most : Nat} {cells : List (Cell ρ α)} (right : ρ)
    (h : cells.length < most) :
    visitsInside most (.left right :: cells) < visitsInside most cells := by
  have hroom : most + 1 - cells.length = (most - cells.length) + 1 := by omega
  have hinner : most + 1 - (cells.length + 1) = most - cells.length := by omega
  simp only [visitsInside, visitsPutOff, List.length_cons, hroom, hinner, visits]
  omega

theorem visitsInside_place (most : Nat) {pair : α → α → α} {cells cells' : List (Cell ρ α)}
    {made : α} {right : ρ} (h : place pair cells made = .next right cells') :
    visitsInside most cells' = visitsPutOff most cells := by
  induction cells generalizing made with
  | nil => cases h
  | cons cell cells ih =>
    cases cell with
    | left rest =>
      cases h
      have hinner : most + 1 - (cells.length + 1) = most - cells.length := by omega
      simp only [visitsInside, visitsPutOff, List.length_cons, hinner]
    | right first => exact ih h

theorem visitsInside_fills {most : Nat} {pair : α → α → α} {cells cells' : List (Cell ρ α)}
    {made : α} {right : ρ} (h : cells.length ≤ most)
    (hplace : place pair cells made = .next right cells') :
    visitsInside most cells' < visitsInside most cells := by
  rw [visitsInside_place most hplace]
  have hpos : 0 < visits (most + 1 - cells.length) := visits_pos (by omega)
  unfold visitsInside
  omega

end Cells

def Law.Need.visitsLeft (most : Nat) : Law.Need → Nat
  | .operand => visits (most + 1) + 1
  | .second _ => 0
  | .part cells => visitsInside most cells

def Law.Need.openCells : Law.Need → Nat
  | .part cells => cells.length
  | _ => 0

theorem Law.Need.Advances.visitsLeft_lt {most : Nat} {need need' : Law.Need}
    (h : need.Advances need') (hopen : need.openCells ≤ most) (hopen' : need'.openCells ≤ most) :
    need'.visitsLeft most < need.visitsLeft most := by
  cases h with
  | second first => exact Nat.succ_pos _
  | parts => exact Nat.lt_succ_self _
  | opens right cells => exact visitsInside_opens right hopen'
  | fills placed => exact visitsInside_fills hopen placed

namespace Frame

def openCells : Frame → Nat
  | .unfold _ _ => 0
  | .law _ _ _ need => need.openCells
  | .force cells => cells.length

/-- Frames that wait for a definition weigh nothing, all others the same. -/
def weight : Frame → Nat
  | .unfold _ _ => 0
  | .law _ _ _ _ | .force _ => 2

end Frame

def Step.openCells : Step → Nat
  | .running machine => (machine.stack.map Frame.openCells).sum
  | .sent _ suspended => (suspended.stack.map Frame.openCells).sum
  | .finished _ | .failed _ => 0

def stackWeight (stack : List Frame) : Nat := (stack.map Frame.weight).sum

theorem stackWeight_unfold (chain : Chain) (args : List Term) (stack : List Frame) :
    stackWeight (.unfold chain args :: stack) = stackWeight stack := Nat.zero_add _

theorem stackWeight_law (chain : Chain) (g : Fn) (args : List Term) (need : Law.Need)
    (stack : List Frame) :
    stackWeight (.law chain g args need :: stack) = stackWeight stack + 2 := Nat.add_comm _ _

theorem stackWeight_force (cells : List (Cell Term Term)) (stack : List Frame) :
    stackWeight (.force cells :: stack) = stackWeight stack + 2 := Nat.add_comm _ _

def stackVisits (most : Nat) : List Frame → Nat
  | [] => 0
  | .unfold _ _ :: stack => stackVisits most stack
  | .law _ _ _ need :: _ => need.visitsLeft most
  | .force cells :: _ => visitsInside most cells

def unfoldings : List Frame → Nat
  | .unfold _ _ :: stack => unfoldings stack + 1
  | _ => 0

/-- How far a machine is from giving an answer to the innermost frame that waits for more than a
    definition, if no law is due before. -/
noncomputable def Machine.distance (book : Book) : Machine → Nat
  | ⟨.demand term, stack⟩ => 4 * lookUps book term + 2 * unfoldings stack + 2
  | ⟨.chase chain, stack⟩ => 4 * lookUps book chain.current + 2 * unfoldings stack + 1
  | ⟨.give _, stack⟩ => 2 * unfoldings stack

def Engine.lawsLeft (engine : Engine) : Nat := engine.stepLimit.toNat - engine.steps

abbrev Rank := ℕ ×ₗ ℕ ×ₗ ℕ ×ₗ ℕ

namespace Rank

def of (laws weight visits distance : Nat) : Rank :=
  toLex (laws, toLex (weight, toLex (visits, distance)))

variable {laws laws' weight weight' visits visits' distance distance' : Nat}

theorem lt_of_laws (h : laws' < laws) :
    of laws' weight' visits' distance' < of laws weight visits distance :=
  Prod.Lex.toLex_lt_toLex.2 (.inl h)

theorem lt_of_weight (h : weight' < weight) :
    of laws weight' visits' distance' < of laws weight visits distance :=
  Prod.Lex.toLex_lt_toLex.2 (.inr ⟨rfl, Prod.Lex.toLex_lt_toLex.2 (.inl h)⟩)

theorem lt_of_visits (h : visits' < visits) :
    of laws weight visits' distance' < of laws weight visits distance :=
  Prod.Lex.toLex_lt_toLex.2 (.inr ⟨rfl, Prod.Lex.toLex_lt_toLex.2 (.inr
    ⟨rfl, Prod.Lex.toLex_lt_toLex.2 (.inl h)⟩)⟩)

theorem lt_of_distance (h : distance' < distance) :
    of laws weight visits distance' < of laws weight visits distance :=
  Prod.Lex.toLex_lt_toLex.2 (.inr ⟨rfl, Prod.Lex.toLex_lt_toLex.2 (.inr
    ⟨rfl, Prod.Lex.toLex_lt_toLex.2 (.inr ⟨rfl, h⟩)⟩)⟩)

end Rank

/-- What is left for the moves of an evaluation, if no more than `most` cells are ever open. -/
noncomputable def Step.rank (book : Book) (most : Nat) (state : Step × Engine) : Rank :=
  match state.1 with
  | .running machine =>
    .of state.2.lawsLeft (stackWeight machine.stack) (stackVisits most machine.stack)
      (machine.distance book)
  | .sent _ suspended => .of state.2.lawsLeft (stackWeight suspended.stack + 1) 0 0
  | .finished _ | .failed _ => .of 0 0 0 0

def Step.Over : Step → Prop
  | .finished _ | .failed _ => True
  | .running _ | .sent _ _ => False

def Frame.HeadSettled (book : Book) : Frame → Prop
  | .law chain _ _ _ => Settled book chain.current
  | .unfold _ _ | .force _ => True

structure Machine.HeadsSettled (book : Book) (machine : Machine) : Prop where
  given : ∀ w, machine.control = .give w → Settled book w
  frames : ∀ frame ∈ machine.stack, frame.HeadSettled book

def Step.HeadsSettled (book : Book) : Step → Prop
  | .running machine => machine.HeadsSettled book
  | .sent _ suspended => Settled book suspended.chain.current ∧
      ∀ frame ∈ suspended.stack, frame.HeadSettled book
  | .finished _ | .failed _ => True

namespace Machine

variable {book : Book} {engine : Engine} {chain : Chain} {stack : List Frame}

theorem headsSettled_close {result : Term} (hresult : Settled book result)
    (hstack : ∀ frame ∈ stack, frame.HeadSettled book) :
    (close engine chain result stack).1.HeadsSettled book := by
  refine ⟨fun w hgive => ?_, hstack⟩
  cases hgive
  exact hresult

theorem headsSettled_obey (hcurrent : Settled book chain.current)
    (hstack : ∀ frame ∈ stack, frame.HeadSettled book) (g : Fn) (args : List Term)
    (verdict : Law.Verdict) :
    (obey engine chain g args stack verdict).1.HeadsSettled book := by
  cases verdict with
  | becomes term => exact ⟨nofun, hstack⟩
  | stuck => exact headsSettled_close hcurrent hstack
  | fails fault => trivial
  | needs need term => exact ⟨nofun, List.forall_mem_cons.2 ⟨hcurrent, hstack⟩⟩
  | sends bits => exact ⟨hcurrent, hstack⟩

theorem settled_place {cells : List (Cell Term Term)} {w term : Term}
    (hplace : place Term.cell cells w = .whole term) (hw : Settled book w) :
    Settled book term := by
  induction cells generalizing w with
  | nil =>
    cases hplace
    exact hw
  | cons cell cells ih =>
    cases cell with
    | left right => cases hplace
    | right first => exact ih hplace (.rests rfl)

theorem headsSettled_rebuild {w : Term} (hw : Settled book w)
    (hstack : ∀ frame ∈ stack, frame.HeadSettled book) (cells : List (Cell Term Term)) :
    (rebuild engine cells w stack).1.HeadsSettled book := by
  unfold rebuild
  split
  · exact ⟨nofun, List.forall_mem_cons.2 ⟨trivial, hstack⟩⟩
  · split
    · rename_i hplace
      refine ⟨fun v hgive => ?_, hstack⟩
      cases hgive
      exact settled_place hplace hw
    · exact ⟨nofun, List.forall_mem_cons.2 ⟨trivial, hstack⟩⟩

theorem headsSettled_step {machine : Machine} (hs : engine.memo.Sound book)
    (h : machine.HeadsSettled book) : (step book engine machine).1.HeadsSettled book := by
  have hturn := step_turn book engine machine
  obtain ⟨hgiven, hframes⟩ := h
  generalize step book engine machine = state at hturn
  cases hturn with
  | recalls entry =>
    refine ⟨fun w hgive => ?_, hframes⟩
    cases hgive
    exact (hs _ _ entry).settled
  | begins => exact ⟨nofun, hframes⟩
  | meets later entry => exact headsSettled_close (hs _ _ entry).settled hframes
  | looks unknown sees =>
    cases sees with
    | free spine unbound =>
      refine headsSettled_close (.rests ?_) hframes
      rw [glance_of_var spine, unbound]
    | rests sees unheld => exact headsSettled_close (.rests sees) hframes
    | fails sees => trivial
    | unfolds sees => exact ⟨nofun, List.forall_mem_cons.2 ⟨trivial, hframes⟩⟩
    | refuses sees spent => trivial
    | fires sees room => exact headsSettled_obey (.fires sees) hframes ..
  | ends => trivial
  | unfolded => exact ⟨nofun, (List.forall_mem_cons.1 hframes).2⟩
  | hears =>
    obtain ⟨hcurrent, hstack⟩ := List.forall_mem_cons.1 hframes
    exact headsSettled_obey hcurrent hstack ..
  | forced => exact headsSettled_rebuild (hgiven _ rfl) (List.forall_mem_cons.1 hframes).2 _

end Machine

section Decrease

variable {book : Book} {engine : Engine} {most : Nat} {chain : Chain} {stack : List Frame}

theorem Engine.lawsLeft_settle (engine : Engine) (chain : Chain) (result : Term) :
    (engine.settle chain result).lawsLeft = engine.lawsLeft := by
  unfold Engine.settle
  split <;> rfl

theorem Engine.lawsLeft_charged (hlimit : 0 < engine.stepLimit) (hroom : ¬engine.Spent) :
    engine.charged.lawsLeft < engine.lawsLeft := by
  have hcharged : engine.charged.lawsLeft = engine.stepLimit.toNat - (engine.steps + 1) := rfl
  unfold Engine.Spent at hroom
  rw [hcharged, Engine.lawsLeft]
  omega

theorem Machine.lawsLeft_obey (engine : Engine) (chain : Chain) (g : Fn) (args : List Term)
    (stack : List Frame) (verdict : Law.Verdict) :
    (obey engine chain g args stack verdict).2.lawsLeft = engine.lawsLeft := by
  unfold Engine.lawsLeft
  rw [steps_obey, (obey_accounts ..).stepLimit]

/-- A step that leaves fewer laws makes the rank smaller, whatever else it does. -/
theorem Step.rank_lt_of_lawsLeft {state : Step × Engine} {laws weight visits distance : Nat}
    (h : state.2.lawsLeft < laws) :
    state.1.Over ∨ Step.rank book most state < .of laws weight visits distance := by
  obtain ⟨step, engine⟩ := state
  cases step with
  | running machine => exact .inr (Rank.lt_of_laws h)
  | sent bits suspended => exact .inr (Rank.lt_of_laws h)
  | finished w => exact .inl trivial
  | failed fault => exact .inl trivial

theorem Machine.rank_close (engine : Engine) (chain : Chain) (result : Term) (stack : List Frame) :
    Step.rank book most (close engine chain result stack) =
      .of engine.lawsLeft (stackWeight stack) (stackVisits most stack) (2 * unfoldings stack) := by
  rw [← engine.lawsLeft_settle chain result]
  rfl

theorem Machine.rank_close_lt (engine : Engine) (chain : Chain) (result : Term)
    (stack : List Frame) :
    Step.rank book most (close engine chain result stack) <
      Step.rank book most (.running ⟨.chase chain, stack⟩, engine) := by
  rw [rank_close]
  exact Rank.lt_of_distance (by simp only [distance]; omega)

theorem Machine.rank_hears {w : Term} {g : Fn} {args : List Term} {need : Law.Need} {rank : Nat}
    (hopen : need.openCells ≤ most)
    (hopen' : (obey engine chain g args stack
      (Law.onTerm g (Law.operands g args) need w)).1.openCells ≤ most) :
    (obey engine chain g args stack (Law.onTerm g (Law.operands g args) need w)).1.Over ∨
      Step.rank book most
          (obey engine chain g args stack (Law.onTerm g (Law.operands g args) need w)) <
        .of engine.lawsLeft (stackWeight stack + 2) (need.visitsLeft most) rank := by
  have hless : stackWeight stack < stackWeight stack + 2 := by omega
  cases hverdict : Law.onTerm g (Law.operands g args) need w with
  | becomes term => exact .inr (Rank.lt_of_weight hless)
  | stuck =>
    right
    rw [obey, rank_close]
    exact Rank.lt_of_weight hless
  | fails fault => exact .inl trivial
  | needs need' term =>
    rw [hverdict] at hopen'
    have hcells : (need'.openCells + (stack.map Frame.openCells).sum) ≤ most := hopen'
    have hvisits := (Law.onTerm_needs hverdict).visitsLeft_lt hopen (by omega)
    right
    change Rank.of engine.lawsLeft (stackWeight (.law chain g args need' :: stack))
      (need'.visitsLeft most) _ < _
    rw [stackWeight_law]
    exact Rank.lt_of_visits hvisits
  | sends bits => exact .inr (Rank.lt_of_weight (Nat.lt_succ_self _))

theorem Machine.rank_rebuild {cells : List (Cell Term Term)} {w : Term} {rank : Nat}
    (hopen : cells.length ≤ most) (hopen' : (rebuild engine cells w stack).1.openCells ≤ most) :
    Step.rank book most (rebuild engine cells w stack) <
      .of engine.lawsLeft (stackWeight stack + 2) (visitsInside most cells) rank := by
  have hless : stackWeight stack < stackWeight stack + 2 := by omega
  unfold rebuild at hopen' ⊢
  split
  · rename_i left right hcell
    rw [hcell] at hopen'
    have hcells : cells.length + 1 + (stack.map Frame.openCells).sum ≤ most := hopen'
    change Rank.of engine.lawsLeft (stackWeight (.force (.left right :: cells) :: stack))
      (visitsInside most (.left right :: cells)) _ < _
    rw [stackWeight_force]
    exact Rank.lt_of_visits (visitsInside_opens right (by omega))
  · split
    · exact Rank.lt_of_weight hless
    · rename_i right cells' hplace
      change Rank.of engine.lawsLeft (stackWeight (.force cells' :: stack))
        (visitsInside most cells') _ < _
      rw [stackWeight_force]
      exact Rank.lt_of_visits (visitsInside_fills hopen hplace)

/-- Every step makes the rank smaller or is the last one, if the term that it demands has no endless
    look-ups at its head and no more than `most` cells are open before and after it. -/
theorem Machine.rank_step {machine : Machine} (hlimit : 0 < engine.stepLimit)
    (hsettled : machine.HeadsSettled book)
    (hends : ∀ term stack, (step book engine machine).1 = .running ⟨.demand term, stack⟩ →
      ¬Endless book term)
    (hopen : (Step.running machine).openCells ≤ most)
    (hopen' : (step book engine machine).1.openCells ≤ most) :
    (step book engine machine).1.Over ∨
      Step.rank book most (step book engine machine) <
        Step.rank book most (.running machine, engine) := by
  have hturn := step_turn book engine machine
  generalize step book engine machine = state at hturn hends hopen'
  -- A turn that applies no law and leaves the frames that wait as they are comes nearer to giving
  -- an answer.
  cases hturn with
  | recalls entry => exact .inr (Rank.lt_of_distance (by simp only [distance]; omega))
  | begins => exact .inr (Rank.lt_of_distance (by simp only [distance]; omega))
  | meets later entry => exact .inr (rank_close_lt ..)
  | @looks chain stack state unknown sees =>
    cases sees with
    | free spine unbound => exact .inr (rank_close_lt (engine.report _) chain _ stack)
    | rests sees unheld => exact .inr (rank_close_lt ..)
    | fails sees => exact .inl trivial
    | @unfolds bound args sees =>
      have hfewer := lookUps_lt sees (hends bound _ rfl)
      right
      change Rank.of engine.lawsLeft (stackWeight (.unfold chain args :: stack))
        (stackVisits most stack) _ < _
      rw [stackWeight_unfold]
      exact Rank.lt_of_distance (by simp only [distance, unfoldings]; omega)
    | refuses sees spent => exact .inl trivial
    | fires sees room =>
      refine Step.rank_lt_of_lawsLeft ?_
      rw [lawsLeft_obey]
      exact Engine.lawsLeft_charged hlimit room
  | ends => exact .inl trivial
  | @unfolded w chain args stack =>
    have hnone : lookUps book (w.apply args) = 0 :=
      lookUps_eq_zero fun _ _ => (hsettled.given w rfl).apply_not_unfolds args
    right
    change _ < Rank.of engine.lawsLeft (stackWeight (.unfold chain args :: stack))
      (stackVisits most stack) _
    rw [stackWeight_unfold]
    exact Rank.lt_of_distance (by simp only [distance, unfoldings, Chain.push, hnone]; omega)
  | @hears w chain g args need stack =>
    have hcells : need.openCells + (stack.map Frame.openCells).sum ≤ most := hopen
    change _ ∨ _ < Rank.of engine.lawsLeft (stackWeight (.law chain g args need :: stack))
      (need.visitsLeft most) _
    rw [stackWeight_law]
    exact rank_hears (by omega) hopen'
  | @forced w cells stack =>
    have hcells : cells.length + (stack.map Frame.openCells).sum ≤ most := hopen
    right
    change _ < Rank.of engine.lawsLeft (stackWeight (.force cells :: stack))
      (visitsInside most cells) _
    rw [stackWeight_force]
    exact rank_rebuild (by omega) hopen'

theorem Machine.rank_answer (engine : Engine) (reply : List Char) (suspended : Suspended)
    (bits : List Char) :
    (answer engine reply suspended).1.Over ∨
      Step.rank book most (answer engine reply suspended) <
        Step.rank book most (.sent bits suspended, engine) := by
  unfold answer Law.onReply
  split
  · exact .inr (Rank.lt_of_weight (Nat.lt_succ_self _))
  · exact .inl trivial

end Decrease

end SignalCalculus
