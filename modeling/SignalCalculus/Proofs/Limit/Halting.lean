import SignalCalculus.Proofs.Limit.Course
import SignalCalculus.Proofs.Limit.Desk
import SignalCalculus.Proofs.Limit.Rank

set_option autoImplicit false

/-!
# When a step limit makes evaluations halt

A step limit counts laws, and nothing else. Under a limit an evaluation halts if and only if it
never demands a term whose look-ups at the head go on without end, and the number of cells that are
open at once is bounded. Both ways of not halting occur with a book of one definition, and a third
with a memo that holds entries of another book.
-/

namespace SignalCalculus

namespace Point

variable {σ : Type} {book : Book} {link : Link σ} {point : Point σ}

theorem next_of_over (h : point.step.Over) : point.next book link = point := by
  obtain ⟨step, engine, state, laws⟩ := point
  cases step with
  | running machine => exact h.elim
  | sent bits suspended => exact h.elim
  | finished w => rfl
  | failed fault => rfl

theorem after_of_over (h : point.step.Over) (moves : Nat) :
    point.after book link moves = point := by
  induction moves with
  | zero => rfl
  | succ moves ih =>
    rw [after, ih]
    exact next_of_over h

/-- What is kept by every move, holds at some point and excludes the end excludes it throughout. -/
theorem never_over {P : Point σ → Prop} (hnext : ∀ point, P point → P (point.next book link))
    (hgoes : ∀ point, P point → ¬point.step.Over) (first : Nat)
    (h : P (point.after book link first)) (moves : Nat) :
    ¬(point.after book link moves).step.Over := by
  have hlater : ∀ more, P (point.after book link (first + more)) := by
    intro more
    induction more with
    | zero => exact h
    | succ more ih => exact hnext _ ih
  intro hover
  obtain hle | hle := Nat.le_total moves first
  · -- A course that had ended earlier would have stayed at its end.
    rw [after_of_le hle, after_of_over hover] at h
    exact hgoes _ h hover
  · obtain ⟨more, rfl⟩ := Nat.exists_eq_add_of_le hle
    exact hgoes _ (hlater more) hover

/-- The memo is sound, what the machine has under way is justified, and what frames are given has a
    settled head. -/
structure Fit (book : Book) (point : Point σ) : Prop where
  sound : point.engine.memo.Sound book
  justified : point.step.Justified book point.engine.sends
  heads : point.step.HeadsSettled book

theorem Fit.next (h : point.Fit book) : (point.next book link).Fit book := by
  obtain ⟨step, engine, state, laws⟩ := point
  obtain ⟨hs, hj, hheads⟩ := h
  cases step with
  | running machine =>
    have hholds := Machine.holds_limited_step hs hj
    exact ⟨hholds.sound, hholds.justified, Machine.headsSettled_step hs hheads⟩
  | sent bits suspended =>
    rcases hlink : link bits state with ⟨fault | reply, between⟩
    · simp only [Point.next, hlink]
      exact ⟨hs, trivial, trivial⟩
    · have hholds := Machine.holds_answer hs hj reply
      simp only [Point.next, hlink]
      exact ⟨hholds.sound, hholds.justified, Machine.headsSettled_obey hheads.1 hheads.2 ..⟩
  | finished w => exact ⟨hs, hj, hheads⟩
  | failed fault => exact ⟨hs, hj, hheads⟩

theorem Fit.after (h : point.Fit book) (moves : Nat) : (point.after book link moves).Fit book := by
  induction moves with
  | zero => exact h
  | succ moves ih => exact ih.next

theorem fit_outset {engine : Engine} {id : Nat} (hs : (engine.bind id).memo.Sound book)
    (term : Term) (state : σ) : (outset engine id term state).Fit book where
  sound := hs
  justified := Engine.justified_forcing book (engine.bind id).sends term
  heads := ⟨nofun, List.forall_mem_singleton.2 trivial⟩

def Demands (term : Term) (point : Point σ) : Prop :=
  ∃ stack, point.step = .running ⟨.demand term, stack⟩

theorem rank_next {most : Nat} (hfit : point.Fit book) (hlimit : 0 < point.engine.stepLimit)
    (hends : ∀ term, (point.next book link).Demands term → ¬Endless book term)
    (hopen : point.step.openCells ≤ most)
    (hopen' : (point.next book link).step.openCells ≤ most) (hgoes : ¬point.step.Over) :
    (point.next book link).step.Over ∨
      Step.rank book most ((point.next book link).step, (point.next book link).engine) <
        Step.rank book most (point.step, point.engine) := by
  obtain ⟨step, engine, state, laws⟩ := point
  cases step with
  | running machine =>
    exact Machine.rank_step hlimit hfit.heads (fun term stack hdemand => hends term ⟨stack, hdemand⟩)
      hopen hopen'
  | sent bits suspended =>
    rcases hlink : link bits state with ⟨fault | reply, between⟩
    · simp only [next, hlink]
      exact .inl trivial
    · simp only [next, hlink]
      exact Machine.rank_answer engine reply suspended bits
  | finished w => exact absurd trivial hgoes
  | failed fault => exact absurd trivial hgoes

/-- Since ranks are well founded, a course without endless look-ups and with boundedly many open
    cells comes to its end. -/
theorem exists_over {most : Nat} (hfit : point.Fit book) (hlimit : 0 < point.engine.stepLimit)
    (hends : ∀ moves term, (point.after book link moves).Demands term → ¬Endless book term)
    (hopen : ∀ moves, (point.after book link moves).step.openCells ≤ most) :
    ∃ moves, (point.after book link moves).step.Over := by
  induction hrank : Step.rank book most (point.step, point.engine) using WellFoundedLT.induction
    generalizing point with
  | ind rank ih =>
    subst hrank
    by_cases hover : point.step.Over
    · exact ⟨0, hover⟩
    · have hlater : ∀ moves, (point.next book link).after book link moves =
          point.after book link (moves + 1) := fun moves => (after_succ moves).symm
      obtain hover' | hless := rank_next hfit hlimit (hends 1) (hopen 0) (hopen 1) hover
      · exact ⟨1, hover'⟩
      · have hlimit' : 0 < (point.next book link).engine.stepLimit := by rwa [stepLimit_next]
        obtain ⟨moves, hend⟩ := ih _ hless hfit.next hlimit'
          (fun moves term => by rw [hlater]; exact hends (moves + 1) term)
          (fun moves => by rw [hlater]; exact hopen (moves + 1)) rfl
        exact ⟨moves + 1, by rwa [hlater] at hend⟩

def Descends (book : Book) (point : Point σ) : Prop :=
  (∃ term stack, point.step = .running ⟨.demand term, stack⟩ ∧ Endless book term) ∨
    ∃ chain stack, point.step = .running ⟨.chase chain, stack⟩ ∧ Endless book chain.current

/-- A sound memo has no entry for such a term, so each definition is demanded in turn. -/
theorem Descends.next (hfit : point.Fit book) (h : point.Descends book) :
    (point.next book link).Descends book := by
  obtain ⟨step, engine, state, laws⟩ := point
  have hunknown : ∀ term w, engine.memo.find? term = some w → ¬Endless book term :=
    fun term w hfind => (hfit.sound term w hfind).not_endless
  obtain ⟨term, stack, rfl, hendless⟩ | ⟨chain, stack, rfl, hendless⟩ := h
  · cases hfind : engine.memo.find? term with
    | some w => exact absurd hendless (hunknown term w hfind)
    | none =>
      right
      simp only [Point.next, Machine.step, hfind]
      exact ⟨_, _, rfl, hendless⟩
  · obtain ⟨bound, args, hglance, hbound⟩ := hendless.unfolds
    have hturn := Machine.step_turn book engine ⟨.chase chain, stack⟩
    have hdemands : (Machine.step book engine ⟨.chase chain, stack⟩).1 =
        .running ⟨.demand bound, .unfold chain args :: stack⟩ := by
      generalize Machine.step book engine ⟨.chase chain, stack⟩ = state at hturn
      cases hturn with
      | meets later entry => exact absurd hendless (hunknown _ _ entry)
      | looks unknown sees =>
        cases sees with
        | free spine unbound =>
          rw [glance_of_var spine, unbound] at hglance
          cases hglance
        | unfolds sees =>
          rw [hglance] at sees
          cases sees
          rfl
        | rests sees | fails sees | refuses sees | fires sees =>
          rw [hglance] at sees
          cases sees
    exact .inl ⟨bound, _, hdemands, hbound⟩

theorem Descends.not_over (h : point.Descends book) : ¬point.step.Over := by
  obtain ⟨term, stack, hstep, -⟩ | ⟨chain, stack, hstep, -⟩ := h
  · rw [hstep]
    exact id
  · rw [hstep]
    exact id

theorem Descends.never_over (hfit : point.Fit book) (first : Nat)
    (h : (point.after book link first).Descends book) (moves : Nat) :
    ¬(point.after book link moves).step.Over := by
  have hnext : ∀ point : Point σ, point.Fit book ∧ point.Descends book →
      (point.next book link).Fit book ∧ (point.next book link).Descends book :=
    fun point hpoint => ⟨hpoint.1.next, hpoint.2.next hpoint.1⟩
  exact Point.never_over hnext (fun point hpoint => hpoint.2.not_over) first
    ⟨hfit.after first, h⟩ moves

theorem openCells_bounded {last : Nat} (h : (point.after book link last).step.Over) :
    ∃ most, ∀ moves, (point.after book link moves).step.openCells ≤ most := by
  let cells := fun moves => (point.after book link moves).step.openCells
  refine ⟨(Finset.range (last + 1)).sup cells, fun moves => ?_⟩
  obtain hle | hle := Nat.le_total moves last
  · exact Finset.le_sup (f := cells) (Finset.mem_range.2 (by omega))
  · rw [after_of_le hle, after_of_over h]
    exact Finset.le_sup (f := cells) (Finset.mem_range.2 (Nat.lt_succ_self last))

end Point

theorem Step.Over.exists_ofResult {step : Step} (h : step.Over) :
    ∃ result, step = .ofResult result := by
  cases step with
  | running machine => exact h.elim
  | sent bits suspended => exact h.elim
  | finished w => exact ⟨.ok w, rfl⟩
  | failed fault => exact ⟨.error fault, rfl⟩

theorem Engine.eval_halts_iff {σ : Type} {engine : Engine} {id : Nat} {book : Book} {link : Link σ}
    {state : σ} {term : Term} :
    (∃ fuel result, engine.eval id book fuel link state (some term) = some result) ↔
      ∃ moves, ((Point.outset engine id term state).after book link moves).step.Over := by
  constructor
  · rintro ⟨fuel, ⟨result, engine', state'⟩, heval⟩
    obtain ⟨moves, laws, hend⟩ := eval_iff_course.1 ⟨fuel, heval⟩
    refine ⟨moves, ?_⟩
    rw [hend]
    cases result <;> trivial
  · rintro ⟨moves, hover⟩
    generalize hend : (Point.outset engine id term state).after book link moves = point at hover
    obtain ⟨step, engine', state', laws⟩ := point
    obtain ⟨result, rfl⟩ := hover.exists_ofResult
    obtain ⟨fuel, heval⟩ := eval_iff_course.2 ⟨moves, laws, hend⟩
    exact ⟨fuel, _, heval⟩

theorem Engine.eval_eq_none {σ : Type} {engine : Engine} {id : Nat} {book : Book} {link : Link σ}
    {state : σ} {term : Term}
    (h : ∀ moves, ¬((Point.outset engine id term state).after book link moves).step.Over)
    (fuel : Nat) : engine.eval id book fuel link state (some term) = none := by
  refine Option.eq_none_iff_forall_ne_some.2 fun result heval => ?_
  obtain ⟨moves, hover⟩ := eval_halts_iff.1 ⟨fuel, result, heval⟩
  exact h moves hover

namespace Desk

/-- With a positive step limit, and whatever harmless operations came before, a query halts if and
    only if its evaluation never demands a term whose look-ups at the head go on without end, and
    the number of cells that are open at once is bounded. -/
theorem limited_query_halts_iff {books : Nat → Book} {desk : Desk} (h : desk.Arises books)
    (hlimit : 0 < desk.engine.stepLimit) (id : Nat) (query : Option Term) {σ : Type}
    (link : Link σ) (state : σ) :
    (∃ fuel result, desk.engine.eval id (books id) fuel link state query = some result) ↔
      ∀ term, query = some term →
        let course := fun moves =>
          (Point.outset desk.engine id term state).after (books id) link moves
        (∀ moves demanded, (course moves).Demands demanded → ¬Endless (books id) demanded) ∧
          ∃ most, ∀ moves, (course moves).step.openCells ≤ most := by
  cases query with
  | none => exact ⟨fun _ => nofun, fun _ => ⟨0, _, rfl⟩⟩
  | some term =>
    have hfit := Point.fit_outset (h.sound.valid.bound_unlimited id) term state
    have hlimit' : 0 < (Point.outset desk.engine id term state).engine.stepLimit := by
      rwa [Point.stepLimit_outset]
    rw [Engine.eval_halts_iff]
    constructor
    · rintro ⟨last, hover⟩ term' ⟨⟩ course
      refine ⟨fun moves demanded hdemands hendless => ?_, Point.openCells_bounded hover⟩
      obtain ⟨stack, hstep⟩ := hdemands
      exact Point.Descends.never_over hfit moves (.inl ⟨demanded, stack, hstep, hendless⟩) last hover
    · intro hcourse
      obtain ⟨hends, most, hopen⟩ := hcourse term rfl
      exact Point.exists_over hfit hlimit' hends hopen

def defining (id : Int) (term : Term) : Book :=
  ({} : Book).record [.var id] term.symbols (some (id, term))

def varOne : Term := .atom (.var 1)

def incOne : Term := .app (.fn .inc) varOne

def nilReplies : Link (List (List Char)) := Link.ofPeer fun _ => .ok ['0', '0']

/-- If a variable is its own successor, a limit of three laws ends the query after all: every second
    term that is demanded has a function at its head, and no cell is opened. -/
theorem incOne_halts :
    Arises (fun _ => defining 1 incOne) (limited 3 0 {}) ∧ 0 < (limited 3 0 {}).engine.stepLimit ∧
    ∀ term, some varOne = some term →
      let course := fun moves => (Point.outset (limited 3 0 {}).engine 0 term []).after
        (defining 1 incOne) nilReplies moves
      (∀ moves demanded, (course moves).Demands demanded →
          ¬Endless (defining 1 incOne) demanded) ∧
        ∃ most, ∀ moves, (course moves).step.openCells ≤ most := by
  have harises : Arises (fun _ => defining 1 incOne) (limited 3 0 {}) := ⟨3, 0, {}, [], [], .nil _⟩
  have hhalts : ((limited 3 0 {}).engine.eval 0 (defining 1 incOne) 20 nilReplies []
      (some varOne)).isSome = true := by cbv
  obtain ⟨result, heval⟩ := Option.isSome_iff_exists.1 hhalts
  exact ⟨harises, by decide,
    (limited_query_halts_iff harises (by decide) 0 _ nilReplies []).1 ⟨20, result, heval⟩⟩

theorem endless_varOne : Endless (defining 1 varOne) varOne := by
  intro n
  induction n with
  | zero => trivial
  | succ n ih => exact ⟨varOne, [], rfl, ih⟩

def zeroCell : Term := .cell (.num 0) varOne

def Unrolls {σ : Type} (point : Point σ) : Prop :=
  point.engine.memo.find? varOne = some zeroCell ∧
  point.engine.memo.find? (.num 0) = some (.num 0) ∧ ∃ cells,
    (point.step = .running ⟨.demand varOne, [.force cells]⟩ ∨
      point.step = .running ⟨.give zeroCell, [.force cells]⟩) ∨
    point.step = .running ⟨.demand (.num 0), [.force (.left varOne :: cells)]⟩ ∨
      point.step = .running ⟨.give (.num 0), [.force (.left varOne :: cells)]⟩

theorem Unrolls.next {σ : Type} {book : Book} {link : Link σ} {point : Point σ} (h : Unrolls point) :
    Unrolls (point.next book link) := by
  obtain ⟨step, engine, state, laws⟩ := point
  obtain ⟨hone, hzero, cells, (rfl | rfl) | rfl | rfl⟩ := h
  · simp only [Point.next, Machine.step, hone]
    exact ⟨hone, hzero, cells, .inl (.inr rfl)⟩
  · exact ⟨hone, hzero, cells, .inr (.inl rfl)⟩
  · simp only [Point.next, Machine.step, hzero]
    exact ⟨hone, hzero, cells, .inr (.inr rfl)⟩
  · exact ⟨hone, hzero, .right (.num 0) :: cells, .inl (.inl rfl)⟩

theorem Unrolls.not_over {σ : Type} {point : Point σ} (h : Unrolls point) : ¬point.step.Over := by
  obtain ⟨-, -, cells, (hstep | hstep) | hstep | hstep⟩ := h
  all_goals
    rw [hstep]
    exact id

def varTwo : Term := .atom (.var 2)

def crossed : Nat → Book
  | 0 => defining 1 varTwo
  | _ => (defining 1 (.fn .i)).record [.var 2] varOne.symbols (some (2, varOne))

def twoOfFive : Term := .app varTwo (.num 5)

def Circles {σ : Type} (point : Point σ) : Prop :=
  point.engine.memo.find? varOne = some varTwo ∧ point.engine.memo.find? twoOfFive = none ∧
  ∃ chain stack, chain.current = twoOfFive ∧
    (point.step = .running ⟨.chase chain, stack⟩ ∨
      point.step = .running ⟨.demand varOne, .unfold chain [.num 5] :: stack⟩ ∨
      point.step = .running ⟨.give varTwo, .unfold chain [.num 5] :: stack⟩)

theorem Circles.next {σ : Type} {link : Link σ} {point : Point σ} (h : Circles point) :
    Circles (point.next (crossed 1) link) := by
  obtain ⟨step, engine, state, laws⟩ := point
  obtain ⟨hone, hunknown, ⟨sends, current, earlier⟩, stack, rfl, rfl | rfl | rfl⟩ := h
  · have hlooks : Machine.step (crossed 1) engine ⟨.chase ⟨sends, twoOfFive, earlier⟩, stack⟩ =
        (.running ⟨.demand varOne, .unfold ⟨sends, twoOfFive, earlier⟩ [.num 5] :: stack⟩,
          engine) := by
      simp only [Machine.step, hunknown]
      rfl
    simp only [Point.next, hlooks]
    exact ⟨hone, hunknown, _, stack, rfl, .inr (.inl rfl)⟩
  · simp only [Point.next, Machine.step, hone]
    exact ⟨hone, hunknown, _, stack, rfl, .inr (.inr rfl)⟩
  · exact ⟨hone, hunknown, _, stack, rfl, .inl rfl⟩

theorem Circles.not_over {σ : Type} {point : Point σ} (h : Circles point) : ¬point.step.Over := by
  obtain ⟨-, -, chain, stack, -, hstep | hstep | hstep⟩ := h
  all_goals
    rw [hstep]
    exact id

/-- Under a limit of one law three queries never halt, though no law is ever due: for a variable
    that is its own definition, for one that is a cell with itself, and, after a reduction was run
    while the engine was bound to another book, for one that the memo and the book send back and
    forth. -/
theorem limited_queries_never_halt :
    (∀ fuel, (limited 1 0 {}).engine.eval 0 (defining 1 varOne) fuel nilReplies []
      (some varOne) = none) ∧
    (∀ fuel, (limited 1 0 {}).engine.eval 0 (defining 1 zeroCell) fuel nilReplies []
      (some varOne) = none) ∧
    ∃ answers desk, History (perform crossed) (fun _ _ => True) (limited 1 0 {})
        [.start 0 (some varOne), .start 1 (some varOne), .advance 0] answers desk ∧
      desk.engine.stepLimit = 1 ∧
      ∀ fuel, desk.engine.eval 1 (crossed 1) fuel nilReplies [] (some twoOfFive) = none := by
  refine ⟨Engine.eval_eq_none fun moves => ?_, Engine.eval_eq_none fun moves => ?_, ?_⟩
  · have hfit : Point.Fit (defining 1 varOne)
        (Point.outset (limited 1 0 {}).engine 0 varOne ([] : List (List Char))) :=
      Point.fit_outset (Memo.sound_empty _) varOne []
    exact Point.Descends.never_over hfit 0 (.inl ⟨varOne, _, rfl, endless_varOne⟩) moves
  · have hunrolls : Unrolls ((Point.outset (limited 1 0 {}).engine 0 varOne []).after
        (defining 1 zeroCell) nilReplies 9) :=
      ⟨by cbv, by cbv, [], .inr (.inr (by cbv))⟩
    exact Point.never_over (P := Unrolls) (fun _ h => h.next) (fun _ h => h.not_over) 9 hunrolls moves
  · have hruns : ((((limited 1 0 {}).perform crossed 0 (.start 0 (some varOne))).bind
        fun done => done.2.perform crossed 0 (.start 1 (some varOne))).bind
          fun done => done.2.perform crossed 20 (.advance 0)).map
            (fun done => (done.2.engine.stepLimit, (done.2.engine.bind 1).memo.find? varOne,
              (done.2.engine.bind 1).memo.find? twoOfFive)) = some (1, some varTwo, none) := by cbv
    obtain ⟨⟨advanced, desk⟩, hruns, hdesk⟩ := Option.map_eq_some_iff.1 hruns
    obtain ⟨⟨second, between⟩, hruns, hadvance⟩ := Option.bind_eq_some_iff.1 hruns
    obtain ⟨⟨first, started⟩, hstart, hsecond⟩ := Option.bind_eq_some_iff.1 hruns
    simp only [Prod.mk.injEq] at hdesk
    obtain ⟨hlimit, hone, hunknown⟩ := hdesk
    refine ⟨_, desk, .cons 0 trivial hstart (.cons 0 trivial hsecond
      (.cons 20 trivial hadvance (.nil desk))), hlimit, Engine.eval_eq_none fun moves => ?_⟩
    have hcircles : Circles ((Point.outset desk.engine 1 twoOfFive []).after (crossed 1)
        nilReplies 1) := by
      simp only [Point.after, Point.outset, Point.next, Machine.forcing, Machine.step, hunknown]
      exact ⟨hone, hunknown, _, _, rfl, .inl rfl⟩
    exact Point.never_over (P := Circles) (fun _ h => h.next) (fun _ h => h.not_over) 1 hcircles moves

end Desk

end SignalCalculus
