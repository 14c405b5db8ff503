import SignalCalculus.Proofs.Machine.Contents
import SignalCalculus.Proofs.Machine.Reports

set_option autoImplicit false

namespace SignalCalculus

def Symbol.BoundIn (book : Book) : Symbol → Prop
  | .var id => book.resolve id ≠ none
  | _ => True

namespace Term

def leaves : Term → List Term
  | .app (.app (.atom (.fn .cons)) left) right => left.leaves ++ right.leaves
  | .app (.app (.atom (.fn .vec)) left) right => left.leaves ++ right.leaves
  | w => [w]

theorem leaves_of_cell?_eq_none {w : Term} (h : w.cell? = none) : w.leaves = [w] := by
  unfold leaves
  split
  · cases h
  · cases h
  · rfl

theorem Forced.leaf_unheld {p : Symbol → Prop} {w leaf : Term} (h : Forced p False w)
    (hleaf : leaf ∈ w.leaves) : leaf.isStuck = false := by
  induction h with
  | leaf fine last =>
    rw [leaves_of_cell?_eq_none last] at hleaf
    obtain rfl := List.mem_singleton.1 hleaf
    exact Bool.eq_false_iff.2 fine.unheld
  | @cell left right hl hr ihl ihr =>
    have hsplit : (Term.cell left right).leaves = left.leaves ++ right.leaves := by
      rw [Term.cell, leaves]
    rw [hsplit] at hleaf
    obtain hleaf | hleaf := List.mem_append.1 hleaf
    · exact ihl hleaf
    · exact ihr hleaf

end Term

def Trace.Report.NotStuck (report : Report) : Prop := ∀ id, report ≠ .stuck id

theorem Trace.Report.allButStuck_notStuck : AllButStuck NotStuck :=
  ⟨fun _ _ => nofun, fun _ => nofun, fun _ _ => nofun, fun _ _ => nofun⟩

section

variable {book : Book}

theorem Law.admits_boundIn : Law.Admits (Symbol.BoundIn book) :=
  ⟨fun _ => trivial, fun _ => trivial, fun _ => trivial, fun _ _ => trivial⟩

def Term.LeavesUnheld (w : Term) : Prop := ∀ leaf ∈ w.leaves, leaf.isStuck = false

/-- Along the evaluation of a closed term with an empty memo, the machine handles only terms whose
    variables are bound. -/
theorem Point.closed_after (hbook : book.Over (Symbol.BoundIn book)) {term : Term}
    (hterm : term.Over (Symbol.BoundIn book)) {engine : Engine} (hempty : engine.memo = .empty)
    {σ : Type} (link : Link σ) (state : σ) (id moves : Nat) :
    Machine.Tidy (Symbol.BoundIn book) False Term.LeavesUnheld
      (((outset engine id term state).after book link moves).step,
        ((outset engine id term state).after book link moves).engine) := by
  have hmemo : engine.memo.Clean (Symbol.BoundIn book) False := by
    rw [hempty]
    exact Memo.clean_empty
  have hfree : ∀ id, Symbol.BoundIn book (.var id) → book.resolve id = none → False :=
    fun id hbound hnone => hbound hnone
  refine tidy_after Law.admits_boundIn hbook hfree ⟨?_, Engine.clean_bind hmemo id⟩ moves
  exact Machine.clean_forcing hterm fun w hw leaf hleaf => hw.leaf_unheld hleaf

theorem Step.Meets.var {p : Symbol → Prop} {held : Prop} {result : Term → Prop} {step : Step}
    {id : Int} (h : step.Meets book id) (hclean : step.Clean p held result) : p (.var id) := by
  obtain ⟨chain, stack, args, rfl, hspine, -⟩ := h
  have hhead := (Term.over_iff_spine.1 (hclean.1 _ List.mem_cons_self)).1
  rwa [hspine] at hhead

theorem Point.closed_grows (hbook : book.Over (Symbol.BoundIn book)) {term : Term}
    (hterm : term.Over (Symbol.BoundIn book)) {engine : Engine} (hempty : engine.memo = .empty)
    {σ : Type} (link : Link σ) (state : σ) (id moves : Nat) :
    engine.recorder.Grows Trace.Report.NotStuck
      ((outset engine id term state).after book link moves).engine.recorder := by
  rw [← recorder_outset engine id term state]
  refine grows_after Trace.Report.allButStuck_notStuck (fun moves free hmeets => ?_) moves
  have htidy := closed_after hbook hterm hempty link state id moves
  have hbound : Symbol.BoundIn book (.var free) := hmeets.var htidy.step
  obtain ⟨-, -, -, -, -, hnone⟩ := hmeets
  exact absurd hnone hbound

end

namespace Engine

/-- Evaluating a closed term with a new engine never comes upon a free variable. Nothing of the kind
    is reported, however long the evaluation is and whatever the other side replies; no law is ever
    held up; and if there is a result, none of its leaves is held up. -/
theorem closed_programs_never_stuck {book : Book} (hbook : book.Over (Symbol.BoundIn book))
    {term : Term} (hterm : term.Over (Symbol.BoundIn book)) (stepLimit memoLimit : Int)
    (recorder : Trace.Recorder) (id : Nat) {σ : Type} (link : Link σ) (state : σ) :
    let engine : Engine := { stepLimit, memoLimit, recorder }
    (∀ moves, let point := (Point.outset engine id term state).after book link moves
      recorder.Grows Trace.Report.NotStuck point.engine.recorder ∧
        point.verdict? book link ≠ some .stuck) ∧
    ∀ fuel result after state',
      engine.eval id book fuel link state (some term) = some (result, after, state') →
        recorder.Grows Trace.Report.NotStuck after.recorder ∧
          ∀ w, result = .ok w → w.LeavesUnheld := by
  intro engine
  have hempty : engine.memo = .empty := rfl
  have htidy := Point.closed_after hbook hterm hempty link state id
  have hgrows := Point.closed_grows hbook hterm hempty link state id
  refine ⟨fun moves => ⟨hgrows moves, fun hstuck => ?_⟩, fun fuel result after state' heval => ?_⟩
  · obtain ⟨w, -, -, -, hw, hheld⟩ := Point.isStuck_of_verdict? (htidy moves).step hstuck
    exact hw.unheld hheld
  · obtain ⟨moves, laws, hcourse⟩ := eval_iff_course.1 ⟨fuel, heval⟩
    have hend := htidy moves
    have hadded := hgrows moves
    rw [hcourse] at hend hadded
    refine ⟨hadded, ?_⟩
    rintro w rfl
    exact hend.step

def closedBook : Book where
  bindings := [(1, .app (.fn .inc) (.atom (.var 2))), (2, .num 4)]

def closedQuery : Term := .cell (.atom (.var 1)) (.app (.fn .send) (.atom (.var 1)))

/-- The query comes to its value and the reply, an empty list. -/
theorem closedQuery_never_stuck :
    closedBook.Over (Symbol.BoundIn closedBook) ∧ closedQuery.Over (Symbol.BoundIn closedBook) ∧
    (∀ moves,
      ((Point.outset {} 0 closedQuery ⟨[['0', '0']], []⟩).after closedBook Link.recorded
        moves).verdict? closedBook Link.recorded ≠ some .stuck) ∧
    ∃ after state,
      ({} : Engine).eval 0 closedBook 30 Link.recorded ⟨[['0', '0']], []⟩ (some closedQuery) =
        some (.ok (.cell (.num 5) (.fn .nil)), after, state) ∧
      (Term.cell (.num 5) (.fn .nil)).LeavesUnheld := by
  have hone : closedBook.resolve 1 ≠ none := by decide
  have htwo : closedBook.resolve 2 ≠ none := by decide
  have hbook : closedBook.Over (Symbol.BoundIn closedBook) := by
    intro id term hterm
    simp only [Book.resolve, closedBook, Table.get?] at hterm
    split at hterm
    · cases hterm
      exact ⟨trivial, htwo⟩
    · split at hterm
      · cases hterm
        exact trivial
      · cases hterm
  have hquery : closedQuery.Over (Symbol.BoundIn closedBook) := ⟨⟨trivial, hone⟩, trivial, hone⟩
  obtain ⟨hcourse, hresult⟩ :=
    closed_programs_never_stuck hbook hquery 0 0 {} 0 Link.recorded ⟨[['0', '0']], []⟩
  have heval : (({} : Engine).eval 0 closedBook 30 Link.recorded ⟨[['0', '0']], []⟩
      (some closedQuery)).map (·.1) = some (.ok (.cell (.num 5) (.fn .nil))) := by cbv
  obtain ⟨⟨result, after, state⟩, heval, hsame⟩ := Option.map_eq_some_iff.1 heval
  obtain rfl : result = .ok (.cell (.num 5) (.fn .nil)) := hsame
  exact ⟨hbook, hquery, fun moves => (hcourse moves).2, after, state, heval,
    (hresult 30 _ after state heval).2 _ rfl⟩

end Engine

end SignalCalculus
