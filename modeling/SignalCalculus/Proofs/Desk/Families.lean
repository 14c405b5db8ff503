import Mathlib
import SignalCalculus.Proofs.Limit.Desk
import SignalCalculus.Proofs.Machine.Families
import SignalCalculus.Proofs.Protocol.Round

set_option autoImplicit false

namespace SignalCalculus

inductive Book.Compiled : Book → Prop
  | empty : Compiled {}
  | add {book next : Book} {equation : Equation} (earlier : Compiled book)
      (added : book.add equation = .ok next) : Compiled next

theorem Book.Compiled.over {book : Book} (h : book.Compiled) : book.Over Symbol.IsLeaf := by
  induction h with
  | empty => exact fun id term hresolve => by cases hresolve
  | add earlier added ih => exact ih.add added

def Term.IsBuilt (term : Term) : Prop := ∃ program, build program = .ok (some term)

theorem Term.IsBuilt.over {term : Term} (h : term.IsBuilt) : term.Over Symbol.IsLeaf := by
  obtain ⟨program, hbuild⟩ := h
  exact over_of_build hbuild

theorem Term.Forced.over {p : Symbol → Prop} {held : Prop} {w : Term} (hp : Law.Admits p)
    (h : w.Forced p held) : w.Over p := by
  induction h with
  | leaf fine last => exact fine.leaves
  | cell hl hr ihl ihr => exact ⟨⟨hp.fn .cons nofun, ihl⟩, ihr⟩

theorem Term.build_value (value : Value) : build value.symbols = .ok (some (.ofValue value)) := by
  have hbuild := (Law.ofValue_over Law.admits_isLeaf value).build_symbols_eq
  rwa [symbols, symbolsOnto_ofValue] at hbuild

/-- What a step led to and the memo hold neither marks nor the entry word. -/
abbrev Machine.Unmarked : Step × Engine → Prop :=
  Machine.Tidy Symbol.IsLeaf True (Term.Over Symbol.IsLeaf)

section

variable {book : Book} {engine engine' : Engine} {fuel : Nat}

theorem Machine.unmarked_settleFrom (hbook : book.Over Symbol.IsLeaf) {start : Step} {rest : Rest}
    (h : Unmarked (start, engine))
    (hrun : settleFrom book fuel start engine = some (rest, engine')) :
    Unmarked (rest.step, engine') :=
  tidy_settleFrom Law.admits_isLeaf hbook (fun _ _ _ => trivial) h hrun

theorem Machine.unmarked_forcing {term : Term} (hterm : term.Over Symbol.IsLeaf)
    (hmemo : engine.memo.Clean Symbol.IsLeaf True) :
    Unmarked (.running (forcing term), engine) :=
  ⟨clean_forcing hterm fun _ hw => hw.over Law.admits_isLeaf, hmemo⟩

theorem Point.unmarked_after (hbook : book.Over Symbol.IsLeaf) {term : Term}
    (hterm : term.Over Symbol.IsLeaf) (hmemo : engine.memo.Clean Symbol.IsLeaf True) {σ : Type}
    (link : Link σ) (state : σ) (id moves : Nat) :
    Machine.Unmarked (((outset engine id term state).after book link moves).step,
      ((outset engine id term state).after book link moves).engine) :=
  tidy_after Law.admits_isLeaf hbook (fun _ _ _ => trivial)
    (Machine.unmarked_forcing hterm (Engine.clean_bind hmemo id)) moves

end

namespace Reduction

variable {book : Book} {engine engine' : Engine} {fuel : Nat} {reduction reduction' : Reduction}
  {outcome : Except Fault Outcome}

def Unmarked (reduction : Reduction) : Prop :=
  match reduction.phase with
  | .ready term => term.Over Symbol.IsLeaf
  | .waiting _ _ suspended => suspended.Clean Symbol.IsLeaf True (Term.Over Symbol.IsLeaf)
  | _ => True

theorem unmarked_rest (reduction : Reduction) (sent : Nat) {rest : Rest}
    (h : rest.step.Clean Symbol.IsLeaf True (Term.Over Symbol.IsLeaf)) :
    (reduction.rest sent rest).2.Unmarked := by
  cases rest with
  | sent bits suspended => exact h
  | finished w => trivial
  | failed fault => trivial

theorem Unmarked.cancel (h : reduction.Unmarked) : reduction.cancel.Unmarked := by
  obtain ⟨id, phase⟩ := reduction
  cases phase with
  | ready term => trivial
  | waiting bits seq suspended => trivial
  | finished w => exact h
  | closed started => exact h

theorem Unmarked.advance (h : reduction.Unmarked) (hbook : book.Over Symbol.IsLeaf)
    (hmemo : engine.memo.Clean Symbol.IsLeaf True)
    (hrun : reduction.advance book fuel engine = some (outcome, reduction', engine')) :
    reduction'.Unmarked ∧ engine'.memo.Clean Symbol.IsLeaf True := by
  obtain ⟨id, phase⟩ := reduction
  cases phase with
  | ready term =>
    obtain ⟨⟨rest, engine1⟩, hsettle, heq⟩ := Option.bind_eq_some_iff.1 hrun
    cases heq
    have hrest := Machine.unmarked_settleFrom hbook (Machine.unmarked_forcing h hmemo) hsettle
    exact ⟨unmarked_rest _ _ hrest.step, hrest.memo⟩
  | waiting bits seq suspended =>
    cases hrun
    exact ⟨h, hmemo⟩
  | finished w =>
    cases hrun
    exact ⟨h, hmemo⟩
  | closed started => cases started <;> cases hrun <;> exact ⟨h, hmemo⟩

theorem Unmarked.resume {reply : List Char} {seq : Option Int} (h : reduction.Unmarked)
    (hbook : book.Over Symbol.IsLeaf) (hmemo : engine.memo.Clean Symbol.IsLeaf True)
    (hrun : reduction.resume book fuel engine reply seq = some (outcome, reduction', engine')) :
    reduction'.Unmarked ∧ engine'.memo.Clean Symbol.IsLeaf True := by
  obtain ⟨id, phase⟩ := reduction
  cases phase with
  | waiting bits current suspended =>
    simp only [Reduction.resume] at hrun
    split at hrun
    · cases hrun
      exact ⟨h, hmemo⟩
    · obtain ⟨⟨rest, engine1⟩, hresume, heq⟩ := Option.bind_eq_some_iff.1 hrun
      cases heq
      have hanswer := Machine.tidy_answer Law.admits_isLeaf hmemo h reply
      have hrest := Machine.unmarked_settleFrom hbook hanswer hresume
      exact ⟨unmarked_rest _ _ hrest.step, hrest.memo⟩
  | ready term | finished w | closed started =>
    cases hrun
    exact ⟨h, hmemo⟩

end Reduction

namespace Desk

variable {books : Nat → Book} {desk next : Desk}

structure Unmarked (desk : Desk) : Prop where
  memo : desk.engine.memo.Clean Symbol.IsLeaf True
  each : ∀ reduction ∈ desk.reductions, reduction.Unmarked

def Operation.IsBuilt : Operation → Prop
  | .eval _ query _ | .start _ query => ∀ term, query = some term → term.IsBuilt
  | .weakHead _ term => term.IsBuilt
  | _ => True

/-- A desk at which such operations have been done, if any. The books come from equations, and more
    equations may have been added to them between two operations. -/
inductive Used : Desk → Prop
  | new (stepLimit memoLimit : Int) (recorder : Trace.Recorder) :
      Used (limited stepLimit memoLimit recorder)
  | next {books : Nat → Book} {desk next : Desk} {operation : Operation} {answer : Answer}
      {fuel : Nat} (earlier : Used desk) (compiled : ∀ id, (books id).Compiled)
      (built : operation.IsBuilt) (done : desk.perform books fuel operation = some (answer, next)) :
      Used next

theorem Unmarked.set (h : desk.Unmarked) {engine' : Engine} {index : Nat} {reduction : Reduction}
    (hnew : reduction.Unmarked ∧ engine'.memo.Clean Symbol.IsLeaf True) :
    Unmarked ⟨engine', desk.reductions.set index reduction⟩ where
  memo := hnew.2
  each := by
    intro other hmem
    obtain hmem | rfl := List.mem_or_eq_of_mem_set hmem
    · exact h.each other hmem
    · exact hnew.1

theorem Unmarked.perform (h : desk.Unmarked) (hbooks : ∀ id, (books id).Over Symbol.IsLeaf)
    {operation : Operation} (hbuilt : operation.IsBuilt) {answer : Answer} {fuel : Nat}
    (hrun : desk.perform books fuel operation = some (answer, next)) : next.Unmarked := by
  cases performs_of_perform hrun with
  | @evaluates id query peer result engine requests run =>
    cases query with
    | none =>
      cases run
      exact h
    | some term =>
      obtain ⟨moves, laws, hcourse⟩ := Engine.eval_iff_course.1 ⟨fuel, run⟩
      have hend := Point.unmarked_after (hbooks id) (hbuilt term rfl).over h.memo
        (Link.ofPeer peer) [] id moves
      rw [hcourse] at hend
      exact ⟨hend.memo, h.each⟩
  | @normalizes id term result engine run =>
    rw [Engine.weakHead_eq] at run
    obtain ⟨⟨rest, engine1⟩, hsettle, heq⟩ := Option.map_eq_some_iff.1 run
    cases heq
    have hstart : Machine.Unmarked
        (.running (Machine.weakHead (desk.engine.bind id) term), desk.engine.bind id) := by
      refine ⟨⟨fun other hother => ?_, fun w hw => hw.leaves⟩, Engine.clean_bind h.memo id⟩
      obtain rfl := List.mem_singleton.1 hother
      exact hbuilt.over
    exact ⟨(Machine.unmarked_settleFrom (hbooks id) hstart hsettle).memo, h.each⟩
  | startsNothing => exact h
  | @starts id term =>
    refine ⟨Engine.clean_bind h.memo id, fun reduction hmem => ?_⟩
    obtain hmem | hmem := List.mem_append.1 hmem
    · exact h.each reduction hmem
    · obtain rfl := List.mem_singleton.1 hmem
      exact (hbuilt term rfl).over
  | advances found run =>
    exact h.set ((h.each _ (List.mem_of_getElem? found)).advance (hbooks _) h.memo run)
  | resumes found run =>
    exact h.set ((h.each _ (List.mem_of_getElem? found)).resume (hbooks _) h.memo run)
  | cancels found => exact h.set ⟨(h.each _ (List.mem_of_getElem? found)).cancel, h.memo⟩
  | misses about missing => exact h
  | forgets => exact ⟨Memo.clean_empty, h.each⟩

theorem Used.unmarked (h : desk.Used) : desk.Unmarked := by
  induction h with
  | new stepLimit memoLimit recorder =>
    exact ⟨Memo.clean_empty, fun reduction hmem => by simp [limited] at hmem⟩
  | next earlier compiled built done ih => exact ih.perform (fun id => (compiled id).over) built done

/-- An evaluation fails only with the families of faults that its callers are told to expect,
    whatever the limits, the earlier operations and the replies are, if books and terms are made of
    equations and programs. For no term that the machine ever handles holds a mark or the entry
    word; every other basis function has one law, for as many operands as its arity says; a law is
    held up only by a term that is held up itself; and the program of a value always builds the
    value's term. -/
theorem eval_fails_in_expected_families (h : desk.Used) {book : Book} (hbook : book.Compiled)
    {program : List Symbol} {term : Term} (hbuild : Term.build program = .ok (some term)) (id : Nat)
    {σ : Type} (carrier : Carrier σ) (state : Option σ) :
    let link := Link.optional carrier.link
    (∀ fuel fault engine' state',
      desk.engine.eval id book fuel link state (some term) = some (.error fault, engine', state') →
        fault.IsExpected) ∧
    (∀ moves, let point := (Point.outset desk.engine id term state).after book link moves
      Machine.Unmarked (point.step, point.engine) ∧
      (point.verdict? book link = some .stuck → ∃ w frame stack,
        point.step = .running ⟨.give w, frame :: stack⟩ ∧ w.isStuck = true)) ∧
    (∀ g : Fn, g ≠ .galaxy →
      ∃ arity, g.arity? = some arity ∧ Xor (Law.IsLazy g arity) (Law.IsStrict g arity)) ∧
    ∀ value : Value, Term.build value.symbols = .ok (some (.ofValue value)) := by
  intro link
  have hterm := Term.over_of_build hbuild
  have hunmarked := Point.unmarked_after hbook.over hterm h.unmarked.memo link state id
  refine ⟨fun fuel fault engine' state' heval => ?_, fun moves => ⟨hunmarked moves, fun hstuck => ?_⟩,
    fun g hg => Law.one_law hg, Term.build_value⟩
  · exact Engine.eval_failsWith Law.admits_isLeaf Machine.blames_isExpected carrier.failsExpected
      hbook.over h.unmarked.memo hterm heval
  · obtain ⟨w, frame, stack, hstep, -, hw⟩ :=
      Point.isStuck_of_verdict? (hunmarked moves).step hstuck
    exact ⟨w, frame, stack, hstep, hw⟩

def entrySends : Book where
  forward := [([.fn .galaxy], [.ap, .fn .send, .plain 0])]
  backward := [([.ap, .fn .send, .plain 0], [.fn .galaxy])]
  bindings := [(Symbol.entryId, .app (.fn .send) (.num 0))]
  order := [[.fn .galaxy]]

def entryTerm : Term := .atom (.var Symbol.entryId)

/-- A reduction has been started before, and the reply is no message. -/
theorem entry_fails_over_reply :
    Used ⟨({ stepLimit := 3 } : Engine).bind 0, [⟨0, .ready entryTerm⟩]⟩ ∧ entrySends.Compiled ∧
    Term.build [.fn .galaxy] = .ok (some entryTerm) ∧ ∃ fault engine' state',
      (({ stepLimit := 3 } : Engine).bind 0).eval 0 entrySends 12
        (Link.optional Link.recording.link) (some ⟨[['2']], []⟩) (some entryTerm) =
          some (.error fault, engine', state') ∧
      fault.IsExpected := by
  have hbuild : Term.build [.fn .galaxy] = .ok (some entryTerm) := rfl
  have hbuilt : Operation.IsBuilt (.start 0 (some entryTerm)) := by
    rintro _ ⟨⟩
    exact ⟨_, hbuild⟩
  have hstart : (limited 3 0 {}).perform (fun _ => {}) 0 (.start 0 (some entryTerm)) =
      some (.started, ⟨({ stepLimit := 3 } : Engine).bind 0, [⟨0, .ready entryTerm⟩]⟩) := rfl
  have hused := Used.next (.new 3 0 {}) (fun _ => .empty) hbuilt hstart
  have hadd : ({} : Book).add ([.fn .galaxy], [.ap, .fn .send, .plain 0]) = .ok entrySends := rfl
  have hbook : entrySends.Compiled := .add .empty hadd
  have heval : ((({ stepLimit := 3 } : Engine).bind 0).eval 0 entrySends 12
      (Link.optional Link.recording.link) (some ⟨[['2']], []⟩) (some entryTerm)).map (·.1) =
        some (.error (.wire (.invalidBit 0 '2'))) := by cbv
  obtain ⟨⟨result, engine', state'⟩, heval, hresult⟩ := Option.map_eq_some_iff.1 heval
  obtain rfl : result = .error (.wire (.invalidBit 0 '2')) := hresult
  obtain ⟨hfails, -⟩ := eval_fails_in_expected_families hused hbook hbuild 0 Link.recording
    (some ⟨[['2']], []⟩)
  exact ⟨hused, hbook, hbuild, _, engine', state', heval, hfails 12 _ engine' state' heval⟩

end Desk

end SignalCalculus
