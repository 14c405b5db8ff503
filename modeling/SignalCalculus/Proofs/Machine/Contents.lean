import SignalCalculus.Proofs.Direct.Leaves
import SignalCalculus.Proofs.Law.Verdicts
import SignalCalculus.Proofs.Machine.Course
import SignalCalculus.Proofs.Normal.Forms

set_option autoImplicit false

/-!
# What a machine handles

Let the symbols of a class be all that the terms of a book and a demanded term have at their leaves,
and let laws bring in symbols of this class only. Then every term that a machine handles has such
leaves: those on its chains, in its frames and in the memo. A law waits only for what it has a case
for. Whether a term can be held up depends on the variables of the class: if all of them are bound,
no term is.
-/

namespace SignalCalculus

open Law (Fits Proceeds)

section Contents

variable (p : Symbol → Prop) (held : Prop) (result : Term → Prop)

/-- A term that can be given to a frame: it has such leaves, and it is held up only if terms can be
    held up at all. -/
structure Term.Fine (w : Term) : Prop where
  leaves : w.Over p
  unheld : w.isStuck = true → held

inductive Term.Forced : Term → Prop
  | leaf {w : Term} (fine : w.Fine p held) (last : w.cell? = none) : Forced w
  | cell {left right : Term} (hl : Forced left) (hr : Forced right) : Forced (Term.cell left right)

def Memo.Clean (memo : Memo) : Prop :=
  ∀ term w, memo.find? term = some w → term.Over p ∧ w.Fine p held

def Chain.Over (chain : Chain) : Prop := ∀ term ∈ chain.terms, term.Over p

def CellsClean (cells : List (Cell Term Term)) : Prop :=
  (∀ term, Cell.left term ∈ cells → term.Over p) ∧
    ∀ made, Cell.right made ∈ cells → Term.Forced p held made

/-- Every frame holds terms with such leaves, and every law waits for something that it has a case
    for. The frame that forces a result is the last one. -/
def StackClean : List Frame → Prop
  | [] => ∀ w, Term.Fine p held w → result w
  | .unfold chain args :: stack => chain.Over p ∧ (∀ arg ∈ args, arg.Over p) ∧ StackClean stack
  | .law chain g args need :: stack =>
    chain.Over p ∧ (∀ arg ∈ args, arg.Over p) ∧ need.Over p ∧ Fits g (Law.operands g args) need ∧
      StackClean stack
  | .force cells :: stack =>
    CellsClean p held cells ∧ (∀ w, Term.Forced p held w → result w) ∧ stack = []

namespace Machine

def Clean : Machine → Prop
  | ⟨.demand term, stack⟩ => term.Over p ∧ StackClean p held result stack
  | ⟨.chase chain, stack⟩ => chain.Over p ∧ StackClean p held result stack
  | ⟨.give w, []⟩ => result w
  | ⟨.give w, stack⟩ => w.Fine p held ∧ StackClean p held result stack

end Machine

structure Suspended.Clean (suspended : Suspended) : Prop where
  chain : suspended.chain.Over p
  args : ∀ arg ∈ suspended.args, arg.Over p
  stack : StackClean p held result suspended.stack

def Step.Clean : Step → Prop
  | .running machine => machine.Clean p held result
  | .sent _ suspended => suspended.Clean p held result
  | .finished w => result w
  | .failed _ => True

/-- The invariant: what a step led to and the memo are clean. -/
structure Machine.Tidy (state : Step × Engine) : Prop where
  step : state.1.Clean p held result
  memo : state.2.memo.Clean p held

end Contents

variable {p : Symbol → Prop} {held : Prop} {result : Term → Prop}

theorem Memo.clean_empty : Memo.empty.Clean p held := by
  intro term w hfind
  simp at hfind

theorem Chain.Over.push {chain : Chain} {term : Term} (h : chain.Over p) (hterm : term.Over p) :
    (chain.push term).Over p := by
  intro other hother
  obtain rfl | hother := List.mem_cons.1 hother
  · exact hterm
  · exact h other hother

theorem CellsClean.cons_left {cells : List (Cell Term Term)} {right : Term}
    (h : CellsClean p held cells) (hright : right.Over p) :
    CellsClean p held (.left right :: cells) := by
  refine ⟨fun term hmem => ?_, fun made hmem => ?_⟩
  · obtain heq | hmem := List.mem_cons.1 hmem
    · cases heq
      exact hright
    · exact h.1 term hmem
  · obtain heq | hmem := List.mem_cons.1 hmem
    · cases heq
    · exact h.2 made hmem

theorem CellsClean.place {cells : List (Cell Term Term)} {w : Term} (h : CellsClean p held cells)
    (hw : Term.Forced p held w) :
    match SignalCalculus.place Term.cell cells w with
    | .whole term => Term.Forced p held term
    | .next right rest => right.Over p ∧ CellsClean p held rest := by
  induction cells generalizing w with
  | nil => exact hw
  | cons cell cells ih =>
    have hcells : CellsClean p held cells :=
      ⟨fun term hmem => h.1 term (List.mem_cons_of_mem _ hmem),
        fun made hmem => h.2 made (List.mem_cons_of_mem _ hmem)⟩
    cases cell with
    | left right =>
      refine ⟨h.1 right List.mem_cons_self, fun term hmem => ?_, fun made hmem => ?_⟩
      · obtain heq | hmem := List.mem_cons.1 hmem
        · cases heq
        · exact hcells.1 term hmem
      · obtain heq | hmem := List.mem_cons.1 hmem
        · cases heq
          exact hw
        · exact hcells.2 made hmem
    | right made => exact ih hcells (.cell (h.2 made List.mem_cons_self) hw)

namespace Machine

variable {book : Book} {engine : Engine} {chain : Chain} {stack : List Frame}

theorem clean_give {w : Term} (hstack : StackClean p held result stack) (hw : w.Fine p held) :
    Clean p held result ⟨.give w, stack⟩ := by
  cases stack with
  | nil => exact hstack w hw
  | cons frame stack => exact ⟨hw, hstack⟩

theorem tidy_close {w : Term} (hmemo : engine.memo.Clean p held) (hchain : chain.Over p)
    (hstack : StackClean p held result stack) (hw : w.Fine p held) :
    Tidy p held result (close engine chain w stack) where
  step := clean_give hstack hw
  memo := by
    simp only [close, Engine.settle]
    split
    · intro term v hfind
      rw [Memo.find?_enter, Memo.find?_enterAll] at hfind
      split at hfind
      · rename_i heq
        cases hfind
        exact ⟨heq ▸ hw.leaves, hw⟩
      · split at hfind
        · rename_i hmem
          cases hfind
          exact ⟨hchain term hmem, hw⟩
        · exact hmemo term v hfind
    · exact hmemo

theorem tidy_obey {g : Fn} {args : List Term} {verdict : Law.Verdict}
    (hmemo : engine.memo.Clean p held) (hchain : chain.Over p) (hargs : ∀ arg ∈ args, arg.Over p)
    (hstack : StackClean p held result stack) (hover : verdict.Over p)
    (hverdict : verdict = .stuck ∧ held ∨ Proceeds g (Law.operands g args) verdict) :
    Tidy p held result (obey engine chain g args stack verdict) := by
  cases verdict with
  | becomes term =>
    refine ⟨⟨hchain.push (Term.over_apply.2 ⟨hover, fun arg harg => ?_⟩), hstack⟩, hmemo⟩
    exact hargs arg (List.mem_of_mem_drop harg)
  | stuck =>
    have hheld : held := by
      obtain ⟨-, hheld⟩ | hproceeds := hverdict
      · exact hheld
      · cases hproceeds with
        | settles h => cases h
    exact tidy_close hmemo hchain hstack ⟨hchain _ List.mem_cons_self, fun _ => hheld⟩
  | fails fault => exact ⟨trivial, hmemo⟩
  | needs need term =>
    have hfits : Fits g (Law.operands g args) need := by
      obtain ⟨heq, -⟩ | hproceeds := hverdict
      · cases heq
      · cases hproceeds with
        | settles h => cases h
        | needs fits => exact fits
    exact ⟨⟨hover.2, hchain, hargs, hover.1, hfits, hstack⟩, hmemo⟩
  | sends bits => exact ⟨⟨hchain, hargs, hstack⟩, hmemo⟩

theorem tidy_rebuild {cells : List (Cell Term Term)} {w : Term} (hmemo : engine.memo.Clean p held)
    (hcells : CellsClean p held cells) (hresult : ∀ w, Term.Forced p held w → result w)
    (hw : w.Fine p held) : Tidy p held result (rebuild engine cells w []) := by
  unfold rebuild
  cases hcell : w.cell? with
  | some halves =>
    obtain ⟨hleft, hright⟩ := hw.leaves.halves hcell
    exact ⟨⟨hleft, hcells.cons_left hright, hresult, rfl⟩, hmemo⟩
  | none =>
    have hplace := hcells.place (.leaf hw hcell)
    dsimp only
    cases hp : place Term.cell cells w with
    | whole term =>
      rw [hp] at hplace
      exact ⟨hresult term hplace, hmemo⟩
    | next right rest =>
      rw [hp] at hplace
      exact ⟨⟨hplace.1, hplace.2, hresult, rfl⟩, hmemo⟩

theorem tidy_look (hp : Law.Admits p) (hbook : book.Over p)
    (hfree : ∀ id, p (.var id) → book.resolve id = none → held)
    (hmemo : engine.memo.Clean p held) (hchain : chain.Over p)
    (hstack : StackClean p held result stack) {state : Step × Engine}
    (h : Sees book engine chain stack state) : Tidy p held result state := by
  have hcurrent : chain.current.Over p := hchain _ List.mem_cons_self
  have hsees := Direct.glance_over hbook hcurrent
  cases h with
  | @free id args spine unbound =>
    have hhead := (Term.over_iff_spine.1 hcurrent).1
    rw [spine] at hhead
    exact tidy_close hmemo hchain hstack ⟨hcurrent, fun _ => hfree id hhead unbound⟩
  | rests sees unheld =>
    refine tidy_close hmemo hchain hstack ⟨hcurrent, fun hstuck => ?_⟩
    rw [unheld] at hstuck
    cases hstuck
  | fails sees => exact ⟨trivial, hmemo⟩
  | unfolds sees =>
    rw [sees] at hsees
    exact ⟨⟨hsees.1, hchain, hsees.2, hstack⟩, hmemo⟩
  | refuses sees spent => exact ⟨trivial, hmemo⟩
  | @fires g args sees room =>
    rw [sees] at hsees
    have hoperands : ∀ x ∈ Law.operands g args, x.Over p :=
      fun x hx => hsees x (List.mem_of_mem_take hx)
    have hbegin := Law.begin_proceeds (Direct.glance_eq_fires sees).2
    exact tidy_obey hmemo hchain hsees hstack (Law.begin_over hp hoperands) (.inr hbegin)

theorem tidy_step (hp : Law.Admits p) (hbook : book.Over p)
    (hfree : ∀ id, p (.var id) → book.resolve id = none → held) {machine : Machine}
    (h : Tidy p held result (.running machine, engine)) :
    Tidy p held result (step book engine machine) := by
  obtain ⟨hmachine, hmemo⟩ := h
  have hturn := step_turn book engine machine
  generalize step book engine machine = state at hturn
  cases hturn with
  | recalls entry => exact ⟨clean_give hmachine.2 (hmemo _ _ entry).2, hmemo⟩
  | begins =>
    refine ⟨⟨fun other hother => ?_, hmachine.2⟩, hmemo⟩
    obtain rfl := List.mem_singleton.1 hother
    exact hmachine.1
  | meets later entry => exact tidy_close hmemo hmachine.1 hmachine.2 (hmemo _ _ entry).2
  | looks unknown sees => exact tidy_look hp hbook hfree hmemo hmachine.1 hmachine.2 sees
  | ends => exact ⟨hmachine, hmemo⟩
  | unfolded =>
    obtain ⟨hw, hchain, hargs, hstack⟩ := hmachine
    exact ⟨⟨hchain.push (Term.over_apply.2 ⟨hw.leaves, hargs⟩), hstack⟩, hmemo⟩
  | @hears w chain g args need stack =>
    obtain ⟨hw, hchain, hargs, hneed, hfits, hstack⟩ := hmachine
    have hoperands : ∀ x ∈ Law.operands g args, x.Over p :=
      fun x hx => hargs x (List.mem_of_mem_take hx)
    refine tidy_obey hmemo hchain hargs hstack (Law.onTerm_over hp hoperands hneed hw.leaves) ?_
    by_cases hstuck : w.isStuck = true
    · exact .inl ⟨Law.onTerm_of_isStuck hfits hstuck, hw.unheld hstuck⟩
    · exact .inr (Law.onTerm_proceeds hfits hstuck)
  | forced =>
    obtain ⟨hw, hcells, hresult, rfl⟩ := hmachine
    exact tidy_rebuild hmemo hcells hresult hw

theorem tidy_answer (hp : Law.Admits p) (hmemo : engine.memo.Clean p held) {suspended : Suspended}
    (h : suspended.Clean p held result) (reply : List Char) :
    Tidy p held result (answer engine reply suspended) := by
  unfold answer Law.onReply
  split
  · exact tidy_obey hmemo h.chain h.args h.stack (Law.ofValue_over hp _)
      (.inr (.settles (.becomes _)))
  · exact tidy_obey hmemo h.chain h.args h.stack trivial (.inr (.settles (.fails _)))

theorem tidy_settleFrom (hp : Law.Admits p) (hbook : book.Over p)
    (hfree : ∀ id, p (.var id) → book.resolve id = none → held) {fuel : Nat} {start : Step}
    {rest : Rest} {engine' : Engine} (h : Tidy p held result (start, engine))
    (hrun : settleFrom book fuel start engine = some (rest, engine')) :
    Tidy p held result (rest.step, engine') := by
  revert h
  apply settleFrom_induction _ _ hrun
  · exact id
  · intro machine engine ih h
    exact ih (tidy_step hp hbook hfree h)

theorem clean_forcing {term : Term} (hterm : term.Over p)
    (hresult : ∀ w, Term.Forced p held w → result w) : Clean p held result (forcing term) :=
  ⟨hterm, ⟨nofun, nofun⟩, hresult, rfl⟩

end Machine

namespace Engine

theorem clean_bind {engine : Engine} (h : engine.memo.Clean p held) (id : Nat) :
    (engine.bind id).memo.Clean p held := by
  unfold Engine.bind
  split
  · exact Memo.clean_empty
  · split
    · exact Memo.clean_empty
    · exact h

end Engine

namespace Point

variable {σ : Type} {book : Book} {link : Link σ}

theorem tidy_next (hp : Law.Admits p) (hbook : book.Over p)
    (hfree : ∀ id, p (.var id) → book.resolve id = none → held) {point : Point σ}
    (h : Machine.Tidy p held result (point.step, point.engine)) :
    Machine.Tidy p held result ((point.next book link).step, (point.next book link).engine) := by
  obtain ⟨step, engine, state, laws⟩ := point
  cases step with
  | running machine => exact Machine.tidy_step hp hbook hfree h
  | sent bits suspended =>
    unfold next
    rcases hlink : link bits state with ⟨fault | reply, between⟩
    · simp only [hlink]
      exact ⟨trivial, h.memo⟩
    · simp only [hlink]
      exact Machine.tidy_answer hp h.memo h.step reply
  | finished w => exact h
  | failed fault => exact h

theorem tidy_after (hp : Law.Admits p) (hbook : book.Over p)
    (hfree : ∀ id, p (.var id) → book.resolve id = none → held) {point : Point σ}
    (h : Machine.Tidy p held result (point.step, point.engine)) (moves : Nat) :
    Machine.Tidy p held result
      ((point.after book link moves).step, (point.after book link moves).engine) := by
  induction moves with
  | zero => exact h
  | succ moves ih => exact tidy_next hp hbook hfree ih

end Point

/-- What the law says that the next step consults: one that is applied now, or one that is given
    what it waits for. -/
def Machine.verdict? (book : Book) (engine : Engine) : Machine → Option Law.Verdict
  | ⟨.chase chain, stack⟩ =>
    match Machine.applies book engine ⟨.chase chain, stack⟩, glance book chain.current with
    | true, .fires g args => some (Law.begin g (Law.operands g args))
    | _, _ => none
  | ⟨.give w, .law _ g args need :: _⟩ => some (Law.onTerm g (Law.operands g args) need w)
  | _ => none

def Point.verdict? {σ : Type} (book : Book) (link : Link σ) (point : Point σ) :
    Option Law.Verdict :=
  match point.step with
  | .running machine => machine.verdict? book point.engine
  | .sent bits _ =>
    match link bits point.state with
    | (.ok reply, _) => some (Law.onReply reply)
    | (.error _, _) => none
  | .finished _ | .failed _ => none

/-- A law is held up only by a term that is held up itself. -/
theorem Machine.Clean.isStuck {book : Book} {engine : Engine} {machine : Machine}
    (h : machine.Clean p held result) (hverdict : machine.verdict? book engine = some .stuck) :
    ∃ w frame stack, machine = ⟨.give w, frame :: stack⟩ ∧ w.Fine p held ∧ w.isStuck = true := by
  obtain ⟨control, stack⟩ := machine
  cases control with
  | demand term => cases hverdict
  | chase chain =>
    simp only [verdict?] at hverdict
    split at hverdict
    · rename_i g args _ hsees
      have hbegin := Law.begin_proceeds (Direct.glance_eq_fires hsees).2
      rw [Option.some.inj hverdict] at hbegin
      cases hbegin with
      | settles hsettles => cases hsettles
    · cases hverdict
  | give w =>
    cases stack with
    | nil => cases hverdict
    | cons frame stack =>
      cases frame with
      | unfold chain args => cases hverdict
      | force cells => cases hverdict
      | law chain g args need =>
        obtain ⟨hw, -, -, -, hfits, -⟩ := h
        refine ⟨w, _, stack, rfl, hw, ?_⟩
        by_contra hstuck
        have hproceeds := Law.onTerm_proceeds hfits hstuck
        rw [Option.some.inj hverdict] at hproceeds
        cases hproceeds with
        | settles hsettles => cases hsettles

theorem Point.isStuck_of_verdict? {σ : Type} {book : Book} {link : Link σ} {point : Point σ}
    (h : point.step.Clean p held result) (hverdict : point.verdict? book link = some .stuck) :
    ∃ w frame stack, point.step = .running ⟨.give w, frame :: stack⟩ ∧ w.Fine p held ∧
      w.isStuck = true := by
  obtain ⟨step, engine, state, laws⟩ := point
  cases step with
  | running machine =>
    obtain ⟨w, frame, stack, rfl, hw⟩ := Machine.Clean.isStuck h hverdict
    exact ⟨w, frame, stack, rfl, hw⟩
  | sent bits suspended =>
    simp only [verdict?] at hverdict
    split at hverdict
    · unfold Law.onReply at hverdict
      split at hverdict <;> cases hverdict
    · cases hverdict
  | finished w => cases hverdict
  | failed fault => cases hverdict

end SignalCalculus
