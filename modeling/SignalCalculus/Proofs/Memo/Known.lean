import SignalCalculus.Proofs.Direct.Force
import SignalCalculus.Proofs.Machine.Reports
import SignalCalculus.Proofs.Memo.Entered

set_option autoImplicit false

/-!
# Forced forms that the memo knows

The memo knows the forced form of a term if the term has an entry, and if the entry is a cell, the
forced forms of its halves are known as well. A forcing that sends nothing leaves its term known.
What is known stays known as long as entries stay, and a machine that forces a term that is known
does nothing but look entries up.
-/

namespace SignalCalculus

open Direct (Reduces)

/-- The entries of the memo lead from a term to this forced form. -/
inductive Memo.Knows (memo : Memo) : Term → Term → Prop
  | leaf {term w : Term} (entry : memo.find? term = some w) (last : w.cell? = none) :
      Knows memo term w
  | cell {term u left right l r : Term} (entry : memo.find? term = some u)
      (halves : u.cell? = some (left, right)) (hl : Knows memo left l) (hr : Knows memo right r) :
      Knows memo term (.cell l r)

/-- A term has at most one weak head normal form, so an entry that stays stays the same. -/
theorem Memo.Covers.find? {memo memo' : Memo} {book : Book} (h : memo'.Covers memo)
    (hs : memo.Sound book) (hs' : memo'.Sound book) {term w : Term}
    (hfind : memo.find? term = some w) : memo'.find? term = some w := by
  obtain ⟨w', hfind'⟩ := Option.isSome_iff_exists.1 (h term (by rw [hfind]; rfl))
  obtain rfl := (hs term w hfind).unique (hs' term w' hfind')
  exact hfind'

theorem Memo.Knows.mono {memo memo' : Memo} {book : Book} {term w : Term} (h : memo.Knows term w)
    (hs : memo.Sound book) (hs' : memo'.Sound book) (hcovers : memo'.Covers memo) :
    memo'.Knows term w := by
  induction h with
  | leaf entry last => exact .leaf (hcovers.find? hs hs' entry) last
  | cell entry halves _ _ ihl ihr => exact .cell (hcovers.find? hs hs' entry) halves ihl ihr

/-- An engine at a later time: every term that has an entry keeps one, and the engine is bound to
    the same book, with the same limits. -/
structure Engine.Retains (before after : Engine) : Prop where
  covers : after.memo.Covers before.memo
  boundTo : after.boundTo = before.boundTo
  stepLimit : after.stepLimit = before.stepLimit
  memoLimit : after.memoLimit = before.memoLimit

theorem Engine.Retains.refl (engine : Engine) : engine.Retains engine := ⟨.refl _, rfl, rfl, rfl⟩

theorem Engine.Retains.trans {first second third : Engine} (h : first.Retains second)
    (h' : second.Retains third) : first.Retains third where
  covers := h.covers.trans h'.covers
  boundTo := h'.boundTo.trans h.boundTo
  stepLimit := h'.stepLimit.trans h.stepLimit
  memoLimit := h'.memoLimit.trans h.memoLimit

theorem Engine.retains_report (engine : Engine) (report : Trace.Report) :
    engine.Retains (engine.report report) := ⟨.refl _, rfl, rfl, rfl⟩

theorem Engine.retains_charged (engine : Engine) : engine.Retains engine.charged :=
  ⟨.refl _, rfl, rfl, rfl⟩

namespace Machine

variable {book : Book}

theorem close_retains (engine : Engine) (chain : Chain) (result : Term) (stack : List Frame) :
    engine.Retains (close engine chain result stack).2 := by
  have hcovers := close_covers engine chain result stack
  revert hcovers
  unfold close Engine.settle
  split <;> exact fun hcovers => ⟨hcovers, rfl, rfl, rfl⟩

theorem obey_retains (engine : Engine) (chain : Chain) (g : Fn) (args : List Term)
    (stack : List Frame) (verdict : Law.Verdict) :
    engine.Retains (obey engine chain g args stack verdict).2 := by
  cases verdict with
  | stuck => exact close_retains ..
  | becomes term => exact .refl engine
  | fails fault => exact .refl engine
  | needs need term => exact .refl engine
  | sends bits => exact ⟨.refl _, rfl, rfl, rfl⟩

theorem rebuild_of_cell {engine : Engine} {cells : List (Cell Term Term)} {w left right : Term}
    (h : w.cell? = some (left, right)) (stack : List Frame) :
    rebuild engine cells w stack =
      (.running ⟨.demand left, .force (.left right :: cells) :: stack⟩, engine) := by
  rw [rebuild, h]

theorem rebuild_of_last {engine : Engine} {cells : List (Cell Term Term)} {w : Term}
    (h : w.cell? = none) (stack : List Frame) :
    rebuild engine cells w stack = (barePlace cells w stack, engine) := by
  unfold rebuild barePlace
  rw [h]
  cases place Term.cell cells w <;> rfl

theorem step_retains (book : Book) (engine : Engine) (machine : Machine) :
    engine.Retains (step book engine machine).2 := by
  have hturn := step_turn book engine machine
  generalize step book engine machine = state at hturn
  cases hturn with
  | recalls entry => exact engine.retains_report .cached
  | begins => exact .refl engine
  | meets later entry => exact close_retains ..
  | looks unknown sees =>
    cases sees with
    | free spine unbound => exact (engine.retains_report _).trans (close_retains ..)
    | rests sees unheld => exact close_retains ..
    | fails sees => exact .refl engine
    | unfolds sees => exact .refl engine
    | refuses sees spent => exact engine.retains_charged
    | fires sees room =>
      exact engine.retains_charged.trans ((Engine.retains_report _ _).trans (obey_retains ..))
  | ends => exact .refl engine
  | unfolded => exact .refl engine
  | hears => exact obey_retains ..
  | @forced w cells stack =>
    cases hcell : w.cell? with
    | some halves =>
      rw [rebuild_of_cell hcell]
      exact .refl engine
    | none =>
      rw [rebuild_of_last hcell]
      exact .refl engine

theorem settleFrom_retains {fuel : Nat} {start : Step} {engine engine' : Engine} {rest : Rest}
    (h : settleFrom book fuel start engine = some (rest, engine')) : engine.Retains engine' := by
  apply settleFrom_induction _ _ h
  · exact .refl _
  · intro machine engine ih
    exact (step_retains book engine machine).trans ih

theorem resume_retains {fuel : Nat} {engine engine' : Engine} {suspended : Suspended}
    {reply : List Char} {rest : Rest}
    (h : resume book fuel engine suspended reply = some (rest, engine')) :
    engine.Retains engine' := by
  have hanswered := obey_retains (engine.report (.reply reply)) suspended.chain .send
    suspended.args suspended.stack (Law.onReply reply)
  exact ((engine.retains_report _).trans hanswered).trans (settleFrom_retains h)

theorem Leads.retains {first last : Step × Engine} (h : Leads book first last) :
    first.2.Retains last.2 := by
  induction h with
  | refl state => exact .refl _
  | @head machine engine last tail ih => exact (step_retains book engine machine).trans ih

theorem Leads.run {first last : Step × Engine} (h : Leads book first last) {fuel : Nat}
    {rest : Rest × Engine} (hrest : Machine.settleFrom book fuel last.1 last.2 = some rest) :
    ∃ fuel', Machine.settleFrom book fuel' first.1 first.2 = some rest := by
  induction h with
  | refl state => exact ⟨fuel, hrest⟩
  | head tail ih =>
    obtain ⟨fuel', hfirst⟩ := ih hrest
    exact ⟨fuel' + 1, hfirst⟩

/-- A forcing that sends nothing leaves the forced form known. -/
theorem leads_knows {fuel : Nat} {term w : Term} (hw : Direct.force book fuel term = .done w)
    {cells : List (Cell Term Term)} {engine : Engine}
    (hready : Ready book (.running ⟨.demand term, [.force cells]⟩, engine)) :
    ∃ engine', Leads book (.running ⟨.demand term, [.force cells]⟩, engine)
        (barePlace cells w [], engine') ∧ engine'.memo.Knows term w := by
  induction fuel generalizing term w cells engine with
  | zero => simp [Direct.force] at hw
  | succ fuel ih =>
    obtain ⟨u, hu, hforced⟩ := Direct.force_succ_iff.1 hw
    obtain ⟨engine1, hgives, hentered⟩ := gives_demand ⟨fuel, hu⟩ hready
    have hentry := hentered term (List.mem_singleton.2 rfl)
    have hready1 := (hgives.ready hready).step
    obtain ⟨hcell, rfl⟩ | ⟨left, right, l, r, hcell, hl, hr, rfl⟩ := hforced
    · have hstep : step book engine1 ⟨.give w, [.force cells]⟩ = (barePlace cells w [], engine1) :=
        rebuild_of_last hcell []
      refine ⟨engine1, hgives.trans (.head ?_), .leaf hentry hcell⟩
      rw [hstep]
      exact .refl _
    · have hstep : step book engine1 ⟨.give u, [.force cells]⟩ =
          (.running ⟨.demand left, [.force (.left right :: cells)]⟩, engine1) :=
        rebuild_of_cell hcell []
      rw [hstep] at hready1
      obtain ⟨engine2, hleft, hknown⟩ := ih hl hready1
      have hready2 := hleft.ready hready1
      obtain ⟨engine3, hright, hknown'⟩ := ih hr hready2
      have hsound := (hright.ready hready2).sound
      -- The entries of the term and of its left half are still there at the end.
      have hkept := hleft.retains.trans hright.retains
      refine ⟨engine3, hgives.trans (.head ?_), .cell ?_ hcell ?_ hknown'⟩
      · rw [hstep]
        exact hleft.trans hright
      · exact hkept.covers.find? hready1.sound hsound hentry
      · exact hknown.mono hready2.sound hsound hright.retains.covers

/-- Forcing a term that is known takes nothing but look-ups: apart from the recorder, the engine is
    left as it was. -/
theorem leads_recalls {memo : Memo} {term w : Term} (h : memo.Knows term w) (book : Book)
    (engine : Engine) (hmemo : engine.memo = memo) (cells : List (Cell Term Term)) :
    ∃ recorder, Leads book (.running ⟨.demand term, [.force cells]⟩, engine)
        (barePlace cells w [], { engine with recorder }) ∧
      engine.recorder.Grows (· = .cached) recorder := by
  have hrecalled : ∀ (engine : Engine) (term u : Term) (cells : List (Cell Term Term)),
      engine.memo.find? term = some u →
      step book engine ⟨.demand term, [.force cells]⟩ =
        (.running ⟨.give u, [.force cells]⟩, engine.report .cached) := by
    intro engine term u cells hfind
    simp only [step, hfind]
  have hreported : ∀ engine : Engine,
      engine.recorder.Grows (· = .cached) (engine.report .cached).recorder := by
    intro engine
    apply Engine.grows_report
    rfl
  induction h generalizing engine cells with
  | @leaf term w entry last =>
    refine ⟨(engine.report .cached).recorder, .head ?_, hreported engine⟩
    rw [hrecalled engine term w cells (hmemo ▸ entry)]
    refine .head ?_
    have hstep : step book (engine.report .cached) ⟨.give w, [.force cells]⟩ =
        (barePlace cells w [], engine.report .cached) := rebuild_of_last last []
    rw [hstep]
    exact .refl _
  | @cell term u left right l r entry halves _ _ ihl ihr =>
    have hstep : step book (engine.report .cached) ⟨.give u, [.force cells]⟩ =
        (.running ⟨.demand left, [.force (.left right :: cells)]⟩, engine.report .cached) :=
      rebuild_of_cell halves []
    obtain ⟨recorder, hleft, hgrown⟩ := ihl (engine.report .cached) hmemo (.left right :: cells)
    obtain ⟨recorder', hright, hgrown'⟩ := ihr { engine with recorder } hmemo (.right l :: cells)
    refine ⟨recorder', .head ?_, (hreported engine).trans (hgrown.trans hgrown')⟩
    rw [hrecalled engine term u cells (hmemo ▸ entry)]
    refine .head ?_
    rw [hstep]
    exact hleft.trans hright

end Machine

end SignalCalculus
