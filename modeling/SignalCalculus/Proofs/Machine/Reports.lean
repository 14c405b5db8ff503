import SignalCalculus.Proofs.Machine.Course

set_option autoImplicit false

namespace SignalCalculus

namespace Trace

structure Report.AllButStuck (q : Report → Prop) : Prop where
  applied : ∀ rule, q (.applied rule)
  cached : q .cached
  request : ∀ bits, q (.request bits)
  reply : ∀ bits, q (.reply bits)

/-- A recorder at a later time: it has all it had before and then only such reports, and it has left
    out no fewer. -/
structure Recorder.Grows (q : Report → Prop) (before after : Recorder) : Prop where
  reports : ∃ added, after.reports.toList = before.reports.toList ++ added ∧
    ∀ report ∈ added, q report
  dropped : before.dropped ≤ after.dropped

namespace Recorder.Grows

variable {q : Report → Prop} {first second third : Recorder}

theorem refl (recorder : Recorder) : recorder.Grows q recorder :=
  ⟨⟨[], (List.append_nil _).symm, nofun⟩, Nat.le_refl _⟩

theorem trans (h : first.Grows q second) (h' : second.Grows q third) : first.Grows q third := by
  obtain ⟨⟨added, hreports, hadded⟩, hdropped⟩ := h
  obtain ⟨⟨more, hreports', hmore⟩, hdropped'⟩ := h'
  refine ⟨⟨added ++ more, by rw [hreports', hreports, List.append_assoc], ?_⟩,
    Nat.le_trans hdropped hdropped'⟩
  intro report hmem
  obtain hmem | hmem := List.mem_append.1 hmem
  · exact hadded report hmem
  · exact hmore report hmem

theorem record {report : Report} (h : q report) (recorder : Recorder) :
    recorder.Grows q (recorder.record report) := by
  unfold Recorder.record
  split
  · split
    · refine ⟨⟨[report], Array.toList_push, fun other hmem => ?_⟩, Nat.le_refl _⟩
      obtain rfl := List.mem_singleton.1 hmem
      exact h
    · exact ⟨⟨[], (List.append_nil _).symm, nofun⟩, Nat.le_succ _⟩
  · exact refl recorder

end Recorder.Grows

end Trace

open Trace (Report)

def Step.Meets (book : Book) (id : Int) (step : Step) : Prop :=
  ∃ chain stack args, step = .running ⟨.chase chain, stack⟩ ∧
    chain.current.spine = (.var id, args) ∧ book.resolve id = none

section

variable {book : Book} {engine : Engine} {q : Report → Prop}

theorem Engine.recorder_settle (chain : Chain) (result : Term) :
    (engine.settle chain result).recorder = engine.recorder := by
  unfold Engine.settle
  split <;> rfl

theorem Engine.grows_report {report : Report} (h : q report) (engine : Engine) :
    engine.recorder.Grows q (engine.report report).recorder :=
  .record h engine.recorder

namespace Machine

theorem close_grows (chain : Chain) (result : Term) (stack : List Frame) :
    engine.recorder.Grows q (close engine chain result stack).2.recorder := by
  have hrecorder : (close engine chain result stack).2.recorder = engine.recorder :=
    Engine.recorder_settle chain result
  rw [hrecorder]
  exact .refl _

theorem obey_grows (hq : Report.AllButStuck q) (chain : Chain) (g : Fn)
    (args : List Term) (stack : List Frame) (verdict : Law.Verdict) :
    engine.recorder.Grows q (obey engine chain g args stack verdict).2.recorder := by
  cases verdict with
  | stuck => exact close_grows chain chain.current stack
  | sends bits => exact .record (hq.request bits) _
  | becomes term => exact .refl _
  | fails fault => exact .refl _
  | needs need term => exact .refl _

/-- A step reports a free variable only if it meets one. -/
theorem step_grows (hq : Report.AllButStuck q) {machine : Machine}
    (hfree : ∀ id, (Step.running machine).Meets book id → q (.stuck id)) :
    engine.recorder.Grows q (step book engine machine).2.recorder := by
  have hturn := step_turn book engine machine
  generalize step book engine machine = state at hturn
  cases hturn with
  | recalls entry => exact .record hq.cached _
  | begins => exact .refl _
  | meets later entry => exact close_grows ..
  | @looks chain stack state unknown sees =>
    cases sees with
    | @free id args spine unbound =>
      have hstuck := hfree id ⟨chain, stack, args, rfl, spine, unbound⟩
      exact (engine.grows_report hstuck).trans (close_grows ..)
    | rests sees unheld => exact close_grows ..
    | fails sees => exact .refl _
    | unfolds sees => exact .refl _
    | refuses sees spent => exact .refl _
    | fires sees room =>
      exact (engine.charged.grows_report (hq.applied _)).trans (obey_grows hq ..)
  | ends => exact .refl _
  | unfolded => exact .refl _
  | hears => exact obey_grows hq ..
  | @forced w cells stack =>
    have hsame : (rebuild engine cells w stack).2 = engine := by
      unfold rebuild
      split
      · rfl
      · split <;> rfl
    rw [hsame]
    exact .refl _

end Machine

namespace Point

variable {σ : Type} {link : Link σ} {point : Point σ}

theorem recorder_outset (engine : Engine) (id : Nat) (term : Term) (state : σ) :
    (outset engine id term state).engine.recorder = engine.recorder := by
  unfold outset Engine.bind
  split
  · rfl
  · split <;> rfl

theorem grows_next (hq : Report.AllButStuck q)
    (hfree : ∀ id, point.step.Meets book id → q (.stuck id)) :
    point.engine.recorder.Grows q (point.next book link).engine.recorder := by
  obtain ⟨step, engine, state, laws⟩ := point
  cases step with
  | running machine => exact Machine.step_grows hq hfree
  | sent bits suspended =>
    unfold next
    rcases hlink : link bits state with ⟨fault | reply, between⟩
    · simp only [hlink]
      exact .refl _
    · simp only [hlink]
      exact (engine.grows_report (hq.reply reply)).trans (Machine.obey_grows hq ..)
  | finished w => exact .refl _
  | failed fault => exact .refl _

theorem grows_after (hq : Report.AllButStuck q)
    (hfree : ∀ moves id, (point.after book link moves).step.Meets book id → q (.stuck id))
    (moves : Nat) :
    point.engine.recorder.Grows q (point.after book link moves).engine.recorder := by
  induction moves with
  | zero => exact .refl _
  | succ moves ih => exact ih.trans (grows_next hq (hfree moves))

end Point

end

end SignalCalculus
