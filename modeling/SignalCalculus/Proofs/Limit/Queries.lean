import SignalCalculus.Proofs.Desk.Refinement
import SignalCalculus.Proofs.Limit.Truncation

set_option autoImplicit false

namespace SignalCalculus

open Direct (Reduces Forces)
open Engine (Served)

theorem Engine.Keeps.unlimited {book : Book} {engine engine' : Engine}
    (h : engine.Keeps book engine') : engine.unlimited.Keeps book engine'.unlimited :=
  ⟨h.sound, h.grown, h.boundTo, rfl⟩

namespace Machine

variable {book : Book} {engine engine' : Engine}

theorem run_keeps {fuel : Nat} {machine : Machine} {rest : Rest} (hs : engine.memo.Sound book)
    (hj : machine.Justified book engine.sends)
    (h : run book fuel engine machine = some (rest, engine')) :
    engine.Keeps book engine' ∧ rest.step.Justified book engine'.sends := by
  have hstart : (Step.running machine).Justified book engine.sends := hj
  have hholds := holds_settleFrom hs hstart h
  exact ⟨hholds.keeps, hholds.justified⟩

theorem resume_keeps {fuel : Nat} {suspended : Suspended} {reply : List Char} {rest : Rest}
    (hs : engine.memo.Sound book) (hj : suspended.Justified book engine.sends)
    (h : resume book fuel engine suspended reply = some (rest, engine')) :
    engine.Keeps book engine' ∧ rest.step.Justified book engine'.sends := by
  have hanswer := holds_answer hs hj reply
  have hholds := holds_settleFrom hanswer.sound hanswer.justified h
  exact ⟨hanswer.keeps.trans hholds.keeps, hholds.justified⟩

end Machine

namespace Engine

variable {σ : Type} {book : Book} {books : Nat → Book} {link : Link σ} {engine engine' : Engine}
  {state state' : σ} {id fuel : Nat} {term w : Term}

theorem converse_keeps {rounds : Nat} {rest : Rest} {result : Except Fault Term}
    (hs : engine.memo.Sound book) (hj : rest.step.Justified book engine.sends)
    (h : converse book fuel link rounds rest engine state = some (result, engine', state')) :
    engine.Keeps book engine' := by
  fun_induction converse book fuel link rounds rest engine state with
  | case1 rounds w engine state =>
    cases h
    exact .refl hs
  | case2 rounds fault engine state =>
    cases h
    exact .refl hs
  | case3 bits suspended engine state => cases h
  | case4 rounds bits suspended engine state fault between hl =>
    cases h
    exact .refl hs
  | case5 rounds bits suspended engine state reply between hl ih =>
    obtain ⟨⟨rest', engine1⟩, hresume, hnext⟩ := Option.bind_eq_some_iff.1 h
    obtain ⟨hkeeps, hjust⟩ := Machine.resume_keeps hs hj hresume
    exact hkeeps.trans (ih rest' engine1 hkeeps.sound hjust hnext)

theorem unlimited_bind (engine : Engine) (id : Nat) :
    (engine.bind id).unlimited = engine.unlimited.bind id := by
  have hbound : engine.unlimited.boundTo = engine.boundTo := rfl
  have hlimit : engine.unlimited.memoLimit = engine.memoLimit := rfl
  have hmemo : engine.unlimited.memo = engine.memo := rfl
  unfold bind
  rw [hbound, hlimit, hmemo]
  split
  · rfl
  · split <;> rfl

theorem bind_stepLimit (engine : Engine) (id : Nat) :
    (engine.bind id).stepLimit = engine.stepLimit := by
  unfold bind
  split
  · rfl
  · split <;> rfl

theorem Valid.bound_unlimited (h : engine.unlimited.Valid books) (id : Nat) :
    (engine.bind id).memo.Sound (books id) := by
  have hbound := (h.bound id).2
  rwa [← unlimited_bind] at hbound

theorem Keeps.served_limited (h : (engine.bind id).Keeps (books id) engine')
    (hv : engine.unlimited.Valid books) : engine.unlimited.Served books engine'.unlimited := by
  have hkeeps := h.unlimited
  rw [unlimited_bind] at hkeeps
  exact hkeeps.served_bind hv

theorem eval_served {term : Option Term} {result : Except Fault Term}
    (hv : engine.unlimited.Valid books)
    (h : engine.eval id (books id) fuel link state term = some (result, engine', state')) :
    engine.unlimited.Served books engine'.unlimited := by
  cases term with
  | none =>
    cases h
    exact ⟨hv, Nat.le_refl _, fun hne => hne⟩
  | some term =>
    obtain ⟨⟨rest, engine1⟩, hrun, hnext⟩ := Option.bind_eq_some_iff.1 h
    obtain ⟨hkeeps, hjust⟩ :=
      Machine.run_keeps (hv.bound_unlimited id) (justified_forcing ..) hrun
    exact (hkeeps.trans (converse_keeps hkeeps.sound hjust hnext)).served_limited hv

theorem weakHead_served {result : Except Fault Term} (hv : engine.unlimited.Valid books)
    (h : engine.weakHead id (books id) fuel term = some (result, engine')) :
    engine.unlimited.Served books engine'.unlimited := by
  rw [weakHead_eq] at h
  obtain ⟨⟨rest, engine1⟩, hrun, heq⟩ := Option.map_eq_some_iff.1 h
  cases heq
  have hkeeps := Machine.run_keeps (hv.bound_unlimited id) (justified_weakHead ..) hrun
  exact hkeeps.1.served_limited hv

theorem forces_of_eval (hs : (engine.bind id).memo.Sound book)
    (h : engine.eval id book fuel link state (some term) = some (.ok w, engine', state'))
    (hsilent : engine'.sends = engine.sends) : Forces book term w := by
  obtain ⟨⟨rest, engine1⟩, hrun, hnext⟩ := Option.bind_eq_some_iff.1 h
  dsimp only at hnext
  have hjust := justified_forcing book (engine.bind id).sends term
  obtain ⟨hkeeps, hrest⟩ := Machine.run_keeps hs hjust hrun
  have hgrown := (converse_keeps hkeeps.sound hrest hnext).grown
  have hcount := (Machine.settleFrom_accounts hrun).2
  rw [bind_sends] at hcount
  have hstart : (Step.running (Machine.forcing term)).asked = 0 := rfl
  cases rest with
  | finished v =>
    rw [converse_finished] at hnext
    cases hnext
    exact (Machine.attuned_forcing book term).done_of_run hs hjust hrun
  | failed fault =>
    rw [converse_failed] at hnext
    cases hnext
  | sent bits suspended =>
    -- The request has been counted, and the count does not fall in the rest of the evaluation.
    have hsent : (Rest.sent bits suspended).step.asked = 1 := rfl
    omega

theorem eval_of_forces (hs : (engine.bind id).memo.Sound book) (hw : Forces book term w)
    (link : Link σ) (state : σ) :
    ∃ fuel result engine',
      engine.eval id book fuel link state (some term) = some (result, engine', state) ∧
      engine'.sends = engine.sends ∧
      (result = .ok w ∨ engine.stepLimit ≠ 0 ∧ result = .error engine.overLimit) := by
  obtain ⟨fuel, hw⟩ := hw
  obtain ⟨fuel', rest, engine1, hrun, hrest⟩ := (Machine.attuned_forcing book term).run_limited hs
    (justified_forcing book (engine.bind id).sends term) hw
  have hcount := (Machine.settleFrom_accounts hrun).2
  rw [bind_sends] at hcount
  have hstart : (Step.running (Machine.forcing term)).asked = 0 := rfl
  rw [overLimit, bind_stepLimit] at hrest
  obtain rfl | ⟨hlimit, rfl⟩ := hrest
  · have hsent : (Rest.finished w).step.asked = 0 := rfl
    refine ⟨fuel', .ok w, engine1, ?_, by omega, .inl rfl⟩
    exact Option.bind_eq_some_iff.2 ⟨_, hrun, converse_finished ..⟩
  · have hsent : (Rest.failed (.eval (.stepLimit engine.stepLimit))).step.asked = 0 := rfl
    refine ⟨fuel', .error engine.overLimit, engine1, ?_, by omega, .inr ⟨hlimit, rfl⟩⟩
    exact Option.bind_eq_some_iff.2 ⟨_, hrun, converse_failed ..⟩

theorem reduces_of_weakHead (hs : (engine.bind id).memo.Sound book)
    (h : engine.weakHead id book fuel term = some (.ok w, engine')) : Reduces book term w := by
  rw [weakHead_eq] at h
  obtain ⟨⟨rest, engine1⟩, hrun, heq⟩ := Option.map_eq_some_iff.1 h
  cases rest with
  | finished v =>
    cases heq
    exact (Machine.attuned_weakHead book _).done_of_run hs (justified_weakHead ..) hrun
  | failed fault => cases heq
  | sent bits suspended => cases heq

theorem weakHead_of_reduces (hs : (engine.bind id).memo.Sound book) (hw : Reduces book term w) :
    ∃ fuel result engine', engine.weakHead id book fuel term = some (result, engine') ∧
      (result = .ok w ∨ engine.stepLimit ≠ 0 ∧ result = .error engine.overLimit) := by
  obtain ⟨fuel, hw⟩ := hw
  obtain ⟨fuel', rest, engine1, hrun, hrest⟩ :=
    (Machine.attuned_weakHead book ⟨(engine.bind id).sends, term, []⟩).run_limited hs
      (justified_weakHead book (engine.bind id) term) hw
  rw [overLimit, bind_stepLimit] at hrest
  obtain rfl | ⟨hlimit, rfl⟩ := hrest
  · refine ⟨fuel', .ok w, engine1, ?_, .inl rfl⟩
    rw [weakHead_eq]
    exact Option.map_eq_some_iff.2 ⟨_, hrun, rfl⟩
  · refine ⟨fuel', .error engine.overLimit, engine1, ?_, .inr ⟨hlimit, rfl⟩⟩
    rw [weakHead_eq]
    exact Option.map_eq_some_iff.2 ⟨_, hrun, rfl⟩

end Engine

namespace Reduction

variable {books : Nat → Book} {reduction reduction' : Reduction} {engine engine' : Engine}
  {outcome : Except Fault Outcome} {fuel : Nat}

/-- If a reduction waits, a request was sent since its machine began the chain that waits. -/
def Justified (books : Nat → Book) (sends : Nat) (reduction : Reduction) : Prop :=
  ∀ bits seq suspended, reduction.phase = .waiting bits seq suspended →
    suspended.Justified (books reduction.book) sends

theorem Justified.mono {sends sends' : Nat} (h : reduction.Justified books sends)
    (hle : sends ≤ sends') : reduction.Justified books sends' :=
  fun bits seq suspended hphase => (h bits seq suspended hphase).mono hle

theorem Justified.cancel {sends : Nat} (h : reduction.Justified books sends) :
    reduction.cancel.Justified books sends := by
  obtain ⟨book, phase⟩ := reduction
  cases phase with
  | ready term => exact nofun
  | waiting bits seq suspended => exact nofun
  | finished w => exact nofun
  | closed started => exact nofun

theorem justified_rest (reduction : Reduction) (sent : Nat) {rest : Rest} {sends : Nat}
    (hj : rest.step.Justified (books reduction.book) sends) :
    (reduction.rest sent rest).2.Justified books sends := by
  cases rest with
  | finished w => exact nofun
  | failed fault => exact nofun
  | sent bits suspended =>
    rintro _ _ _ ⟨⟩
    exact hj

def Intact (books : Nat → Book) (engine : Engine) (reduction' : Reduction) (engine' : Engine) : Prop :=
  engine.unlimited.Served books engine'.unlimited ∧ reduction'.Justified books engine'.sends

theorem intact_of_keeps {id sent : Nat} {rest : Rest} (hid : engine.boundTo = some id)
    (ha : (books reduction.book).Alike (books id))
    (hkeeps : engine.Keeps (books reduction.book) engine' ∧
      rest.step.Justified (books reduction.book) engine'.sends) :
    Intact books engine (reduction.rest sent rest).2 engine' :=
  ⟨hkeeps.1.unlimited.served rfl hid ha, justified_rest reduction sent hkeeps.2⟩

theorem advance_intact (hj : reduction.Justified books engine.sends)
    (hv : engine.unlimited.Valid books) (hbound : engine.boundTo ≠ none)
    (ha : ∀ term, reduction.phase = .ready term → reduction.Suits books engine)
    (h : reduction.advance (books reduction.book) fuel engine =
      some (outcome, reduction', engine')) :
    Intact books engine reduction' engine' := by
  have hstay : engine.unlimited.Served books engine.unlimited :=
    ⟨hv, Nat.le_refl _, fun hne => hne⟩
  obtain ⟨id, hid⟩ := Option.ne_none_iff_exists'.1 hbound
  cases hphase : reduction.phase with
  | ready term =>
    simp only [advance, hphase] at h
    obtain ⟨⟨rest, engine1⟩, hrun, heq⟩ := Option.bind_eq_some_iff.1 h
    cases heq
    have halike := ha term hphase id hid
    have hs : engine.memo.Sound (books reduction.book) := hv.sound hid halike
    exact intact_of_keeps hid halike (Machine.run_keeps hs (Engine.justified_forcing ..) hrun)
  | waiting bits seq suspended =>
    simp only [advance, hphase] at h
    cases h
    exact ⟨hstay, hj⟩
  | finished w =>
    simp only [advance, hphase] at h
    cases h
    exact ⟨hstay, hj⟩
  | closed started =>
    cases started with
    | false =>
      simp only [advance, hphase] at h
      cases h
      exact ⟨hstay, nofun⟩
    | true =>
      simp only [advance, hphase] at h
      cases h
      exact ⟨hstay, hj⟩

theorem resume_intact {reply : List Char} {seq : Option Int}
    (hj : reduction.Justified books engine.sends) (hv : engine.unlimited.Valid books)
    (hbound : engine.boundTo ≠ none)
    (ha : ∀ bits current suspended, reduction.phase = .waiting bits current suspended →
      reduction.Suits books engine)
    (h : reduction.resume (books reduction.book) fuel engine reply seq =
      some (outcome, reduction', engine')) :
    Intact books engine reduction' engine' := by
  have hstay : engine.unlimited.Served books engine.unlimited :=
    ⟨hv, Nat.le_refl _, fun hne => hne⟩
  obtain ⟨id, hid⟩ := Option.ne_none_iff_exists'.1 hbound
  cases hphase : reduction.phase with
  | waiting bits current suspended =>
    simp only [resume, hphase] at h
    split at h
    · cases h
      exact ⟨hstay, hj⟩
    · obtain ⟨⟨rest, engine1⟩, hrun, heq⟩ := Option.bind_eq_some_iff.1 h
      cases heq
      have halike := ha bits current suspended hphase id hid
      have hs : engine.memo.Sound (books reduction.book) := hv.sound hid halike
      exact intact_of_keeps hid halike
        (Machine.resume_keeps hs (hj bits current suspended hphase) hrun)
  | ready term | finished w | closed started =>
    simp only [resume, hphase] at h
    cases h
    exact ⟨hstay, hj⟩

end Reduction

end SignalCalculus
