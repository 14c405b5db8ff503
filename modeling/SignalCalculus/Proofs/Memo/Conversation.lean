import SignalCalculus.Proofs.Direct.Reduction
import SignalCalculus.Proofs.Memo.Transparent

set_option autoImplicit false

namespace SignalCalculus

open Machine (AtRest)

structure Engine.Keeps (book : Book) (before after : Engine) : Prop where
  sound : after.memo.Sound book
  grown : before.sends ≤ after.sends
  boundTo : after.boundTo = before.boundTo
  stepLimit : after.stepLimit = before.stepLimit

theorem Engine.Keeps.refl {book : Book} {engine : Engine} (hs : engine.memo.Sound book) :
    engine.Keeps book engine := ⟨hs, Nat.le_refl _, rfl, rfl⟩

theorem Engine.Keeps.trans {book : Book} {first second third : Engine}
    (h : first.Keeps book second) (h' : second.Keeps book third) : first.Keeps book third :=
  ⟨h'.sound, Nat.le_trans h.grown h'.grown, h'.boundTo.trans h.boundTo,
    h'.stepLimit.trans h.stepLimit⟩

theorem Holds.keeps {book : Book} {before after : Engine} {step : Step}
    (h : Holds book before step after) : before.Keeps book after :=
  ⟨h.sound, h.grown, h.boundTo, h.stepLimit⟩

namespace Machine

variable {book : Book} {engine : Engine}

theorem settleFrom_mono {fuel fuel' : Nat} {start : Step} {rest : Rest} {engine' : Engine}
    (hle : fuel ≤ fuel') (h : settleFrom book fuel start engine = some (rest, engine')) :
    settleFrom book fuel' start engine = some (rest, engine') := by
  induction fuel generalizing fuel' start engine with
  | zero =>
    obtain ⟨machine, rfl⟩ | ⟨rest', rfl⟩ := start.running_or_rest
    · cases h
    · rw [settleFrom_rest] at h ⊢
      exact h
  | succ fuel ih =>
    obtain ⟨machine, rfl⟩ | ⟨rest', rfl⟩ := start.running_or_rest
    · obtain ⟨more, rfl⟩ := Nat.exists_eq_add_of_le hle
      rw [Nat.add_right_comm, settleFrom_running]
      exact ih (Nat.le_add_right ..) h
    · rw [settleFrom_rest] at h ⊢
      exact h

theorem atRest_run {say : Nat → Dialogue Term} {fuel : Nat} {machine : Machine} {rest : Rest}
    {engine' : Engine} (h : Attuned book say (.running machine)) (hlimit : engine.stepLimit = 0)
    (hs : engine.memo.Sound book) (hj : machine.Justified book engine.sends)
    (hrun : run book fuel engine machine = some (rest, engine')) :
    AtRest book say rest ∧ rest.step.Justified book engine'.sends ∧ engine.Keeps book engine' := by
  obtain ⟨hrest, hholds⟩ := h.of_settleFrom hlimit hs hj hrun
  exact ⟨hrest, hholds.justified, hholds.keeps⟩

/-- A machine that waits for a reply can be given it at any later time: a request was sent since its
    chain began, so nothing is asked of the terms on that chain. -/
theorem holds_answer (hs : engine.memo.Sound book) {suspended : Suspended}
    (hj : suspended.Justified book engine.sends) (reply : List Char) :
    Holds book engine (answer engine reply suspended).1 (answer engine reply suspended).2 := by
  have hsent := hj.sent
  have hu : UnderWay book engine.sends suspended.chain suspended.stack :=
    ⟨by omega, fun hsame => by omega, hj.awaited⟩
  refine .of_quiet (engine.quiet_report (.reply reply)) (holds_obey hs hu fun hsame => ?_)
  change suspended.chain.sendsBefore = engine.sends at hsame
  omega

theorem atRest_resume {say : Nat → Dialogue Term} {fuel : Nat} {bits reply : List Char}
    {suspended : Suspended} {rest : Rest} {engine' : Engine}
    (h : AtRest book say (.sent bits suspended)) (hlimit : engine.stepLimit = 0)
    (hs : engine.memo.Sound book) (hj : suspended.Justified book engine.sends)
    (hrun : resume book fuel engine suspended reply = some (rest, engine')) :
    AtRest book (fun fuel => (say fuel).after [reply]) rest ∧
      rest.step.Justified book engine'.sends ∧ engine.Keeps book engine' := by
  have hanswer := holds_answer hs hj reply
  have hattuned := h.answered bits suspended rfl reply
  rw [← answer_bare engine] at hattuned
  obtain ⟨hrest, hholds⟩ := hattuned.of_settleFrom (hanswer.stepLimit.trans hlimit) hanswer.sound
    hanswer.justified hrun
  exact ⟨hrest, hholds.justified, hanswer.keeps.trans hholds.keeps⟩

theorem resume_settles {say : Nat → Dialogue Term} {fuel : Nat} {bits reply : List Char}
    {suspended : Suspended} (h : AtRest book say (.sent bits suspended))
    (hlimit : engine.stepLimit = 0) (hs : engine.memo.Sound book)
    (hj : suspended.Justified book engine.sends) (hd : (say fuel).after [reply] ≠ .unfinished) :
    ∃ fuel' rest engine', resume book fuel' engine suspended reply = some (rest, engine') := by
  have hanswer := holds_answer hs hj reply
  have hattuned := h.answered bits suspended rfl reply
  rw [← answer_bare engine] at hattuned
  exact hattuned.settles (hanswer.stepLimit.trans hlimit) hanswer.sound hanswer.justified hd

end Machine

namespace Engine

variable {σ : Type} {book : Book} {link : Link σ} {say : Nat → Dialogue Term}

theorem converse_finished (book : Book) (fuel : Nat) (link : Link σ) (rounds : Nat) (w : Term)
    (engine : Engine) (state : σ) :
    converse book fuel link rounds (.finished w) engine state = some (.ok w, engine, state) := by
  cases rounds <;> rfl

theorem converse_failed (book : Book) (fuel : Nat) (link : Link σ) (rounds : Nat) (fault : Fault)
    (engine : Engine) (state : σ) :
    converse book fuel link rounds (.failed fault) engine state =
      some (.error fault, engine, state) := by
  cases rounds <;> rfl

theorem converse_direct {fuel rounds : Nat} {rest : Rest} {engine engine' : Engine}
    {state state' : σ} {result : Except Fault Term} (h : AtRest book say rest)
    (hlimit : engine.stepLimit = 0) (hs : engine.memo.Sound book)
    (hj : rest.step.Justified book engine.sends)
    (hrun : converse book fuel link rounds rest engine state = some (result, engine', state')) :
    (∃ fuel', (say fuel').converse link state = some (result, state')) ∧
      engine.Keeps book engine' := by
  obtain ⟨fuel', hd⟩ := h.reached
  have hm := h.tells fuel' hd
  fun_induction converse book fuel link rounds rest engine state generalizing say fuel' with
  | case1 rounds w engine state =>
    cases hrun
    exact ⟨⟨fuel', by rw [show say fuel' = .done w from hm]; rfl⟩, .refl hs⟩
  | case2 rounds fault engine state =>
    cases hrun
    exact ⟨⟨fuel', by rw [show say fuel' = .failed fault from hm]; rfl⟩, .refl hs⟩
  | case3 bits suspended engine state => cases hrun
  | case4 rounds bits suspended engine state fault between hl =>
    cases hrun
    obtain ⟨next, hask⟩ := hm
    exact ⟨⟨fuel', by rw [hask]; simp only [Dialogue.converse, hl]⟩, .refl hs⟩
  | case5 rounds bits suspended engine state reply between hl ih =>
    obtain ⟨⟨rest', engine1⟩, hresume, hrun⟩ := Option.bind_eq_some_iff.1 hrun
    obtain ⟨hrest, hjust, hkeeps⟩ := Machine.atRest_resume h hlimit hs hj hresume
    obtain ⟨fuel1, hd1⟩ := hrest.reached
    obtain ⟨⟨enough, hsay⟩, hkeeps'⟩ := ih rest' engine1 hrest (hkeeps.stepLimit.trans hlimit)
      hkeeps.sound hjust hrun fuel1 hd1 (hrest.tells fuel1 hd1)
    refine ⟨⟨enough, ?_⟩, hkeeps.trans hkeeps'⟩
    -- The fuel that is enough after the reply is enough to come to the request.
    by_cases hd' : say enough = .unfinished
    · rw [hd'] at hsay
      cases hsay
    · obtain ⟨next, hask⟩ := h.tells enough hd'
      rw [hask, Dialogue.after_ask, Dialogue.after_nil] at hsay
      rw [hask]
      simp only [Dialogue.converse, hl]
      exact hsay

theorem converse_of_direct {dialogue : Dialogue Term} {fuel : Nat} {rest : Rest} {engine : Engine}
    {state state' : σ} {result : Except Fault Term} (hsay : say fuel = dialogue)
    (h : AtRest book say rest) (hlimit : engine.stepLimit = 0) (hs : engine.memo.Sound book)
    (hj : rest.step.Justified book engine.sends)
    (hrun : dialogue.converse link state = some (result, state')) :
    ∃ enough engine', ∀ fuel' rounds, enough ≤ fuel' → enough ≤ rounds →
      converse book fuel' link rounds rest engine state = some (result, engine', state') := by
  induction dialogue generalizing say rest engine state with
  | unfinished => cases hrun
  | done w =>
    have hm := h.tells fuel (by rw [hsay]; exact nofun)
    rw [hsay] at hm
    cases rest with
    | finished w' =>
      cases hm
      cases hrun
      exact ⟨0, engine, fun fuel' rounds _ _ => converse_finished ..⟩
    | failed fault => cases hm
    | sent bits suspended => cases hm.choose_spec
  | failed fault =>
    have hm := h.tells fuel (by rw [hsay]; exact nofun)
    rw [hsay] at hm
    cases rest with
    | finished w => cases hm
    | failed fault' =>
      cases hm
      cases hrun
      exact ⟨0, engine, fun fuel' rounds _ _ => converse_failed ..⟩
    | sent bits suspended => cases hm.choose_spec
  | ask bits next ih =>
    have hm := h.tells fuel (by rw [hsay]; exact nofun)
    rw [hsay] at hm
    cases rest with
    | finished w => cases hm
    | failed fault => cases hm
    | sent bits' suspended =>
      obtain ⟨next', hask⟩ := hm
      cases hask
      rw [Dialogue.converse] at hrun
      cases hl : link bits state with
      | mk answer between =>
        rw [hl] at hrun
        cases answer with
        | error fault =>
          cases hrun
          refine ⟨1, engine, fun fuel' rounds _ hrounds => ?_⟩
          obtain ⟨rounds, rfl⟩ := Nat.exists_eq_add_of_le' hrounds
          simp only [converse, hl]
        | ok reply =>
          change (next reply).converse link between = _ at hrun
          have hafter : (say fuel).after [reply] = next reply := by
            rw [hsay, Dialogue.after_ask, Dialogue.after_nil]
          have hd : (say fuel).after [reply] ≠ .unfinished := by
            intro hd
            rw [← hafter, hd] at hrun
            cases hrun
          obtain ⟨fuel1, rest1, engine1, hresume⟩ := Machine.resume_settles h hlimit hs hj hd
          obtain ⟨hrest, hjust, hkeeps⟩ := Machine.atRest_resume h hlimit hs hj hresume
          obtain ⟨enough, engine', hconverse⟩ :=
            ih reply hafter hrest (hkeeps.stepLimit.trans hlimit) hkeeps.sound hjust hrun
          refine ⟨max fuel1 (enough + 1), engine', fun fuel' rounds hfuel hrounds => ?_⟩
          obtain ⟨rounds, rfl⟩ : ∃ rounds', rounds = rounds' + 1 :=
            ⟨rounds - 1, by omega⟩
          simp only [converse, hl]
          refine Option.bind_eq_some_iff.2 ⟨(rest1, engine1), ?_, ?_⟩
          · exact Machine.settleFrom_mono (by omega) hresume
          · exact hconverse fuel' rounds (by omega) (by omega)

end Engine

end SignalCalculus
