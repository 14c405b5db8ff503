import SignalCalculus.Proofs.Memo.Sound

set_option autoImplicit false

/-!
# The memo is transparent

With a sound memo and without a step limit, one step of the machine is one or more steps of the
machine without a memo. So both come to rest alike or not at all, and a machine that is attuned to a
dialogue rests as the dialogue says.
-/

namespace SignalCalculus

def Rest.step : Rest → Step
  | .sent bits suspended => .sent bits suspended
  | .finished w => .finished w
  | .failed fault => .failed fault

theorem Rest.not_running (rest : Rest) : ¬Machine.Running rest.step := by
  cases rest <;> exact id

theorem Rest.step_injective {rest rest' : Rest} (h : rest.step = rest'.step) : rest = rest' := by
  cases rest <;> cases rest' <;> cases h <;> rfl

theorem Step.running_or_rest (step : Step) :
    (∃ machine, step = .running machine) ∨ ∃ rest : Rest, step = rest.step := by
  cases step with
  | running machine => exact .inl ⟨machine, rfl⟩
  | sent bits suspended => exact .inr ⟨.sent bits suspended, rfl⟩
  | finished w => exact .inr ⟨.finished w, rfl⟩
  | failed fault => exact .inr ⟨.failed fault, rfl⟩

namespace Machine

variable {book : Book} {engine : Engine}

theorem obey_bare (engine : Engine) (chain : Chain) (g : Fn) (args : List Term)
    (stack : List Frame) (verdict : Law.Verdict) :
    (obey engine chain g args stack verdict).1 = bareObey chain g args stack verdict := by
  cases verdict <;> rfl

theorem look_bare (hlimit : engine.stepLimit = 0) (book : Book) (chain : Chain)
    (stack : List Frame) :
    (look book engine chain stack).1 = bareLook book chain stack := by
  obtain ⟨engine', -, heq⟩ := look_eq hlimit book chain stack
  rw [heq, bareLook]
  cases glance book chain.current with
  | normal => rfl
  | fails fault => rfl
  | unfolds bound args => rfl
  | fires g args => exact obey_bare ..

theorem rebuild_bare (engine : Engine) (cells : List (Cell Term Term)) (w : Term)
    (stack : List Frame) : (rebuild engine cells w stack).1 = bareRebuild cells w stack := by
  unfold rebuild bareRebuild barePlace
  cases w.cell? with
  | some halves => rfl
  | none => cases place Term.cell cells w <;> rfl

theorem bareRun_unique {sends first second : Nat} {start : Step} {rest rest' : Rest}
    (h : bareRun book sends first start = rest.step)
    (h' : bareRun book sends second start = rest'.step) : rest = rest' := by
  obtain hle | hle := Nat.le_total first second
  · obtain ⟨more, rfl⟩ := Nat.exists_eq_add_of_le hle
    rw [bareRun_add, h, bareRun_rest rest.not_running] at h'
    exact Rest.step_injective h'
  · obtain ⟨more, rfl⟩ := Nat.exists_eq_add_of_le hle
    rw [bareRun_add, h', bareRun_rest rest'.not_running] at h
    exact Rest.step_injective h.symm

theorem Follows.steps {sends limit : Nat} {control : Control} {w : Term} {stack : List Frame}
    (h : Follows book stack (.done w) sends limit (.running ⟨control, stack⟩))
    (hc : control ≠ .give w) :
    ∃ count, bareRun book sends (count + 1) (.running ⟨control, stack⟩) =
      .running ⟨.give w, stack⟩ := by
  obtain ⟨count, hcount⟩ := h
  cases count with
  | zero =>
    cases hcount
    exact absurd rfl hc
  | succ count => exact ⟨count, hcount⟩

/-- A step is one step without the memo, or, if it finds an entry, as many as lead to the entry's
    weak head normal form. -/
theorem step_bare (hlimit : engine.stepLimit = 0) (hs : engine.memo.Sound book)
    (machine : Machine) :
    ∃ count, bareRun book engine.sends (count + 1) (.running machine) =
      (step book engine machine).1 := by
  obtain ⟨control, stack⟩ := machine
  cases control with
  | demand term =>
    simp only [step]
    cases hfind : engine.memo.find? term with
    | none => exact ⟨0, rfl⟩
    | some w =>
      obtain ⟨fuel, hw⟩ := hs term w hfind
      have hfollow := follows_demand book fuel term stack engine.sends 0 (by omega)
      rw [hw] at hfollow
      exact hfollow.steps (by intro hc; cases hc)
  | chase chain =>
    simp only [step]
    split
    · rename_i w _ hfind
      obtain ⟨fuel, hw⟩ := hs _ _ hfind
      have hfollow := (follows_reduce book fuel).1 chain stack engine.sends 0 (by omega)
      rw [hw] at hfollow
      exact hfollow.steps (by intro hc; cases hc)
    · exact ⟨0, (look_bare hlimit book chain stack).symm⟩
  | give w =>
    cases stack with
    | nil => exact ⟨0, rfl⟩
    | cons frame stack =>
      cases frame with
      | unfold chain args => exact ⟨0, rfl⟩
      | law chain g args need => exact ⟨0, (obey_bare ..).symm⟩
      | force cells => exact ⟨0, (rebuild_bare ..).symm⟩

theorem answer_bare (engine : Engine) (reply : List Char) (suspended : Suspended) :
    (answer engine reply suspended).1 = bareAnswer reply suspended :=
  obey_bare ..

theorem settleFrom_rest (book : Book) (fuel : Nat) (rest : Rest) (engine : Engine) :
    settleFrom book fuel rest.step engine = some (rest, engine) := by
  cases rest <;> cases fuel <;> rfl

theorem settleFrom_running (book : Book) (fuel : Nat) (machine : Machine) (engine : Engine) :
    settleFrom book (fuel + 1) (.running machine) engine =
      settleFrom book fuel (step book engine machine).1 (step book engine machine).2 := rfl

theorem settleFrom_induction {rest : Rest} {engine' : Engine} {P : Step → Engine → Prop}
    (resting : P rest.step engine')
    (running : ∀ machine engine, P (step book engine machine).1 (step book engine machine).2 →
      P (.running machine) engine)
    {fuel : Nat} {start : Step} (h : settleFrom book fuel start engine = some (rest, engine')) :
    P start engine := by
  induction fuel generalizing start engine with
  | zero =>
    obtain ⟨machine, rfl⟩ | ⟨rest', rfl⟩ := start.running_or_rest
    · cases h
    · rw [settleFrom_rest] at h
      cases h
      exact resting
  | succ fuel ih =>
    obtain ⟨machine, rfl⟩ | ⟨rest', rfl⟩ := start.running_or_rest
    · exact running machine engine (ih h)
    · rw [settleFrom_rest] at h
      cases h
      exact resting

theorem bare_of_settleFrom {fuel : Nat} {start : Step} {rest : Rest} {engine' : Engine}
    (hlimit : engine.stepLimit = 0) (hs : engine.memo.Sound book)
    (hj : start.Justified book engine.sends)
    (h : settleFrom book fuel start engine = some (rest, engine')) :
    (∃ count, bareRun book engine.sends count start = rest.step) ∧
      Holds book engine rest.step engine' := by
  revert hlimit hs hj
  apply settleFrom_induction _ _ h
  · intro _ hs hj
    exact ⟨⟨0, rfl⟩, .of_quiet_after hs (.refl _) hj⟩
  · intro machine engine ih hlimit hs hj
    obtain ⟨first, hfirst⟩ := step_bare hlimit hs machine
    have hstep := holds_step hlimit hs hj
    obtain ⟨⟨count, hcount⟩, hrest⟩ :=
      ih (hstep.stepLimit.trans hlimit) hstep.sound hstep.justified
    refine ⟨?_, hstep.trans hrest rest.not_running⟩
    by_cases hr : Running (step book engine machine).1
    · rw [hstep.running hr] at hcount
      exact ⟨first + 1 + count, by rw [bareRun_add, hfirst, hcount]⟩
    · -- A request has been sent, which is noted by chains that begin later only.
      rw [bareRun_rest hr] at hcount
      exact ⟨first + 1, hfirst.trans hcount⟩

theorem settleFrom_of_bare {count : Nat} {start : Step} {rest : Rest}
    (hlimit : engine.stepLimit = 0) (hs : engine.memo.Sound book)
    (hj : start.Justified book engine.sends)
    (h : bareRun book engine.sends count start = rest.step) :
    ∃ fuel engine', settleFrom book fuel start engine = some (rest, engine') := by
  induction count using Nat.strongRecOn generalizing start engine with
  | ind count ih =>
    obtain ⟨machine, rfl⟩ | ⟨rest', rfl⟩ := start.running_or_rest
    · obtain ⟨first, hfirst⟩ := step_bare hlimit hs machine
      have hstep := holds_step hlimit hs hj
      by_cases hr : Running (step book engine machine).1
      · -- The memo may skip steps, never add any: the step leads to a point of the same run.
        have hlt : first + 1 ≤ count := by
          by_cases hle : first + 1 ≤ count
          · exact hle
          · have := running_of_le (Nat.le_of_not_le hle) (hfirst ▸ hr)
            rw [h] at this
            exact absurd this rest.not_running
        obtain ⟨more, rfl⟩ := Nat.exists_eq_add_of_le hlt
        rw [bareRun_add, hfirst, ← hstep.running hr] at h
        obtain ⟨fuel, engine', hfuel⟩ :=
          ih more (by omega) (hstep.stepLimit.trans hlimit) hstep.sound hstep.justified h
        exact ⟨fuel + 1, engine', hfuel⟩
      · obtain ⟨machine', heq⟩ | ⟨rest', heq⟩ := (step book engine machine).1.running_or_rest
        · exact absurd (heq ▸ trivial) hr
        · refine ⟨1, (step book engine machine).2, ?_⟩
          rw [settleFrom_running, heq, settleFrom_rest, bareRun_unique (hfirst.trans heq) h]
    · rw [bareRun_rest rest'.not_running] at h
      rw [Rest.step_injective h]
      exact ⟨0, engine, settleFrom_rest ..⟩

def Matches (dialogue : Dialogue Term) : Rest → Prop
  | .finished w => dialogue = .done w
  | .failed fault => dialogue = .failed fault
  | .sent bits _ => ∃ next, dialogue = .ask bits next

/-- A machine does what a dialogue says that is known up to any fuel. -/
def Attuned (book : Book) (say : Nat → Dialogue Term) (start : Step) : Prop :=
  ∃ lag, ∀ fuel sends, Follows book [] (say fuel) sends (fuel / 2 - lag) start

theorem attuned_forcing (book : Book) (term : Term) :
    Attuned book (fun fuel => Direct.force book fuel term) (.running (forcing term)) := by
  refine ⟨0, fun fuel sends => ?_⟩
  have h := follows_force book [] fuel term [] .done sends (fuel / 2) (by omega)
    fun forced sends' limit' hle => ⟨0, rfl⟩
  rwa [Dialogue.bind_done_right] at h

theorem attuned_weakHead (book : Book) (chain : Chain) :
    Attuned book (fun fuel => Direct.reduce book fuel chain.current)
      (.running ⟨.chase chain, []⟩) :=
  ⟨0, fun fuel sends => (follows_reduce book fuel).1 chain [] sends _ (by omega)⟩

theorem rest_of_follows {dialogue : Dialogue Term} {sends limit : Nat} {start : Step}
    (h : Follows book [] dialogue sends limit start) (hd : dialogue ≠ .unfinished) :
    ∃ count rest, bareRun book sends count start = rest.step ∧ Matches dialogue rest := by
  cases dialogue with
  | done w =>
    obtain ⟨count, hc⟩ := h
    exact ⟨count + 1, .finished w, by rw [bareRun_add, hc]; rfl, rfl⟩
  | failed fault =>
    obtain ⟨count, hc⟩ := h
    exact ⟨count, .failed fault, hc, rfl⟩
  | ask bits next =>
    obtain ⟨count, suspended, hc, -⟩ := h
    exact ⟨count, .sent bits suspended, hc, next, rfl⟩
  | unfinished => exact absurd rfl hd

/-- A dialogue that is known up to any fuel says where a machine rests, and it says so with every
    fuel that is enough for it to say anything. A machine that waits for a reply goes on as the
    dialogue does. -/
structure AtRest (book : Book) (say : Nat → Dialogue Term) (rest : Rest) : Prop where
  reached : ∃ fuel, say fuel ≠ .unfinished
  tells : ∀ fuel, say fuel ≠ .unfinished → Matches (say fuel) rest
  answered : ∀ bits suspended, rest = .sent bits suspended → ∀ reply,
    Attuned book (fun fuel => (say fuel).after [reply]) (bareAnswer reply suspended)

theorem Attuned.answer {say : Nat → Dialogue Term} {start : Step} {sends count : Nat}
    {bits : List Char} {suspended : Suspended} (h : Attuned book say start)
    (hrun : bareRun book sends count start = .sent bits suspended) (reply : List Char) :
    Attuned book (fun fuel => (say fuel).after [reply]) (bareAnswer reply suspended) := by
  obtain ⟨lag, h⟩ := h
  -- The steps up to the request, and the request, are missing from the limit from now on.
  refine ⟨lag + count + 1, fun fuel sends' => ?_⟩
  have hfollow := h fuel sends
  have hrest : bareRun book sends count start = (Rest.sent bits suspended).step := hrun
  change Follows book [] ((say fuel).after [reply]) sends' _ _
  by_cases hd : say fuel = .unfinished
  · rw [hd] at hfollow ⊢
    intro earlier hlt
    have hr := hfollow count (by omega)
    rw [hrun] at hr
    exact hr.elim
  · obtain ⟨count', rest', hrun', hm⟩ := rest_of_follows hfollow hd
    obtain rfl := bareRun_unique hrest hrun'
    obtain ⟨next, hask⟩ := hm
    rw [hask] at hfollow ⊢
    obtain ⟨least, suspended', hsent, hearlier, hnext⟩ := hfollow
    have hsame : Rest.sent bits suspended = Rest.sent bits suspended' :=
      bareRun_unique hrest hsent
    cases hsame
    have hle : least ≤ count := by
      by_cases hle : least ≤ count
      · exact hle
      · have hr := hearlier count (by omega)
        rw [hrun] at hr
        exact hr.elim
    rw [Dialogue.after_ask, Dialogue.after_nil]
    exact (hnext reply sends').le (by omega)

theorem Attuned.atRest {say : Nat → Dialogue Term} {start : Step} {sends count : Nat} {rest : Rest}
    (h : Attuned book say start) (hrun : bareRun book sends count start = rest.step) :
    AtRest book say rest := by
  refine ⟨?_, fun fuel hd => ?_, ?_⟩
  · obtain ⟨lag, h⟩ := h
    refine ⟨2 * (count + 1 + lag), fun hd => ?_⟩
    have hfollow := h (2 * (count + 1 + lag)) sends
    rw [hd] at hfollow
    have hr := hfollow count (by omega)
    rw [hrun] at hr
    exact rest.not_running hr
  · obtain ⟨lag, h⟩ := h
    obtain ⟨count', rest', hrun', hm⟩ := rest_of_follows (h fuel sends) hd
    rwa [bareRun_unique hrun hrun']
  · rintro bits suspended rfl reply
    exact h.answer hrun reply

theorem Attuned.of_settleFrom {say : Nat → Dialogue Term} {start : Step} {fuel : Nat} {rest : Rest}
    {engine' : Engine} (h : Attuned book say start) (hlimit : engine.stepLimit = 0)
    (hs : engine.memo.Sound book) (hj : start.Justified book engine.sends)
    (hrun : settleFrom book fuel start engine = some (rest, engine')) :
    AtRest book say rest ∧ Holds book engine rest.step engine' := by
  obtain ⟨⟨count, hcount⟩, hholds⟩ := bare_of_settleFrom hlimit hs hj hrun
  exact ⟨h.atRest hcount, hholds⟩

theorem Attuned.settles {say : Nat → Dialogue Term} {start : Step} {fuel : Nat}
    (h : Attuned book say start) (hlimit : engine.stepLimit = 0)
    (hs : engine.memo.Sound book) (hj : start.Justified book engine.sends)
    (hd : say fuel ≠ .unfinished) :
    ∃ fuel' rest engine', settleFrom book fuel' start engine = some (rest, engine') := by
  obtain ⟨lag, h⟩ := h
  obtain ⟨count, rest, hrun, -⟩ := rest_of_follows (h fuel engine.sends) hd
  obtain ⟨fuel', engine', hsettle⟩ := settleFrom_of_bare hlimit hs hj hrun
  exact ⟨fuel', rest, engine', hsettle⟩

end Machine

end SignalCalculus
