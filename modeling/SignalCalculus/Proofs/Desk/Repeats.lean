import SignalCalculus.Proofs.Desk.Books
import SignalCalculus.Proofs.Limit.Desk
import SignalCalculus.Proofs.Memo.Known

set_option autoImplicit false

namespace SignalCalculus

namespace Engine

variable {σ : Type} {book : Book} {link : Link σ} {engine engine' : Engine} {state state' : σ}
  {id fuel : Nat} {term w : Term} {result : Except Fault Term}

theorem converse_retains {rounds : Nat} {rest : Rest}
    (h : converse book fuel link rounds rest engine state = some (result, engine', state')) :
    engine.Retains engine' := by
  fun_induction converse book fuel link rounds rest engine state with
  | case1 rounds w engine state =>
    cases h
    exact .refl _
  | case2 rounds fault engine state =>
    cases h
    exact .refl _
  | case3 bits suspended engine state => cases h
  | case4 rounds bits suspended engine state fault between hlink =>
    cases h
    exact .refl _
  | case5 rounds bits suspended engine state reply between hlink ih =>
    obtain ⟨⟨rest', engine1⟩, hresume, hnext⟩ := Option.bind_eq_some_iff.1 h
    exact (Machine.resume_retains hresume).trans (ih rest' engine1 hnext)

theorem eval_retains
    (h : engine.eval id book fuel link state (some term) = some (result, engine', state')) :
    (engine.bind id).Retains engine' := by
  obtain ⟨⟨rest, engine1⟩, hrun, hnext⟩ := Option.bind_eq_some_iff.1 h
  exact (Machine.settleFrom_retains hrun).trans (converse_retains hnext)

theorem weakHead_retains (h : engine.weakHead id book fuel term = some (result, engine')) :
    (engine.bind id).Retains engine' := by
  rw [weakHead_eq] at h
  obtain ⟨⟨rest, engine1⟩, hrun, heq⟩ := Option.map_eq_some_iff.1 h
  cases heq
  exact Machine.settleFrom_retains hrun

theorem bind_same (hbound : engine.boundTo = some id) (hlimit : engine.memoLimit = 0) :
    engine.bind id = { engine with steps := 0 } := by
  have hsame : ¬engine.boundTo ≠ some id := fun hne => hne hbound
  have hroom : ¬(engine.memoLimit ≠ 0 ∧ engine.memoLimit < engine.memo.size) :=
    fun hfull => hfull.1 hlimit
  rw [bind, if_neg hsame, if_neg hroom]

theorem retains_bind (hbound : engine.boundTo = some id) (hlimit : engine.memoLimit = 0) :
    engine.Retains (engine.bind id) := by
  rw [bind_same hbound hlimit]
  exact ⟨.refl _, rfl, rfl, rfl⟩

theorem knows_of_eval {books : Nat → Book} {peer : Peer} (hv : engine.Valid books)
    (h : engine.eval id (books id) fuel (Link.ofPeer peer) [] (some term) =
      some (.ok w, engine', [])) : engine'.memo.Knows term w := by
  obtain ⟨⟨fuel', hdirect⟩, -⟩ := hv.eval_direct h
  have hforce : Direct.force (books id) fuel' term = .done w := Dialogue.done_of_converse hdirect
  obtain ⟨hlimit, hsound⟩ := hv.bound id
  have hready : Machine.Ready (books id)
      (.running ⟨.demand term, [.force []]⟩, engine.bind id) :=
    ⟨hlimit, hsound, justified_forcing (books id) (engine.bind id).sends term⟩
  obtain ⟨engine1, hleads, hknown⟩ := Machine.leads_knows hforce hready
  -- The run of the evaluation goes through the point where the result is complete.
  obtain ⟨⟨rest, between⟩, hrun, hnext⟩ := Option.bind_eq_some_iff.1 h
  obtain ⟨less, hlast⟩ := hleads.settleFrom hrun
  cases less with
  | zero => cases hlast
  | succ less =>
    have hfinished := Machine.settleFrom_rest (books id) less (.finished w) engine1
    cases hfinished.symm.trans hlast
    dsimp only at hnext
    rw [converse_finished] at hnext
    cases hnext
    exact hknown

/-- An evaluation whose result the memo knows looks entries up and does nothing else. -/
theorem eval_of_knows (h : engine.memo.Knows term w) (hbound : engine.boundTo = some id)
    (hlimit : engine.memoLimit = 0) (book : Book) (link : Link σ) (state : σ) :
    ∃ fuel recorder, engine.eval id book fuel link state (some term) =
        some (.ok w, { engine with steps := 0, recorder }, state) ∧
      engine.recorder.Grows (· = .cached) recorder := by
  have hknows : (engine.bind id).memo.Knows term w := by rwa [bind_same hbound hlimit]
  obtain ⟨recorder, hleads, hgrown⟩ :=
    Machine.leads_recalls hknows book (engine.bind id) rfl []
  have hlast := Machine.settleFrom_rest book 0 (.finished w) { engine.bind id with recorder }
  have hdone : Machine.settleFrom book 1 (.running ⟨.give w, []⟩)
      { engine.bind id with recorder } = some (.finished w, { engine.bind id with recorder }) :=
    hlast
  obtain ⟨fuel, hrun⟩ := hleads.run hdone
  rw [bind_same hbound hlimit] at hrun hgrown
  refine ⟨fuel, recorder, ?_, hgrown⟩
  refine Option.bind_eq_some_iff.2 ⟨(.finished w, { engine with steps := 0, recorder }), ?_,
    converse_finished ..⟩
  rw [bind_same hbound hlimit]
  exact hrun

end Engine

namespace Reduction

variable {book : Book} {fuel : Nat} {engine engine' : Engine} {reduction reduction' : Reduction}
  {outcome : Except Fault Outcome}

theorem advance_retains
    (h : reduction.advance book fuel engine = some (outcome, reduction', engine')) :
    engine.Retains engine' := by
  unfold advance at h
  split at h
  · obtain ⟨⟨rest, engine1⟩, hrun, heq⟩ := Option.bind_eq_some_iff.1 h
    cases heq
    exact Machine.settleFrom_retains hrun
  · cases h
    exact .refl engine
  · cases h
    exact .refl engine

theorem resume_retains {reply : List Char} {seq : Option Int}
    (h : reduction.resume book fuel engine reply seq = some (outcome, reduction', engine')) :
    engine.Retains engine' := by
  unfold resume at h
  split at h
  · cases h
    exact .refl engine
  · cases h
    exact .refl engine
  · cases h
    exact .refl engine
  · split at h
    · cases h
      exact .refl engine
    · obtain ⟨⟨rest, engine1⟩, hrun, heq⟩ := Option.bind_eq_some_iff.1 h
      cases heq
      exact Machine.resume_retains hrun

end Reduction

namespace Desk

variable {books : Nat → Book} {desk next last : Desk} {id : Nat} {term w : Term}

/-- An operation against one book that does not empty the memo: a query, or stepping a reduction
    that was started with this book. -/
def OnBook (id : Nat) (desk : Desk) : Operation → Prop
  | .eval id' _ _ | .weakHead id' _ | .start id' _ => id' = id
  | .advance index | .resume index _ _ =>
    ∀ reduction, desk.reductions[index]? = some reduction → reduction.book = id
  | .cancel _ => True
  | .forget => False

theorem OnBook.harmless {operation : Operation} (h : desk.OnBook id operation)
    (hbound : desk.engine.boundTo = some id) : desk.Harmless books operation := by
  have hsuits : ∀ reduction : Reduction, reduction.book = id →
      reduction.Suits books desk.engine := by
    intro reduction hown id' hid'
    rw [hbound] at hid'
    cases hid'
    rw [hown]
    exact .refl _
  cases operation with
  | advance index => exact fun reduction term hr _ => hsuits reduction (h reduction hr)
  | resume index reply seq => exact fun reduction _ _ _ hr _ => hsuits reduction (h reduction hr)
  | _ => trivial

theorem OnBook.retains {operation : Operation} (h : desk.OnBook id operation)
    (hbound : desk.engine.boundTo = some id) (hlimit : desk.engine.memoLimit = 0) {fuel : Nat}
    {answer : Answer} (hrun : desk.perform books fuel operation = some (answer, next)) :
    desk.engine.Retains next.engine := by
  have hbind := Engine.retains_bind hbound hlimit
  cases performs_of_perform hrun with
  | @evaluates _ query _ _ _ _ run =>
    obtain rfl := h
    cases query with
    | none =>
      cases run
      exact .refl _
    | some term => exact hbind.trans (Engine.eval_retains run)
  | normalizes run =>
    obtain rfl := h
    exact hbind.trans (Engine.weakHead_retains run)
  | startsNothing => exact .refl _
  | starts =>
    obtain rfl := h
    exact hbind
  | advances found run => exact Reduction.advance_retains run
  | resumes found run => exact Reduction.resume_retains run
  | cancels found => exact .refl _
  | misses about missing => exact .refl _
  | forgets => exact h.elim

structure Remembers (books : Nat → Book) (id : Nat) (term w : Term) (desk : Desk) : Prop where
  sound : desk.Sound books
  bound : desk.engine.boundTo = some id
  stepLimit : desk.engine.stepLimit = 0
  memoLimit : desk.engine.memoLimit = 0
  knows : desk.engine.memo.Knows term w

theorem Sound.memo (h : desk.Sound books) (hbound : desk.engine.boundTo = some id) :
    desk.engine.memo.Sound (books id) := by
  intro term w hfind
  obtain ⟨id', hid', hw⟩ := h.valid.entries term w hfind
  have hsame : some id = some id' := hbound.symm.trans hid'
  cases hsame
  exact hw

theorem Remembers.perform (h : desk.Remembers books id term w) {operation : Operation}
    (ho : desk.OnBook id operation) {fuel : Nat} {answer : Answer}
    (hrun : desk.perform books fuel operation = some (answer, next)) :
    next.Remembers books id term w := by
  have hretains := ho.retains h.bound h.memoLimit hrun
  have hsound := h.sound.perform (ho.harmless h.bound) hrun
  have hbound := hretains.boundTo.trans h.bound
  refine ⟨hsound, hbound, hretains.stepLimit.trans h.stepLimit,
    hretains.memoLimit.trans h.memoLimit, ?_⟩
  exact h.knows.mono (h.sound.memo h.bound) (hsound.memo hbound) hretains.covers

theorem Remembers.history {operations : List Operation} {answers : List Answer}
    (h : History (Desk.perform books) (OnBook id) desk operations answers last)
    (hstart : desk.Remembers books id term w) : last.Remembers books id term w := by
  induction h with
  | nil desk => exact hstart
  | cons fuel ok done tail ih => exact ih (hstart.perform ok done)

theorem Sound.remembers (h : desk.Sound books) (hsteps : desk.engine.stepLimit = 0)
    (hmemo : desk.engine.memoLimit = 0) {fuel : Nat} {peer : Peer}
    (hrun : desk.perform books fuel (.eval id (some term) peer) =
      some (.evaluated (.ok w) [], next)) : next.Remembers books id term w := by
  have harmless : desk.Harmless books (.eval id (some term) peer) := trivial
  have hsound := h.perform harmless hrun
  cases performs_of_perform hrun with
  | evaluates run =>
    have hretains := Engine.eval_retains run
    have hvalid : desk.engine.Valid books := ⟨hsteps, h.valid.entries⟩
    have hlimit : (desk.engine.bind id).memoLimit = desk.engine.memoLimit := by
      unfold Engine.bind
      split
      · rfl
      · split <;> rfl
    exact ⟨hsound, hretains.boundTo.trans (Engine.bind_boundTo ..),
      hretains.stepLimit.trans ((Engine.bind_stepLimit ..).trans hsteps),
      hretains.memoLimit.trans (hlimit.trans hmemo), Engine.knows_of_eval hvalid run⟩

/-- Let a query against a book end without a request, at a desk without limits that no reduction was
    run at while the engine was bound to a book unlike its own. After any further operations against
    that book, none of which empties the memo, the same query has the same result: no law is
    applied, nothing but look-ups is reported, and the memo is left as it was. -/
theorem repeated_query_is_recalled {desk' : Desk} {fuel : Nat} {peer : Peer}
    {operations : List Operation} {answers : List Answer} (harises : desk.Arises books)
    (hsteps : desk.engine.stepLimit = 0) (hmemo : desk.engine.memoLimit = 0)
    (hfirst : desk.perform books fuel (.eval id (some term) peer) =
      some (.evaluated (.ok w) [], next))
    (hbetween : History (Desk.perform books) (OnBook id) next operations answers desk')
    (peer' : Peer) :
    ∃ fuel' desk'', desk'.perform books fuel' (.eval id (some term) peer') =
        some (.evaluated (.ok w) [], desk'') ∧
      desk''.engine.steps = 0 ∧ desk''.engine.memo = desk'.engine.memo ∧
      desk'.engine.recorder.Grows (· = .cached) desk''.engine.recorder := by
  have hremembers := Remembers.history hbetween (harises.sound.remembers hsteps hmemo hfirst)
  obtain ⟨fuel', recorder, heval, hgrown⟩ := Engine.eval_of_knows hremembers.knows hremembers.bound
    hremembers.memoLimit (books id) (Link.ofPeer peer') []
  refine ⟨fuel', { desk' with engine := { desk'.engine with steps := 0, recorder } }, ?_, rfl, rfl,
    hgrown⟩
  exact Option.bind_eq_some_iff.2 ⟨_, heval, rfl⟩

def mute : Peer := fun _ => .ok []

def incList : Term := .cell (.app (.fn .inc) (.num 1)) (.fn .nil)

/-- Between the query and its repetition a reduction of another term is started and run. -/
theorem incList_is_recalled : ∃ desk desk' answers,
    (limited 0 0 {}).perform (fun _ => {}) 40 (.eval 0 (some incList) mute) =
      some (.evaluated (.ok (.cell (.num 2) (.fn .nil))) [], desk) ∧
    History (Desk.perform fun _ => {}) (OnBook 0) desk
      [.start 0 (some (.app (.fn .dec) (.num 1))), .advance 0] answers desk' ∧
    ∃ fuel desk'', desk'.perform (fun _ => {}) fuel (.eval 0 (some incList) mute) =
        some (.evaluated (.ok (.cell (.num 2) (.fn .nil))) [], desk'') ∧
      desk''.engine.steps = 0 ∧ desk''.engine.memo = desk'.engine.memo := by
  have hruns : (((limited 0 0 {}).perform (fun _ => {}) 40 (.eval 0 (some incList) mute)).bind
      fun (first, desk) =>
        (desk.perform (fun _ => {}) 0 (.start 0 (some (.app (.fn .dec) (.num 1))))).bind
          fun (_, started) => (started.perform (fun _ => {}) 40 (.advance 0)).map
            fun _ => (first, started.reductions.map (·.book))) =
      some (.evaluated (.ok (.cell (.num 2) (.fn .nil))) [], [0]) := by cbv
  obtain ⟨⟨first, desk⟩, hfirst, hruns⟩ := Option.bind_eq_some_iff.1 hruns
  obtain ⟨⟨answer, started⟩, hstart, hruns⟩ := Option.bind_eq_some_iff.1 hruns
  obtain ⟨⟨answer', desk'⟩, hadvance, hsame⟩ := Option.map_eq_some_iff.1 hruns
  obtain ⟨rfl, hbooks⟩ : first = .evaluated (.ok (.cell (.num 2) (.fn .nil))) [] ∧
      started.reductions.map (·.book) = [0] := by
    simpa only [Prod.mk.injEq] using hsame
  have hown : started.OnBook 0 (.advance 0) := by
    intro reduction hr
    have hbook := congrArg (·[0]?) hbooks
    simpa [hr] using hbook
  have harises : (limited 0 0 {}).Arises fun _ => {} := ⟨0, 0, {}, [], [], .nil _⟩
  have hbetween : History (Desk.perform fun _ => {}) (OnBook 0) desk
      [.start 0 (some (.app (.fn .dec) (.num 1))), .advance 0] [answer, answer'] desk' :=
    .cons 0 rfl hstart (.cons 40 hown hadvance (.nil _))
  obtain ⟨fuel, desk'', hagain, hsteps, hmemo, -⟩ :=
    repeated_query_is_recalled harises rfl rfl hfirst hbetween mute
  exact ⟨desk, desk', _, hfirst, hbetween, fuel, desk'', hagain, hsteps, hmemo⟩

/-- The reduction of the other book has left its result in the memo, from where the query takes it.
    The weak head normal form of the same term is then found in the bound book, and the repeated
    query takes that. -/
theorem repeated_query_differs : ∃ desk next desk' desk'',
    History (Desk.perform twoBooks) (fun _ _ => True) (fresh 0 {})
      [.start 0 (some boundVar), .start 1 (some boundVar), .advance 0]
      [.started, .started, .stepped (.ok (.done (.num 1)))] desk ∧
    desk.engine.stepLimit = 0 ∧ desk.engine.memoLimit = 0 ∧
    desk.perform twoBooks 12 (.eval 1 (some boundVar) mute) =
      some (.evaluated (.ok (.num 1)) [], next) ∧
    History (Desk.perform twoBooks) (OnBook 1) next [.weakHead 1 boundVar]
      [.normalized (.ok (.num 2))] desk' ∧
    desk'.perform twoBooks 12 (.eval 1 (some boundVar) mute) =
      some (.evaluated (.ok (.num 2)) [], desk'') := by
  have hruns : ((twoStarted.perform twoBooks 12 (.advance 0)).bind fun (stepped, desk) =>
      (desk.perform twoBooks 12 (.eval 1 (some boundVar) mute)).bind fun (first, next) =>
        (next.perform twoBooks 12 (.weakHead 1 boundVar)).bind fun (normalized, desk') =>
          (desk'.perform twoBooks 12 (.eval 1 (some boundVar) mute)).map fun (second, _) =>
            (desk.engine.stepLimit, desk.engine.memoLimit, stepped, first, normalized, second)) =
      some (0, 0, .stepped (.ok (.done (.num 1))), .evaluated (.ok (.num 1)) [],
        .normalized (.ok (.num 2)), .evaluated (.ok (.num 2)) []) := by cbv
  obtain ⟨⟨stepped, desk⟩, hadvance, hruns⟩ := Option.bind_eq_some_iff.1 hruns
  obtain ⟨⟨first, next⟩, hfirst, hruns⟩ := Option.bind_eq_some_iff.1 hruns
  obtain ⟨⟨normalized, desk'⟩, hnormal, hruns⟩ := Option.bind_eq_some_iff.1 hruns
  obtain ⟨⟨second, desk''⟩, hsecond, hsame⟩ := Option.map_eq_some_iff.1 hruns
  simp only [Prod.mk.injEq] at hsame
  obtain ⟨hsteps, hmemo, rfl, rfl, rfl, rfl⟩ := hsame
  exact ⟨desk, next, desk', desk'',
    .cons 0 trivial rfl (.cons 0 trivial rfl (.cons 12 trivial hadvance (.nil _))), hsteps, hmemo,
    hfirst, .cons 12 rfl hnormal (.nil _), hsecond⟩

end Desk

end SignalCalculus
