import SignalCalculus.Proofs.Limit.Counting

set_option autoImplicit false

/-!
# Listening does not change an evaluation

The machine never looks at its recorder. What a step reports is the same whoever listens, and so is
all else that it does: a recorder only decides how much of the reports it keeps. Reports say what was
done: one for each law that was applied, one for each request that went out and one for each reply
that came in.
-/

namespace SignalCalculus

namespace Trace

def Report.isApplied : Report → Bool
  | .applied _ => true
  | _ => false

def Report.isExchange : Report → Bool
  | .request _ | .reply _ => true
  | _ => false

def Report.NamesLaw : Report → Prop
  | .applied rule => ∃ g : Fn, rule = g.word
  | _ => True

namespace Recorder

def recordAll (recorder : Recorder) (news : List Report) : Recorder :=
  news.foldl record recorder

theorem recordAll_append (recorder : Recorder) (news more : List Report) :
    recorder.recordAll (news ++ more) = (recorder.recordAll news).recordAll more :=
  List.foldl_append

theorem recordAll_unlimited (reports : Array Report) (news : List Report) (dropped : Nat) :
    recordAll ⟨true, none, reports, dropped⟩ news = ⟨true, none, reports ++ news, dropped⟩ := by
  induction news generalizing reports with
  | nil => simp [recordAll]
  | cons report news ih =>
    change recordAll ⟨true, none, reports.push report, dropped⟩ news = _
    rw [ih]
    simp

/-- A recorder with a limit keeps the first reports and counts the others. -/
theorem recordAll_limited (limit : Int) (reports : List Report) (dropped : Nat)
    (news : List Report) (hroom : reports.length ≤ limit.toNat) :
    recordAll ⟨true, some limit, reports.toArray, dropped⟩ news =
      ⟨true, some limit, ((reports ++ news).take limit.toNat).toArray,
        dropped + ((reports ++ news).length - limit.toNat)⟩ := by
  induction news generalizing reports dropped with
  | nil =>
    have hnone : reports.length - limit.toNat = 0 := by omega
    simp [recordAll, List.take_of_length_le hroom, hnone]
  | cons report news ih =>
    change (record ⟨true, some limit, reports.toArray, dropped⟩ report).recordAll news = _
    by_cases hmore : reports.length < limit.toNat
    · have hpush : record ⟨true, some limit, reports.toArray, dropped⟩ report =
          ⟨true, some limit, (reports ++ [report]).toArray, dropped⟩ := by
        have hsize : (reports.length : Int) < limit := by omega
        simp [record, hasRoom, hsize]
      rw [hpush, ih _ _ (by simp; omega)]
      simp
    · have hfull : reports.length = limit.toNat := by omega
      have hdrop : record ⟨true, some limit, reports.toArray, dropped⟩ report =
          ⟨true, some limit, reports.toArray, dropped + 1⟩ := by
        have hsize : ¬(reports.length : Int) < limit := by omega
        simp [record, hasRoom, hsize]
      rw [hdrop, ih _ _ hroom, ← hfull, List.take_left, List.take_left]
      simp only [List.length_append, List.length_cons]
      congr 1
      omega

end Recorder

end Trace

open Trace (Report Recorder)

def Engine.withRecorder (engine : Engine) (recorder : Recorder) : Engine :=
  { engine with recorder }

def Step.overruns : Step → Nat
  | .failed fault => fault.isLimit.toNat
  | _ => 0

def Step.asking : Step → List Report
  | .sent bits _ => [.request bits]
  | _ => []

theorem Step.overruns_of_failsWith {step : Step}
    (h : step.FailsWith fun fault => fault.isLimit = false) : step.overruns = 0 := by
  cases step with
  | failed fault => exact congrArg Bool.toNat h
  | _ => rfl

namespace Machine

/-- What a move reports: whichever recorder listens, it gets these reports and all else is the
    same. -/
def Reports (engine : Engine) (move : Engine → Step × Engine) (news : List Report) : Prop :=
  ∀ recorder, move (engine.withRecorder recorder) =
    ((move engine).1, (move engine).2.withRecorder (recorder.recordAll news))

/-- Reports account for what was done: as many laws as were counted, but for one that the limit
    forbids, and the request that went out, if one did. -/
structure Accountable (engine : Engine) (state : Step × Engine) (news : List Report) : Prop where
  steps : state.2.steps = engine.steps + news.countP Report.isApplied + state.1.overruns
  exchange : news.filter Report.isExchange = state.1.asking
  named : ∀ report ∈ news, report.NamesLaw

variable {engine : Engine} {move : Engine → Step × Engine} {news : List Report}

theorem Accountable.silent {state : Step × Engine}
    (hsteps : state.2.steps = engine.steps + state.1.overruns) (hasking : state.1.asking = []) :
    Accountable engine state [] :=
  ⟨hsteps, hasking.symm, List.forall_mem_nil _⟩

theorem settle_withRecorder (engine : Engine) (recorder : Recorder) (chain : Chain) (w : Term) :
    (engine.withRecorder recorder).settle chain w =
      (engine.settle chain w).withRecorder recorder := by
  have hsends : (engine.withRecorder recorder).sends = engine.sends := rfl
  unfold Engine.settle
  rw [hsends]
  split <;> rfl

theorem reports_close (engine : Engine) (chain : Chain) (w : Term) (stack : List Frame) :
    Reports engine (close · chain w stack) [] := by
  intro recorder
  change (_, (engine.withRecorder recorder).settle chain w) = _
  rw [settle_withRecorder]
  rfl

theorem accountable_close (engine : Engine) (chain : Chain) (w : Term) (stack : List Frame) :
    Accountable engine (close engine chain w stack) [] :=
  .silent (engine.steps_settle chain w) rfl

def newsOf : Law.Verdict → List Report
  | .sends bits => [.request bits]
  | _ => []

theorem reports_obey (engine : Engine) (chain : Chain) (g : Fn) (args : List Term)
    (stack : List Frame) (verdict : Law.Verdict) :
    Reports engine (obey · chain g args stack verdict) (newsOf verdict) := by
  cases verdict with
  | stuck => exact reports_close engine chain chain.current stack
  | becomes term => exact fun _ => rfl
  | fails fault => exact fun _ => rfl
  | needs need term => exact fun _ => rfl
  | sends bits => exact fun _ => rfl

theorem accountable_obey (engine : Engine) (chain : Chain) (g : Fn) (args : List Term)
    (stack : List Frame) {verdict : Law.Verdict}
    (h : verdict.FailsWith fun fault => fault.isLimit = false) :
    Accountable engine (obey engine chain g args stack verdict) (newsOf verdict) := by
  have hoverruns := Step.overruns_of_failsWith (obey_failsWith engine chain g args stack h)
  have hsteps := steps_obey engine chain g args stack verdict
  cases verdict with
  | sends bits => exact ⟨rfl, rfl, by simp [newsOf, Report.NamesLaw]⟩
  | _ => exact .silent (by rw [hsteps, hoverruns]; rfl) rfl

theorem Reports.after {report : Report}
    (h : Reports (engine.report report) move news) :
    Reports engine (fun engine => move (engine.report report)) (report :: news) :=
  fun recorder => h (recorder.record report)

theorem Accountable.after {report : Report} {state : Step × Engine}
    (h : Accountable engine state news) (hplain : report.isExchange = false)
    (happlied : report.isApplied = false) (hnamed : report.NamesLaw) :
    Accountable engine state (report :: news) where
  steps := by rw [List.countP_cons_of_neg (by simp [happlied])]; exact h.steps
  exchange := by rw [List.filter_cons_of_neg (by simp [hplain])]; exact h.exchange
  named := List.forall_mem_cons.2 ⟨hnamed, h.named⟩

theorem Accountable.fired {state : Step × Engine} (h : Accountable engine.charged state news)
    (g : Fn) : Accountable engine state (.applied g.word :: news) where
  steps := by
    have hcharged : engine.charged.steps = engine.steps + 1 := rfl
    have hcount := h.steps
    rw [List.countP_cons_of_pos rfl]
    omega
  exchange := h.exchange
  named := List.forall_mem_cons.2 ⟨⟨g, rfl⟩, h.named⟩

def fire (engine : Engine) (chain : Chain) (g : Fn) (args : List Term) (stack : List Frame)
    (verdict : Law.Verdict) : Step × Engine :=
  match engine.tick g with
  | (engine, .error e) => (.failed (.eval e), engine)
  | (engine, .ok ()) => obey engine chain g args stack verdict

theorem reports_fire (engine : Engine) (chain : Chain) (g : Fn) (args : List Term)
    (stack : List Frame) {verdict : Law.Verdict}
    (h : verdict.FailsWith fun fault => fault.isLimit = false) :
    ∃ news, Reports engine (fire · chain g args stack verdict) news ∧
      Accountable engine (fire engine chain g args stack verdict) news := by
  by_cases hspent : engine.Spent
  · have hstops : ∀ engine : Engine, engine.Spent → fire engine chain g args stack verdict =
        (.failed engine.overLimit, engine.charged) := by
      intro engine hspent
      rw [fire, Engine.tick_of_spent hspent]
      rfl
    refine ⟨[], fun recorder => ?_, ?_⟩
    · have hlistening : (engine.withRecorder recorder).Spent := hspent
      change fire (engine.withRecorder recorder) .. = ((fire engine ..).1, (fire engine ..).2.withRecorder _)
      rw [hstops _ hspent, hstops _ hlistening]
      rfl
    · rw [hstops _ hspent]
      exact .silent rfl rfl
  · have hgoes : ∀ engine : Engine, ¬engine.Spent → fire engine chain g args stack verdict =
        obey (engine.charged.report (.applied g.word)) chain g args stack verdict := by
      intro engine hroom
      rw [fire, Engine.tick_of_not_spent hroom]
    refine ⟨.applied g.word :: newsOf verdict, fun recorder => ?_, ?_⟩
    · have hlistening : ¬(engine.withRecorder recorder).Spent := hspent
      change fire (engine.withRecorder recorder) .. = ((fire engine ..).1, (fire engine ..).2.withRecorder _)
      rw [hgoes _ hspent, hgoes _ hlistening]
      exact (reports_obey (engine.charged.report (.applied g.word)) chain g args stack verdict).after
        recorder
    · rw [hgoes _ hspent]
      have hobey := accountable_obey (engine.charged.report (.applied g.word)) chain g args stack h
      exact Accountable.fired ⟨hobey.steps, hobey.exchange, hobey.named⟩ g

theorem reports_look (book : Book) (engine : Engine) (chain : Chain) (stack : List Frame) :
    ∃ news, Reports engine (look book · chain stack) news ∧
      Accountable engine (look book engine chain stack) news := by
  unfold look
  obtain ⟨head, args⟩ := chain.current.spine
  have hclose : ∃ news, Reports engine (close · chain chain.current stack) news ∧
      Accountable engine (close engine chain chain.current stack) news :=
    ⟨[], reports_close _ _ _ _, accountable_close _ _ _ _⟩
  cases head with
  | var id =>
    dsimp only
    cases book.resolve id with
    | none =>
      have hstuck := accountable_close (engine.report (.stuck id)) chain chain.current stack
      have hreports := reports_close (engine.report (.stuck id)) chain chain.current stack
      exact ⟨[.stuck id], hreports.after,
        Accountable.after ⟨hstuck.steps, hstuck.exchange, hstuck.named⟩ rfl rfl trivial⟩
    | some bound => exact ⟨[], fun _ => rfl, .silent rfl rfl⟩
  | number n | bits text | picture points =>
    cases args with
    | nil => exact hclose
    | cons arg args => exact ⟨[], fun _ => rfl, .silent rfl rfl⟩
  | mark m => cases args <;> exact ⟨[], fun _ => rfl, .silent rfl rfl⟩
  | fn g =>
    have hfails : (∃ news, Reports engine (fun engine => (.failed (.lawless g), engine)) news ∧
        Accountable engine (.failed (.lawless g), engine) news) :=
      ⟨[], fun _ => rfl, .silent rfl rfl⟩
    cases hg : g.arity? with
    | none => cases args <;> simpa only [hg] using hfails
    | some arity =>
      by_cases hlen : args.length < arity
      · cases args <;> simpa only [hg, hlen, if_true] using hclose
      · have hfire := reports_fire engine chain g args stack
          (Law.begin_failsWith g (args.take arity) (q := fun fault => fault.isLimit = false))
        cases args <;> (simp only [hg, hlen, if_false]; exact hfire)

theorem reports_rebuild (engine : Engine) (cells : List (Cell Term Term)) (w : Term)
    (stack : List Frame) : Reports engine (rebuild · cells w stack) [] ∧
      Accountable engine (rebuild engine cells w stack) [] := by
  unfold rebuild
  cases w.cell? with
  | some halves => exact ⟨fun _ => rfl, .silent rfl rfl⟩
  | none => cases place Term.cell cells w <;> exact ⟨fun _ => rfl, .silent rfl rfl⟩

theorem reports_step (book : Book) (engine : Engine) (machine : Machine) :
    ∃ news, Reports engine (step book · machine) news ∧
      Accountable engine (step book engine machine) news := by
  obtain ⟨control, stack⟩ := machine
  cases control with
  | demand term =>
    have hmemo : ∀ recorder, (engine.withRecorder recorder).memo = engine.memo := fun _ => rfl
    unfold Reports
    simp only [step, hmemo]
    cases engine.memo.find? term with
    | some w => exact ⟨[.cached], fun _ => rfl, rfl, rfl, by simp [Report.NamesLaw]⟩
    | none => exact ⟨[], fun _ => rfl, .silent rfl rfl⟩
  | chase chain =>
    have hmemo : ∀ recorder, (engine.withRecorder recorder).memo = engine.memo := fun _ => rfl
    unfold Reports
    simp only [step, hmemo]
    split
    · exact ⟨[], reports_close _ _ _ _, accountable_close _ _ _ _⟩
    · exact reports_look book engine chain stack
  | give w =>
    cases stack with
    | nil => exact ⟨[], fun _ => rfl, .silent rfl rfl⟩
    | cons frame stack =>
      cases frame with
      | unfold chain args => exact ⟨[], fun _ => rfl, .silent rfl rfl⟩
      | law chain g args need =>
        exact ⟨_, reports_obey _ _ _ _ _ _,
          accountable_obey _ _ _ _ _ (Law.onTerm_failsWith Law.blames_notLimit _ _ _ _)⟩
      | force cells => exact ⟨[], reports_rebuild _ _ _ _⟩

theorem reports_answer (engine : Engine) (reply : List Char) (suspended : Suspended) :
    ∃ news, Reports engine (answer · reply suspended) (.reply reply :: news) ∧
      Accountable engine (answer engine reply suspended) news := by
  have hobey := accountable_obey (engine.report (.reply reply)) suspended.chain .send suspended.args
    suspended.stack (Law.onReply_failsWith Law.blames_notLimit reply)
  have hreports := reports_obey (engine.report (.reply reply)) suspended.chain .send suspended.args
    suspended.stack (Law.onReply reply)
  exact ⟨_, hreports.after, hobey.steps, hobey.exchange, hobey.named⟩

structure RunReports (book : Book) (fuel : Nat) (start : Step) (engine : Engine)
    (news : List Report) : Prop where
  same : ∀ recorder, settleFrom book fuel start (engine.withRecorder recorder) =
    (settleFrom book fuel start engine).map fun (rest, after) =>
      (rest, after.withRecorder (recorder.recordAll news))
  steps : ∀ {rest after}, settleFrom book fuel start engine = some (rest, after) →
    after.steps + start.overruns =
      engine.steps + news.countP Report.isApplied + rest.step.overruns
  exchange : ∀ {rest after}, settleFrom book fuel start engine = some (rest, after) →
    start.asking ++ news.filter Report.isExchange = rest.step.asking
  named : ∀ report ∈ news, report.NamesLaw

theorem runReports_rest (book : Book) (fuel : Nat) (rest : Rest) (engine : Engine) :
    RunReports book fuel rest.step engine [] where
  same recorder := by
    rw [settleFrom_rest, settleFrom_rest]
    rfl
  steps h := by
    rw [settleFrom_rest] at h
    cases h
    rfl
  exchange h := by
    rw [settleFrom_rest] at h
    cases h
    exact List.append_nil _
  named := List.forall_mem_nil _

theorem exists_runReports (book : Book) (fuel : Nat) (start : Step) (engine : Engine) :
    ∃ news, RunReports book fuel start engine news := by
  induction fuel generalizing start engine with
  | zero =>
    obtain ⟨machine, rfl⟩ | ⟨rest, rfl⟩ := start.running_or_rest
    · exact ⟨[], fun _ => rfl, nofun, nofun, List.forall_mem_nil _⟩
    · exact ⟨[], runReports_rest ..⟩
  | succ fuel ih =>
    obtain ⟨machine, rfl⟩ | ⟨rest, rfl⟩ := start.running_or_rest
    · obtain ⟨news, hsame, hdone⟩ := reports_step book engine machine
      obtain ⟨more, hrun⟩ := ih (step book engine machine).1 (step book engine machine).2
      refine ⟨news ++ more, fun recorder => ?_, fun h => ?_, fun h => ?_, ?_⟩
      · have hstep : step book (engine.withRecorder recorder) machine = _ := hsame recorder
        rw [settleFrom_running, settleFrom_running, hstep, hrun.same, Recorder.recordAll_append]
      · rw [settleFrom_running] at h
        have hstep := hdone.steps
        have hrest := hrun.steps h
        rw [List.countP_append]
        change _ + 0 = _
        omega
      · rw [settleFrom_running] at h
        rw [List.filter_append, hdone.exchange]
        exact hrun.exchange h
      · exact List.forall_mem_append.2 ⟨hdone.named, hrun.named⟩
    · exact ⟨[], runReports_rest ..⟩

structure ResumeReports (book : Book) (fuel : Nat) (engine : Engine) (suspended : Suspended)
    (reply : List Char) (news : List Report) : Prop where
  same : ∀ recorder, resume book fuel (engine.withRecorder recorder) suspended reply =
    (resume book fuel engine suspended reply).map fun (rest, after) =>
      (rest, after.withRecorder (recorder.recordAll (.reply reply :: news)))
  steps : ∀ {rest after}, resume book fuel engine suspended reply = some (rest, after) →
    after.steps = engine.steps + news.countP Report.isApplied + rest.step.overruns
  exchange : ∀ {rest after}, resume book fuel engine suspended reply = some (rest, after) →
    news.filter Report.isExchange = rest.step.asking
  named : ∀ report ∈ news, report.NamesLaw

theorem exists_resumeReports (book : Book) (fuel : Nat) (engine : Engine) (suspended : Suspended)
    (reply : List Char) : ∃ news, ResumeReports book fuel engine suspended reply news := by
  obtain ⟨news, hsame, hdone⟩ := reports_answer engine reply suspended
  obtain ⟨more, hrun⟩ :=
    exists_runReports book fuel (answer engine reply suspended).1 (answer engine reply suspended).2
  refine ⟨news ++ more, fun recorder => ?_, fun h => ?_, fun h => ?_, ?_⟩
  · have hanswer : answer (engine.withRecorder recorder) reply suspended = _ := hsame recorder
    have hresume : ∀ engine, resume book fuel engine suspended reply =
        settleFrom book fuel (answer engine reply suspended).1
          (answer engine reply suspended).2 := fun _ => rfl
    rw [hresume, hresume, hanswer, hrun.same, ← List.cons_append, Recorder.recordAll_append]
  · have hanswer := hdone.steps
    have hrest := hrun.steps h
    rw [List.countP_append]
    omega
  · rw [List.filter_append, hdone.exchange]
    exact hrun.exchange h
  · exact List.forall_mem_append.2 ⟨hdone.named, hrun.named⟩

end Machine

def told (trips : List Trip) : List Report :=
  trips.flatMap fun trip => [.request trip.1, .reply trip.2]

/-- How an exchange with a link that has these replies in stock, and has heard these requests, shows
    in the reports. -/
inductive Told (replies sent : List (List Char)) :
    List Report → Except Fault Term → Link.Recording → Prop where
  | answered (trips : List Trip) (left : List (List Char)) (result : Except Fault Term)
      (stock : replies = trips.map Prod.snd ++ left) :
      Told replies sent (told trips) result ⟨left, sent ++ trips.map Prod.fst⟩
  | unanswered (trips : List Trip) (bits : List Char) (stock : replies = trips.map Prod.snd) :
      Told replies sent (told trips ++ [.request bits]) (.error (.protocol (.link (.noReply bits))))
        ⟨[], sent ++ trips.map Prod.fst ++ [bits]⟩

theorem Told.cons {replies sent : List (List Char)} {log : List Report}
    {result : Except Fault Term} {link : Link.Recording} {bits : List Char} (reply : List Char)
    (h : Told replies (sent ++ [bits]) log result link) :
    Told (reply :: replies) sent (.request bits :: .reply reply :: log) result link := by
  cases h with
  | answered trips left result stock =>
    have hall : Told (reply :: replies) sent _ _ _ :=
      .answered ((bits, reply) :: trips) left result (congrArg (reply :: ·) stock)
    simpa [told] using hall
  | unanswered trips bits' stock =>
    have hall : Told (reply :: replies) sent _ _ _ :=
      .unanswered ((bits, reply) :: trips) bits' (congrArg (reply :: ·) stock)
    simpa [told] using hall

def overrunsOf : Except Fault Term → Nat
  | .error fault => fault.isLimit.toNat
  | .ok _ => 0

namespace Engine

open Machine (exists_resumeReports)

structure ConversationReports (book : Book) (fuel rounds : Nat) (rest : Rest) (engine : Engine)
    (replies sent : List (List Char)) (news : List Report) : Prop where
  same : ∀ recorder, converse book fuel Link.recorded rounds rest (engine.withRecorder recorder)
      ⟨replies, sent⟩ =
    (converse book fuel Link.recorded rounds rest engine ⟨replies, sent⟩).map
      fun (result, after, link) => (result, after.withRecorder (recorder.recordAll news), link)
  steps : ∀ {result after link},
    converse book fuel Link.recorded rounds rest engine ⟨replies, sent⟩ =
      some (result, after, link) →
    after.steps + rest.step.overruns =
      engine.steps + news.countP Report.isApplied + overrunsOf result
  told : ∀ {result after link},
    converse book fuel Link.recorded rounds rest engine ⟨replies, sent⟩ =
      some (result, after, link) →
    Told replies sent (rest.step.asking ++ news.filter Report.isExchange) result link
  named : ∀ report ∈ news, report.NamesLaw

theorem told_nothing_but (sent : List (List Char)) (bits : List Char) :
    Told [] sent [.request bits] (.error (.protocol (.link (.noReply bits))))
      ⟨[], sent ++ [bits]⟩ := by
  have hall : Told [] sent _ _ _ := .unanswered [] bits rfl
  simpa [SignalCalculus.told] using hall

theorem told_nothing (replies sent : List (List Char)) (result : Except Fault Term) :
    Told replies sent [] result ⟨replies, sent⟩ := by
  have hall : Told replies sent _ _ _ := .answered [] replies result rfl
  simpa [SignalCalculus.told] using hall

variable {book : Book} {fuel rounds : Nat} {engine : Engine} {replies sent : List (List Char)}

theorem conversationReports_over {rest : Rest} (result : Except Fault Term)
    (hover : ∀ engine, converse book fuel Link.recorded rounds rest engine ⟨replies, sent⟩ =
      some (result, engine, ⟨replies, sent⟩))
    (hoverruns : rest.step.overruns = overrunsOf result) (hasking : rest.step.asking = []) :
    ConversationReports book fuel rounds rest engine replies sent [] where
  same recorder := by
    rw [hover, hover]
    rfl
  steps h := by
    rw [hover] at h
    cases h
    simp [hoverruns]
  told h := by
    rw [hover] at h
    cases h
    rw [hasking]
    exact told_nothing replies sent result
  named := List.forall_mem_nil _

theorem exists_conversationReports (book : Book) (fuel rounds : Nat) (rest : Rest) (engine : Engine)
    (replies sent : List (List Char)) :
    ∃ news, ConversationReports book fuel rounds rest engine replies sent news := by
  induction rounds generalizing rest engine replies sent with
  | zero =>
    refine ⟨[], ?_⟩
    cases rest with
    | sent bits suspended => exact ⟨fun _ => rfl, nofun, nofun, List.forall_mem_nil _⟩
    | finished w => exact conversationReports_over (.ok w) (fun _ => rfl) rfl rfl
    | failed fault => exact conversationReports_over (.error fault) (fun _ => rfl) rfl rfl
  | succ rounds ih =>
    cases rest with
    | finished w =>
      exact ⟨[], conversationReports_over (.ok w) (fun _ => rfl) rfl rfl⟩
    | failed fault =>
      exact ⟨[], conversationReports_over (.error fault) (fun _ => rfl) rfl rfl⟩
    | sent bits suspended =>
      cases replies with
      | nil =>
        refine ⟨[], fun _ => rfl, fun h => ?_, fun h => ?_, List.forall_mem_nil _⟩
        all_goals cases h
        · rfl
        · exact told_nothing_but sent bits
      | cons reply replies =>
        obtain ⟨first, hresume⟩ := exists_resumeReports book fuel engine suspended reply
        have hconverse : ∀ engine, converse book fuel Link.recorded (rounds + 1)
            (.sent bits suspended) engine ⟨reply :: replies, sent⟩ =
            (Machine.resume book fuel engine suspended reply).bind fun (rest, engine) =>
              converse book fuel Link.recorded rounds rest engine ⟨replies, sent ++ [bits]⟩ :=
          fun _ => rfl
        cases hrest : Machine.resume book fuel engine suspended reply with
        | none =>
          have hnone := hconverse engine
          rw [hrest] at hnone
          refine ⟨[], fun recorder => ?_, fun h => ?_, fun h => ?_, List.forall_mem_nil _⟩
          · rw [hconverse, hresume.same, hrest, hnone]
            rfl
          all_goals
            rw [hnone] at h
            cases h
        | some state =>
          obtain ⟨rest, between⟩ := state
          obtain ⟨more, hmore⟩ := ih rest between replies (sent ++ [bits])
          have hgoes := hconverse engine
          rw [hrest] at hgoes
          have hsteps := hresume.steps hrest
          have hexchange := hresume.exchange hrest
          refine ⟨.reply reply :: first ++ more, fun recorder => ?_, fun h => ?_, fun h => ?_, ?_⟩
          · rw [hconverse, hresume.same, hrest, hgoes, Recorder.recordAll_append]
            exact hmore.same _
          · have hrounds := hmore.steps (hgoes.symm.trans h)
            have hnone : (Rest.sent bits suspended).step.overruns = 0 := rfl
            rw [List.cons_append, List.countP_cons_of_neg (by simp [Report.isApplied]),
              List.countP_append]
            omega
          · have hlog := (hmore.told (hgoes.symm.trans h)).cons reply
            rw [← hexchange, ← List.filter_append] at hlog
            exact hlog
          · refine List.forall_mem_append.2 ⟨List.forall_mem_cons.2 ⟨trivial, hresume.named⟩,
              hmore.named⟩

end Engine

end SignalCalculus
