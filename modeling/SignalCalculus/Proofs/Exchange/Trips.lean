import SignalCalculus.Link.Exchange
import SignalCalculus.Proofs.Memo.Conversation
import SignalCalculus.Proofs.Stepped.Calls

set_option autoImplicit false

namespace SignalCalculus

theorem Machine.settleFrom_unique {book : Book} {first second : Nat} {start : Step} {engine : Engine}
    {out out' : Rest × Engine} (h : settleFrom book first start engine = some out)
    (h' : settleFrom book second start engine = some out') : out = out' := by
  have hmore := settleFrom_mono (Nat.le_max_left first second) h
  have hmore' := settleFrom_mono (Nat.le_max_right first second) h'
  exact Option.some.inj (hmore.symm.trans hmore')

namespace Exchange

variable {σ : Type}

def answers (carrier : Carrier σ) : List (List Char) → σ → List Reply × σ
  | [], carried => ([], carried)
  | bits :: rest, carried =>
    let (reply, carried) := carrier bits carried
    let (replies, carried) := answers carrier rest carried
    (reply :: replies, carried)

theorem answers_concat (carrier : Carrier σ) (requests : List (List Char)) (bits : List Char)
    (carried : σ) :
    answers carrier (requests ++ [bits]) carried =
      ((answers carrier requests carried).1 ++ [(carrier bits (answers carrier requests carried).2).1],
        (carrier bits (answers carrier requests carried).2).2) := by
  induction requests generalizing carried with
  | nil => rfl
  | cons first rest ih =>
    simp only [List.cons_append, answers]
    rw [ih]

structure Query (σ : Type) where
  book : Book
  id : Nat
  carrier : Carrier σ
  engine : Engine
  carried : σ
  term : Option Term

namespace Query

def plain (query : Query σ) (fuel : Nat) : Option (Except Fault Term × Engine × σ) :=
  query.engine.eval query.id query.book fuel query.carrier.link query.carried query.term

/-- The loop has made these round trips, requests with their replies, and the machine is at rest. -/
inductive Trips (query : Query σ) : List (List Char × List Char) → Rest → Engine → σ → Prop
  | start {term : Term} {fuel : Nat} {halt : Rest} {engine : Engine} :
    query.term = some term →
    Machine.run query.book fuel (query.engine.bind query.id) (Machine.forcing term) =
      some (halt, engine) →
    Trips query [] halt engine query.carried
  | next {trips : List (List Char × List Char)} {bits reply : List Char} {suspended : Suspended}
      {halt : Rest} {engine engine' : Engine} {carried carried' : σ} {fuel : Nat} :
    Trips query trips (.sent bits suspended) engine carried →
    query.carrier bits carried = (.ok reply, carried') →
    Machine.resume query.book fuel engine suspended reply = some (halt, engine') →
    Trips query (trips ++ [(bits, reply)]) halt engine' carried'

/-- The loop has ended after these requests. -/
inductive Ends (query : Query σ) : List (List Char) → Except Fault Term → Engine → σ → Prop
  | empty : query.term = none →
    Ends query [] (.error (.eval .emptyTerm)) query.engine query.carried
  | finished {trips : List (List Char × List Char)} {w : Term} {engine : Engine} {carried : σ} :
    query.Trips trips (.finished w) engine carried →
    Ends query (trips.map Prod.fst) (.ok w) engine carried
  | failed {trips : List (List Char × List Char)} {fault : Fault} {engine : Engine} {carried : σ} :
    query.Trips trips (.failed fault) engine carried →
    Ends query (trips.map Prod.fst) (.error fault) engine carried
  | unanswered {trips : List (List Char × List Char)} {bits : List Char} {suspended : Suspended}
      {e : LinkError} {engine : Engine} {carried carried' : σ} :
    query.Trips trips (.sent bits suspended) engine carried →
    query.carrier bits carried = (.error e, carried') →
    Ends query (trips.map Prod.fst ++ [bits]) (.error (.protocol (.link e))) engine carried'

section Loop

variable {query : Query σ} {trips : List (List Char × List Char)} {halt : Rest}
  {engine engine' : Engine} {carried carried' : σ} {result : Except Fault Term}

theorem Trips.answers_eq (h : query.Trips trips halt engine carried) :
    answers query.carrier (trips.map Prod.fst) query.carried =
      (trips.map fun trip => .ok trip.2, carried) := by
  induction h with
  | start hterm hrun => rfl
  | next before hcarrier hrun ih => simp [answers_concat, ih, hcarrier]

theorem Trips.fed (h : query.Trips trips halt engine carried) :
    ∃ term, query.term = some term ∧
      Machine.Fed term (trips.map Prod.snd) (trips.map Prod.fst ++ halt.asked) halt := by
  induction h with
  | start hterm hrun => exact ⟨_, hterm, .start hrun⟩
  | next before hcarrier hrun ih =>
    obtain ⟨term, hterm, hfed⟩ := ih
    refine ⟨term, hterm, ?_⟩
    simpa [Rest.asked] using hfed.reply hrun

theorem plain_eq_some {fuel : Nat} {term : Term} {out : Except Fault Term × Engine × σ}
    (hterm : query.term = some term) :
    query.plain fuel = some out ↔ ∃ halt engine,
      Machine.run query.book fuel (query.engine.bind query.id) (Machine.forcing term) =
        some (halt, engine) ∧
      engine.converse query.book fuel query.carrier.link fuel halt query.carried = some out := by
  simp only [plain, hterm, Engine.eval, Option.bind_eq_bind, Option.bind_eq_some_iff, Prod.exists]

theorem converse_answered {fuel rounds : Nat} {bits reply : List Char} {suspended : Suspended}
    {out : Except Fault Term × Engine × σ}
    (hcarrier : query.carrier bits carried = (.ok reply, carried')) :
    engine.converse query.book fuel query.carrier.link rounds (.sent bits suspended) carried =
        some out ↔
      ∃ rounds' halt engine', rounds = rounds' + 1 ∧
        Machine.resume query.book fuel engine suspended reply = some (halt, engine') ∧
        engine'.converse query.book fuel query.carrier.link rounds' halt carried' = some out := by
  have hlink : query.carrier.link bits carried = (.ok reply, carried') := by
    rw [Carrier.link, hcarrier]
    rfl
  cases rounds with
  | zero => simp [Engine.converse]
  | succ rounds =>
    simp only [Engine.converse, hlink, Option.bind_eq_bind, Option.bind_eq_some_iff, Prod.exists]
    simp

theorem converse_unanswered {fuel rounds : Nat} {bits : List Char} {suspended : Suspended}
    {e : LinkError} (hcarrier : query.carrier bits carried = (.error e, carried')) :
    engine.converse query.book fuel query.carrier.link (rounds + 1) (.sent bits suspended) carried =
      some (.error (.protocol (.link e)), engine, carried') := by
  have hlink : query.carrier.link bits carried = (.error (.protocol (.link e)), carried') := by
    rw [Carrier.link, hcarrier]
    rfl
  rw [Engine.converse, hlink]

/-- From what the loop has reached, the conversation halts with what the whole evaluation halts
    with: a machine that comes to rest with more fuel or less comes to the same rest. -/
theorem Trips.converse (h : query.Trips trips halt engine carried) {fuel : Nat}
    {out : Except Fault Term × Engine × σ} (hplain : query.plain fuel = some out) :
    ∃ rounds, trips.length + rounds = fuel ∧
      engine.converse query.book fuel query.carrier.link rounds halt carried = some out := by
  induction h with
  | start hterm hrun =>
    obtain ⟨halt', engine', hrun', hconverse⟩ := (plain_eq_some hterm).1 hplain
    cases Machine.settleFrom_unique hrun hrun'
    exact ⟨fuel, by simp, hconverse⟩
  | next before hcarrier hrun ih =>
    obtain ⟨rounds, hrounds, hconverse⟩ := ih
    obtain ⟨rounds', halt', engine', rfl, hrun', hlater⟩ := (converse_answered hcarrier).1 hconverse
    cases Machine.settleFrom_unique hrun hrun'
    refine ⟨rounds', ?_, hlater⟩
    simp only [List.length_append, List.length_singleton]
    omega

theorem Trips.resumes {bits reply : List Char} {suspended : Suspended}
    (h : query.Trips trips (.sent bits suspended) engine carried)
    (hcarrier : query.carrier bits carried = (.ok reply, carried')) {fuel : Nat}
    {out : Except Fault Term × Engine × σ} (hplain : query.plain fuel = some out) :
    ∃ halt engine', Machine.resume query.book fuel engine suspended reply = some (halt, engine') := by
  obtain ⟨rounds, -, hconverse⟩ := h.converse hplain
  obtain ⟨_, halt, engine', -, hrun, -⟩ := (converse_answered hcarrier).1 hconverse
  exact ⟨halt, engine', hrun⟩

theorem Trips.plain (h : query.Trips trips halt engine carried)
    {out : Except Fault Term × Engine × σ}
    (hout : ∃ enough, ∀ fuel rounds, enough ≤ fuel → enough ≤ rounds →
      engine.converse query.book fuel query.carrier.link rounds halt carried = some out) :
    ∃ fuel, query.plain fuel = some out := by
  induction h with
  | @start term fuel halt engine hterm hrun =>
    obtain ⟨enough, hout⟩ := hout
    have hmore := Machine.settleFrom_mono (Nat.le_max_left fuel enough) hrun
    have hlarge := Nat.le_max_right fuel enough
    exact ⟨max fuel enough, (plain_eq_some hterm).2 ⟨_, _, hmore, hout _ _ hlarge hlarge⟩⟩
  | @next _ _ _ _ _ _ _ _ _ fuel before hcarrier hrun ih =>
    obtain ⟨enough, hout⟩ := hout
    refine ih ⟨max fuel (enough + 1), fun fuel' rounds hfuel hrounds => ?_⟩
    have hmore := Machine.settleFrom_mono (show fuel ≤ fuel' by omega) hrun
    have hlater := hout fuel' (rounds - 1) (by omega) (by omega)
    exact (converse_answered hcarrier).2 ⟨rounds - 1, _, _, by omega, hmore, hlater⟩

theorem Ends.plain {requests : List (List Char)} (h : query.Ends requests result engine carried) :
    ∃ fuel, query.plain fuel = some (result, engine, carried) := by
  cases h with
  | empty hterm => exact ⟨0, by simp [Query.plain, hterm, Engine.eval]⟩
  | finished htrips => exact htrips.plain ⟨0, fun _ _ _ _ => Engine.converse_finished ..⟩
  | failed htrips => exact htrips.plain ⟨0, fun _ _ _ _ => Engine.converse_failed ..⟩
  | unanswered htrips hcarrier =>
    refine htrips.plain ⟨1, fun fuel rounds _ hrounds => ?_⟩
    obtain ⟨rounds, rfl⟩ := Nat.exists_eq_add_of_le' hrounds
    exact converse_unanswered hcarrier

theorem Ends.unique {requests : List (List Char)} (h : query.Ends requests result engine carried)
    {fuel : Nat} {out : Except Fault Term × Engine × σ} (hplain : query.plain fuel = some out) :
    out = (result, engine, carried) := by
  cases h with
  | empty hterm =>
    simp only [Query.plain, hterm, Engine.eval, Option.some.injEq] at hplain
    exact hplain.symm
  | finished htrips =>
    obtain ⟨rounds, -, hconverse⟩ := htrips.converse hplain
    rw [Engine.converse_finished] at hconverse
    exact (Option.some.inj hconverse).symm
  | failed htrips =>
    obtain ⟨rounds, -, hconverse⟩ := htrips.converse hplain
    rw [Engine.converse_failed] at hconverse
    exact (Option.some.inj hconverse).symm
  | unanswered htrips hcarrier =>
    obtain ⟨rounds, -, hconverse⟩ := htrips.converse hplain
    cases rounds with
    | zero => cases hconverse
    | succ rounds =>
      rw [converse_unanswered hcarrier] at hconverse
      exact (Option.some.inj hconverse).symm

theorem Trips.length_lt {bits : List Char} {suspended : Suspended}
    (h : query.Trips trips (.sent bits suspended) engine carried) {fuel : Nat}
    {out : Except Fault Term × Engine × σ} (hplain : query.plain fuel = some out) :
    trips.length < fuel := by
  obtain ⟨rounds, hrounds, hconverse⟩ := h.converse hplain
  cases rounds with
  | zero => cases hconverse
  | succ rounds => omega

theorem Ends.length_le {requests : List (List Char)}
    (h : query.Ends requests result engine carried) {fuel : Nat}
    {out : Except Fault Term × Engine × σ} (hplain : query.plain fuel = some out) :
    requests.length ≤ fuel := by
  cases h with
  | empty hterm => simp
  | finished htrips | failed htrips =>
    obtain ⟨rounds, hrounds, -⟩ := htrips.converse hplain
    rw [List.length_map]
    omega
  | unanswered htrips hcarrier =>
    have hlength := htrips.length_lt hplain
    simp only [List.length_append, List.length_map, List.length_singleton]
    omega

theorem Ends.answers_eq {requests : List (List Char)}
    (h : query.Ends requests result engine carried) :
    (answers query.carrier requests query.carried).2 = carried := by
  cases h with
  | empty hterm => rfl
  | finished htrips | failed htrips => rw [htrips.answers_eq]
  | unanswered htrips hcarrier => simp [answers_concat, htrips.answers_eq, hcarrier]

theorem Ends.fed {requests : List (List Char)} (h : query.Ends requests result engine carried) :
    ∃ replies, replies.map Except.ok <+: (answers query.carrier requests query.carried).1 ∧
      (requests = [] ∨ ∃ term halt, query.term = some term ∧
        Machine.Fed term replies requests halt) := by
  cases h with
  | empty hterm => exact ⟨[], List.nil_prefix, .inl rfl⟩
  | @finished trips _ _ _ htrips | @failed trips _ _ _ htrips =>
    obtain ⟨term, hterm, hfed⟩ := htrips.fed
    refine ⟨trips.map Prod.snd, ?_, .inr ⟨term, _, hterm, by simpa [Rest.asked] using hfed⟩⟩
    simp [htrips.answers_eq, Function.comp_def]
  | @unanswered trips _ _ _ _ _ _ htrips hcarrier =>
    obtain ⟨term, hterm, hfed⟩ := htrips.fed
    refine ⟨trips.map Prod.snd, ?_, .inr ⟨term, _, hterm, hfed⟩⟩
    simp [answers_concat, htrips.answers_eq, Function.comp_def]

end Loop

end Query

end Exchange

end SignalCalculus
