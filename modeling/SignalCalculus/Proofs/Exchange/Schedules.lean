import SignalCalculus.Proofs.Exchange.Trips
import SignalCalculus.Proofs.Machine.Families

set_option autoImplicit false

/-!
# Schedules of the two tasks

Whatever the order in which the reducing and the serving task make their moves, the two are never
further apart than one request: one situation leads to the next, and each of them belongs to a point
of the plain loop. So a run makes the requests of the plain loop, ends as it ends, and ends if it
ends. No side ever finds the other gone.
-/

namespace SignalCalculus.Exchange

variable {σ : Type}

namespace Server

def AtEase (count : Nat) : Server → Prop
  | .listening => True
  | .closing number => number < count
  | _ => False

theorem atEase_listening (count : Nat) : listening.AtEase count := trivial

theorem AtEase.cases {count : Nat} {server : Server} (h : server.AtEase count) :
    server = .listening ∨ ∃ number, number < count ∧ server = .closing number := by
  cases server with
  | listening => exact .inl rfl
  | closing number => exact .inr ⟨number, h, rfl⟩
  | holding number bits => exact h.elim
  | answering number reply => exact h.elim
  | stopped => exact h.elim

end Server

/-- These tickets belong to these requests, and the client has closed its end of all of them. -/
def Spent (tickets : List Ticket) (requests : List (List Char)) : Prop :=
  tickets.map (fun ticket => (ticket.bits, ticket.receiving)) = requests.map fun bits => (bits, false)

namespace Query

/-- How the tasks can stand to each other, and to the plain loop. -/
inductive Tracks (query : Query σ) : State σ → Prop
  | fresh : Tracks query (.initial query.engine query.carried query.term)
  | offering {trips : List (List Char × List Char)} {bits : List Char} {suspended : Suspended}
      {engine : Engine} {carried : σ} {past : List Ticket} {server : Server} :
    query.Trips trips (.sent bits suspended) engine carried →
    Spent past (trips.map Prod.fst) → server.AtEase past.length →
    Tracks query ⟨.offering past.length suspended, server, past ++ [⟨bits, none, true, true⟩],
      engine, carried⟩
  | taken {trips : List (List Char × List Char)} {bits : List Char} {suspended : Suspended}
      {engine : Engine} {carried : σ} {past : List Ticket} :
    query.Trips trips (.sent bits suspended) engine carried → Spent past (trips.map Prod.fst) →
    Tracks query ⟨.awaiting past.length suspended, .holding past.length bits,
      past ++ [⟨bits, none, true, true⟩], engine, carried⟩
  | served {trips : List (List Char × List Char)} {bits : List Char} {suspended : Suspended}
      {engine : Engine} {carried carried' : σ} {past : List Ticket} {reply : Reply} :
    query.Trips trips (.sent bits suspended) engine carried → Spent past (trips.map Prod.fst) →
    query.carrier bits carried = (reply, carried') →
    Tracks query ⟨.awaiting past.length suspended, .answering past.length reply,
      past ++ [⟨bits, none, true, true⟩], engine, carried'⟩
  | posted {trips : List (List Char × List Char)} {bits : List Char} {suspended : Suspended}
      {engine : Engine} {carried carried' : σ} {past : List Ticket} {reply : Reply} {server : Server}
      {sending : Bool} :
    query.Trips trips (.sent bits suspended) engine carried → Spent past (trips.map Prod.fst) →
    query.carrier bits carried = (reply, carried') →
    server = .closing past.length ∨ server = .listening →
    Tracks query ⟨.awaiting past.length suspended, server,
      past ++ [⟨bits, some reply, sending, true⟩], engine, carried'⟩
  | informed {trips : List (List Char × List Char)} {bits : List Char} {suspended : Suspended}
      {engine : Engine} {carried carried' : σ} {tickets : List Ticket} {reply : Reply}
      {server : Server} :
    query.Trips trips (.sent bits suspended) engine carried →
    query.carrier bits carried = (reply, carried') →
    Spent tickets (trips.map Prod.fst ++ [bits]) → server.AtEase tickets.length →
    Tracks query ⟨.informed reply suspended, server, tickets, engine, carried'⟩
  | ended {requests : List (List Char)} {result : Except Fault Term} {engine : Engine} {carried : σ}
      {tickets : List Ticket} {server : Server} :
    query.Ends requests result engine carried → Spent tickets requests →
    server.AtEase tickets.length ∨ server = .stopped →
    Tracks query ⟨.ended result, server, tickets, engine, carried⟩

end Query

/-- Possible moves one after the other, each with as much fuel as it needs. -/
inductive Run (query : Query σ) : List Move → State σ → Prop
  | none : Run query [] (.initial query.engine query.carried query.term)
  | next {moves : List Move} {state state' : State σ} {fuel : Nat} {made : Move} :
    Run query moves state →
    move query.book query.id fuel query.carrier state made = .next state' →
    Run query (moves ++ [made]) state'

section Tickets

variable {tickets : List Ticket} {requests : List (List Char)}

theorem modify_last (past : List Ticket) (ticket : Ticket) (f : Ticket → Ticket) :
    (past ++ [ticket]).modify past.length f = past ++ [f ticket] := by
  induction past with
  | nil => rfl
  | cons first rest ih => simpa using ih

theorem modify_past {past : List Ticket} {number : Nat} (h : number < past.length) (ticket : Ticket)
    (f : Ticket → Ticket) :
    (past ++ [ticket]).modify number f = past.modify number f ++ [ticket] := by
  induction past generalizing number with
  | nil => simp at h
  | cons first rest ih =>
    cases number with
    | zero => rfl
    | succ number =>
      simp only [List.length_cons, Nat.add_lt_add_iff_right] at h
      simpa using ih h

theorem Spent.length_eq (h : Spent tickets requests) : tickets.length = requests.length := by
  simpa using congrArg List.length h

theorem Spent.map_bits (h : Spent tickets requests) : tickets.map Ticket.bits = requests := by
  have hfirst := congrArg (List.map Prod.fst) h
  simpa [Function.comp_def] using hfirst

theorem Spent.filter_receiving (h : Spent tickets requests) :
    tickets.filter Ticket.receiving = [] := by
  rw [List.filter_eq_nil_iff]
  intro ticket hmem
  have hpair : (ticket.bits, ticket.receiving) ∈ requests.map fun bits => (bits, false) :=
    h ▸ List.mem_map_of_mem hmem
  obtain ⟨bits, -, hsame⟩ := List.mem_map.1 hpair
  simp [← (Prod.mk.inj hsame).2]

theorem Spent.concat (h : Spent tickets requests) (bits : List Char) (message : Option Reply)
    (sending : Bool) : Spent (tickets ++ [⟨bits, message, sending, false⟩]) (requests ++ [bits]) := by
  unfold Spent at h ⊢
  simp [h]

theorem Spent.close (h : Spent tickets requests) (number : Nat) :
    Spent (tickets.modify number fun ticket => { ticket with sending := false }) requests := by
  unfold Spent at h ⊢
  rw [← h]
  clear h
  induction tickets generalizing number with
  | nil => simp
  | cons first rest ih =>
    cases number with
    | zero => simp
    | succ number => simpa using ih number

end Tickets

namespace Query

variable {query : Query σ} {state state' : State σ}

theorem Tracks.rest {trips : List (List Char × List Char)} {halt : Rest} {client : Client}
    {engine engine' : Engine} {carried : σ} {tickets : List Ticket} {server : Server}
    (h : query.Trips trips halt engine' carried) (hspent : Spent tickets (trips.map Prod.fst))
    (hserver : server.AtEase tickets.length) :
    query.Tracks (State.rest ⟨client, server, tickets, engine, carried⟩ engine' halt) := by
  cases halt with
  | sent bits suspended => exact .offering h hspent hserver
  | finished w => exact .ended (.finished h) hspent (.inl hserver)
  | failed fault => exact .ended (.failed h) hspent (.inl hserver)

theorem ofRest_eq_next {rested : Option (Rest × Engine)} :
    Moved.ofRest state rested = .next state' ↔
      ∃ halt engine, rested = some (halt, engine) ∧ state.rest engine halt = state' := by
  match rested with
  | none => simp [Moved.ofRest]
  | some (halt, engine) =>
    simp only [Moved.ofRest, Moved.next.injEq, Option.some.injEq, Prod.mk.injEq]
    constructor
    · intro hstate
      exact ⟨halt, engine, ⟨rfl, rfl⟩, hstate⟩
    · rintro ⟨halt', engine', ⟨rfl, rfl⟩, hstate⟩
      exact hstate

theorem AtEase.close {client : Client} {server : Server} {tickets : List Ticket} {engine : Engine}
    {carried : σ} {count fuel : Nat} (h : server.AtEase count)
    (hmove : move query.book query.id fuel query.carrier ⟨client, server, tickets, engine, carried⟩
      .close = .next state') :
    ∃ number, number < count ∧ state' = ⟨client, .listening,
      tickets.modify number fun ticket => { ticket with sending := false }, engine, carried⟩ := by
  obtain rfl | ⟨number, hnumber, rfl⟩ := h.cases
  · cases hmove
  · cases hmove
    exact ⟨number, hnumber, rfl⟩

/-- One move leads from one situation to the next. -/
theorem Tracks.next {fuel : Nat} {made : Move} (h : query.Tracks state)
    (hmove : move query.book query.id fuel query.carrier state made = .next state') :
    query.Tracks state' := by
  cases h with
  | fresh =>
    cases made with
    | start =>
      simp only [move, State.initial] at hmove
      cases hterm : query.term with
      | none =>
        simp only [hterm, Moved.next.injEq] at hmove
        subst hmove
        exact .ended (.empty hterm) rfl (.inl trivial)
      | some term =>
        simp only [hterm, ofRest_eq_next] at hmove
        obtain ⟨halt, engine, hrun, rfl⟩ := hmove
        exact .rest (.start hterm hrun) rfl trivial
    | _ => simp [move, State.initial] at hmove
  | @offering trips bits suspended engine carried past server htrips hspent hserver =>
    -- The server may still have the channel of an earlier request to close.
    cases made with
    | handOver =>
      obtain rfl | ⟨number, -, rfl⟩ := hserver.cases
      · simp only [move, List.getElem?_concat_length, Moved.next.injEq] at hmove
        subst hmove
        exact .taken htrips hspent
      · simp [move] at hmove
    | close =>
      obtain ⟨number, hnumber, rfl⟩ := AtEase.close hserver hmove
      have hafter := Tracks.offering htrips (hspent.close number) (Server.atEase_listening _)
      rw [List.length_modify] at hafter
      rw [modify_past hnumber]
      exact hafter
    | _ => obtain rfl | ⟨number, -, rfl⟩ := hserver.cases <;> simp [move] at hmove
  | taken htrips hspent =>
    cases made with
    | serve =>
      simp only [move, Moved.next.injEq] at hmove
      subst hmove
      exact .served htrips hspent rfl
    | _ => simp [move] at hmove
  | @served trips bits suspended engine carried carried' past reply htrips hspent hcarrier =>
    cases made with
    | post =>
      simp only [move, List.getElem?_concat_length, Moved.next.injEq] at hmove
      subst hmove
      rw [modify_last]
      exact .posted htrips hspent hcarrier (.inl rfl)
    | _ => simp [move] at hmove
  | @posted trips bits suspended engine carried carried' past reply server sending htrips hspent
      hcarrier hserver =>
    -- The reply can be collected before the server has closed its end, or after.
    cases made with
    | close =>
      rcases hserver with rfl | rfl
      · cases hmove
        rw [modify_last]
        exact .posted htrips hspent hcarrier (.inr rfl)
      · cases hmove
    | collect =>
      simp only [move, List.getElem?_concat_length, Moved.next.injEq] at hmove
      subst hmove
      rw [modify_last]
      refine .informed htrips hcarrier (hspent.concat bits none sending) ?_
      rcases hserver with rfl | rfl
      · simp [Server.AtEase]
      · trivial
    | _ => rcases hserver with rfl | rfl <;> simp [move] at hmove
  | @informed trips bits suspended engine carried carried' tickets reply server htrips hcarrier hspent
      hserver =>
    cases made with
    | close =>
      obtain ⟨number, -, rfl⟩ := AtEase.close hserver hmove
      exact .informed htrips hcarrier (hspent.close number) trivial
    | resume =>
      cases reply with
      | error e =>
        cases hmove
        exact .ended (.unanswered htrips hcarrier) hspent (.inl hserver)
      | ok reply =>
        simp only [move, ofRest_eq_next] at hmove
        obtain ⟨halt, engine', hrun, rfl⟩ := hmove
        refine .rest (htrips.next hcarrier hrun) ?_ hserver
        simpa using hspent
    | _ => obtain rfl | ⟨number, -, rfl⟩ := hserver.cases <;> simp [move] at hmove
  | @ended requests result engine carried tickets server hends hspent hserver =>
    cases made with
    | close =>
      rcases hserver with hserver | rfl
      · obtain ⟨number, -, rfl⟩ := AtEase.close hserver hmove
        exact .ended hends (hspent.close number) (.inl trivial)
      · cases hmove
    | stop =>
      cases server <;> cases hmove
      exact .ended hends hspent (.inr rfl)
    | _ =>
      rcases hserver with hserver | rfl
      · obtain rfl | ⟨number, -, rfl⟩ := hserver.cases <;> simp [move] at hmove
      · simp [move] at hmove

theorem Tracks.in_touch {fuel : Nat} {made : Move} (h : query.Tracks state)
    (hmove : move query.book query.id fuel query.carrier state made = .next state') :
    made ≠ .turnAway ∧ made ≠ .drop ∧ made ≠ .forsake := by
  refine ⟨?_, ?_, ?_⟩
  · rintro rfl
    cases h with
    | offering _ _ hserver => obtain rfl | ⟨number, -, rfl⟩ := hserver.cases <;> cases hmove
    | _ => cases hmove
  · rintro rfl
    cases h with
    | served htrips hspent hcarrier => simp [move] at hmove
    | offering _ _ hserver | informed _ _ _ hserver =>
      obtain rfl | ⟨number, -, rfl⟩ := hserver.cases <;> cases hmove
    | posted _ _ _ hserver => rcases hserver with rfl | rfl <;> cases hmove
    | ended _ _ hserver =>
      rcases hserver with hserver | rfl
      · obtain rfl | ⟨number, -, rfl⟩ := hserver.cases <;> cases hmove
      · cases hmove
    | _ => cases hmove
  · rintro rfl
    cases h with
    | taken htrips hspent => simp [move] at hmove
    | served htrips hspent hcarrier => simp [move] at hmove
    | posted htrips hspent hcarrier hserver => simp [move] at hmove
    | _ => cases hmove

theorem Tracks.run {moves : List Move} (h : Run query moves state) : query.Tracks state := by
  induction h with
  | none => exact .fresh
  | next before hmove ih => exact ih.next hmove

end Query

section Length

def Client.left : Client → Nat
  | .fresh _ => 1
  | .offering .. => 6
  | .awaiting .. => 2
  | .informed .. => 1
  | .ended _ => 0

def Server.left : Server → Nat
  | .listening => 1
  | .holding .. => 4
  | .answering .. => 3
  | .closing _ => 2
  | .stopped => 0

def State.left (state : State σ) : Nat := state.client.left + state.server.left

theorem left_ofRest {state state' : State σ} {rested : Option (Rest × Engine)}
    (hclient : state.client.left = 1) (h : Moved.ofRest state rested = .next state') :
    state'.left + 1 + 6 * state.tickets.length ≤ state.left + 6 * state'.tickets.length := by
  obtain ⟨halt, engine, -, rfl⟩ := Query.ofRest_eq_next.1 h
  have hleft : state.left = 1 + state.server.left := by rw [State.left, hclient]
  cases halt with
  | sent bits suspended =>
    have hafter : (state.rest engine (.sent bits suspended)).left = 6 + state.server.left := rfl
    have hmore : (state.rest engine (.sent bits suspended)).tickets.length =
        state.tickets.length + 1 := List.length_append
    omega
  | finished w =>
    have hafter : (state.rest engine (.finished w)).left = 0 + state.server.left := rfl
    have hsame : (state.rest engine (.finished w)).tickets = state.tickets := rfl
    rw [hsame]
    omega
  | failed fault =>
    have hafter : (state.rest engine (.failed fault)).left = 0 + state.server.left := rfl
    have hsame : (state.rest engine (.failed fault)).tickets = state.tickets := rfl
    rw [hsame]
    omega

/-- Every move uses one up. -/
theorem left_move {book : Book} {id fuel : Nat} {carrier : Carrier σ} {state state' : State σ}
    {made : Move} (h : move book id fuel carrier state made = .next state') :
    state'.left + 1 + 6 * state.tickets.length ≤ state.left + 6 * state'.tickets.length := by
  obtain ⟨client, server, tickets, engine, carried⟩ := state
  cases made with
  | start =>
    simp only [move] at h
    split at h
    · cases h
      simp only [State.left, Client.left]
      omega
    · exact left_ofRest rfl h
    · cases h
  | resume =>
    simp only [move] at h
    split at h
    · cases h
      simp only [State.left, Client.left]
      omega
    · exact left_ofRest rfl h
    · cases h
  | _ =>
    simp only [move] at h
    repeat' split at h
    all_goals cases h
    all_goals simp only [State.left, State.lose, Client.left, Server.left, List.length_modify]
    all_goals omega

theorem Run.length_le {query : Query σ} {moves : List Move} {state : State σ}
    (h : Run query moves state) : moves.length + state.left ≤ 6 * state.tickets.length + 2 := by
  induction h with
  | none => simp [State.initial, State.left, Client.left, Server.left]
  | next before hmove ih =>
    have hleft := left_move hmove
    simp only [List.length_append, List.length_singleton]
    omega

end Length

def State.IsOver (state : State σ) (result : Except Fault Term) : Prop :=
  state.client = .ended result ∧ state.server = .stopped

theorem State.outcome?_eq_some {state : State σ} {result : Except Fault Term} :
    state.outcome? = some result ↔ ∃ own, state.IsOver own ∧ own.mapError outOfPair = result := by
  obtain ⟨client, server, tickets, engine, carried⟩ := state
  constructor
  · intro h
    unfold outcome? at h
    split at h
    · next own hclient hserver =>
      exact ⟨own, ⟨hclient, hserver⟩, Option.some.inj h⟩
    · cases h
  · rintro ⟨own, ⟨rfl, rfl⟩, rfl⟩
    rfl

namespace Query

variable {query : Query σ} {state state' : State σ} {out : Except Fault Term × Engine × σ}
  {fuel fuel' : Nat}

theorem Tracks.possible (h : query.Tracks state) (hplain : query.plain fuel = some out)
    (hle : fuel ≤ fuel') :
    (∃ result, state.IsOver result) ∨
      ∃ made state', move query.book query.id fuel' query.carrier state made =
        .next state' := by
  cases h with
  | fresh =>
    refine .inr ⟨.start, ?_⟩
    simp only [move, State.initial]
    cases hterm : query.term with
    | none => exact ⟨_, rfl⟩
    | some term =>
      obtain ⟨halt, engine, hrun, -⟩ := (plain_eq_some hterm).1 hplain
      have hmore := Machine.settleFrom_mono hle hrun
      exact ⟨_, ofRest_eq_next.2 ⟨halt, engine, hmore, rfl⟩⟩
  | offering htrips hspent hserver =>
    obtain rfl | ⟨number, -, rfl⟩ := hserver.cases
    · exact .inr ⟨.handOver, by simp [move]⟩
    · exact .inr ⟨.close, _, rfl⟩
  | taken htrips hspent => exact .inr ⟨.serve, _, rfl⟩
  | served htrips hspent hcarrier =>
    exact .inr ⟨.post, by simp [move]⟩
  | posted htrips hspent hcarrier hserver => exact .inr ⟨.collect, by simp [move]⟩
  | @informed _ _ _ _ _ _ _ reply _ htrips hcarrier hspent hserver =>
    refine .inr ⟨.resume, ?_⟩
    cases reply with
    | error e => exact ⟨_, rfl⟩
    | ok reply =>
      obtain ⟨halt, engine, hrun⟩ := htrips.resumes hcarrier hplain
      have hmore := Machine.settleFrom_mono hle hrun
      exact ⟨_, ofRest_eq_next.2 ⟨halt, engine, hmore, rfl⟩⟩
  | @ended _ result _ _ _ _ hends hspent hserver =>
    rcases hserver with hserver | rfl
    · obtain rfl | ⟨number, -, rfl⟩ := hserver.cases
      · exact .inr ⟨.stop, _, rfl⟩
      · exact .inr ⟨.close, _, rfl⟩
    · exact .inl ⟨result, rfl, rfl⟩

theorem exhausted_cases {made : Move}
    (h : move query.book query.id fuel query.carrier state made = .exhausted) :
    (∃ term, state.client = .fresh (some term) ∧
      Machine.run query.book fuel (state.engine.bind query.id) (Machine.forcing term) = none) ∨
    ∃ reply suspended, state.client = .informed (.ok reply) suspended ∧
      Machine.resume query.book fuel state.engine suspended reply = none := by
  have hnone : ∀ {rested : Option (Rest × Engine)}, Moved.ofRest state rested = .exhausted →
      rested = none := by
    intro rested hrested
    match rested with
    | none => rfl
    | some (halt, engine) => cases hrested
  cases made with
  | start =>
    simp only [move] at h
    split at h
    · cases h
    · next term hclient => exact .inl ⟨term, hclient, hnone h⟩
    · cases h
  | resume =>
    simp only [move] at h
    split at h
    · cases h
    · next reply suspended hclient => exact .inr ⟨reply, suspended, hclient, hnone h⟩
    · cases h
  | _ =>
    simp only [move] at h
    repeat' split at h
    all_goals cases h

theorem Tracks.not_exhausted (h : query.Tracks state) (hplain : query.plain fuel = some out)
    (hle : fuel ≤ fuel') (made : Move) :
    move query.book query.id fuel' query.carrier state made ≠ .exhausted := by
  intro hmove
  rcases exhausted_cases hmove with ⟨term, hclient, hnone⟩ | ⟨reply, suspended, hclient, hnone⟩
  · cases h with
    | fresh =>
      obtain ⟨halt, engine, hrun, -⟩ := (plain_eq_some (Client.fresh.inj hclient)).1 hplain
      have hmore := Machine.settleFrom_mono hle hrun
      cases hnone.symm.trans hmore
    | _ => cases hclient
  · cases h with
    | informed htrips hcarrier hspent hserver =>
      cases hclient
      obtain ⟨halt, engine, hrun⟩ := htrips.resumes hcarrier hplain
      have hmore := Machine.settleFrom_mono hle hrun
      cases hnone.symm.trans hmore
    | _ => cases hclient

theorem Tracks.length_le (h : query.Tracks state) (hplain : query.plain fuel = some out) :
    state.tickets.length ≤ fuel := by
  cases h with
  | fresh => simp [State.initial]
  | offering htrips hspent _ | taken htrips hspent | served htrips hspent _
  | posted htrips hspent _ _ =>
    have hlength := htrips.length_lt hplain
    have hpast := hspent.length_eq
    simp only [List.length_map] at hpast
    simp only [List.length_append, List.length_singleton]
    omega
  | informed htrips hcarrier hspent hserver =>
    have hlength := htrips.length_lt hplain
    have htickets := hspent.length_eq
    simp only [List.length_append, List.length_map, List.length_singleton] at htickets
    simp only
    omega
  | ended hends hspent hserver =>
    have htickets := hspent.length_eq
    have hlength := hends.length_le hplain
    simp only
    omega

/-- The carrier was asked for the requests that are answered, and perhaps for the one that waits. -/
theorem Trips.account {trips : List (List Char × List Char)} {bits : List Char}
    {suspended : Suspended} {engine : Engine} {carried carried' : σ} {tickets : List Ticket}
    (h : query.Trips trips (.sent bits suspended) engine carried)
    (hbits : tickets.map Ticket.bits = trips.map Prod.fst ++ [bits])
    (hasked : carried' = carried ∨ ∃ reply, query.carrier bits carried = (reply, carried')) :
    ∃ served replies, served <+: tickets.map Ticket.bits ∧
      tickets.length ≤ served.length + 1 ∧
      carried' = (answers query.carrier served query.carried).2 ∧
      replies.map Except.ok <+: (answers query.carrier served query.carried).1 ∧
      (tickets = [] ∨ ∃ term halt, query.term = some term ∧
        Machine.Fed term replies (tickets.map Ticket.bits) halt) := by
  have hlength : tickets.length = (trips.map Prod.fst).length + 1 := by
    simpa using congrArg List.length hbits
  obtain ⟨term, hterm, hfed⟩ := h.fed
  rw [hbits]
  rcases hasked with rfl | ⟨reply, hcarrier⟩
  · refine ⟨trips.map Prod.fst, trips.map Prod.snd, List.prefix_append _ _, Nat.le_of_eq hlength,
      ?_, ?_, .inr ⟨term, _, hterm, hfed⟩⟩
    · rw [h.answers_eq]
    · simp [h.answers_eq, Function.comp_def]
  · refine ⟨trips.map Prod.fst ++ [bits], trips.map Prod.snd, List.prefix_rfl, ?_, ?_, ?_,
      .inr ⟨term, _, hterm, hfed⟩⟩
    · rw [List.length_append]
      omega
    · simp [answers_concat, h.answers_eq, hcarrier]
    · simp [answers_concat, h.answers_eq, Function.comp_def]

/-- One request is outstanding at most. The carrier was asked for the requests in their order, all
    of them or all but the last, and the machine was given the answers in their order. -/
theorem Tracks.account (h : query.Tracks state) :
    (state.tickets.filter Ticket.receiving).length ≤ 1 ∧
    ∃ served replies, served <+: state.tickets.map Ticket.bits ∧
      state.tickets.length ≤ served.length + 1 ∧
      state.carried = (answers query.carrier served query.carried).2 ∧
      replies.map Except.ok <+: (answers query.carrier served query.carried).1 ∧
      (state.tickets = [] ∨ ∃ term halt, query.term = some term ∧
        Machine.Fed term replies (state.tickets.map Ticket.bits) halt) := by
  cases h with
  | fresh => exact ⟨by simp [State.initial], [], [], by simp [State.initial, answers]⟩
  | offering htrips hspent _ | taken htrips hspent =>
    refine ⟨by simp [hspent.filter_receiving], htrips.account ?_ (.inl rfl)⟩
    simp [hspent.map_bits]
  | served htrips hspent hcarrier | posted htrips hspent hcarrier _ =>
    refine ⟨by simp [hspent.filter_receiving], htrips.account ?_ (.inr ⟨_, hcarrier⟩)⟩
    simp [hspent.map_bits]
  | informed htrips hcarrier hspent _ =>
    refine ⟨by simp [hspent.filter_receiving], htrips.account ?_ (.inr ⟨_, hcarrier⟩)⟩
    exact hspent.map_bits
  | @ended requests _ _ _ tickets _ hends hspent _ =>
    obtain ⟨replies, hreplies, hfed⟩ := hends.fed
    refine ⟨?_, requests, replies, ?_, ?_, hends.answers_eq.symm, hreplies, ?_⟩
    · simp [hspent.filter_receiving]
    · simp [hspent.map_bits]
    · simp [hspent.length_eq]
    · rcases hfed with rfl | hfed
      · exact .inl (List.eq_nil_of_length_eq_zero hspent.length_eq)
      · rw [hspent.map_bits]
        exact .inr hfed

theorem Tracks.ends {result : Except Fault Term} (h : query.Tracks state)
    (hover : state.IsOver result) :
    query.Ends (state.tickets.map Ticket.bits) result state.engine state.carried := by
  obtain ⟨hclient, hserver⟩ := hover
  cases h with
  | ended hends hspent _ =>
    cases hclient
    rw [hspent.map_bits]
    exact hends
  | _ => cases hclient

end Query

section Settle

variable {query : Query σ} {moves : List Move} {state state' : State σ}
  {out : Except Fault Term × Engine × σ} {fuel fuel' : Nat}

theorem Move.mem_all (made : Move) : made ∈ Move.all := by
  cases made <;> decide

theorem firstMove_eq_next {candidates : List Move}
    (h : firstMove query.book query.id fuel query.carrier state candidates = .next state') :
    ∃ made, move query.book query.id fuel query.carrier state made = .next state' := by
  induction candidates with
  | nil => cases h
  | cons candidate rest ih =>
    unfold firstMove at h
    split at h
    · exact ih h
    · exact ⟨candidate, h⟩

theorem firstMove_possible {candidates : List Move} {made : Move} (hmem : made ∈ candidates)
    (hmove : move query.book query.id fuel query.carrier state made = .next state')
    (hfuel : ∀ other, move query.book query.id fuel query.carrier state other ≠ .exhausted) :
    ∃ next, firstMove query.book query.id fuel query.carrier state candidates = .next next := by
  induction candidates with
  | nil => cases hmem
  | cons candidate rest ih =>
    unfold firstMove
    cases hfirst : move query.book query.id fuel query.carrier state candidate with
    | next after => exact ⟨after, rfl⟩
    | exhausted => exact (hfuel candidate hfirst).elim
    | impossible =>
      rcases List.mem_cons.1 hmem with rfl | hlater
      · rw [hmove] at hfirst
        cases hfirst
      · exact ih hlater

theorem Run.of_settle (h : Run query moves state) {bound : Nat}
    (hsettle : settle query.book query.id fuel query.carrier bound state = some out) :
    ∃ moves' last own, Run query moves' last ∧ last.IsOver own ∧
      out = (own.mapError outOfPair, last.engine, last.carried) := by
  induction bound generalizing moves state with
  | zero => cases hsettle
  | succ bound ih =>
    unfold settle at hsettle
    split at hsettle
    · next result houtcome =>
      cases hsettle
      obtain ⟨own, hover, rfl⟩ := State.outcome?_eq_some.1 houtcome
      exact ⟨moves, state, own, h, hover, rfl⟩
    · split at hsettle
      · next next hfirst =>
        obtain ⟨made, hmove⟩ := firstMove_eq_next hfirst
        exact ih (h.next hmove) hsettle
      · cases hsettle

theorem Run.settles (h : Run query moves state) (hplain : query.plain fuel = some out)
    (hle : fuel ≤ fuel') {bound : Nat} (hbound : 6 * fuel + 2 < bound + moves.length) :
    ∃ out', settle query.book query.id fuel' query.carrier bound state = some out' := by
  have htracks := Query.Tracks.run h
  have hlength := h.length_le
  have htickets := htracks.length_le hplain
  -- A run has at most `6 * fuel + 2` moves, so the bound cannot be used up before it is over.
  induction bound generalizing moves state with
  | zero => omega
  | succ bound ih =>
    unfold settle
    split
    · exact ⟨_, rfl⟩
    · next hnone =>
      rcases htracks.possible hplain hle with ⟨own, hover⟩ | ⟨made, next, hmove⟩
      · cases hnone.symm.trans (State.outcome?_eq_some.2 ⟨own, hover, rfl⟩)
      · obtain ⟨next, hfirst⟩ := firstMove_possible made.mem_all hmove
          (htracks.not_exhausted hplain hle)
        obtain ⟨made', hmove'⟩ := firstMove_eq_next hfirst
        have hnext := h.next hmove'
        have htracks' := Query.Tracks.run hnext
        rw [hfirst]
        refine ih hnext ?_ htracks' hnext.length_le (htracks'.length_le hplain)
        simp only [List.length_append, List.length_singleton]
        omega

end Settle

/-- The entry word stands nowhere as a function: no program is built into a term that has it so. -/
structure Query.WithoutEntry (query : Query σ) : Prop where
  book : query.book.Over (· ≠ .fn .galaxy)
  memo : ∀ term w, query.engine.memo.find? term = some w →
    term.Over (· ≠ .fn .galaxy) ∧ w.Over (· ≠ .fn .galaxy)
  term : ∀ term, query.term = some term → term.Over (· ≠ .fn .galaxy)

section Faults

variable {query : Query σ} {fuel : Nat} {fault : Fault} {engine : Engine} {carried : σ}
  {p : Symbol → Prop}

/-- A fault that the pair of tasks makes another fault of is the missing law of the entry word. -/
theorem blames_outOfPair :
    Machine.Blames p fun fault =>
      outOfPair fault = fault ∨ fault = .lawless .galaxy ∧ p (.fn .galaxy) where
  laws := {
    eval := fun _ _ => .inl rfl
    wire := fun text e hread => by
      rcases Law.blames_isExpected.wire text e hread with h | h | h <;> simp [outOfPair, h] }
  limit := fun _ => .inl rfl
  mark := fun _ _ => .inl rfl
  entry := fun hentry => .inr ⟨rfl, hentry⟩

theorem Query.outOfPair_over (hp : Law.Admits p) (hbook : query.book.Over p)
    (hmemo : ∀ term w, query.engine.memo.find? term = some w → term.Over p ∧ w.Over p)
    (hterm : ∀ term, query.term = some term → term.Over p)
    (h : query.plain fuel = some (.error fault, engine, carried)) :
    outOfPair fault = fault ∨ fault = .lawless .galaxy ∧ p (.fn .galaxy) := by
  have hlink := query.carrier.failsWith
    (q := fun fault => outOfPair fault = fault ∨ fault = .lawless .galaxy ∧ p (.fn .galaxy))
    fun _ => .inl rfl
  have hclean : query.engine.memo.Clean p True := fun term w hfind =>
    ⟨(hmemo term w hfind).1, (hmemo term w hfind).2, fun _ => trivial⟩
  cases hquery : query.term with
  | none =>
    simp only [plain, hquery, Engine.eval] at h
    cases h
    exact .inl rfl
  | some term =>
    rw [plain, hquery] at h
    exact Engine.eval_failsWith hp blames_outOfPair hlink hbook hclean (hterm term hquery) h

theorem Query.outOfPair_cases (h : query.plain fuel = some (.error fault, engine, carried)) :
    outOfPair fault = fault ∨ fault = .lawless .galaxy ∧ ¬ query.WithoutEntry := by
  by_cases hwithout : query.WithoutEntry
  · have hadmits : Law.Admits (· ≠ .fn .galaxy) :=
      ⟨fun _ => nofun, fun _ => nofun, fun _ => nofun, fun _ hg h => hg (Symbol.fn.inj h)⟩
    have hcases := outOfPair_over hadmits hwithout.book hwithout.memo hwithout.term h
    exact .inl (hcases.resolve_right fun hentry => hentry.2 rfl)
  · have hadmits : Law.Admits fun _ => True :=
      ⟨fun _ => trivial, fun _ => trivial, fun _ => trivial, fun _ _ => trivial⟩
    have hall := Term.over_of_forall (p := fun _ => True) fun _ => trivial
    have hcases := outOfPair_over hadmits (fun _ _ _ => hall _) (fun _ _ _ => ⟨hall _, hall _⟩)
      (fun _ _ => hall _) h
    exact hcases.imp_right fun hentry => ⟨hentry.1, hwithout⟩

end Faults

/-- Two tasks do what one does, whatever the order of their moves.

    At every moment of a run, one request at most waits for its reply, the carrier was asked for the
    requests in their order and for each of them once, except for the last, which it may not have
    been asked for yet, and the machine was given the carrier's answers in their order. No task finds
    the other gone. A run has at most six moves for each request and two more. When both tasks have
    ended, evaluation in one task ends with the same engine and carrier, and with the result that
    comes out of the pair, and all requests have gone through the carrier. If evaluation in one task
    ends, every run can go on until both tasks have ended, and only with what that evaluation ends
    with; so does the order of moves that `eval` chooses. A result comes out of the pair as it is,
    unless it is the missing law of the entry word, where that is a function of the query. -/
theorem two_tasks_do_what_one_does (query : Query σ) :
    (∀ moves state, Run query moves state →
      (state.tickets.filter Ticket.receiving).length ≤ 1 ∧
      (∃ served replies, served <+: state.tickets.map Ticket.bits ∧
        state.tickets.length ≤ served.length + 1 ∧
        state.carried = (answers query.carrier served query.carried).2 ∧
        replies.map Except.ok <+: (answers query.carrier served query.carried).1 ∧
        (state.tickets = [] ∨ ∃ term halt, query.term = some term ∧
          Machine.Fed term replies (state.tickets.map Ticket.bits) halt)) ∧
      (∀ fuel made state', move query.book query.id fuel query.carrier state made = .next state' →
        made ≠ .turnAway ∧ made ≠ .drop ∧ made ≠ .forsake) ∧
      moves.length ≤ 6 * state.tickets.length + 2) ∧
    (∀ moves state result, Run query moves state → state.outcome? = some result →
      (∃ fuel own,
        query.engine.eval query.id query.book fuel query.carrier.link query.carried query.term =
          some (own, state.engine, state.carried) ∧ own.mapError outOfPair = result) ∧
      state.carried = (answers query.carrier (state.tickets.map Ticket.bits) query.carried).2) ∧
    (∀ fuel own engine carried,
      query.engine.eval query.id query.book fuel query.carrier.link query.carried query.term =
        some (own, engine, carried) →
      (∀ moves state, Run query moves state → state.tickets.length ≤ fuel ∧
        (state.outcome? = some (own.mapError outOfPair) ∧ state.engine = engine ∧
            state.carried = carried ∨
          ∃ made state', move query.book query.id fuel query.carrier state made = .next state')) ∧
      (own.mapError outOfPair = own ∨
        own = .error (.lawless .galaxy) ∧ ¬ query.WithoutEntry)) ∧
    ∀ result engine carried,
      (∃ fuel, eval query.engine query.id query.book fuel query.carrier query.carried query.term =
        some (result, engine, carried)) ↔
      ∃ fuel own,
        query.engine.eval query.id query.book fuel query.carrier.link query.carried query.term =
          some (own, engine, carried) ∧ own.mapError outOfPair = result := by
  have hsame : ∀ {fuel : Nat} {out : Except Fault Term × Engine × σ} {moves : List Move}
      {state : State σ} {own : Except Fault Term}, query.plain fuel = some out →
      Run query moves state → state.IsOver own →
      out = (own, state.engine, state.carried) :=
    fun hplain hrun hover => ((Query.Tracks.run hrun).ends hover).unique hplain
  refine ⟨?_, ?_, ?_, ?_⟩
  · intro moves state hrun
    have htracks := Query.Tracks.run hrun
    obtain ⟨houtstanding, haccount⟩ := htracks.account
    have hlength := hrun.length_le
    exact ⟨houtstanding, haccount, fun _ _ _ hmove => htracks.in_touch hmove, by omega⟩
  · intro moves state result hrun houtcome
    obtain ⟨own, hover, hresult⟩ := State.outcome?_eq_some.1 houtcome
    have hends := (Query.Tracks.run hrun).ends hover
    obtain ⟨fuel, hplain⟩ := hends.plain
    exact ⟨⟨fuel, own, hplain, hresult⟩, hends.answers_eq.symm⟩
  · intro fuel own engine carried hplain
    constructor
    · intro moves state hrun
      have htracks := Query.Tracks.run hrun
      refine ⟨htracks.length_le hplain, ?_⟩
      rcases htracks.possible hplain (Nat.le_refl fuel) with ⟨own', hover⟩ | hpossible
      · cases hsame hplain hrun hover
        exact .inl ⟨State.outcome?_eq_some.2 ⟨own, hover, rfl⟩, rfl, rfl⟩
      · exact .inr hpossible
    · cases own with
      | ok w => exact .inl rfl
      | error fault =>
        rcases Query.outOfPair_cases hplain with hkept | ⟨rfl, hentry⟩
        · exact .inl (congrArg Except.error hkept)
        · exact .inr ⟨rfl, hentry⟩
  · intro result engine carried
    constructor
    · rintro ⟨fuel, hsettle⟩
      obtain ⟨moves, last, own, hrun, hover, hlast⟩ := Run.none.of_settle hsettle
      cases hlast
      obtain ⟨fuel', hplain⟩ := ((Query.Tracks.run hrun).ends hover).plain
      exact ⟨fuel', own, hplain, rfl⟩
    · rintro ⟨fuel, own, hplain, rfl⟩
      have hbound : 6 * fuel + 2 < (6 * fuel + 3) + ([] : List Move).length := by simp
      obtain ⟨out, hsettle⟩ :=
        Run.none.settles hplain (show fuel ≤ 6 * fuel + 3 by omega) hbound
      obtain ⟨moves, last, own', hrun, hover, rfl⟩ := Run.none.of_settle hsettle
      cases hsame hplain hrun hover
      exact ⟨6 * fuel + 3, hsettle⟩

def entryAlone : Query Unit :=
  ⟨{}, 0, fun _ carried => (.error .noAddress, carried), {}, (), some (.atom (.fn .galaxy))⟩

/-- One task ends with the missing law itself, the pair of tasks with a fault of its own around it. -/
theorem entry_comes_out_grouped :
    (∃ fuel engine, eval entryAlone.engine entryAlone.id entryAlone.book fuel entryAlone.carrier
      entryAlone.carried entryAlone.term =
        some (.error (.grouped (.lawless .galaxy)), engine, ())) ∧
    ∀ fuel result engine carried, entryAlone.engine.eval entryAlone.id entryAlone.book fuel
      entryAlone.carrier.link entryAlone.carried entryAlone.term = some (result, engine, carried) →
        result = .error (.lawless .galaxy) := by
  have heval : (eval entryAlone.engine entryAlone.id entryAlone.book 6 entryAlone.carrier
      entryAlone.carried entryAlone.term).map (·.1) =
        some (.error (.grouped (.lawless .galaxy))) := by cbv
  have hrun : (Machine.run {} 6 (({} : Engine).bind 0) (Machine.forcing (.atom (.fn .galaxy)))).map
      (·.1) = some (.failed (.lawless .galaxy)) := by cbv
  obtain ⟨⟨result, engine, carried⟩, heval, hresult⟩ := Option.map_eq_some_iff.1 heval
  obtain ⟨⟨rest, engine'⟩, hrun, hrest⟩ := Option.map_eq_some_iff.1 hrun
  cases hresult
  cases hrest
  refine ⟨⟨6, engine, heval⟩, fun fuel result engine carried hplain => ?_⟩
  have hends : entryAlone.Ends [] (.error (.lawless .galaxy)) engine' () :=
    .failed (.start rfl hrun)
  cases hends.unique hplain
  rfl

end SignalCalculus.Exchange
