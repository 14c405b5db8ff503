import SignalCalculus.Machine.Reduction
import SignalCalculus.Proofs.Machine.Faults

set_option autoImplicit false

/-!
# Calls of one reduction

A reduction is advanced, answered and cancelled from outside, in any order and any number of times,
and the sends that it handed out stay usable. A call that is turned away changes nothing. Of the
others, one starts the machine and each later one gives it the reply to the send that waits, so the
machine is fed these replies and no others, one for each send and in the order of the sends.

The engine and the book of a call are those of its moment; other reductions may have used the engine
in between.
-/

namespace SignalCalculus

/-- The faults by which a call is turned away. -/
def Fault.isRefusal (fault : Fault) : Bool :=
  fault.label == "ResumeMisuse" || fault.label == "PeerGone"

theorem Fault.IsInner.isRefusal_eq_false {fault : Fault} (h : fault.IsInner) :
    fault.isRefusal = false := by
  cases fault with
  | eval e => cases e <;> rfl
  | wire e => cases e <;> rfl
  | build e => cases e <;> rfl
  | lawless g => rfl
  | spelling e | protocol e | parse e | request e => cases h
  | resultless => cases h
  | grouped e => cases h

@[simp] def Rest.asked : Rest → List (List Char)
  | .sent bits _ => [bits]
  | .finished _ | .failed _ => []

/-- The machine that forces a term, given one reply after the other, has come to rest; the requests
    are all that it has made, an unanswered one included. -/
inductive Machine.Fed (term : Term) : List (List Char) → List (List Char) → Rest → Prop
  | start {book : Book} {fuel : Nat} {engine engine' : Engine} {rest : Rest} :
    Machine.run book fuel engine (Machine.forcing term) = some (rest, engine') →
    Fed term [] rest.asked rest
  | reply {replies requests : List (List Char)} {bits reply : List Char} {suspended : Suspended}
      {book : Book} {fuel : Nat} {engine engine' : Engine} {rest : Rest} :
    Fed term replies requests (.sent bits suspended) →
    Machine.resume book fuel engine suspended reply = some (rest, engine') →
    Fed term (replies ++ [reply]) (requests ++ rest.asked) rest

theorem Machine.Fed.length_requests {term : Term} {replies requests : List (List Char)} {rest : Rest}
    (h : Fed term replies requests rest) :
    requests.length = replies.length + rest.asked.length := by
  induction h with
  | start hrun => simp
  | reply before hrun ih =>
    simp only [Rest.asked, List.length_singleton] at ih
    simp only [List.length_append, List.length_singleton]
    omega

namespace Reduction

structure Send where
  bits : List Char
  seq : Nat

inductive Call where
  | advance
  | resume (reply : List Char) (seq : Option Int)
  | answer (send : Send) (reply : List Char)
  | cancel

def Call.reply? : Call → Option (Option Int × List Char)
  | .resume reply seq => some (seq, reply)
  | .answer send reply => some (some send.seq, reply)
  | .advance | .cancel => none

def call (book : Book) (fuel : Nat) (engine : Engine) (reduction : Reduction) :
    Call → Option (Option (Except Fault Outcome) × Reduction × Engine)
  | .advance => (reduction.advance book fuel engine).map fun (outcome, next) => (some outcome, next)
  | .resume reply seq =>
    (reduction.resume book fuel engine reply seq).map fun (outcome, next) => (some outcome, next)
  | .answer send reply =>
    (reduction.resume book fuel engine reply (some send.seq)).map fun (outcome, next) =>
      (some outcome, next)
  | .cancel => some (none, reduction.cancel, engine)

structure Event where
  call : Call
  outcome : Option (Except Fault Outcome)

namespace Event

def isRefused (event : Event) : Bool :=
  match event.outcome with
  | some (.error fault) => fault.isRefusal
  | _ => false

def accepted? (event : Event) : Option (Option Int × List Char) :=
  if event.isRefused then none else event.call.reply?

def send? (event : Event) : Option Send :=
  match event.outcome with
  | some (.ok (.pending bits seq)) => some ⟨bits, seq⟩
  | _ => none

/-- The call cancelled the reduction, or found that it has finished or failed. -/
def isLast (event : Event) : Bool :=
  match event.outcome with
  | none | some (.ok (.done _)) => true
  | some (.ok (.pending ..)) => false
  | some (.error fault) => !fault.isRefusal

end Event

def accepted (events : List Event) : List (Option Int × List Char) := events.filterMap Event.accepted?

def sends (events : List Event) : List Send := events.filterMap Event.send?

/-- A reduction that was cancelled before anything ran is not advanced. -/
def Permits (reduction : Reduction) (call : Call) : Prop :=
  call = .advance → reduction.phase ≠ .closed false

/-- Calls made one after the other, whatever engine and book each of them finds. -/
inductive Calls (first : Reduction) : List Event → Reduction → Prop
  | none : Calls first [] first
  | next {events : List Event} {reduction reduction' : Reduction} {book : Book} {fuel : Nat}
      {engine engine' : Engine} {call : Call} {outcome : Option (Except Fault Outcome)} :
    Calls first events reduction →
    reduction.Permits call →
    reduction.call book fuel engine call = some (outcome, reduction', engine') →
    Calls first (events ++ [⟨call, outcome⟩]) reduction'

/-- The calls that a reduction takes: it can be started once, and answered while a send waits, by a
    reply that names this send or none. -/
def Takes (reduction : Reduction) (call : Call) : Prop :=
  match call.reply? with
  | some (named, _) =>
    ∃ seq : Nat, reduction.pendingSeq? = some seq ∧ (named = none ∨ named = some (seq : Int))
  | none => call = .advance → ∃ term, reduction.phase = .ready term

inductive Effect (book : Book) (fuel : Nat) (engine : Engine) (reduction : Reduction) (call : Call) :
    Option (Except Fault Outcome) → Reduction → Engine → Prop
  | refused {fault : Fault} : fault.isRefusal = true → ¬reduction.Takes call →
    Effect book fuel engine reduction call (some (.error fault)) reduction engine
  | cancelled : call = .cancel →
    Effect book fuel engine reduction call none reduction.cancel engine
  | started {term : Term} {halt : Rest} {engine' : Engine} :
    call = .advance → reduction.phase = .ready term →
    Machine.run book fuel engine (Machine.forcing term) = some (halt, engine') →
    Effect book fuel engine reduction call (some (reduction.rest 0 halt).1)
      (reduction.rest 0 halt).2 engine'
  | answered {bits reply : List Char} {seq : Nat} {suspended : Suspended} {named : Option Int}
      {halt : Rest} {engine' : Engine} :
    call.reply? = some (named, reply) → reduction.phase = .waiting bits seq suspended →
    named = none ∨ named = some (seq : Int) →
    Machine.resume book fuel engine suspended reply = some (halt, engine') →
    Effect book fuel engine reduction call (some (reduction.rest seq halt).1)
      (reduction.rest seq halt).2 engine'

section Effects

variable {book : Book} {fuel : Nat} {engine engine' : Engine} {reduction reduction' : Reduction}

theorem advance_effect {outcome : Except Fault Outcome} (hpermits : reduction.Permits .advance)
    (h : reduction.advance book fuel engine = some (outcome, reduction', engine')) :
    Effect book fuel engine reduction .advance (some outcome) reduction' engine' := by
  unfold advance at h
  split at h
  · next term hphase =>
    cases hrun : Machine.run book fuel engine (Machine.forcing term) with
    | none => simp [hrun] at h
    | some halted =>
      simp only [hrun, Option.bind_eq_bind, Option.bind_some, Option.pure_def, Option.some.injEq,
        Prod.mk.injEq] at h
      obtain ⟨rfl, rfl, rfl⟩ := h
      exact .started rfl hphase hrun
  · next hphase => exact absurd hphase (hpermits rfl)
  · next hready _ =>
    cases h
    refine .refused rfl fun htakes => ?_
    obtain ⟨term, hphase⟩ := htakes rfl
    exact hready term hphase

theorem resume_effect {call : Call} {reply : List Char} {named : Option Int}
    (hcall : call.reply? = some (named, reply)) {outcome : Except Fault Outcome}
    (h : reduction.resume book fuel engine reply named = some (outcome, reduction', engine')) :
    Effect book fuel engine reduction call (some outcome) reduction' engine' := by
  have htakes : reduction.Takes call ↔ ∃ seq : Nat, reduction.pendingSeq? = some seq ∧
      (named = none ∨ named = some (seq : Int)) := by
    simp [Takes, hcall]
  unfold resume at h
  split at h
  · next hphase =>
    cases h
    exact .refused rfl (by simp [htakes, pendingSeq?, hphase])
  · next hphase =>
    cases h
    exact .refused rfl (by simp [htakes, pendingSeq?, hphase])
  · next hphase =>
    cases h
    exact .refused rfl (by simp [htakes, pendingSeq?, hphase])
  · next bits seq suspended hphase =>
    split at h
    · next wrong hwrong =>
      cases h
      obtain ⟨hnamed, hne⟩ := Option.filter_eq_some_iff.1 hwrong
      simp only [ne_eq, decide_not, Bool.not_eq_true', decide_eq_false_iff_not] at hne
      exact .refused rfl (by simp [htakes, pendingSeq?, hphase, hnamed, hne])
    · next hnamed =>
      have hname : named = none ∨ named = some (seq : Int) := by
        cases named with
        | none => exact .inl rfl
        | some n => simpa [Option.filter] using hnamed
      cases hrun : Machine.resume book fuel engine suspended reply with
      | none => simp [hrun] at h
      | some halted =>
        simp only [hrun, Option.bind_eq_bind, Option.bind_some, Option.pure_def, Option.some.injEq,
          Prod.mk.injEq] at h
        obtain ⟨rfl, rfl, rfl⟩ := h
        exact .answered hcall hphase hname hrun

theorem call_effect {call : Call} {outcome : Option (Except Fault Outcome)}
    (hpermits : reduction.Permits call)
    (h : reduction.call book fuel engine call = some (outcome, reduction', engine')) :
    Effect book fuel engine reduction call outcome reduction' engine' := by
  cases call with
  | advance =>
    obtain ⟨⟨inner, next⟩, hstep, hsame⟩ := Option.map_eq_some_iff.1 h
    cases hsame
    exact advance_effect hpermits hstep
  | resume reply seq =>
    obtain ⟨⟨inner, next⟩, hstep, hsame⟩ := Option.map_eq_some_iff.1 h
    cases hsame
    exact resume_effect rfl hstep
  | answer send reply =>
    obtain ⟨⟨inner, next⟩, hstep, hsame⟩ := Option.map_eq_some_iff.1 h
    cases hsame
    exact resume_effect rfl hstep
  | cancel =>
    cases h
    exact .cancelled rfl

end Effects

/-- A machine that comes to rest is not turned away, whatever it failed with. -/
theorem isRefused_rest (reduction : Reduction) (call : Call) (sent : Nat) (halt : Rest)
    (hinner : ∀ fault, halt = .failed fault → fault.IsInner) :
    (Event.mk call (some (reduction.rest sent halt).1)).isRefused = false := by
  cases halt with
  | sent bits suspended => rfl
  | finished w => rfl
  | failed fault => exact (hinner fault rfl).isRefusal_eq_false

theorem sends_rest (reduction : Reduction) (call : Call) (sent : Nat) (halt : Rest) :
    sends [⟨call, some (reduction.rest sent halt).1⟩] =
      halt.asked.map fun bits => ⟨bits, sent + 1⟩ := by
  cases halt <;> rfl

/-- A call is turned away exactly if the reduction does not take it, and then nothing changes. -/
theorem Effect.refusal {book : Book} {fuel : Nat} {engine engine' : Engine}
    {reduction reduction' : Reduction} {call : Call} {outcome : Option (Except Fault Outcome)}
    (h : Effect book fuel engine reduction call outcome reduction' engine') :
    ((Event.mk call outcome).isRefused = true ↔ ¬reduction.Takes call) ∧
    ((Event.mk call outcome).isRefused = true → reduction' = reduction ∧ engine' = engine) := by
  cases h with
  | refused hfault htakes => simp [Event.isRefused, hfault, htakes]
  | cancelled hcall =>
    subst hcall
    simp [Event.isRefused, Takes, Call.reply?]
  | @started term halt _ hcall hphase hrun =>
    have hrefused := isRefused_rest reduction call 0 halt fun fault hfault =>
      Machine.run_failsInside (hfault ▸ hrun)
    subst hcall
    simp [hrefused, Takes, Call.reply?, hphase]
  | @answered bits reply seq suspended named halt _ hcall hphase hnamed hrun =>
    have hrefused := isRefused_rest reduction call seq halt fun fault hfault =>
      Machine.resume_failsInside (hfault ▸ hrun)
    simp [hrefused, Takes, hcall, pendingSeq?, hphase, hnamed]

/-- How a reduction of a term stands when these requests were made and these replies given. -/
def Standing (term : Term) (requests replies : List (List Char)) : Phase → Prop
  | .ready start => start = term ∧ requests = [] ∧ replies = []
  | .waiting bits seq suspended =>
    Machine.Fed term replies requests (.sent bits suspended) ∧ seq = requests.length
  | .finished w => Machine.Fed term replies requests (.finished w)
  | .closed false => requests = [] ∧ replies = []
  | .closed true =>
    (∃ fault, Machine.Fed term replies requests (.failed fault)) ∨
    ∃ bits suspended, Machine.Fed term replies requests (.sent bits suspended)

section Standings

variable {term : Term} {requests replies : List (List Char)}

theorem Standing.length_le {phase : Phase} (h : Standing term requests replies phase) :
    replies.length ≤ requests.length ∧ requests.length ≤ replies.length + 1 := by
  have hfed : ∀ {rest : Rest}, Machine.Fed term replies requests rest →
      replies.length ≤ requests.length ∧ requests.length ≤ replies.length + 1 := by
    intro rest fed
    have hlength := fed.length_requests
    cases rest <;> simp only [Rest.asked, List.length_singleton, List.length_nil] at hlength <;> omega
  match phase, h with
  | .ready _, h => simp [h.2.1, h.2.2]
  | .waiting .., h => exact hfed h.1
  | .finished _, h => exact hfed h
  | .closed false, h => simp [h.1, h.2]
  | .closed true, .inl ⟨_, h⟩ => exact hfed h
  | .closed true, .inr ⟨_, _, h⟩ => exact hfed h

theorem Standing.rest (reduction : Reduction) {sent : Nat} {halt : Rest}
    (hsent : requests.length = sent)
    (h : Machine.Fed term replies (requests ++ halt.asked) halt) :
    Standing term (requests ++ halt.asked) replies (reduction.rest sent halt).2.phase := by
  cases halt with
  | sent bits suspended =>
    refine ⟨h, ?_⟩
    simp [Rest.asked, hsent]
  | finished w => exact h
  | failed fault => exact .inl ⟨fault, h⟩

theorem Standing.cancel {reduction : Reduction} (h : Standing term requests replies reduction.phase) :
    Standing term requests replies reduction.cancel.phase := by
  unfold Reduction.cancel
  cases hphase : reduction.phase with
  | ready start =>
    rw [hphase] at h
    exact h.2
  | waiting bits seq suspended =>
    rw [hphase] at h
    exact .inr ⟨bits, suspended, h.1⟩
  | finished w => exact h
  | closed started => exact h

end Standings

def isOver (reduction : Reduction) : Bool :=
  match reduction.phase with
  | .ready _ | .waiting .. => false
  | .finished _ | .closed _ => true

theorem isOver_cancel (reduction : Reduction) : reduction.cancel.isOver = true := by
  unfold cancel
  cases hphase : reduction.phase <;> simp [isOver, hphase]

theorem isOver_rest (reduction : Reduction) (call : Call) (sent : Nat) (halt : Rest)
    (hlast : (Event.mk call (some (reduction.rest sent halt).1)).isLast = true) :
    (reduction.rest sent halt).2.isOver = true := by
  cases halt with
  | sent bits suspended => cases hlast
  | finished w => rfl
  | failed fault => rfl

/-- What holds of a reduction of a term after any calls. -/
structure Kept (term : Term) (events : List Event) (reduction : Reduction) : Prop where
  numbered : (sends events).map Send.seq = List.range' 1 (sends events).length
  standing : Standing term ((sends events).map Send.bits) ((accepted events).map Prod.snd)
    reduction.phase
  named : ∀ (i : Nat) (named : Option Int) (reply : List Char),
    (accepted events)[i]? = some (named, reply) → named = none ∨ named = some ((i + 1 : Nat) : Int)
  quiet : events.Pairwise fun earlier later =>
    earlier.isLast = true → later.accepted? = none ∧ later.send? = none
  ended : (∃ event ∈ events, event.isLast = true) → reduction.isOver = true

namespace Kept

variable {term : Term} {events : List Event} {reduction reduction' : Reduction}

theorem ready (id : Nat) (term : Term) : Kept term [] ⟨id, .ready term⟩ where
  numbered := rfl
  standing := ⟨rfl, rfl, rfl⟩
  named := by simp [accepted]
  quiet := .nil
  ended := by simp

theorem silent (h : Kept term events reduction) {event : Event} (haccepted : event.accepted? = none)
    (hsend : event.send? = none)
    (hstanding : Standing term ((sends events).map Send.bits) ((accepted events).map Prod.snd)
      reduction'.phase)
    (hover : reduction.isOver = true ∨ event.isLast = true → reduction'.isOver = true) :
    Kept term (events ++ [event]) reduction' := by
  have hsends : sends (events ++ [event]) = sends events := by
    simp [sends, hsend]
  have hreplies : accepted (events ++ [event]) = accepted events := by
    simp [accepted, haccepted]
  constructor
  · rw [hsends]
    exact h.numbered
  · rw [hsends, hreplies]
    exact hstanding
  · rw [hreplies]
    exact h.named
  · rw [List.pairwise_append]
    refine ⟨h.quiet, List.pairwise_singleton _ _, ?_⟩
    intro earlier _ later hlater _
    rw [List.mem_singleton.1 hlater]
    exact ⟨haccepted, hsend⟩
  · rintro ⟨last, hmem, hlast⟩
    rcases List.mem_append.1 hmem with hbefore | hnow
    · exact hover (.inl (h.ended ⟨last, hbefore, hlast⟩))
    · rw [List.mem_singleton.1 hnow] at hlast
      exact hover (.inr hlast)

/-- A call that makes the machine run. Since the reduction is not over, no call before was the last. -/
theorem running (h : Kept term events reduction) (hlive : reduction.isOver = false) {call : Call}
    {sent : Nat} {halt : Rest} (hsent : (sends events).length = sent)
    (hinner : ∀ fault, halt = .failed fault → fault.IsInner)
    (hnamed : ∀ named reply, call.reply? = some (named, reply) →
      named = none ∨ named = some (((accepted events).length + 1 : Nat) : Int))
    (hfed : Machine.Fed term ((accepted events ++ call.reply?.toList).map Prod.snd)
      ((sends events).map Send.bits ++ halt.asked) halt) :
    Kept term (events ++ [⟨call, some (reduction.rest sent halt).1⟩])
      (reduction.rest sent halt).2 := by
  have hrefused := isRefused_rest reduction call sent halt hinner
  have hreplies : accepted (events ++ [⟨call, some (reduction.rest sent halt).1⟩]) =
      accepted events ++ call.reply?.toList := by
    cases hreply : call.reply? <;> simp [accepted, Event.accepted?, hrefused, hreply]
  have hsends : sends (events ++ [⟨call, some (reduction.rest sent halt).1⟩]) =
      sends events ++ halt.asked.map fun bits => ⟨bits, sent + 1⟩ := by
    rw [← sends_rest reduction call sent halt]
    exact List.filterMap_append ..
  have hlatest : ∀ event ∈ events, event.isLast = false := by
    intro event hmem
    cases hlast : event.isLast with
    | false => rfl
    | true =>
      have hover := h.ended ⟨event, hmem, hlast⟩
      simp [hlive] at hover
  constructor
  · rw [hsends]
    cases halt with
    | sent bits suspended =>
      simp [Rest.asked, h.numbered, hsent, List.range'_concat, Nat.add_comm]
    | finished w => simpa [Rest.asked] using h.numbered
    | failed fault => simpa [Rest.asked] using h.numbered
  · rw [hreplies, hsends]
    have hbits : (sends events ++ halt.asked.map fun bits => Send.mk bits (sent + 1)).map Send.bits =
        (sends events).map Send.bits ++ halt.asked := by
      simp [Function.comp_def]
    rw [hbits]
    exact Standing.rest reduction (by simpa using hsent) hfed
  · rw [hreplies]
    intro i named reply hi
    rcases Nat.lt_trichotomy i (accepted events).length with hlt | heq | hgt
    · rw [List.getElem?_append_left hlt] at hi
      exact h.named i named reply hi
    · subst heq
      rw [List.getElem?_append_right (Nat.le_refl _), Nat.sub_self] at hi
      exact hnamed named reply (by cases hreply : call.reply? <;> simp_all)
    · rw [List.getElem?_eq_none] at hi
      · cases hi
      · cases call.reply? <;> simp <;> omega
  · rw [List.pairwise_append]
    refine ⟨h.quiet, List.pairwise_singleton _ _, ?_⟩
    intro earlier hmem later _ hlast
    simp [hlatest earlier hmem] at hlast
  · rintro ⟨last, hmem, hlast⟩
    rcases List.mem_append.1 hmem with hbefore | hnow
    · simp [hlatest last hbefore] at hlast
    · rw [List.mem_singleton.1 hnow] at hlast
      exact isOver_rest reduction call sent halt hlast

theorem next (h : Kept term events reduction) {book : Book} {fuel : Nat} {engine engine' : Engine}
    {call : Call} {outcome : Option (Except Fault Outcome)}
    (heffect : Effect book fuel engine reduction call outcome reduction' engine') :
    Kept term (events ++ [⟨call, outcome⟩]) reduction' := by
  have hstanding := h.standing
  cases heffect with
  | refused hfault htakes =>
    refine h.silent ?_ rfl hstanding ?_
    · simp [Event.accepted?, Event.isRefused, hfault]
    · simp [Event.isLast, hfault]
  | cancelled hcall =>
    subst hcall
    exact h.silent rfl rfl hstanding.cancel fun _ => isOver_cancel reduction
  | @started start halt _ hcall hphase hrun =>
    subst hcall
    rw [hphase] at hstanding
    obtain ⟨rfl, hsends, hreplies⟩ := hstanding
    refine h.running (by simp [isOver, hphase]) (by simpa using congrArg List.length hsends)
      (fun fault hfault => Machine.run_failsInside (hfault ▸ hrun)) (by simp [Call.reply?]) ?_
    simpa [Call.reply?, hsends, hreplies] using Machine.Fed.start hrun
  | @answered bits reply seq suspended named halt _ hcall hphase hname hrun =>
    rw [hphase] at hstanding
    obtain ⟨hfed, hseq⟩ := hstanding
    have hlength := hfed.length_requests
    simp only [List.length_map, Rest.asked, List.length_singleton] at hlength hseq
    refine h.running (by simp [isOver, hphase]) hseq.symm
      (fun fault hfault => Machine.resume_failsInside (hfault ▸ hrun)) ?_ ?_
    · intro named' reply' hsame
      cases hcall.symm.trans hsame
      rw [← hlength, ← hseq]
      exact hname
    · simpa [hcall] using hfed.reply hrun

theorem calls {id : Nat} (h : Calls ⟨id, .ready term⟩ events reduction) :
    Kept term events reduction := by
  induction h with
  | none => exact ready id term
  | next before permits hcall ih => exact ih.next (call_effect permits hcall)

end Kept

/-- Every send is answered at most once, by a call that names it or none. Sends are numbered from one
    without gaps, the machine is fed the replies of the calls that are not turned away, at most one
    send waits, a call is turned away exactly if the reduction does not take it, which changes
    nothing, and after the call with which the reduction finished, failed or was cancelled none feeds
    the machine or gets a send out of it. -/
theorem sends_answered_exactly_once {id : Nat} {term : Term} {events : List Event}
    {reduction : Reduction} (h : Calls ⟨id, .ready term⟩ events reduction) :
    (sends events).map Send.seq = List.range' 1 (sends events).length ∧
    Standing term ((sends events).map Send.bits) ((accepted events).map Prod.snd) reduction.phase ∧
    (∀ (i : Nat) (named : Option Int) (reply : List Char),
      (accepted events)[i]? = some (named, reply) →
        named = none ∨ named = some ((i + 1 : Nat) : Int)) ∧
    ((accepted events).length ≤ (sends events).length ∧
      (sends events).length ≤ (accepted events).length + 1) ∧
    (∀ seq, reduction.pendingSeq? = some seq →
      seq = (sends events).length ∧ seq = (accepted events).length + 1) ∧
    (∀ (book : Book) (fuel : Nat) (engine engine' : Engine) (call : Call)
      (outcome : Option (Except Fault Outcome)) (reduction' : Reduction), reduction.Permits call →
      reduction.call book fuel engine call = some (outcome, reduction', engine') →
        ((Event.mk call outcome).isRefused = true ↔ ¬reduction.Takes call) ∧
        ((Event.mk call outcome).isRefused = true → reduction' = reduction ∧ engine' = engine)) ∧
    events.Pairwise fun earlier later =>
      earlier.isLast = true → later.accepted? = none ∧ later.send? = none := by
  have kept := Kept.calls h
  have hlengths := kept.standing.length_le
  simp only [List.length_map] at hlengths
  refine ⟨kept.numbered, kept.standing, kept.named, hlengths, ?_, ?_, kept.quiet⟩
  · intro seq hpending
    have hstanding := kept.standing
    cases hphase : reduction.phase with
    | waiting bits waiting suspended =>
      rw [hphase] at hstanding
      obtain ⟨hfed, hseq⟩ := hstanding
      have hlength := hfed.length_requests
      simp only [List.length_map, Rest.asked, List.length_singleton] at hlength hseq
      simp only [pendingSeq?, hphase, Option.some.injEq] at hpending
      omega
    | ready start => simp [pendingSeq?, hphase] at hpending
    | finished w => simp [pendingSeq?, hphase] at hpending
    | closed started => simp [pendingSeq?, hphase] at hpending
  · intro book fuel engine engine' call outcome reduction' hpermits hcall
    exact (call_effect hpermits hcall).refusal

def nestedSend : Term := .app (.fn .send) (.app (.fn .send) (.num 0))

def zeroBits : List Char := ['0', '1', '0']

def innerWaits : Reduction :=
  ⟨0, .waiting zeroBits 1 ⟨⟨0, .app (.fn .send) (.num 0), []⟩, [.num 0],
    [.law ⟨0, nestedSend, []⟩ .send [.app (.fn .send) (.num 0)] (.part []), .force []]⟩⟩

def outerWaits : Reduction :=
  ⟨0, .waiting zeroBits 2 ⟨⟨0, nestedSend, []⟩, [.app (.fn .send) (.num 0)], [.force []]⟩⟩

/-- The first send is used again for the second one's reply, and for one more when all is done. -/
def staleCalls : List Event :=
  [⟨.advance, some (.ok (.pending zeroBits 1))⟩,
    ⟨.resume zeroBits none, some (.ok (.pending zeroBits 2))⟩,
    ⟨.answer ⟨zeroBits, 1⟩ zeroBits, some (.error (.protocol (.alreadyAnswered 1)))⟩,
    ⟨.answer ⟨zeroBits, 2⟩ zeroBits, some (.ok (.done (.num 0)))⟩,
    ⟨.answer ⟨zeroBits, 1⟩ zeroBits, some (.error (.protocol .nothingWaiting))⟩]

theorem stale_send_turned_away :
    Calls ⟨0, .ready nestedSend⟩ staleCalls ⟨0, .finished (.num 0)⟩ ∧
    (sends staleCalls).map Send.seq = [1, 2] ∧
    accepted staleCalls = [(none, zeroBits), (some 2, zeroBits)] ∧
    Standing nestedSend ((sends staleCalls).map Send.bits) ((accepted staleCalls).map Prod.snd)
      (.finished (.num 0)) := by
  have hreaches : ∀ {reduction reduction' : Reduction} {call : Call}
      {outcome : Option (Except Fault Outcome)},
      (reduction.call {} 20 {} call).map (fun (outcome, next, _) => (outcome, next)) =
        some (outcome, reduction') →
      ∃ engine', reduction.call {} 20 {} call = some (outcome, reduction', engine') := by
    intro reduction reduction' call outcome h
    obtain ⟨⟨outcome', next, engine'⟩, hcall, hsame⟩ := Option.map_eq_some_iff.1 h
    cases hsame
    exact ⟨engine', hcall⟩
  obtain ⟨_, hfirst⟩ : ∃ engine', Reduction.call {} 20 {} ⟨0, .ready nestedSend⟩ .advance =
      some (some (.ok (.pending zeroBits 1)), innerWaits, engine') := hreaches (by cbv)
  obtain ⟨_, hsecond⟩ : ∃ engine', innerWaits.call {} 20 {} (.resume zeroBits none) =
      some (some (.ok (.pending zeroBits 2)), outerWaits, engine') := hreaches (by cbv)
  obtain ⟨_, hstale⟩ : ∃ engine', outerWaits.call {} 20 {} (.answer ⟨zeroBits, 1⟩ zeroBits) =
      some (some (.error (.protocol (.alreadyAnswered 1))), outerWaits, engine') :=
    hreaches (by cbv)
  obtain ⟨_, hlast⟩ : ∃ engine', outerWaits.call {} 20 {} (.answer ⟨zeroBits, 2⟩ zeroBits) =
      some (some (.ok (.done (.num 0))), ⟨0, .finished (.num 0)⟩, engine') := hreaches (by cbv)
  have hrefused : Reduction.call {} 20 {} ⟨0, .finished (.num 0)⟩ (.answer ⟨zeroBits, 1⟩ zeroBits) =
      some (some (.error (.protocol .nothingWaiting)), ⟨0, .finished (.num 0)⟩, {}) := rfl
  have hstarted := Calls.none.next (by simp [Permits]) hfirst
  have hanswered := (hstarted.next (by simp [Permits]) hsecond).next (by simp [Permits]) hstale
  have hcalls : Calls ⟨0, .ready nestedSend⟩ staleCalls ⟨0, .finished (.num 0)⟩ :=
    (hanswered.next (by simp [Permits]) hlast).next (by simp [Permits]) hrefused
  exact ⟨hcalls, rfl, rfl, (sends_answered_exactly_once hcalls).2.1⟩

end Reduction

end SignalCalculus
