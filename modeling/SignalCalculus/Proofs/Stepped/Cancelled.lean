import SignalCalculus.Proofs.Stepped.Calls

set_option autoImplicit false

namespace SignalCalculus.Reduction

def isStarted (reduction : Reduction) : Bool :=
  match reduction.phase with
  | .ready _ | .closed false => false
  | .waiting .. | .finished _ | .closed true => true

theorem isStarted_rest (reduction : Reduction) (sent : Nat) (halt : Rest) :
    (reduction.rest sent halt).2.isStarted = true := by
  cases halt <;> rfl

theorem isStarted_cancel {reduction : Reduction} (h : reduction.isStarted = true) :
    reduction.cancel.isStarted = true := by
  unfold cancel
  cases hphase : reduction.phase with
  | ready term => simp [isStarted, hphase] at h
  | waiting bits seq suspended => rfl
  | finished w => simpa using h
  | closed started => simpa using h

/-- No call undoes the start, and an advance, even one that is turned away, leaves the reduction
    started. -/
theorem Effect.isStarted {book : Book} {fuel : Nat} {engine engine' : Engine}
    {reduction reduction' : Reduction} {call : Call} {outcome : Option (Except Fault Outcome)}
    (h : Effect book fuel engine reduction call outcome reduction' engine')
    (hpermits : reduction.Permits call) (hcall : reduction.isStarted = true ∨ call = .advance) :
    reduction'.isStarted = true := by
  cases h with
  | refused _ htakes =>
    refine hcall.elim id fun hadvance => ?_
    subst hadvance
    -- What turns an advance away is that the reduction is not ready any more.
    unfold Reduction.isStarted
    split
    · next term hphase => exact absurd (fun _ => ⟨term, hphase⟩) htakes
    · next hphase => exact absurd hphase (hpermits rfl)
    · rfl
    · rfl
    · rfl
  | cancelled hcancel =>
    subst hcancel
    exact isStarted_cancel (hcall.resolve_right Call.noConfusion)
  | started => exact isStarted_rest ..
  | answered => exact isStarted_rest ..

theorem Calls.isStarted {first reduction : Reduction} {events : List Event}
    (h : Calls first events reduction) (hadvance : ∃ event ∈ events, event.call = .advance) :
    reduction.isStarted = true := by
  induction h with
  | none => simp at hadvance
  | @next events reduction reduction' book fuel engine engine' call outcome _ hpermits hcall ih =>
    obtain ⟨event, hmem, hevent⟩ := hadvance
    refine (call_effect hpermits hcall).isStarted hpermits ?_
    rcases List.mem_append.1 hmem with hbefore | hnow
    · exact .inl (ih ⟨event, hbefore, hevent⟩)
    · rw [List.mem_singleton.1 hnow] at hevent
      exact .inr hevent

def Call.ofClosed : Call → Option (Except Fault Outcome)
  | .advance => some (.error (.protocol .alreadyStarted))
  | .resume .. | .answer .. => some (.error (.protocol .reductionClosed))
  | .cancel => none

theorem label_ofClosed {call : Call} (h : call.reply?.isSome) :
    ∃ fault, call.ofClosed = some (.error fault) ∧ fault.label = "PeerGone" := by
  cases call with
  | advance => cases h
  | resume reply seq => exact ⟨_, rfl, rfl⟩
  | answer send reply => exact ⟨_, rfl, rfl⟩
  | cancel => cases h

section Closed

variable {reduction : Reduction} (hphase : reduction.phase = .closed true)

include hphase

theorem call_closed (book : Book) (fuel : Nat) (engine : Engine) (call : Call) :
    reduction.call book fuel engine call = some (call.ofClosed, reduction, engine) := by
  cases call <;> simp [Reduction.call, advance, resume, cancel, hphase, Call.ofClosed]

theorem Calls.closed {later : List Event} {last : Reduction} (h : Calls reduction later last) :
    last = reduction ∧ ∀ event ∈ later, event.outcome = event.call.ofClosed := by
  induction h with
  | none => simp
  | @next later _ last book fuel engine engine' call outcome _ _ hcall ih =>
    obtain ⟨rfl, hlater⟩ := ih
    rw [call_closed hphase] at hcall
    cases hcall
    refine ⟨rfl, fun event hmem => ?_⟩
    rcases List.mem_append.1 hmem with hbefore | hnow
    · exact hlater event hbefore
    · rw [List.mem_singleton.1 hnow]

end Closed

theorem phase_cancel {reduction : Reduction} (hstarted : reduction.isStarted = true)
    (hdone : reduction.isDone = false) : reduction.cancel.phase = .closed true := by
  unfold cancel
  cases hphase : reduction.phase with
  | ready term => simp [isStarted, hphase] at hstarted
  | waiting bits seq suspended => rfl
  | finished w => simp [isDone, hphase] at hdone
  | closed started =>
    cases started with
    | false => simp [isStarted, hphase] at hstarted
    | true => exact hphase

/-- If a reduction that was advanced, and perhaps answered, has not finished when it is cancelled,
    then no later call changes the reduction or the engine. Every answer, with or without the send
    that it is for, is turned away because the reduction is closed, and every advance because it was
    started. -/
theorem cancellation_is_final {id : Nat} {term : Term} {events : List Event} {reduction : Reduction}
    (h : Calls ⟨id, .ready term⟩ events reduction)
    (hadvance : ∃ event ∈ events, event.call = .advance) (hdone : reduction.isDone = false) :
    (∀ (book : Book) (fuel : Nat) (engine : Engine) (call : Call),
      reduction.cancel.call book fuel engine call =
        some (call.ofClosed, reduction.cancel, engine)) ∧
    (∀ call : Call, call.reply?.isSome →
      ∃ fault, call.ofClosed = some (.error fault) ∧ fault.label = "PeerGone") ∧
    ∀ (later : List Event) (last : Reduction), Calls reduction.cancel later last →
      last = reduction.cancel ∧ ∀ event ∈ later, event.outcome = event.call.ofClosed := by
  have hphase := phase_cancel (h.isStarted hadvance) hdone
  exact ⟨call_closed hphase, fun call => label_ofClosed, fun later last => Calls.closed hphase⟩

theorem calls_innerWaits :
    Calls ⟨0, .ready nestedSend⟩ [⟨.advance, some (.ok (.pending zeroBits 1))⟩] innerWaits := by
  have hreaches : (Reduction.call {} 20 {} ⟨0, .ready nestedSend⟩ .advance).map
      (fun (outcome, next, _) => (outcome, next)) =
      some (some (.ok (.pending zeroBits 1)), innerWaits) := by cbv
  obtain ⟨⟨outcome, next, engine⟩, hcall, hsame⟩ := Option.map_eq_some_iff.1 hreaches
  cases hsame
  exact Calls.none.next (by simp [Permits]) hcall

/-- The first send is of no use any more when the reduction that waits for it is cancelled. -/
theorem cancelled_send_is_final :
    innerWaits.isDone = false ∧
    innerWaits.cancel.call {} 20 {} (.answer ⟨zeroBits, 1⟩ zeroBits) =
      some (some (.error (.protocol .reductionClosed)), innerWaits.cancel, {}) :=
  ⟨rfl, (cancellation_is_final calls_innerWaits ⟨_, List.mem_singleton_self _, rfl⟩ rfl).1
    {} 20 {} (.answer ⟨zeroBits, 1⟩ zeroBits)⟩

/-- An advance of the cancelled reduction is turned away by another fault than an answer is. -/
theorem cancelled_advance_is_misuse :
    Calls ⟨0, .ready nestedSend⟩ [⟨.advance, some (.ok (.pending zeroBits 1))⟩] innerWaits ∧
    innerWaits.isDone = false ∧
    ∃ fault, innerWaits.cancel.call {} 20 {} .advance =
        some (some (.error fault), innerWaits.cancel, {}) ∧
      fault.label = "ResumeMisuse" ∧ fault.label ≠ "PeerGone" :=
  ⟨calls_innerWaits, rfl, .protocol .alreadyStarted, rfl, rfl, by decide⟩

end SignalCalculus.Reduction
