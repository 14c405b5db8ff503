import SignalCalculus.Proofs.Direct.Closing
import SignalCalculus.Proofs.Protocol.Replies

set_option autoImplicit false

namespace SignalCalculus

namespace Dialogue

variable {dialogue : Dialogue Term} {trips : List Trip} {result : Except Fault Term}

theorem Closes.converse_recorded (h : dialogue.Closes trips result)
    (left sent : List (List Char)) :
    dialogue.converse Link.recorded ⟨trips.map Prod.snd ++ left, sent⟩ =
      some (result, ⟨left, sent ++ trips.map Prod.fst⟩) := by
  induction h generalizing sent with
  | done w => simp [converse]
  | failed fault => simp [converse]
  | @reply bits reply next trips result _ ih =>
    have hnext := ih (sent ++ [bits])
    rw [List.append_assoc] at hnext
    exact hnext

theorem Closes.converse_silent (h : dialogue.Closes [] result) {σ : Type} (link : Link σ)
    (state : σ) : dialogue.converse link state = some (result, state) := by
  cases h with
  | done w => rfl
  | failed fault => rfl

theorem IsCut.converse_eq {first second : Dialogue Term} (h : first.IsCut second) {σ : Type}
    {link : Link σ} {state : σ} {halt : Except Fault Term × σ}
    (hfirst : first.converse link state = some halt) : second.converse link state = some halt := by
  induction h generalizing state with
  | unfinished second => cases hfirst
  | done w => exact hfirst
  | failed fault => exact hfirst
  | ask bits h ih =>
    unfold converse at hfirst ⊢
    split at hfirst
    · exact hfirst
    · exact ih _ hfirst

end Dialogue

namespace Desk

variable {book : Book} {desk : Desk} {term : Term} {result : Except Fault Term}

/-- With these replies, one after the other, the desk's engine evaluates a term to this result or
    fault and sends these requests. -/
def Closes (book : Book) (id : Nat) (desk : Desk) (term : Term)
    (replies requests : List (List Char)) (result : Except Fault Term) : Prop :=
  ∃ fuel engine left, desk.engine.eval id book fuel Link.recorded ⟨replies, []⟩ (some term) =
    some (result, engine, ⟨left, requests⟩)

/-- Whatever its link, the desk's engine evaluates a term to this result or fault, and the link is
    left as it was. -/
def ClosesSilently (book : Book) (id : Nat) (desk : Desk) (term : Term)
    (result : Except Fault Term) : Prop :=
  ∀ {σ : Type} (link : Link σ) (state : σ), ∃ fuel engine,
    desk.engine.eval id book fuel link state (some term) = some (result, engine, state)

theorem Reached.closes (h : Reached book desk) (id : Nat) {trips : List Trip}
    (hterm : Direct.ForceCloses book term trips result) (left : List (List Char)) :
    Closes book id desk term (trips.map Prod.snd ++ left) (trips.map Prod.fst) result := by
  obtain ⟨fuel, hterm⟩ := hterm
  have hdirect : Direct.eval book fuel Link.recorded ⟨trips.map Prod.snd ++ left, []⟩ (some term) =
      some (result, ⟨left, trips.map Prod.fst⟩) := hterm.converse_recorded left []
  obtain ⟨fuel', ⟨result', engine, state⟩, hrun, heq, -⟩ :=
    (h.valid.eval_haltAlike id Link.recorded _ (some term)).back fuel _ hdirect
  cases heq
  exact ⟨fuel', engine, left, hrun⟩

theorem Reached.closes_unique (h : Reached book desk) {id : Nat}
    {replies requests requests' : List (List Char)} {result' : Except Fault Term}
    (hfirst : Closes book id desk term replies requests result)
    (hsecond : Closes book id desk term replies requests' result') :
    requests = requests' ∧ result = result' := by
  have halike := h.valid.eval_haltAlike id Link.recorded ⟨replies, []⟩ (some term)
  obtain ⟨fuel, engine, left, hrun⟩ := hfirst
  obtain ⟨fuel', engine', left', hrun'⟩ := hsecond
  obtain ⟨n, direct, hdirect, rfl, -⟩ := halike.forth fuel _ hrun
  obtain ⟨m, direct', hdirect', rfl, -⟩ := halike.forth fuel' _ hrun'
  have hmore := (Direct.force_cut term (Nat.le_max_left n m)).converse_eq hdirect
  have hmore' := (Direct.force_cut term (Nat.le_max_right n m)).converse_eq hdirect'
  cases hmore.symm.trans hmore'
  exact ⟨rfl, rfl⟩

theorem Reached.closesSilently (h : Reached book desk) (id : Nat)
    (hterm : Direct.ForceCloses book term [] result) : ClosesSilently book id desk term result := by
  intro σ link state
  obtain ⟨fuel, hterm⟩ := hterm
  have hdirect : Direct.eval book fuel link state (some term) = some (result, state) :=
    hterm.converse_silent link state
  obtain ⟨fuel', ⟨result', engine, state'⟩, hrun, heq, -⟩ :=
    (h.valid.eval_haltAlike id link state (some term)).back fuel _ hdirect
  cases heq
  exact ⟨fuel', engine, hrun⟩

end Desk

end SignalCalculus
