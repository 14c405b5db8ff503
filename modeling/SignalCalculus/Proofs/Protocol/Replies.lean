import SignalCalculus.Proofs.Desk.Transparency
import SignalCalculus.Proofs.Direct.Force

set_option autoImplicit false

namespace SignalCalculus

namespace Dialogue

variable {dialogue : Dialogue Term} {replies requests sent left : List (List Char)}

theorem converse_recorded_ok {w : Term} :
    dialogue.converse Link.recorded ⟨replies, sent⟩ = some (.ok w, ⟨left, requests⟩) ↔
      ∃ trips : List Trip, dialogue.Reaches trips (.ends w) ∧
        replies = trips.map Prod.snd ++ left ∧ requests = sent ++ trips.map Prod.fst := by
  induction dialogue generalizing replies sent with
  | done result =>
    constructor
    · rintro ⟨⟩
      exact ⟨[], .done w, rfl, (List.append_nil _).symm⟩
    · rintro ⟨trips, ⟨⟩, rfl, rfl⟩
      simp [converse]
  | failed fault =>
    constructor
    · rintro ⟨⟩
    · rintro ⟨trips, ⟨⟩, -⟩
  | unfinished =>
    constructor
    · rintro ⟨⟩
    · rintro ⟨trips, ⟨⟩, -⟩
  | ask bits next ih =>
    cases replies with
    | nil =>
      constructor
      · rintro ⟨⟩
      · rintro ⟨trips, ⟨⟩, hreplies, -⟩
        cases hreplies
    | cons reply replies =>
      refine (ih reply).trans ?_
      constructor
      · rintro ⟨trips, hnext, rfl, rfl⟩
        exact ⟨(bits, reply) :: trips, .reply hnext, rfl, by simp⟩
      · rintro ⟨trips, hreaches, hreplies, rfl⟩
        cases hreaches with
        | reply hnext =>
          cases hreplies
          exact ⟨_, hnext, rfl, by simp⟩

theorem converse_recorded_sends :
    (∃ result left, dialogue.converse Link.recorded ⟨replies, sent⟩ =
        some (result, ⟨left, requests⟩) ∧ requests.length = sent.length + replies.length + 1) ↔
      ∃ (trips : List Trip) (bits : List Char), dialogue.Reaches trips (.asks bits) ∧
        replies = trips.map Prod.snd ∧ requests = sent ++ trips.map Prod.fst ++ [bits] := by
  induction dialogue generalizing replies sent with
  | done result =>
    constructor
    · rintro ⟨_, _, ⟨⟩, hlen⟩
      omega
    · rintro ⟨trips, bits, ⟨⟩, -⟩
  | failed fault =>
    constructor
    · rintro ⟨_, _, ⟨⟩, hlen⟩
      omega
    · rintro ⟨trips, bits, ⟨⟩, -⟩
  | unfinished =>
    constructor
    · rintro ⟨_, _, ⟨⟩, -⟩
    · rintro ⟨trips, bits, ⟨⟩, -⟩
  | ask bits next ih =>
    cases replies with
    | nil =>
      constructor
      · rintro ⟨_, _, ⟨⟩, -⟩
        exact ⟨[], bits, .ask bits next, rfl, by simp⟩
      · rintro ⟨trips, bits', hreaches, hreplies, rfl⟩
        cases hreaches with
        | ask =>
          rw [List.map_nil, List.append_nil]
          exact ⟨_, _, rfl, List.length_append⟩
        | reply => cases hreplies
    | cons reply replies =>
      have hlength : sent.length + (reply :: replies).length + 1 =
          (sent ++ [bits]).length + replies.length + 1 := by
        simp only [List.length_cons, List.length_append, List.length_nil]
        omega
      rw [hlength]
      refine (ih reply).trans ?_
      constructor
      · rintro ⟨trips, bits', hnext, rfl, rfl⟩
        exact ⟨(bits, reply) :: trips, bits', .reply hnext, rfl, by simp⟩
      · rintro ⟨trips, bits', hreaches, hreplies, rfl⟩
        cases hreaches with
        | ask => cases hreplies
        | reply hnext =>
          cases hreplies
          exact ⟨_, bits', hnext, rfl, by simp⟩

end Dialogue

namespace Desk

variable {book : Book} {desk : Desk} {id : Nat} {term : Term} {replies requests : List (List Char)}

/-- With these replies, one after the other, the desk's engine evaluates a term to this result and
    sends these requests. -/
def Returns (book : Book) (id : Nat) (desk : Desk) (term : Term)
    (replies requests : List (List Char)) (w : Term) : Prop :=
  ∃ fuel engine left, desk.engine.eval id book fuel Link.recorded ⟨replies, []⟩ (some term) =
    some (.ok w, engine, ⟨left, requests⟩)

/-- With these replies, one after the other, the desk's engine sends these requests when it
    evaluates a term, the last of which has no reply any more. -/
def Sends (book : Book) (id : Nat) (desk : Desk) (term : Term)
    (replies requests : List (List Char)) : Prop :=
  ∃ fuel result engine left,
    desk.engine.eval id book fuel Link.recorded ⟨replies, []⟩ (some term) =
      some (result, engine, ⟨left, requests⟩) ∧
    requests.length = replies.length + 1

theorem Reached.returns_iff (h : Reached book desk) {w : Term} :
    Returns book id desk term replies requests w ↔
      ∃ trips left, Direct.Tells book term trips (.ends w) ∧
        replies = trips.map Prod.snd ++ left ∧ requests = trips.map Prod.fst := by
  have halike := h.valid.eval_haltAlike id Link.recorded ⟨replies, []⟩ (some term)
  constructor
  · rintro ⟨fuel, engine, left, hrun⟩
    obtain ⟨fuel', direct, hdirect, rfl, -⟩ := halike.forth fuel _ hrun
    obtain ⟨trips, hreaches, hreplies, hrequests⟩ := Dialogue.converse_recorded_ok.1 hdirect
    exact ⟨trips, left, ⟨fuel', hreaches⟩, hreplies, hrequests⟩
  · rintro ⟨trips, left, ⟨fuel, hreaches⟩, hreplies, hrequests⟩
    have hdirect : (Direct.force book fuel term).converse Link.recorded ⟨replies, []⟩ =
        some (.ok w, ⟨left, requests⟩) :=
      Dialogue.converse_recorded_ok.2 ⟨trips, hreaches, hreplies, hrequests⟩
    obtain ⟨fuel', ⟨result, engine, link⟩, hrun, heq, -⟩ := halike.back fuel _ hdirect
    cases heq
    exact ⟨fuel', engine, left, hrun⟩

theorem Reached.returns_of_tells (h : Reached book desk) (id : Nat) {w : Term}
    {trips : List Trip} (htells : Direct.Tells book term trips (.ends w))
    (left : List (List Char)) :
    Returns book id desk term (trips.map Prod.snd ++ left) (trips.map Prod.fst) w :=
  h.returns_iff.2 ⟨trips, left, htells, rfl, rfl⟩

theorem Reached.sends_iff (h : Reached book desk) :
    Sends book id desk term replies requests ↔
      ∃ trips bits, Direct.Tells book term trips (.asks bits) ∧ replies = trips.map Prod.snd ∧
        requests = trips.map Prod.fst ++ [bits] := by
  have halike := h.valid.eval_haltAlike id Link.recorded ⟨replies, []⟩ (some term)
  constructor
  · rintro ⟨fuel, result, engine, left, hrun, hlen⟩
    obtain ⟨fuel', direct, hdirect, rfl, -⟩ := halike.forth fuel _ hrun
    obtain ⟨trips, bits, hreaches, hreplies, hrequests⟩ :=
      Dialogue.converse_recorded_sends.1 ⟨result, left, hdirect, by simpa using hlen⟩
    exact ⟨trips, bits, ⟨fuel', hreaches⟩, hreplies, hrequests⟩
  · rintro ⟨trips, bits, ⟨fuel, hreaches⟩, hreplies, hrequests⟩
    have hsends : requests = [] ++ trips.map Prod.fst ++ [bits] := hrequests
    obtain ⟨result, left, hdirect, hlen⟩ :=
      Dialogue.converse_recorded_sends.2 ⟨trips, bits, hreaches, hreplies, hsends⟩
    obtain ⟨fuel', ⟨result', engine, link⟩, hrun, heq, -⟩ := halike.back fuel _ hdirect
    cases heq
    exact ⟨fuel', result', engine, left, hrun, by simpa using hlen⟩

end Desk

end SignalCalculus
