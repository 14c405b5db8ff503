import SignalCalculus.Machine.Fault

set_option autoImplicit false

namespace SignalCalculus

abbrev Trip := List Char × List Char

/-- Where a computation stands that may send requests: at its result, or at a request. -/
inductive Pause (α : Type) where
  | ends (result : α)
  | asks (bits : List Char)

/-- How a computation pauses that goes on with the result of another: the first one asks, or it ends
    and the second one pauses. -/
def Chained {α β : Type} (first : List Trip → Pause α → Prop)
    (second : α → List Trip → Pause β → Prop) (trips : List Trip) (pause : Pause β) : Prop :=
  (∃ bits, pause = .asks bits ∧ first trips (.asks bits)) ∨
    ∃ before after a, trips = before ++ after ∧ first before (.ends a) ∧ second a after pause

theorem chained_silent {α β : Type} {first : List Trip → Pause α → Prop}
    {second : α → List Trip → Pause β → Prop} {b : β} :
    Chained first second [] (.ends b) ↔ ∃ a, first [] (.ends a) ∧ second a [] (.ends b) := by
  constructor
  · rintro (⟨bits, hpause, -⟩ | ⟨before, after, a, htrips, hfirst, hsecond⟩)
    · cases hpause
    · obtain ⟨rfl, rfl⟩ := List.append_eq_nil_iff.1 htrips.symm
      exact ⟨a, hfirst, hsecond⟩
  · rintro ⟨a, hfirst, hsecond⟩
    exact .inr ⟨[], [], a, rfl, hfirst, hsecond⟩

/-- A computation that may send requests. -/
inductive Dialogue (α : Type) where
  | done (result : α)
  | failed (fault : Fault)
  | ask (bits : List Char) (next : List Char → Dialogue α)
  | unfinished

namespace Dialogue

variable {α β γ : Type}

def bind : Dialogue α → (α → Dialogue β) → Dialogue β
  | done result, f => f result
  | failed fault, _ => .failed fault
  | ask bits next, f => .ask bits fun reply => (next reply).bind f
  | unfinished, _ => .unfinished

def after : Dialogue α → List (List Char) → Dialogue α
  | dialogue, [] => dialogue
  | ask _ next, reply :: replies => (next reply).after replies
  | dialogue, _ :: _ => dialogue

@[simp] theorem bind_done (result : α) (f : α → Dialogue β) : (done result).bind f = f result := rfl

@[simp] theorem bind_ask (bits : List Char) (next : List Char → Dialogue α) (f : α → Dialogue β) :
    (ask bits next).bind f = .ask bits fun reply => (next reply).bind f := rfl

theorem bind_assoc (dialogue : Dialogue α) (f : α → Dialogue β) (g : β → Dialogue γ) :
    (dialogue.bind f).bind g = dialogue.bind fun a => (f a).bind g := by
  induction dialogue with
  | done result => rfl
  | failed fault => rfl
  | unfinished => rfl
  | ask bits next ih =>
    simp only [bind_ask]
    congr 1
    funext reply
    exact ih reply

theorem bind_done_right (dialogue : Dialogue α) : dialogue.bind done = dialogue := by
  induction dialogue with
  | done result => rfl
  | failed fault => rfl
  | unfinished => rfl
  | ask bits next ih =>
    simp only [bind_ask]
    congr 1
    funext reply
    exact ih reply

theorem bind_eq_done {dialogue : Dialogue α} {f : α → Dialogue β} {b : β} :
    dialogue.bind f = .done b ↔ ∃ a, dialogue = .done a ∧ f a = .done b := by
  cases dialogue <;> simp [bind]

@[simp] theorem after_nil (dialogue : Dialogue α) : dialogue.after [] = dialogue := by
  cases dialogue <;> rfl

@[simp] theorem after_ask (bits : List Char) (next : List Char → Dialogue α) (reply : List Char)
    (replies : List (List Char)) :
    (ask bits next).after (reply :: replies) = (next reply).after replies := rfl

theorem after_append (dialogue : Dialogue α) (first second : List (List Char)) :
    dialogue.after (first ++ second) = (dialogue.after first).after second := by
  induction first generalizing dialogue with
  | nil => simp
  | cons reply rest ih =>
    cases dialogue with
    | ask bits next => exact ih (next reply)
    | done result => cases second <;> rfl
    | failed fault => cases second <;> rfl
    | unfinished => cases second <;> rfl

/-- After these requests and their replies, the dialogue pauses here. -/
inductive Reaches : Dialogue α → List Trip → Pause α → Prop
  | done (result : α) : Reaches (.done result) [] (.ends result)
  | ask (bits : List Char) (next : List Char → Dialogue α) : Reaches (.ask bits next) [] (.asks bits)
  | reply {bits reply : List Char} {next : List Char → Dialogue α} {trips : List Trip}
      {pause : Pause α} (h : Reaches (next reply) trips pause) :
      Reaches (.ask bits next) ((bits, reply) :: trips) pause

theorem reaches_done {a : α} {trips : List Trip} {pause : Pause α} :
    (done a).Reaches trips pause ↔ trips = [] ∧ pause = .ends a := by
  constructor
  · rintro ⟨⟩
    exact ⟨rfl, rfl⟩
  · rintro ⟨rfl, rfl⟩
    exact .done a

theorem not_reaches_failed {fault : Fault} {trips : List Trip} {pause : Pause α} :
    ¬(failed fault).Reaches trips pause := nofun

theorem not_reaches_unfinished {trips : List Trip} {pause : Pause α} :
    ¬unfinished.Reaches trips pause := nofun

theorem reaches_ask {bits : List Char} {next : List Char → Dialogue α} {trips : List Trip}
    {pause : Pause α} :
    (ask bits next).Reaches trips pause ↔ (trips = [] ∧ pause = .asks bits) ∨
      ∃ reply rest, trips = (bits, reply) :: rest ∧ (next reply).Reaches rest pause := by
  constructor
  · intro h
    cases h with
    | ask => exact .inl ⟨rfl, rfl⟩
    | reply h => exact .inr ⟨_, _, rfl, h⟩
  · rintro (⟨rfl, rfl⟩ | ⟨reply, rest, rfl, h⟩)
    · exact .ask bits next
    · exact .reply h

theorem reaches_ends_iff {dialogue : Dialogue α} {a : α} :
    dialogue.Reaches [] (.ends a) ↔ dialogue = .done a := by
  constructor
  · rintro ⟨⟩
    rfl
  · rintro rfl
    exact .done a

theorem reaches_bind {dialogue : Dialogue α} {f : α → Dialogue β} {trips : List Trip}
    {pause : Pause β} :
    (dialogue.bind f).Reaches trips pause ↔
      Chained dialogue.Reaches (fun a => (f a).Reaches) trips pause := by
  induction dialogue generalizing trips with
  | done result =>
    constructor
    · intro h
      exact .inr ⟨[], trips, result, rfl, .done result, h⟩
    · rintro (⟨bits, -, ⟨⟩⟩ | ⟨before, after, a, rfl, ⟨⟩, h⟩)
      exact h
  | failed fault =>
    constructor
    · rintro ⟨⟩
    · rintro (⟨bits, -, ⟨⟩⟩ | ⟨before, after, a, rfl, ⟨⟩, h⟩)
  | unfinished =>
    constructor
    · rintro ⟨⟩
    · rintro (⟨bits, -, ⟨⟩⟩ | ⟨before, after, a, rfl, ⟨⟩, h⟩)
  | ask bits next ih =>
    constructor
    · intro h
      cases h with
      | ask => exact .inl ⟨bits, rfl, .ask bits next⟩
      | @reply _ reply _ trips _ h =>
        rcases (ih reply).1 h with ⟨bits', hpause, h⟩ | ⟨before, after, a, rfl, h, hf⟩
        · exact .inl ⟨bits', hpause, .reply h⟩
        · exact .inr ⟨(bits, reply) :: before, after, a, rfl, .reply h, hf⟩
    · rintro (⟨bits', rfl, h⟩ | ⟨before, after, a, rfl, h, hf⟩)
      · cases h with
        | ask => exact .ask bits _
        | @reply _ reply _ _ _ h => exact .reply ((ih reply).2 (.inl ⟨bits', rfl, h⟩))
      · cases h with
        | @reply _ reply _ before _ h =>
          exact .reply ((ih reply).2 (.inr ⟨before, after, a, rfl, h, hf⟩))

def Within (first second : Dialogue α) : Prop :=
  ∀ trips pause, first.Reaches trips pause → second.Reaches trips pause

theorem Within.refl (dialogue : Dialogue α) : dialogue.Within dialogue := fun _ _ h => h

theorem Within.trans {first second third : Dialogue α} (h : first.Within second)
    (h' : second.Within third) : first.Within third :=
  fun trips pause hfirst => h' trips pause (h trips pause hfirst)

theorem Within.eq_done {first second : Dialogue α} (h : first.Within second) {a : α}
    (ha : first = .done a) : second = .done a :=
  reaches_ends_iff.1 (h _ _ (reaches_ends_iff.2 ha))

inductive IsCut : Dialogue α → Dialogue α → Prop
  | unfinished (dialogue : Dialogue α) : IsCut .unfinished dialogue
  | done (result : α) : IsCut (.done result) (.done result)
  | failed (fault : Fault) : IsCut (.failed fault) (.failed fault)
  | ask (bits : List Char) {next next' : List Char → Dialogue α}
      (h : ∀ reply, IsCut (next reply) (next' reply)) : IsCut (.ask bits next) (.ask bits next')

theorem IsCut.refl (dialogue : Dialogue α) : dialogue.IsCut dialogue := by
  induction dialogue with
  | done result => exact .done result
  | failed fault => exact .failed fault
  | ask bits next ih => exact .ask bits ih
  | unfinished => exact .unfinished _

theorem IsCut.trans {first second third : Dialogue α} (h : first.IsCut second)
    (h' : second.IsCut third) : first.IsCut third := by
  induction h generalizing third with
  | unfinished second => exact .unfinished third
  | done result => exact h'
  | failed fault => exact h'
  | ask bits h ih =>
    cases h' with
    | ask _ h' => exact .ask bits fun reply => ih reply (h' reply)

theorem IsCut.bind {first second : Dialogue α} {f f' : α → Dialogue β} (h : first.IsCut second)
    (hf : ∀ a, (f a).IsCut (f' a)) : (first.bind f).IsCut (second.bind f') := by
  induction h with
  | unfinished second => exact .unfinished _
  | done result => exact hf result
  | failed fault => exact .failed fault
  | ask bits h ih => exact .ask bits ih

theorem IsCut.within {first second : Dialogue α} (h : first.IsCut second) :
    first.Within second := by
  intro trips pause hfirst
  induction h generalizing trips with
  | unfinished second => exact absurd hfirst not_reaches_unfinished
  | done result => exact hfirst
  | failed fault => exact hfirst
  | ask bits h ih =>
    cases hfirst with
    | ask => exact .ask bits _
    | reply hnext => exact .reply (ih _ _ hnext)

theorem exists_reaches_bind {d : Nat → Dialogue α} {f : Nat → α → Dialogue β} {trips : List Trip}
    {pause : Pause β} (hd : ∀ {fuel fuel'}, fuel ≤ fuel' → (d fuel).IsCut (d fuel'))
    (hf : ∀ {fuel fuel'} a, fuel ≤ fuel' → (f fuel a).IsCut (f fuel' a)) :
    (∃ fuel, ((d fuel).bind (f fuel)).Reaches trips pause) ↔
      Chained (fun trips pause => ∃ fuel, (d fuel).Reaches trips pause)
        (fun a trips pause => ∃ fuel, (f fuel a).Reaches trips pause) trips pause := by
  constructor
  · rintro ⟨fuel, h⟩
    rcases reaches_bind.1 h with ⟨bits, hpause, hask⟩ | ⟨before, after, a, htrips, hend, hnext⟩
    · exact .inl ⟨bits, hpause, fuel, hask⟩
    · exact .inr ⟨before, after, a, htrips, ⟨fuel, hend⟩, ⟨fuel, hnext⟩⟩
  · rintro (⟨bits, hpause, fuel, hask⟩ | ⟨before, after, a, htrips, ⟨fuel, hend⟩, ⟨fuel', hnext⟩⟩)
    · exact ⟨fuel, reaches_bind.2 (.inl ⟨bits, hpause, hask⟩)⟩
    · have hend := (hd (Nat.le_max_left fuel fuel')).within _ _ hend
      have hnext := (hf a (Nat.le_max_right fuel fuel')).within _ _ hnext
      exact ⟨max fuel fuel', reaches_bind.2 (.inr ⟨before, after, a, htrips, hend, hnext⟩)⟩

end Dialogue

end SignalCalculus
