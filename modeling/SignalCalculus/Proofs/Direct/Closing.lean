import SignalCalculus.Proofs.Direct.Force

set_option autoImplicit false

namespace SignalCalculus

def Followed {α β : Type} (first : List Trip → Except Fault α → Prop)
    (second : α → List Trip → Except Fault β → Prop) (trips : List Trip)
    (result : Except Fault β) : Prop :=
  (∃ fault, result = .error fault ∧ first trips (.error fault)) ∨
    ∃ before after a, trips = before ++ after ∧ first before (.ok a) ∧ second a after result

namespace Dialogue

variable {α β : Type}

/-- After these requests and their replies the dialogue is over. -/
inductive Closes : Dialogue α → List Trip → Except Fault α → Prop
  | done (result : α) : Closes (.done result) [] (.ok result)
  | failed (fault : Fault) : Closes (.failed fault) [] (.error fault)
  | reply {bits reply : List Char} {next : List Char → Dialogue α} {trips : List Trip}
      {result : Except Fault α} (h : Closes (next reply) trips result) :
      Closes (.ask bits next) ((bits, reply) :: trips) result

theorem closes_done {a : α} {trips : List Trip} {result : Except Fault α} :
    (done a).Closes trips result ↔ trips = [] ∧ result = .ok a := by
  constructor
  · rintro ⟨⟩
    exact ⟨rfl, rfl⟩
  · rintro ⟨rfl, rfl⟩
    exact .done a

theorem closes_failed {fault : Fault} {trips : List Trip} {result : Except Fault α} :
    (failed fault).Closes trips result ↔ trips = [] ∧ result = .error fault := by
  constructor
  · rintro ⟨⟩
    exact ⟨rfl, rfl⟩
  · rintro ⟨rfl, rfl⟩
    exact .failed fault

theorem closes_ok_iff {dialogue : Dialogue α} {trips : List Trip} {a : α} :
    dialogue.Closes trips (.ok a) ↔ dialogue.Reaches trips (.ends a) := by
  constructor
  · intro h
    generalize hresult : Except.ok a = result at h
    induction h with
    | done b =>
      cases hresult
      exact .done a
    | failed fault => cases hresult
    | reply _ ih => exact .reply (ih hresult)
  · intro h
    generalize hpause : Pause.ends a = pause at h
    induction h with
    | done b =>
      cases hpause
      exact .done a
    | ask bits next => cases hpause
    | reply _ ih => exact .reply (ih hpause)

theorem closes_bind {dialogue : Dialogue α} {f : α → Dialogue β} {trips : List Trip}
    {result : Except Fault β} :
    (dialogue.bind f).Closes trips result ↔
      Followed dialogue.Closes (fun a => (f a).Closes) trips result := by
  induction dialogue generalizing trips with
  | done a =>
    constructor
    · intro h
      exact .inr ⟨[], trips, a, rfl, .done a, h⟩
    · rintro (⟨fault, -, ⟨⟩⟩ | ⟨before, after, b, rfl, ⟨⟩, h⟩)
      exact h
  | failed fault =>
    constructor
    · rintro ⟨⟩
      exact .inl ⟨fault, rfl, .failed fault⟩
    · rintro (⟨fault', rfl, ⟨⟩⟩ | ⟨before, after, b, rfl, ⟨⟩, h⟩)
      exact .failed fault
  | unfinished =>
    constructor
    · rintro ⟨⟩
    · rintro (⟨fault, -, ⟨⟩⟩ | ⟨before, after, b, rfl, ⟨⟩, h⟩)
  | ask bits next ih =>
    constructor
    · intro h
      cases h with
      | @reply _ reply _ trips _ h =>
        rcases (ih reply).1 h with ⟨fault, hresult, h⟩ | ⟨before, after, a, rfl, h, hf⟩
        · exact .inl ⟨fault, hresult, .reply h⟩
        · exact .inr ⟨(bits, reply) :: before, after, a, rfl, .reply h, hf⟩
    · rintro (⟨fault, rfl, h⟩ | ⟨before, after, a, rfl, h, hf⟩)
      · cases h with
        | @reply _ reply _ _ _ h => exact .reply ((ih reply).2 (.inl ⟨fault, rfl, h⟩))
      · cases h with
        | @reply _ reply _ before _ h =>
          exact .reply ((ih reply).2 (.inr ⟨before, after, a, rfl, h, hf⟩))

theorem IsCut.closes {first second : Dialogue α} (h : first.IsCut second) {trips : List Trip}
    {result : Except Fault α} (hfirst : first.Closes trips result) :
    second.Closes trips result := by
  induction h generalizing trips with
  | unfinished second => cases hfirst
  | done a => exact hfirst
  | failed fault => exact hfirst
  | ask bits h ih =>
    cases hfirst with
    | reply hnext => exact .reply (ih _ hnext)

theorem exists_closes_bind {d : Nat → Dialogue α} {f : Nat → α → Dialogue β} {trips : List Trip}
    {result : Except Fault β} (hd : ∀ {fuel fuel'}, fuel ≤ fuel' → (d fuel).IsCut (d fuel'))
    (hf : ∀ {fuel fuel'} a, fuel ≤ fuel' → (f fuel a).IsCut (f fuel' a)) :
    (∃ fuel, ((d fuel).bind (f fuel)).Closes trips result) ↔
      Followed (fun trips result => ∃ fuel, (d fuel).Closes trips result)
        (fun a trips result => ∃ fuel, (f fuel a).Closes trips result) trips result := by
  constructor
  · rintro ⟨fuel, h⟩
    rcases closes_bind.1 h with ⟨fault, hresult, hfails⟩ | ⟨before, after, a, htrips, ha, hnext⟩
    · exact .inl ⟨fault, hresult, fuel, hfails⟩
    · exact .inr ⟨before, after, a, htrips, ⟨fuel, ha⟩, ⟨fuel, hnext⟩⟩
  · rintro (⟨fault, hresult, fuel, hfails⟩ |
      ⟨before, after, a, htrips, ⟨fuel, ha⟩, ⟨fuel', hnext⟩⟩)
    · exact ⟨fuel, closes_bind.2 (.inl ⟨fault, hresult, hfails⟩)⟩
    · have ha := (hd (Nat.le_max_left fuel fuel')).closes ha
      have hnext := (hf a (Nat.le_max_right fuel fuel')).closes hnext
      exact ⟨max fuel fuel', closes_bind.2 (.inr ⟨before, after, a, htrips, ha, hnext⟩)⟩

end Dialogue

namespace Direct

variable {book : Book} {term x u : Term} {g : Fn} {args : List Term} {verdict : Law.Verdict}
  {trips more : List Trip} {fault : Fault} {result : Except Fault Term}

def ReduceCloses (book : Book) (term : Term) (trips : List Trip) (result : Except Fault Term) :
    Prop :=
  ∃ fuel, (reduce book fuel term).Closes trips result

/-- What follows from a verdict about the redex `term` is over, after these requests and replies. -/
def ObeyCloses (book : Book) (term : Term) (g : Fn) (args : List Term) (verdict : Law.Verdict)
    (trips : List Trip) (result : Except Fault Term) : Prop :=
  ∃ fuel, (obey book fuel term g args verdict).Closes trips result

def ForceCloses (book : Book) (term : Term) (trips : List Trip) (result : Except Fault Term) :
    Prop :=
  ∃ fuel, (force book fuel term).Closes trips result

theorem reduceCloses_ok_iff {w : Term} :
    ReduceCloses book term trips (.ok w) ↔ Speaks book term trips (.ends w) :=
  exists_congr fun _ => Dialogue.closes_ok_iff

theorem forceCloses_ok_iff {w : Term} :
    ForceCloses book term trips (.ok w) ↔ Tells book term trips (.ends w) :=
  exists_congr fun _ => Dialogue.closes_ok_iff

theorem reduceCloses_iff :
    ReduceCloses book term trips result ↔
      match glance book term with
      | .normal => trips = [] ∧ result = .ok term
      | .fails fault => trips = [] ∧ result = .error fault
      | .unfolds bound args =>
        Followed (ReduceCloses book bound) (fun v => ReduceCloses book (v.apply args)) trips result
      | .fires g args =>
        ObeyCloses book term g args (Law.begin g (Law.operands g args)) trips result := by
  have hsucc : ReduceCloses book term trips result ↔
      ∃ fuel, (reduce book (fuel + 1) term).Closes trips result :=
    ⟨fun ⟨fuel, h⟩ => ⟨fuel, ((cut_succ book fuel).1 term).closes h⟩, fun ⟨fuel, h⟩ => ⟨_, h⟩⟩
  rw [hsucc]
  simp only [reduce_succ]
  cases glance book term with
  | normal => simp only [Dialogue.closes_done, exists_const]
  | fails fault => simp only [Dialogue.closes_failed, exists_const]
  | unfolds bound args =>
    exact Dialogue.exists_closes_bind (reduce_cut bound) fun w => reduce_cut (w.apply args)
  | fires g args => exact Iff.rfl

theorem obeyCloses_iff :
    ObeyCloses book term g args verdict trips result ↔
      match verdict with
      | .becomes next => ReduceCloses book (next.apply (Law.surplus g args)) trips result
      | .stuck => trips = [] ∧ result = .ok term
      | .fails fault => trips = [] ∧ result = .error fault
      | .needs need wanted =>
        Followed (ReduceCloses book wanted)
          (fun v => ObeyCloses book term g args (Law.onTerm g (Law.operands g args) need v))
          trips result
      | .sends bits => ∃ reply rest, trips = (bits, reply) :: rest ∧
          ObeyCloses book term .send args (Law.onReply reply) rest result := by
  have hsucc : ObeyCloses book term g args verdict trips result ↔
      ∃ fuel, (obey book (fuel + 1) term g args verdict).Closes trips result :=
    ⟨fun ⟨fuel, h⟩ => ⟨fuel, ((cut_succ book fuel).2 term g args verdict).closes h⟩,
      fun ⟨fuel, h⟩ => ⟨_, h⟩⟩
  rw [hsucc]
  cases verdict with
  | becomes next => exact Iff.rfl
  | stuck => simp only [obey, Dialogue.closes_done, exists_const]
  | fails fault => simp only [obey, Dialogue.closes_failed, exists_const]
  | needs need wanted =>
    simp only [obey]
    exact Dialogue.exists_closes_bind (reduce_cut wanted) fun w => obey_cut term g args _
  | sends bits =>
    constructor
    · rintro ⟨fuel, h⟩
      cases h with
      | reply h => exact ⟨_, _, rfl, fuel, h⟩
    · rintro ⟨reply, rest, rfl, fuel, h⟩
      exact ⟨fuel, .reply h⟩

def HalvesClose (book : Book) (w : Term) (trips : List Trip) (result : Except Fault Term) : Prop :=
  match w.cell? with
  | none => trips = [] ∧ result = .ok w
  | some (left, right) =>
    Followed (ForceCloses book left)
      (fun l => Followed (ForceCloses book right) fun r trips result =>
        trips = [] ∧ result = .ok (Term.cell l r))
      trips result

theorem halvesClose_iff :
    HalvesClose book term trips result ↔
      ∃ fuel, (forceHalves book fuel term).Closes trips result := by
  unfold HalvesClose forceHalves
  cases term.cell? with
  | none => simp only [Dialogue.closes_done, exists_const]
  | some halves =>
    obtain ⟨left, right⟩ := halves
    have hright : ∀ l trips result,
        (∃ fuel, ((force book fuel right).bind fun r => .done (Term.cell l r)).Closes trips result) ↔
          Followed (ForceCloses book right)
            (fun r trips result => trips = [] ∧ result = .ok (Term.cell l r)) trips result := by
      intro l trips result
      rw [Dialogue.exists_closes_bind (force_cut right) fun r _ => .refl _]
      simp only [Dialogue.closes_done, exists_const]
      exact Iff.rfl
    dsimp only
    rw [Dialogue.exists_closes_bind (force_cut left)
      fun l hle => .bind (force_cut right hle) fun r => .refl _]
    simp only [hright]
    exact Iff.rfl

theorem forceCloses_iff :
    ForceCloses book term trips result ↔
      Followed (ReduceCloses book term) (HalvesClose book) trips result := by
  have hsucc : ForceCloses book term trips result ↔
      ∃ fuel, (force book (fuel + 1) term).Closes trips result :=
    ⟨fun ⟨fuel, h⟩ => ⟨fuel, (force_cut term (Nat.le_succ fuel)).closes h⟩, fun ⟨fuel, h⟩ => ⟨_, h⟩⟩
  rw [hsucc]
  simp only [force_succ]
  rw [Dialogue.exists_closes_bind (reduce_cut term)
    fun w hle => forceHalves_cut w fun term => force_cut term hle]
  simp only [← halvesClose_iff]
  exact Iff.rfl

theorem ReduceCloses.force (h : ReduceCloses book term trips result)
    (hleaf : ∀ w, result = .ok w → w.cell? = none) : ForceCloses book term trips result := by
  rw [forceCloses_iff]
  cases result with
  | error fault => exact .inl ⟨fault, rfl, h⟩
  | ok w =>
    refine .inr ⟨trips, [], w, (List.append_nil trips).symm, h, ?_⟩
    rw [HalvesClose, hleaf w rfl]
    exact ⟨rfl, rfl⟩

theorem forceCloses_of_cell {left right l : Term} (hu : Reduces book term u)
    (hcell : u.cell? = some (left, right)) (hl : ForceCloses book left [] (.ok l))
    (hr : ForceCloses book right [] result) :
    ForceCloses book term [] (result.map (Term.cell l)) := by
  rw [forceCloses_iff]
  refine .inr ⟨[], [], u, rfl, reduceCloses_ok_iff.2 (speaks_ends_iff.2 hu), ?_⟩
  rw [HalvesClose, hcell]
  refine .inr ⟨[], [], l, rfl, hl, ?_⟩
  cases result with
  | error fault => exact .inl ⟨fault, rfl, hr⟩
  | ok r => exact .inr ⟨[], [], r, rfl, hr, rfl, rfl⟩

theorem forceCloses_of_left {left right : Term} (hu : Reduces book term u)
    (hcell : u.cell? = some (left, right)) (hl : ForceCloses book left [] (.error fault)) :
    ForceCloses book term [] (.error fault) := by
  rw [forceCloses_iff]
  refine .inr ⟨[], [], u, rfl, reduceCloses_ok_iff.2 (speaks_ends_iff.2 hu), ?_⟩
  rw [HalvesClose, hcell]
  exact .inl ⟨fault, rfl, hl⟩

theorem reduceCloses_fires (operands more : List Term) (hg : g.arity? = some operands.length) :
    ReduceCloses book ((Term.fn g).apply (operands ++ more)) trips result ↔
      ObeyCloses book ((Term.fn g).apply (operands ++ more)) g (operands ++ more)
        (Law.begin g operands) trips result := by
  have hspine : ((Term.fn g).apply (operands ++ more)).spine = (.fn g, operands ++ more) := by
    rw [Term.spine_apply]
    rfl
  have hlength : ¬(operands ++ more).length < operands.length := by
    rw [List.length_append]
    omega
  have hoperands : Law.operands g (operands ++ more) = operands := by
    rw [Law.operands, hg]
    exact List.take_left
  rw [reduceCloses_iff, glance_of_fn hspine, hg]
  simp only [if_neg hlength, hoperands]

theorem obeyCloses_becomes (operands more : List Term) (hg : g.arity? = some operands.length)
    {next : Term} :
    ObeyCloses book term g (operands ++ more) (.becomes next) trips result ↔
      ReduceCloses book (next.apply more) trips result := by
  have hsurplus : Law.surplus g (operands ++ more) = more := by
    rw [Law.surplus, hg]
    exact List.drop_left
  rw [obeyCloses_iff]
  dsimp only
  rw [hsurplus]

theorem ObeyCloses.needs {need : Law.Need} (hx : Speaks book x trips (.ends u))
    (h : ObeyCloses book term g args (Law.onTerm g (Law.operands g args) need u) more result) :
    ObeyCloses book term g args (.needs need x) (trips ++ more) result :=
  obeyCloses_iff.2 (.inr ⟨trips, more, u, rfl, reduceCloses_ok_iff.2 hx, h⟩)

theorem ObeyCloses.needs_error {need : Law.Need} (hx : ReduceCloses book x trips (.error fault)) :
    ObeyCloses book term g args (.needs need x) trips (.error fault) :=
  obeyCloses_iff.2 (.inl ⟨fault, rfl, hx⟩)

end Direct

end SignalCalculus
