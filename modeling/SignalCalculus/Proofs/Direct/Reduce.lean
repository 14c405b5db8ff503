import SignalCalculus.Machine.Step
import SignalCalculus.Proofs.Direct.Dialogue

set_option autoImplicit false

/-!
# Direct reduction

Weak head reduction and forcing by plain recursion: there is no memo, every term that is needed in
weak head normal form is reduced anew, and what waits for it is the caller. The laws are those of
the machine. A recursion that is cut off by its fuel is unfinished; where a reduction pauses, it
pauses with more fuel.

`Speaks` says where the reduction of a term pauses, given the replies to its requests, and `Reduces`
is reduction without a request. Both have one rule for each thing that can stand at the head of a
term and for each verdict of a law (`speaks_iff`, `complies_iff`).
-/

namespace SignalCalculus

inductive Glance where
  | normal
  | fails (fault : Fault)
  | unfolds (bound : Term) (args : List Term)
  | fires (g : Fn) (args : List Term)

def glance (book : Book) (term : Term) : Glance :=
  match term.spine with
  | (.var id, args) =>
    match book.resolve id with
    | none => .normal
    | some bound => .unfolds bound args
  | (.number _, []) | (.bits _, []) | (.picture _, []) => .normal
  | (.number n, arg :: _) => .fails (.eval (.appliedNumber n arg))
  | (.mark m, _) => .fails (.build (.unexpectedMark m))
  | (.fn g, args) =>
    match g.arity? with
    | none => .fails (.lawless g)
    | some arity => if args.length < arity then .normal else .fires g args
  | (data, arg :: _) => .fails (.eval (.appliedData data arg))

namespace Law

def operands (g : Fn) (args : List Term) : List Term := args.take (g.arity?.getD 0)

def surplus (g : Fn) (args : List Term) : List Term := args.drop (g.arity?.getD 0)

end Law

namespace Direct

mutual

/-- The weak head normal form of a term. -/
def reduce (book : Book) : Nat → Term → Dialogue Term
  | 0, _ => .unfinished
  | fuel + 1, term =>
    match glance book term with
    | .normal => .done term
    | .fails fault => .failed fault
    | .unfolds bound args =>
      (reduce book fuel bound).bind fun w => reduce book fuel (w.apply args)
    | .fires g args => obey book fuel term g args (Law.begin g (Law.operands g args))

def obey (book : Book) : Nat → Term → Fn → List Term → Law.Verdict → Dialogue Term
  | 0, _, _, _, _ => .unfinished
  | fuel + 1, _, g, args, .becomes result => reduce book fuel (result.apply (Law.surplus g args))
  | _ + 1, term, _, _, .stuck => .done term
  | _ + 1, _, _, _, .fails fault => .failed fault
  | fuel + 1, term, g, args, .needs need wanted =>
    (reduce book fuel wanted).bind fun w =>
      obey book fuel term g args (Law.onTerm g (Law.operands g args) need w)
  | fuel + 1, term, _, args, .sends bits =>
    .ask bits fun reply => obey book fuel term .send args (Law.onReply reply)

end

/-- The forced form of a term: the cells of its weak head normal form are rebuilt from forced
    halves. -/
def force (book : Book) : Nat → Term → Dialogue Term
  | 0, _ => .unfinished
  | fuel + 1, term =>
    (reduce book fuel term).bind fun w =>
      match w.cell? with
      | none => .done w
      | some (left, right) =>
        (force book fuel left).bind fun l =>
          (force book fuel right).bind fun r => .done (Term.cell l r)

theorem reduce_succ (book : Book) (fuel : Nat) (term : Term) :
    reduce book (fuel + 1) term =
      match glance book term with
      | .normal => .done term
      | .fails fault => .failed fault
      | .unfolds bound args =>
        (reduce book fuel bound).bind fun w => reduce book fuel (w.apply args)
      | .fires g args => obey book fuel term g args (Law.begin g (Law.operands g args)) := by
  rw [reduce]

theorem cut_succ (book : Book) (fuel : Nat) :
    (∀ term, (reduce book fuel term).IsCut (reduce book (fuel + 1) term)) ∧
    ∀ term g args verdict, (obey book fuel term g args verdict).IsCut
      (obey book (fuel + 1) term g args verdict) := by
  -- Reduction and laws go on with each other, so both are carried through one induction.
  induction fuel with
  | zero => exact ⟨fun term => .unfinished _, fun term g args verdict => .unfinished _⟩
  | succ fuel ih =>
    obtain ⟨ihr, iho⟩ := ih
    constructor
    · intro term
      rw [reduce_succ, reduce_succ]
      cases glance book term with
      | normal => exact .refl _
      | fails fault => exact .refl _
      | unfolds bound args => exact .bind (ihr bound) fun w => ihr (w.apply args)
      | fires g args => exact iho term g args _
    · intro term g args verdict
      cases verdict with
      | becomes result => exact ihr _
      | stuck => exact .refl _
      | fails fault => exact .refl _
      | needs need wanted => exact .bind (ihr wanted) fun w => iho term g args _
      | sends bits => exact .ask bits fun reply => iho term .send args _

theorem reduce_cut {book : Book} {fuel fuel' : Nat} (term : Term) (hle : fuel ≤ fuel') :
    (reduce book fuel term).IsCut (reduce book fuel' term) := by
  induction hle with
  | refl => exact .refl _
  | step _ ih => exact ih.trans ((cut_succ book _).1 term)

theorem obey_cut {book : Book} {fuel fuel' : Nat} (term : Term) (g : Fn) (args : List Term)
    (verdict : Law.Verdict) (hle : fuel ≤ fuel') :
    (obey book fuel term g args verdict).IsCut (obey book fuel' term g args verdict) := by
  induction hle with
  | refl => exact .refl _
  | step _ ih => exact ih.trans ((cut_succ book _).2 term g args verdict)

theorem reduce_within {book : Book} {fuel fuel' : Nat} (term : Term) (hle : fuel ≤ fuel') :
    (reduce book fuel term).Within (reduce book fuel' term) := (reduce_cut term hle).within

theorem reduce_mono {book : Book} {fuel fuel' : Nat} {term w : Term} (hle : fuel ≤ fuel')
    (h : reduce book fuel term = .done w) : reduce book fuel' term = .done w :=
  (reduce_within term hle).eq_done h

/-- The reduction of a term to weak head normal form pauses here, after these requests and
    replies. -/
def Speaks (book : Book) (term : Term) (trips : List Trip) (pause : Pause Term) : Prop :=
  ∃ fuel, (reduce book fuel term).Reaches trips pause

def Complies (book : Book) (term : Term) (g : Fn) (args : List Term) (verdict : Law.Verdict)
    (trips : List Trip) (pause : Pause Term) : Prop :=
  ∃ fuel, (obey book fuel term g args verdict).Reaches trips pause

theorem speaks_iff {book : Book} {term : Term} {trips : List Trip} {pause : Pause Term} :
    Speaks book term trips pause ↔
      match glance book term with
      | .normal => trips = [] ∧ pause = .ends term
      | .fails _ => False
      | .unfolds bound args =>
        Chained (Speaks book bound) (fun v => Speaks book (v.apply args)) trips pause
      | .fires g args =>
        Complies book term g args (Law.begin g (Law.operands g args)) trips pause := by
  have hsucc : Speaks book term trips pause ↔
      ∃ fuel, (reduce book (fuel + 1) term).Reaches trips pause :=
    ⟨fun ⟨fuel, h⟩ => ⟨fuel, ((cut_succ book fuel).1 term).within _ _ h⟩,
      fun ⟨fuel, h⟩ => ⟨_, h⟩⟩
  rw [hsucc]
  simp only [reduce_succ]
  cases glance book term with
  | normal => simp only [Dialogue.reaches_done, exists_const]
  | fails fault => simp only [Dialogue.not_reaches_failed, exists_const]
  | unfolds bound args =>
    exact Dialogue.exists_reaches_bind (reduce_cut bound) fun w => reduce_cut (w.apply args)
  | fires g args => exact Iff.rfl

theorem complies_iff {book : Book} {term : Term} {g : Fn} {args : List Term}
    {verdict : Law.Verdict} {trips : List Trip} {pause : Pause Term} :
    Complies book term g args verdict trips pause ↔
      match verdict with
      | .becomes result => Speaks book (result.apply (Law.surplus g args)) trips pause
      | .stuck => trips = [] ∧ pause = .ends term
      | .fails _ => False
      | .needs need wanted =>
        Chained (Speaks book wanted)
          (fun v => Complies book term g args (Law.onTerm g (Law.operands g args) need v))
          trips pause
      | .sends bits => (trips = [] ∧ pause = .asks bits) ∨ ∃ reply rest,
          trips = (bits, reply) :: rest ∧
            Complies book term .send args (Law.onReply reply) rest pause := by
  have hsucc : Complies book term g args verdict trips pause ↔
      ∃ fuel, (obey book (fuel + 1) term g args verdict).Reaches trips pause :=
    ⟨fun ⟨fuel, h⟩ => ⟨fuel, ((cut_succ book fuel).2 term g args verdict).within _ _ h⟩,
      fun ⟨fuel, h⟩ => ⟨_, h⟩⟩
  rw [hsucc]
  cases verdict with
  | becomes result => exact Iff.rfl
  | stuck => simp only [obey, Dialogue.reaches_done, exists_const]
  | fails fault => simp only [obey, Dialogue.not_reaches_failed, exists_const]
  | needs need wanted =>
    simp only [obey]
    exact Dialogue.exists_reaches_bind (reduce_cut wanted) fun w => obey_cut term g args _
  | sends bits =>
    simp only [obey, Dialogue.reaches_ask, exists_or, exists_const]
    refine or_congr_right ?_
    constructor
    · rintro ⟨fuel, reply, rest, htrips, h⟩
      exact ⟨reply, rest, htrips, fuel, h⟩
    · rintro ⟨reply, rest, htrips, fuel, h⟩
      exact ⟨fuel, reply, rest, htrips, h⟩

/-- A term has a weak head normal form that is found without a request. -/
def Reduces (book : Book) (term w : Term) : Prop := ∃ fuel, reduce book fuel term = .done w

def Obeys (book : Book) (term : Term) (g : Fn) (args : List Term) (verdict : Law.Verdict)
    (w : Term) : Prop :=
  ∃ fuel, obey book fuel term g args verdict = .done w

theorem speaks_ends_iff {book : Book} {term w : Term} :
    Speaks book term [] (.ends w) ↔ Reduces book term w :=
  exists_congr fun _ => Dialogue.reaches_ends_iff

theorem complies_ends_iff {book : Book} {term w : Term} {g : Fn} {args : List Term}
    {verdict : Law.Verdict} :
    Complies book term g args verdict [] (.ends w) ↔ Obeys book term g args verdict w :=
  exists_congr fun _ => Dialogue.reaches_ends_iff

theorem reduces_iff {book : Book} {term w : Term} :
    Reduces book term w ↔
      match glance book term with
      | .normal => w = term
      | .fails _ => False
      | .unfolds bound args => ∃ v, Reduces book bound v ∧ Reduces book (v.apply args) w
      | .fires g args => Obeys book term g args (Law.begin g (Law.operands g args)) w := by
  rw [← speaks_ends_iff, speaks_iff]
  cases glance book term with
  | normal => simp
  | fails fault => exact Iff.rfl
  | unfolds bound args => simp only [chained_silent, speaks_ends_iff]
  | fires g args => exact complies_ends_iff

theorem Reduces.normal {book : Book} {term : Term} (hg : glance book term = .normal) :
    Reduces book term term := by
  rw [reduces_iff, hg]

theorem Reduces.unfold {book : Book} {term bound v w : Term} {args : List Term}
    (hg : glance book term = .unfolds bound args) (hv : Reduces book bound v)
    (hw : Reduces book (v.apply args) w) : Reduces book term w := by
  rw [reduces_iff, hg]
  exact ⟨v, hv, hw⟩

theorem Reduces.fire {book : Book} {term w : Term} {g : Fn} {args : List Term}
    (hg : glance book term = .fires g args)
    (h : Obeys book term g args (Law.begin g (Law.operands g args)) w) : Reduces book term w := by
  rw [reduces_iff, hg]
  exact h

theorem obeys_iff {book : Book} {term w : Term} {g : Fn} {args : List Term}
    {verdict : Law.Verdict} :
    Obeys book term g args verdict w ↔
      match verdict with
      | .becomes result => Reduces book (result.apply (Law.surplus g args)) w
      | .stuck => w = term
      | .fails _ => False
      | .needs need wanted => ∃ v, Reduces book wanted v ∧
          Obeys book term g args (Law.onTerm g (Law.operands g args) need v) w
      | .sends _ => False := by
  rw [← complies_ends_iff, complies_iff]
  cases verdict with
  | becomes result => exact speaks_ends_iff
  | stuck => simp
  | fails fault => exact Iff.rfl
  | needs need wanted => simp only [chained_silent, speaks_ends_iff, complies_ends_iff]
  | sends bits => simp

/-- A term with a weak head normal form that is found without a request pauses nowhere else. -/
theorem Reduces.of_reaches {book : Book} {term v : Term} (hv : Reduces book term v) {fuel : Nat}
    {trips : List Trip} {pause : Pause Term} (h : (reduce book fuel term).Reaches trips pause) :
    trips = [] ∧ pause = .ends v := by
  obtain ⟨fuel', hv⟩ := hv
  have hmax := reduce_within term (Nat.le_max_left fuel fuel') _ _ h
  rw [reduce_mono (Nat.le_max_right fuel fuel') hv] at hmax
  exact Dialogue.reaches_done.1 hmax

theorem Reduces.of_reaches_bind {β : Type} {book : Book} {term v : Term} (hv : Reduces book term v)
    {fuel : Nat} {f : Term → Dialogue β} {trips : List Trip} {pause : Pause β}
    (h : ((reduce book fuel term).bind f).Reaches trips pause) : (f v).Reaches trips pause := by
  rcases Dialogue.reaches_bind.1 h with ⟨bits, -, hask⟩ | ⟨before, after, w, rfl, hend, hnext⟩
  · cases (hv.of_reaches hask).2
  · obtain ⟨rfl, hw⟩ := hv.of_reaches hend
    cases hw
    exact hnext

theorem Reduces.chained_iff {β : Type} {book : Book} {term v : Term} (hv : Reduces book term v)
    {second : Term → List Trip → Pause β → Prop} {trips : List Trip} {pause : Pause β} :
    Chained (Speaks book term) second trips pause ↔ second v trips pause := by
  constructor
  · rintro (⟨bits, -, fuel, hask⟩ | ⟨before, after, w, rfl, ⟨fuel, hend⟩, hnext⟩)
    · cases (hv.of_reaches hask).2
    · obtain ⟨rfl, hw⟩ := hv.of_reaches hend
      cases hw
      exact hnext
  · intro h
    exact .inr ⟨[], trips, v, rfl, speaks_ends_iff.2 hv, h⟩

theorem Reduces.unique {book : Book} {term v w : Term} (hv : Reduces book term v)
    (hw : Reduces book term w) : v = w := by
  obtain ⟨fuel, hw⟩ := hw
  have hends := (hv.of_reaches (Dialogue.reaches_ends_iff.2 hw)).2
  cases hends
  rfl

/-- What holds of the weak head normal forms that are found in one step, and is passed on from
    the terms that a reduction and a law go through, holds of all. -/
theorem reduces_induction {book : Book} {P : Term → Term → Prop}
    {Q : Term → Fn → List Term → Law.Verdict → Term → Prop}
    (normal : ∀ term, glance book term = .normal → P term term)
    (unfold : ∀ term bound args v w, glance book term = .unfolds bound args →
      Reduces book bound v → P bound v → Reduces book (v.apply args) w → P (v.apply args) w →
      P term w)
    (fire : ∀ term g args w, glance book term = .fires g args →
      Obeys book term g args (Law.begin g (Law.operands g args)) w →
      Q term g args (Law.begin g (Law.operands g args)) w → P term w)
    (becomes : ∀ term g args result w, Reduces book (result.apply (Law.surplus g args)) w →
      P (result.apply (Law.surplus g args)) w → Q term g args (.becomes result) w)
    (stuck : ∀ term g args, Q term g args .stuck term)
    (needs : ∀ term g args need wanted v w, Reduces book wanted v → P wanted v →
      Obeys book term g args (Law.onTerm g (Law.operands g args) need v) w →
      Q term g args (Law.onTerm g (Law.operands g args) need v) w →
      Q term g args (.needs need wanted) w) :
    (∀ term w, Reduces book term w → P term w) ∧
    ∀ term g args verdict w, Obeys book term g args verdict w → Q term g args verdict w := by
  suffices h : ∀ fuel, (∀ term w, reduce book fuel term = .done w → P term w) ∧
      ∀ term g args verdict w, obey book fuel term g args verdict = .done w →
        Q term g args verdict w by
    constructor
    · rintro term w ⟨fuel, hw⟩
      exact (h fuel).1 term w hw
    · rintro term g args verdict w ⟨fuel, hw⟩
      exact (h fuel).2 term g args verdict w hw
  intro fuel
  induction fuel with
  | zero =>
    constructor
    · intro term w h
      simp [reduce] at h
    · intro term g args verdict w h
      simp [obey] at h
  | succ fuel ih =>
    obtain ⟨ihr, iho⟩ := ih
    constructor
    · intro term w h
      rw [reduce_succ] at h
      cases hg : glance book term with
      | normal =>
        rw [hg] at h
        cases h
        exact normal term hg
      | fails fault =>
        rw [hg] at h
        cases h
      | unfolds bound args =>
        rw [hg] at h
        obtain ⟨v, hv, hw⟩ := Dialogue.bind_eq_done.1 h
        exact unfold term bound args v w hg ⟨fuel, hv⟩ (ihr _ _ hv) ⟨fuel, hw⟩ (ihr _ _ hw)
      | fires g args =>
        rw [hg] at h
        exact fire term g args w hg ⟨fuel, h⟩ (iho _ _ _ _ _ h)
    · intro term g args verdict w h
      cases verdict with
      | becomes result => exact becomes term g args result w ⟨fuel, h⟩ (ihr _ _ h)
      | stuck =>
        cases h
        exact stuck term g args
      | fails fault => cases h
      | needs need wanted =>
        obtain ⟨v, hv, hw⟩ := Dialogue.bind_eq_done.1 h
        exact needs term g args need wanted v w ⟨fuel, hv⟩ (ihr _ _ hv) ⟨fuel, hw⟩
          (iho _ _ _ _ _ hw)
      | sends bits => cases h

theorem Reduces.self {book : Book} {term w : Term} (h : Reduces book term w) :
    Reduces book w w := by
  -- A law that is held up gives back its redex, which the term then was.
  have hself : (∀ term w, Reduces book term w → Reduces book w w) ∧
      ∀ term g args verdict w, Obeys book term g args verdict w → w = term ∨ Reduces book w w := by
    apply reduces_induction
    case normal => exact fun term hg => .normal hg
    case unfold => exact fun term bound args v w _ _ _ _ ih => ih
    case fire =>
      intro term g args w hg hobeys ih
      obtain rfl | hw := ih
      · exact .fire hg hobeys
      · exact hw
    case becomes => exact fun term g args result w _ ih => .inr ih
    case stuck => exact fun term g args => .inl rfl
    case needs => exact fun term g args need wanted v w _ _ _ ih => ih
  exact hself.1 term w h

end Direct

end SignalCalculus
