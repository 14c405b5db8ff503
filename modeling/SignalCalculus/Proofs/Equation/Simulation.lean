import SignalCalculus.Proofs.Direct.Force
import SignalCalculus.Proofs.Equation.Laws

set_option autoImplicit false

/-!
# Reduction respects interchange

If what one term of a related pair says can be had from the other, then wherever the reduction or
the forcing of one of two interchangeable terms pauses, so does that of the other: at the same
request, or at weak head normal forms that have heads which are kin and interchangeable arguments.
The induction is on the fuel of the one reduction. A replacement at the head is first undone or
done, which leaves two terms with heads that are kin.

Some replacements keep what is found without a request and may change the requests; then only
reductions without a request are compared.
-/

namespace SignalCalculus

open Direct (reduce obey force Reduces Obeys Speaks Complies Tells)

variable {book : Book} {base : Term → Term → Prop} {requests : Prop}

inductive Pause.Alike {α β : Type} (related : α → β → Prop) : Pause α → Pause β → Prop where
  | ends {a : α} {b : β} (h : related a b) : Alike related (.ends a) (.ends b)
  | asks (bits : List Char) : Alike related (.asks bits) (.asks bits)

def Allowed {α : Type} (requests : Prop) (trips : List Trip) (pause : Pause α) : Prop :=
  requests ∨ trips = [] ∧ ∃ a, pause = .ends a

namespace Allowed

variable {α β : Type} {before after : List Trip} {pause : Pause β}

theorem of_asks {bits : List Char} (h : Allowed requests before (.asks bits : Pause α))
    (trips : List Trip) (pause : Pause β) : Allowed requests trips pause := by
  obtain h | ⟨-, a, ha⟩ := h
  · exact .inl h
  · cases ha

theorem first (h : Allowed requests (before ++ after) pause) (a : α) :
    Allowed requests before (.ends a) :=
  h.imp_right fun h => ⟨(List.append_eq_nil_iff.1 h.1).1, a, rfl⟩

theorem second (h : Allowed requests (before ++ after) pause) : Allowed requests after pause :=
  h.imp_right fun h => ⟨(List.append_eq_nil_iff.1 h.1).2, h.2⟩

end Allowed

theorem Chained.alike {α α' β β' : Type} {related : α → α' → Prop} {related' : β → β' → Prop}
    {first : List Trip → Pause α → Prop} {first' : List Trip → Pause α' → Prop}
    {second : α → List Trip → Pause β → Prop} {second' : α' → List Trip → Pause β' → Prop}
    (hfirst : ∀ trips pause, Allowed requests trips pause → first trips pause →
      ∃ pause', first' trips pause' ∧ pause.Alike related pause')
    (hsecond : ∀ a a' trips pause, related a a' → Allowed requests trips pause →
      second a trips pause → ∃ pause', second' a' trips pause' ∧ pause.Alike related' pause')
    {trips : List Trip} {pause : Pause β} (hallowed : Allowed requests trips pause)
    (h : Chained first second trips pause) :
    ∃ pause', Chained first' second' trips pause' ∧ pause.Alike related' pause' := by
  obtain ⟨bits, rfl, hask⟩ | ⟨before, after, a, rfl, hend, hnext⟩ := h
  · obtain ⟨pause', hask', halike⟩ := hfirst _ _ (hallowed.of_asks _ _) hask
    cases halike with
    | asks => exact ⟨.asks bits, .inl ⟨bits, rfl, hask'⟩, .asks bits⟩
  · obtain ⟨pause', hend', halike⟩ := hfirst _ _ (hallowed.first a) hend
    cases halike with
    | @ends _ a' hrelated =>
      obtain ⟨pause', hnext', halike⟩ := hsecond a a' _ _ hrelated hallowed.second hnext
      exact ⟨pause', .inr ⟨before, after, a', rfl, hend', hnext'⟩, halike⟩

/-- What `a` says when it is applied to arguments can be had from `b`: there are terms with heads
    that are kin of which the one says with no more fuel what `a` says, and `b` says what the other
    says. -/
def Passes (book : Book) (requests : Prop) (base : Term → Term → Prop) (a b : Term) : Prop :=
  ∀ fuel args trips pause, Allowed requests trips pause →
    (reduce book fuel (a.apply args)).Reaches trips pause →
    ∃ u u' : Term, Rigid base u u' ∧ (reduce book fuel (u.apply args)).Reaches trips pause ∧
      ∀ more trips pause, Allowed requests trips pause →
        Speaks book (u'.apply more) trips pause → Speaks book (b.apply more) trips pause

def Respected (book : Book) (requests : Prop) (base : Term → Term → Prop) : Prop :=
  ∀ a b, base a b → Passes book requests base a b ∧ Passes book requests base b a

theorem Kin.of_fn {g : Fn} {symbol : Symbol} (h : Kin (.fn g) symbol) :
    ∃ g', symbol = .fn g' ∧ g'.arity? = g.arity? := by
  cases h with
  | same => exact ⟨g, rfl, rfl⟩
  | cons => exact ⟨.vec, rfl, rfl⟩
  | vec => exact ⟨.cons, rfl, rfl⟩

theorem Rigid.glance (book : Book) {n m : Term} (h : Rigid base n m) :
    match SignalCalculus.glance book n with
    | .normal => SignalCalculus.glance book m = .normal
    | .fails _ => True
    | .unfolds bound args => ∃ args', SignalCalculus.glance book m = .unfolds bound args' ∧
        List.Forall₂ (Interchanges base) args args'
    | .fires g args => ∃ g' args', SignalCalculus.glance book m = .fires g' args' ∧
        Kin (.fn g) (.fn g') ∧ g.arity?.getD 0 ≤ args.length ∧
        List.Forall₂ (Interchanges base) args args' := by
  obtain ⟨head, head', args, args', hs, hs', hhead, hargs⟩ := h.spine
  cases head with
  | var id =>
    cases hhead
    rw [glance_of_var hs, glance_of_var hs']
    cases book.resolve id with
    | none => rfl
    | some bound => exact ⟨args', rfl, hargs⟩
  | fn g =>
    obtain ⟨g', rfl, harity⟩ := hhead.of_fn
    rw [glance_of_fn hs, glance_of_fn hs', harity, ← hargs.length_eq]
    cases hg : g.arity? with
    | none => trivial
    | some arity =>
      by_cases hlen : args.length < arity
      · simp only [if_pos hlen]
      · simp only [if_neg hlen, hg]
        exact ⟨g', args', rfl, hhead, Nat.le_of_not_lt hlen, hargs⟩
  | number n | bits text | picture points | mark m =>
    cases hhead
    unfold SignalCalculus.glance
    rw [hs, hs']
    cases hargs <;> trivial

theorem Direct.obey_kin {g g' : Fn} (hkin : Kin (.fn g) (.fn g')) {args : List Term}
    (hlen : g.arity?.getD 0 ≤ args.length) (fuel : Nat) (term : Term) :
    obey book fuel term g args (Law.begin g (Law.operands g args)) =
      obey book fuel term g' args (Law.begin g' (Law.operands g' args)) := by
  cases hkin with
  | same => rfl
  | cons | vec =>
    obtain ⟨x, y, z, more, rfl⟩ : ∃ x y z more, args = x :: y :: z :: more := by
      match args, hlen with
      | x :: y :: z :: more, _ => exact ⟨x, y, z, more, rfl⟩
    cases fuel <;> rfl

theorem Interchanges.speaks_of_rigid (hbase : Respected book requests base) {fuel : Nat}
    (hrigid : ∀ n m trips pause, Rigid base n m → Allowed requests trips pause →
      (reduce book fuel n).Reaches trips pause →
      ∃ pause', Speaks book m trips pause' ∧ pause.Alike (Rigid base) pause')
    {n m : Term} (h : Interchanges base n m) {trips : List Trip} {pause : Pause Term}
    (hallowed : Allowed requests trips pause) (hn : (reduce book fuel n).Reaches trips pause) :
    ∃ pause', Speaks book m trips pause' ∧ pause.Alike (Rigid base) pause' := by
  have hpasses : ∀ a b args args', Passes book requests base a b →
      List.Forall₂ (Interchanges base) args args' →
      (reduce book fuel (a.apply args)).Reaches trips pause →
      ∃ pause', Speaks book (b.apply args') trips pause' ∧ pause.Alike (Rigid base) pause' := by
    intro a b args args' hab hargs ha
    obtain ⟨u, u', huu', hu, hback⟩ := hab fuel args trips pause hallowed ha
    obtain ⟨pause', hpause', halike⟩ := hrigid _ _ _ _ (huu'.apply hargs) hallowed hu
    refine ⟨pause', hback args' trips pause' ?_ hpause', halike⟩
    cases halike with
    | ends _ => exact hallowed.imp_right fun h => ⟨h.1, _, rfl⟩
    | asks bits => exact hallowed
  obtain hnm | ⟨a, b, args, args', hab, hargs, ⟨rfl, rfl⟩ | ⟨rfl, rfl⟩⟩ := h.head_cases
  · exact hrigid n m trips pause hnm hallowed hn
  · exact hpasses a b args args' (hbase a b hab).1 hargs hn
  · exact hpasses b a args args' (hbase a b hab).2 hargs hn

/-- Reduction to weak head normal form respects interchange: it is enough that the terms have heads
    that are kin, and a law may say what agrees about them. -/
theorem rigid_speaks (hbase : Respected book requests base) (fuel : Nat) :
    (∀ n m trips pause, Rigid base n m → Allowed requests trips pause →
      (reduce book fuel n).Reaches trips pause →
      ∃ pause', Speaks book m trips pause' ∧ pause.Alike (Rigid base) pause') ∧
    ∀ n m g args args' verdict verdict' trips pause, Rigid base n m →
      List.Forall₂ (Interchanges base) args args' → Law.Agrees base verdict verdict' →
      Allowed requests trips pause → (obey book fuel n g args verdict).Reaches trips pause →
      ∃ pause', Complies book m g args' verdict' trips pause' ∧
        pause.Alike (Rigid base) pause' := by
  -- The induction is on the fuel and not along the reduction: what a replacement at the head is
  -- passed on to takes no more fuel, but need not be a part of the reduction at hand.
  induction fuel with
  | zero =>
    constructor
    · intro n m trips pause _ _ h
      exact absurd h Dialogue.not_reaches_unfinished
    · intro n m g args args' verdict verdict' trips pause _ _ _ _ h
      exact absurd h Dialogue.not_reaches_unfinished
  | succ fuel ih =>
    obtain ⟨ihr, iho⟩ := ih
    constructor
    · intro n m trips pause hnm hallowed hn
      have hglance := hnm.glance book
      rw [Direct.reduce_succ] at hn
      simp only [Direct.speaks_iff]
      cases hg : glance book n with
      | normal =>
        rw [hg] at hn hglance
        obtain ⟨rfl, rfl⟩ := Dialogue.reaches_done.1 hn
        rw [hglance]
        exact ⟨.ends m, ⟨rfl, rfl⟩, .ends hnm⟩
      | fails fault =>
        rw [hg] at hn
        exact absurd hn Dialogue.not_reaches_failed
      | unfolds bound args =>
        rw [hg] at hn hglance
        obtain ⟨args', hglance, hargs⟩ := hglance
        rw [hglance]
        exact Chained.alike (fun trips pause => ihr bound bound trips pause (.refl bound))
          (fun v v' trips pause hv => ihr _ _ trips pause (hv.apply hargs)) hallowed
          (Dialogue.reaches_bind.1 hn)
      | fires g args =>
        rw [hg] at hn hglance
        obtain ⟨g', args', hglance, hkin, hlen, hargs⟩ := hglance
        rw [hglance]
        dsimp only at hn
        rw [Direct.obey_kin hkin hlen] at hn
        have hbegin := Law.begin_agrees (List.forall₂_take (g'.arity?.getD 0) hargs) g'
        exact iho n m g' args args' _ _ trips pause hnm hargs hbegin hallowed hn
    · intro n m g args args' verdict verdict' trips pause hnm hargs hverdict hallowed hn
      cases hverdict with
      | becomes hterm =>
        have hsurplus := List.forall₂_drop (g.arity?.getD 0) hargs
        obtain ⟨pause', hpause', halike⟩ :=
          (hterm.apply hsurplus).speaks_of_rigid hbase ihr hallowed hn
        exact ⟨pause', Direct.complies_iff.2 hpause', halike⟩
      | stuck =>
        obtain ⟨rfl, rfl⟩ := Dialogue.reaches_done.1 hn
        exact ⟨.ends m, Direct.complies_iff.2 ⟨rfl, rfl⟩, .ends hnm⟩
      | fails fault fault' => exact absurd hn Dialogue.not_reaches_failed
      | needs hneed hwanted =>
        have hops := List.forall₂_take (g.arity?.getD 0) hargs
        obtain ⟨pause', hpause', halike⟩ := Chained.alike
          (fun trips pause => hwanted.speaks_of_rigid hbase ihr)
          (fun v v' trips pause hv =>
            iho n m g args args' _ _ trips pause hnm hargs (Law.onTerm_agrees g hops hneed hv))
          hallowed (Dialogue.reaches_bind.1 hn)
        exact ⟨pause', Direct.complies_iff.2 hpause', halike⟩
      | sends bits =>
        obtain ⟨rfl, rfl⟩ | ⟨reply, rest, rfl, hnext⟩ := Dialogue.reaches_ask.1 hn
        · exact ⟨.asks bits, Direct.complies_iff.2 (.inl ⟨rfl, rfl⟩), .asks bits⟩
        · have hrest : Allowed requests rest pause :=
            hallowed.imp_right fun h => absurd h.1 (List.cons_ne_nil _ _)
          obtain ⟨pause', hpause', halike⟩ := iho n m .send args args' _ _ rest pause hnm hargs
            (Law.onReply_agrees reply) hrest hnext
          exact ⟨pause', Direct.complies_iff.2 (.inr ⟨reply, rest, rfl, hpause'⟩), halike⟩

theorem Interchanges.speaks (hbase : Respected book requests base) {n m : Term}
    (h : Interchanges base n m) {fuel : Nat} {trips : List Trip} {pause : Pause Term}
    (hallowed : Allowed requests trips pause) (hn : (reduce book fuel n).Reaches trips pause) :
    ∃ pause', Speaks book m trips pause' ∧ pause.Alike (Rigid base) pause' :=
  h.speaks_of_rigid hbase (rigid_speaks hbase fuel).1 hallowed hn

inductive Term.IsData : Term → Prop where
  | nil : IsData (.fn .nil)
  | number (n : Tagged) : IsData (.atom (.number n))
  | picture (points : List (Int × Int)) : IsData (.atom (.picture points))
  | cell {left right : Term} (hl : IsData left) (hr : IsData right) : IsData (.cell left right)

theorem Rigid.eq_of_isData {w w' : Term} (h : Rigid base w w') (hw : w.IsData)
    (hcell : w.cell? = none) : w' = w := by
  have hatom : ∀ symbol, w = .atom symbol → (∀ symbol', Kin symbol symbol' → symbol' = symbol) →
      w' = w := by
    rintro symbol rfl hkin
    obtain ⟨head, head', args, args', hs, hs', hhead, hargs⟩ := h.spine
    cases hs
    cases hargs
    rw [← w'.apply_spine, hs', hkin head' hhead]
    rfl
  cases hw with
  | nil => exact hatom _ rfl fun _ h => by cases h; rfl
  | number n => exact hatom _ rfl fun _ h => by cases h; rfl
  | picture points => exact hatom _ rfl fun _ h => by cases h; rfl
  | cell hl hr => cases hcell

/-- Where the forcing of one of two interchangeable terms pauses, so does that of the other, and a
    result that holds nothing but data is the same. -/
theorem Interchanges.tells (hbase : Respected book requests base) {fuel : Nat} {n m : Term}
    (h : Interchanges base n m) {trips : List Trip} {pause : Pause Term}
    (hallowed : Allowed requests trips pause) (hn : (force book fuel n).Reaches trips pause) :
    ∃ pause', Tells book m trips pause' ∧ pause.Alike (fun w w' => w.IsData → w' = w) pause' := by
  induction fuel generalizing n m trips pause with
  | zero => exact absurd hn Dialogue.not_reaches_unfinished
  | succ fuel ih =>
    simp only [Direct.tells_iff]
    rw [Direct.force_succ] at hn
    refine Chained.alike (fun trips pause => h.speaks hbase) ?_ hallowed (Dialogue.reaches_bind.1 hn)
    intro u u' trips pause hu hallowed hhalves
    unfold Direct.forceHalves at hhalves
    unfold Direct.TellsHalves
    cases hcell : u.cell? with
    | none =>
      rw [hcell] at hhalves
      obtain ⟨rfl, rfl⟩ := Dialogue.reaches_done.1 hhalves
      rw [Law.cell?_none_agrees hu hcell]
      exact ⟨.ends u', ⟨rfl, rfl⟩, .ends fun hdata => hu.eq_of_isData hdata hcell⟩
    | some halves =>
      rw [hcell] at hhalves
      obtain ⟨left', right', hcell', hleft, hright⟩ := Law.cell?_some_agrees hu hcell
      rw [hcell']
      -- The halves are forced one after the other, and data are made of data only.
      refine Chained.alike (fun trips pause => ih hleft) ?_ hallowed
        (Dialogue.reaches_bind.1 hhalves)
      intro l l' trips pause hl hallowed hhalves
      refine Chained.alike (fun trips pause => ih hright) ?_ hallowed
        (Dialogue.reaches_bind.1 hhalves)
      intro r r' trips pause hr hallowed hdone
      obtain ⟨rfl, rfl⟩ := Dialogue.reaches_done.1 hdone
      refine ⟨.ends (.cell l' r'), ⟨rfl, rfl⟩, .ends fun hdata => ?_⟩
      cases hdata with
      | cell hdl hdr => rw [hl hdl, hr hdr]

end SignalCalculus
