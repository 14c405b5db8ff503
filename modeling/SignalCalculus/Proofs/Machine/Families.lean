import SignalCalculus.Proofs.Machine.Contents
import SignalCalculus.Proofs.Machine.Faults
import SignalCalculus.Proofs.Wire.Grammar

set_option autoImplicit false

/-!
# The families of faults that an evaluation has

The symbols at the leaves of what a machine handles decide what it can fail with. Without marks and
the entry word it fails only as a reduction is expected to: over what is applied or operated on, over
the step limit, over a text that is no message, or because a request has no reply.
-/

namespace SignalCalculus

/-- A fault of one of the families that callers of an evaluation are told to expect. -/
def Fault.IsExpected (fault : Fault) : Prop :=
  fault.family? = some .eval ∨ fault.family? = some .codec ∨ fault.family? = some .protocol

/-- A property of the faults that a machine can have over terms with such leaves. -/
structure Machine.Blames (p : Symbol → Prop) (q : Fault → Prop) : Prop where
  laws : Law.Blames q
  limit : ∀ n, q (.eval (.stepLimit n))
  mark : ∀ m, p (.mark m) → q (.build (.unexpectedMark m))
  entry : p (.fn .galaxy) → q (.lawless .galaxy)

theorem Law.blames_isExpected : Law.Blames Fault.IsExpected where
  eval := fun _ _ => .inl rfl
  wire := by
    intro text e hread
    cases e with
    | notBinary field => exact absurd hread (Wire.demodulateChars_ne_notBinary text field)
    | badPrefix pos found => exact .inr (.inl rfl)
    | badWidth pos => exact .inr (.inl rfl)
    | trailing pos rest => exact .inr (.inl rfl)
    | invalidBit pos found => exact .inr (.inl rfl)

theorem Machine.blames_isExpected : Machine.Blames Symbol.IsLeaf Fault.IsExpected where
  laws := Law.blames_isExpected
  limit := fun _ => .inl rfl
  mark := fun _ hleaf => nomatch hleaf.1
  entry := fun hleaf => absurd rfl hleaf.2

section

variable {book : Book} {p : Symbol → Prop} {q : Fault → Prop} {held : Prop} {result : Term → Prop}

theorem glance_failsWith (hq : Machine.Blames p q) {term : Term} (hterm : term.Over p)
    {fault : Fault} (h : glance book term = .fails fault) : q fault := by
  have hhead := (Term.over_iff_spine.1 hterm).1
  obtain ⟨n, arg, rfl⟩ | ⟨data, arg, rfl⟩ | ⟨m, hm, rfl⟩ | ⟨g, hg, harity, rfl⟩ := glance_eq_fails h
  · exact hq.laws.eval _ rfl
  · exact hq.laws.eval _ rfl
  · exact hq.mark m (hm ▸ hhead)
  · cases g with
    | galaxy => exact hq.entry (hg ▸ hhead)
    | _ => cases harity

theorem Machine.step_failsWith (hq : Machine.Blames p q) {engine : Engine} {machine : Machine}
    (h : machine.Clean p held result) : (step book engine machine).1.FailsWith q := by
  have hturn := step_turn book engine machine
  generalize step book engine machine = state at hturn
  cases hturn with
  | recalls entry => trivial
  | begins => trivial
  | meets later entry => trivial
  | looks unknown sees =>
    cases sees with
    | free spine unbound => trivial
    | rests sees unheld => trivial
    | fails sees => exact glance_failsWith hq (h.1 _ List.mem_cons_self) sees
    | unfolds sees => trivial
    | refuses sees spent => exact hq.limit _
    | fires sees room => exact obey_failsWith _ _ _ _ _ (Law.begin_failsWith _ _)
  | ends => trivial
  | unfolded => trivial
  | hears => exact obey_failsWith _ _ _ _ _ (Law.onTerm_failsWith hq.laws _ _ _ _)
  | forced => exact rebuild_failsWith _ _ _ _

end

def Link.FailsWith {σ : Type} (q : Fault → Prop) (link : Link σ) : Prop :=
  ∀ bits state fault, (link bits state).1 = .error fault → q fault

theorem Carrier.failsWith {σ : Type} {q : Fault → Prop} (carrier : Carrier σ)
    (hq : ∀ e, q (.protocol (.link e))) : carrier.link.FailsWith q := by
  intro bits state fault h
  dsimp only [Carrier.link] at h
  cases hanswer : (carrier bits state).1 with
  | ok reply =>
    rw [hanswer] at h
    cases h
  | error e =>
    rw [hanswer] at h
    cases h
    exact hq e

theorem Carrier.failsExpected {σ : Type} (carrier : Carrier σ) :
    (Link.optional carrier.link).FailsWith Fault.IsExpected := by
  intro bits state fault h
  cases state with
  | none =>
    cases h
    exact .inr (.inr rfl)
  | some state => exact carrier.failsWith (fun _ => .inr (.inr rfl)) bits state fault h

section

variable {σ : Type} {book : Book} {link : Link σ} {point : Point σ} {p : Symbol → Prop}
  {q : Fault → Prop} {held : Prop} {result : Term → Prop}

theorem Point.failsWith_next (hq : Machine.Blames p q) (hlink : link.FailsWith q)
    (hclean : point.step.Clean p held result) (h : point.step.FailsWith q) :
    (point.next book link).step.FailsWith q := by
  obtain ⟨step, engine, state, laws⟩ := point
  cases step with
  | running machine => exact Machine.step_failsWith hq hclean
  | sent bits suspended =>
    have hfails := hlink bits state
    unfold next
    rcases hanswer : link bits state with ⟨fault | reply, between⟩
    · rw [hanswer] at hfails
      simp only [hanswer]
      exact hfails fault rfl
    · simp only [hanswer]
      exact Machine.obey_failsWith _ _ _ _ _ (Law.onReply_failsWith hq.laws reply)
  | finished w => exact h
  | failed fault => exact h

theorem Point.failsWith_after (hq : Machine.Blames p q) (hlink : link.FailsWith q)
    (hclean : ∀ moves, (point.after book link moves).step.Clean p held result)
    (h : point.step.FailsWith q) (moves : Nat) :
    (point.after book link moves).step.FailsWith q := by
  induction moves with
  | zero => exact h
  | succ moves ih => exact failsWith_next hq hlink (hclean moves) ih

/-- If the symbols of a class are all that the term, the book and the memo have at their leaves, an
    evaluation fails as machines over this class do. -/
theorem Engine.eval_failsWith (hp : Law.Admits p) (hq : Machine.Blames p q)
    (hlink : link.FailsWith q) {engine engine' : Engine} (hbook : book.Over p)
    (hmemo : engine.memo.Clean p True) {term : Term} (hterm : term.Over p) {id fuel : Nat}
    {state state' : σ} {fault : Fault}
    (h : engine.eval id book fuel link state (some term) = some (.error fault, engine', state')) :
    q fault := by
  obtain ⟨moves, laws, hcourse⟩ := eval_iff_course.1 ⟨fuel, h⟩
  have hstart : Machine.Tidy p True (fun _ => True)
      (.running (Machine.forcing term), engine.bind id) :=
    ⟨Machine.clean_forcing hterm fun _ _ => trivial, clean_bind hmemo id⟩
  have hclean : ∀ moves, ((Point.outset engine id term state).after book link moves).step.Clean p
      True (fun _ => True) :=
    fun moves => (Point.tidy_after hp hbook (fun _ _ _ => trivial) hstart moves).step
  have hend := Point.failsWith_after hq hlink hclean trivial moves
  rw [hcourse] at hend
  exact hend

end

end SignalCalculus
