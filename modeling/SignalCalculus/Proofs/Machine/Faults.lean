import SignalCalculus.Machine.Step

set_option autoImplicit false

namespace SignalCalculus

def Fault.IsInner : Fault → Prop
  | .eval _ | .wire _ | .build _ | .lawless _ => True
  | _ => False

def EvalError.isLimit : EvalError → Bool
  | .stepLimit _ => true
  | _ => false

def Fault.isLimit : Fault → Bool
  | .eval e => e.isLimit
  | _ => false

namespace Law

/-- A property of the faults that a law can fail with: it blames its operands, or a text that is no
    message. -/
structure Blames (q : Fault → Prop) : Prop where
  eval : ∀ e : EvalError, e.isLimit = false → q (.eval e)
  wire : ∀ text e, Wire.demodulateChars text = .error e → q (.wire e)

def Verdict.FailsWith (q : Fault → Prop) : Verdict → Prop
  | .fails fault => q fault
  | _ => True

variable {q : Fault → Prop}

theorem withNumber_failsWith (hq : Blames q) (w : Term) {go : Tagged → Verdict}
    (hgo : ∀ n, (go n).FailsWith q) : (withNumber w go).FailsWith q := by
  unfold withNumber
  split
  · exact hgo _
  · split
    · trivial
    · exact hq.eval _ rfl

theorem withInteger_failsWith (hq : Blames q) (w : Term) {go : Int → Verdict}
    (hgo : ∀ n, (go n).FailsWith q) : (withInteger w go).FailsWith q := by
  refine withNumber_failsWith hq w fun n => ?_
  split
  · exact hq.eval _ rfl
  · exact hgo _

theorem onReply_failsWith (hq : Blames q) (reply : List Char) : (onReply reply).FailsWith q := by
  unfold onReply
  split
  · trivial
  · rename_i e hread
    exact hq.wire reply e hread

theorem begin_failsWith (g : Fn) (operands : List Term) : (begin g operands).FailsWith q := by
  unfold begin
  split
  · trivial
  · split <;> trivial

theorem arithmetic_failsWith (hq : Blames q) (g : Fn) (a b : Int) :
    (arithmetic g a b).FailsWith q := by
  unfold arithmetic
  split <;> try trivial
  split
  · exact hq.eval _ rfl
  · trivial

theorem points_isLimit {value : Value} {e : EvalError} (h : points value = .error e) :
    e.isLimit = false := by
  fun_induction points value with
  | case1 => cases h
  | case2 n =>
    cases h
    rfl
  | case3 x y rest ih =>
    cases hrest : points rest with
    | ok ps =>
      rw [hrest] at h
      cases h
    | error e' =>
      rw [hrest] at h
      cases h
      exact ih hrest
  | case4 other rest hother =>
    cases h
    rfl

theorem onValue_failsWith (hq : Blames q) (g : Fn) (value : Value) :
    (onValue g value).FailsWith q := by
  unfold onValue
  split <;> try trivial
  split
  · trivial
  · rename_i hpoints
    exact hq.eval _ (points_isLimit hpoints)

theorem onPart_failsWith (hq : Blames q) (g : Fn) (cells : List (Cell Term Value)) (w : Term) :
    (onPart g cells w).FailsWith q := by
  have hsettle : ∀ leaf, (onPart.settle g cells leaf).FailsWith q := by
    intro leaf
    unfold onPart.settle
    split
    · exact onValue_failsWith hq g _
    · trivial
  unfold onPart
  split
  · trivial
  · split
    · exact hsettle _
    · exact hsettle _
    · split
      · trivial
      · exact hq.eval _ rfl

theorem onSecond_failsWith (hq : Blames q) (g : Fn) (first : Tagged) (w : Term) :
    (onSecond g first w).FailsWith q := by
  refine withNumber_failsWith hq w fun second => ?_
  split
  · exact hq.eval _ rfl
  · split
    · exact hq.eval _ rfl
    · exact arithmetic_failsWith hq g _ _

theorem onOperand_failsWith (hq : Blames q) (g : Fn) (operands : List Term) (w : Term) :
    (onOperand g operands w).FailsWith q := by
  unfold onOperand
  split
  case h_1 | h_2 | h_3 | h_4 => exact withInteger_failsWith hq w fun n => trivial
  case h_5 | h_6 | h_7 | h_8 | h_9 => exact withNumber_failsWith hq w fun n => trivial
  case h_10 =>
    split
    split
    · trivial
    · split
      · exact hq.eval _ rfl
      · trivial
  case h_11 =>
    split
    · split
      · exact hq.eval _ rfl
      · trivial
    · split <;> trivial
  case h_12 =>
    split
    · split
      · trivial
      · exact hq.eval _ rfl
    · split
      · trivial
      · rename_i e hread
        exact hq.wire _ e hread
    · split
      · trivial
      · exact hq.eval _ rfl
  case h_13 =>
    split
    · trivial
    · split <;> trivial
  case h_14 => trivial

theorem onTerm_failsWith (hq : Blames q) (g : Fn) (operands : List Term) (need : Need) (w : Term) :
    (onTerm g operands need w).FailsWith q := by
  cases need with
  | operand => exact onOperand_failsWith hq g operands w
  | second first => exact onSecond_failsWith hq g first w
  | part cells => exact onPart_failsWith hq g cells w

theorem blames_isInner : Blames Fault.IsInner := ⟨fun _ _ => trivial, fun _ _ _ => trivial⟩

theorem blames_notLimit : Blames fun fault => fault.isLimit = false :=
  ⟨fun _ h => h, fun _ _ _ => rfl⟩

end Law

def Step.FailsWith (q : Fault → Prop) : Step → Prop
  | .failed fault => q fault
  | _ => True

namespace Machine

theorem obey_failsWith {q : Fault → Prop} (engine : Engine) (chain : Chain) (g : Fn)
    (args : List Term) (stack : List Frame) {verdict : Law.Verdict} (h : verdict.FailsWith q) :
    (obey engine chain g args stack verdict).1.FailsWith q := by
  cases verdict with
  | fails fault => exact h
  | becomes term => trivial
  | stuck => trivial
  | needs need term => trivial
  | sends bits => trivial

theorem look_failsInside (book : Book) (engine : Engine) (chain : Chain) (stack : List Frame) :
    (look book engine chain stack).1.FailsWith Fault.IsInner := by
  unfold look
  split <;> try trivial
  · split <;> trivial
  · split
    · trivial
    · split
      · trivial
      · split
        · trivial
        · exact obey_failsWith _ _ _ _ _ (Law.begin_failsWith _ _)

theorem rebuild_failsWith {q : Fault → Prop} (engine : Engine) (cells : List (Cell Term Term))
    (w : Term) (stack : List Frame) : (rebuild engine cells w stack).1.FailsWith q := by
  unfold rebuild
  split
  · trivial
  · split <;> trivial

theorem step_failsInside (book : Book) (engine : Engine) (machine : Machine) :
    (step book engine machine).1.FailsWith Fault.IsInner := by
  unfold step
  split
  · split <;> trivial
  · split
    · trivial
    · exact look_failsInside book engine _ _
  · trivial
  · trivial
  · exact obey_failsWith _ _ _ _ _ (Law.onTerm_failsWith Law.blames_isInner _ _ _ _)
  · exact rebuild_failsWith engine _ _ _

theorem settleFrom_failsInside {book : Book} {fuel : Nat} {start : Step} {engine engine' : Engine}
    {fault : Fault} (hstart : start.FailsWith Fault.IsInner)
    (h : settleFrom book fuel start engine = some (.failed fault, engine')) : fault.IsInner := by
  induction fuel generalizing start engine with
  | zero =>
    cases start <;> cases h
    exact hstart
  | succ fuel ih =>
    cases start with
    | running machine => exact ih (step_failsInside book engine machine) h
    | sent bits suspended => cases h
    | finished w => cases h
    | failed fault' =>
      cases h
      exact hstart

theorem run_failsInside {book : Book} {fuel : Nat} {engine engine' : Engine} {machine : Machine}
    {fault : Fault} (h : run book fuel engine machine = some (.failed fault, engine')) :
    fault.IsInner := by
  have hstart : (Step.running machine).FailsWith Fault.IsInner := trivial
  exact settleFrom_failsInside hstart h

theorem resume_failsInside {book : Book} {fuel : Nat} {engine engine' : Engine}
    {suspended : Suspended} {reply : List Char} {fault : Fault}
    (h : resume book fuel engine suspended reply = some (.failed fault, engine')) :
    fault.IsInner :=
  settleFrom_failsInside (obey_failsWith _ _ _ _ _ (Law.onReply_failsWith Law.blames_isInner reply)) h

end Machine

end SignalCalculus
