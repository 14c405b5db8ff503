import SignalCalculus.Machine.Fault

set_option autoImplicit false

namespace SignalCalculus.Law

open Term (fn cell apply ofValue ofBool)

def interact (protocol state event : Term) : Term :=
  apply (fn .f38) [protocol, apply protocol [state, event]]

/-- What a protocol's reply means: a zero flag ends the round with the new state and the pictures of
    the data, any other flag sends the data and goes on with the answer. -/
def f38 (protocol result : Term) : Term :=
  let rest := Term.app (fn .cdr) result
  let state := Term.app (fn .modem) (.app (fn .car) rest)
  let data := Term.app (fn .car) (.app (fn .cdr) rest)
  apply (fn .if0) [
    .app (fn .car) result,
    cell state (cell (.app (fn .multipledraw) data) (fn .nil)),
    apply (fn .interact) [protocol, state, .app (fn .send) data]]

def lazy? : Fn → List Term → Option Term
  | .t, [x, _] => some x
  | .f, [_, y] => some y
  | .i, [x] => some x
  | .c, [x, y, z] => some (apply x [z, y])
  | .b, [x, y, z] => some (.app x (.app y z))
  | .s, [x, y, z] => some (.app (.app x z) (.app y z))
  | .cons, [x, y, z] | .vec, [x, y, z] => some (apply z [x, y])
  | .car, [x] => some (.app x (fn .t))
  | .cdr, [x] => some (.app x (fn .f))
  | .nil, [_] => some (fn .t)
  | .modem, [x] => some (.app (fn .dem) (.app (fn .mod) x))
  | .interact, [p, s, e] => some (interact p s e)
  | .f38, [p, r] => some (f38 p r)
  | _, _ => none

/-- What a strict law waits for. -/
inductive Need where
  | operand
  | second (first : Tagged)
  | part (cells : List (Cell Term Value))

/-- What a law has to say about an answer. -/
inductive Verdict where
  | becomes (term : Term)
  /-- A free variable holds the law up; the redex stays as it is. -/
  | stuck
  | fails (fault : Fault)
  | needs (need : Need) (term : Term)
  | sends (bits : List Char)

def withNumber (w : Term) (go : Tagged → Verdict) : Verdict :=
  match w.spine with
  | (.number n, []) => go n
  | spine => if Term.isStuckSpine spine then .stuck else .fails (.eval (.expectedNumber w))

/-- Goes on with the integer that a term is; a modulated number is refused. -/
def withInteger (w : Term) (go : Int → Verdict) : Verdict :=
  withNumber w fun n => if n.modulated then .fails (.eval (.modulatedOperand n)) else go n.value

def arithmetic (g : Fn) (a b : Int) : Verdict :=
  match g with
  | .add => .becomes (.num (a + b))
  | .mul => .becomes (.num (a * b))
  | .div => if b = 0 then .fails (.eval (.divisionByZero a)) else .becomes (.num (a.tdiv b))
  | .eq => .becomes (ofBool (a == b))
  | .lt => .becomes (ofBool (a < b))
  | _ => .stuck

def points : Value → Except EvalError (List (Int × Int))
  | .nil => .ok []
  | .num n => .error (.openPicture (.num n))
  | .pair (.pair (.num x) (.num y)) rest => (points rest).map ((x, y) :: ·)
  | .pair other _ => .error (.expectedPoint other)

def onValue (g : Fn) (value : Value) : Verdict :=
  match g with
  | .mod => .becomes (.atom (.bits (Wire.valueBits value)))
  | .send => .sends (Wire.valueBits value)
  | .draw =>
    match points value with
    | .ok ps => .becomes (.atom (.picture ps))
    | .error e => .fails (.eval e)
  | _ => .stuck

/-- Takes in the next part of a value: a cell opens, a leaf may complete the value. -/
def onPart (g : Fn) (cells : List (Cell Term Value)) (w : Term) : Verdict :=
  match w.cell? with
  | some (left, right) => .needs (.part (.left right :: cells)) left
  | none =>
    match w.spine with
    | (.fn .nil, []) => settle .nil
    | (.number n, []) => settle (.num n.value)
    | spine => if Term.isStuckSpine spine then .stuck else .fails (.eval (.expectedList g w))
where
  settle (leaf : Value) : Verdict :=
    match place Value.pair cells leaf with
    | .whole value => onValue g value
    | .next right cells => .needs (.part cells) right

def onOperand (g : Fn) (operands : List Term) (w : Term) : Verdict :=
  match g, operands with
  | .inc, _ => withInteger w fun n => .becomes (.num (n + 1))
  | .dec, _ => withInteger w fun n => .becomes (.num (n - 1))
  | .neg, _ => withInteger w fun n => .becomes (.num (-n))
  | .if0, [_, x, y] => withInteger w fun n => .becomes (if n = 0 then x else y)
  | .add, [_, y] | .mul, [_, y] | .div, [_, y] | .eq, [_, y] | .lt, [_, y] =>
    withNumber w fun n => .needs (.second n) y
  | .isnil, _ =>
    match w.spine with
    | (head, args) =>
      if Term.isStuckSpine (head, args) then .stuck
      else
        match head with
        | .number n => .fails (.eval (.isnilOfNumber n))
        | _ => .becomes (ofBool (head == .fn .nil && args.isEmpty))
  | .mod, _ =>
    match w.spine with
    | (.number n, []) =>
      if n.modulated then .fails (.eval (.alreadyModulated n))
      else .becomes (.atom (.number ⟨n.value, true⟩))
    | spine => if Term.isStuckSpine spine then .stuck else .needs (.part []) w
  | .dem, _ =>
    match w.spine with
    | (.number n, []) =>
      if n.modulated then .becomes (.num n.value) else .fails (.eval (.notModulated n))
    | (.bits text, _) =>
      match Wire.demodulateChars text with
      | .ok value => .becomes (ofValue value)
      | .error e => .fails (.wire e)
    | spine => if Term.isStuckSpine spine then .stuck else .fails (.eval (.expectedNumber w))
  | .multipledraw, _ =>
    match w.spine with
    | (.fn .nil, []) => .becomes (fn .nil)
    | spine =>
      if Term.isStuckSpine spine then .stuck
      else
        .becomes (cell (.app (fn .draw) (.app (fn .car) w))
          (.app (fn .multipledraw) (.app (fn .cdr) w)))
  | _, _ => .stuck

def onSecond (g : Fn) (first : Tagged) (w : Term) : Verdict :=
  withNumber w fun second =>
    if first.modulated != second.modulated then .fails (.eval (.mixedModulation first second))
    else if first.modulated then .fails (.eval (.modulatedOperand first))
    else arithmetic g first.value second.value

def begin (g : Fn) (operands : List Term) : Verdict :=
  match lazy? g operands with
  | some term => .becomes term
  | none =>
    match g, operands with
    | .send, x :: _ | .draw, x :: _ => .needs (.part []) x
    | _, x :: _ => .needs .operand x
    | _, [] => .stuck

/-- What a law says about a term in weak head normal form that it needed. -/
def onTerm (g : Fn) (operands : List Term) (need : Need) (w : Term) : Verdict :=
  match need with
  | .operand => onOperand g operands w
  | .second first => onSecond g first w
  | .part cells => onPart g cells w

def onReply (reply : List Char) : Verdict :=
  match Wire.demodulateChars reply with
  | .ok value => .becomes (ofValue value)
  | .error e => .fails (.wire e)

end SignalCalculus.Law
