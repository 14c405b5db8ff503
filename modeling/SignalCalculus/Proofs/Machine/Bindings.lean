import SignalCalculus.Link.Basic
import SignalCalculus.Machine.Reduction

set_option autoImplicit false

namespace SignalCalculus

/-- Every evaluation and every step of a reduction comes to the same with either book. -/
structure Book.Interchangeable (book other : Book) : Prop where
  eval : ∀ (σ : Type) (engine : Engine) (id fuel : Nat) (link : Link σ) (state : σ)
    (query : Option Term),
    engine.eval id book fuel link state query = engine.eval id other fuel link state query
  weakHead : ∀ (engine : Engine) (id fuel : Nat) (term : Term),
    engine.weakHead id book fuel term = engine.weakHead id other fuel term
  advance : ∀ (fuel : Nat) (engine : Engine) (reduction : Reduction),
    reduction.advance book fuel engine = reduction.advance other fuel engine
  resume : ∀ (fuel : Nat) (engine : Engine) (reduction : Reduction) (reply : List Char)
    (seq : Option Int),
    reduction.resume book fuel engine reply seq = reduction.resume other fuel engine reply seq

variable {book other : Book}

namespace Machine

theorem step_congr (h : ∀ id, book.resolve id = other.resolve id) (engine : Engine)
    (machine : Machine) : step book engine machine = step other engine machine := by
  have hlook : ∀ chain stack, look book engine chain stack = look other engine chain stack := by
    intro chain stack
    simp only [look, h]
  unfold step
  simp only [hlook]

theorem settleFrom_congr (h : ∀ id, book.resolve id = other.resolve id) (fuel : Nat) (start : Step)
    (engine : Engine) : settleFrom book fuel start engine = settleFrom other fuel start engine := by
  induction fuel generalizing start engine with
  | zero => cases start <;> rfl
  | succ fuel ih =>
    cases start with
    | running machine => simp only [settleFrom, step_congr h, ih]
    | _ => rfl

end Machine

theorem Engine.converse_congr (h : ∀ id, book.resolve id = other.resolve id) {σ : Type}
    (fuel : Nat) (link : Link σ) (rounds : Nat) (rest : Rest) (engine : Engine) (state : σ) :
    converse book fuel link rounds rest engine state =
      converse other fuel link rounds rest engine state := by
  induction rounds generalizing rest engine state with
  | zero => cases rest <;> rfl
  | succ rounds ih =>
    cases rest with
    | sent bits suspended =>
      simp only [converse, Machine.resume, Machine.settleFrom_congr h, ih]
    | _ => rfl

theorem Book.interchangeable_of_resolve (h : ∀ id, book.resolve id = other.resolve id) :
    book.Interchangeable other where
  eval σ engine id fuel link state query := by
    cases query with
    | none => rfl
    | some term =>
      simp only [Engine.eval, Machine.run, Machine.settleFrom_congr h, Engine.converse_congr h]
  weakHead engine id fuel term := by
    simp only [Engine.weakHead, Machine.run, Machine.settleFrom_congr h]
  advance fuel engine reduction := by
    simp only [Reduction.advance, Machine.run, Machine.settleFrom_congr h]
  resume fuel engine reduction reply seq := by
    simp only [Reduction.resume, Machine.resume, Machine.settleFrom_congr h]

end SignalCalculus
