import Mathlib.Data.List.Forall2
import SignalCalculus.Proofs.Direct.Spine

set_option autoImplicit false

namespace SignalCalculus

/-- A redex of a lazy law with exactly its operands, or a bound variable, and what it contracts
    to. -/
inductive Contracts (book : Book) : Term → Term → Prop where
  | law {g : Fn} {operands : List Term} {result : Term} (h : Law.lazy? g operands = some result) :
      Contracts book ((Term.fn g).apply operands) result
  | definition {id : Int} {bound : Term} (h : book.resolve id = some bound) :
      Contracts book (.atom (.var id)) bound

/-- One subterm, at any position, is replaced by what it contracts to. -/
inductive Replaces (book : Book) : Term → Term → Prop where
  | root {a b : Term} (h : Contracts book a b) : Replaces book a b
  | left {f f' x : Term} (h : Replaces book f f') : Replaces book (.app f x) (.app f' x)
  | right {f x x' : Term} (h : Replaces book x x') : Replaces book (.app f x) (.app f x')

inductive Kin : Symbol → Symbol → Prop where
  | same (symbol : Symbol) : Kin symbol symbol
  | cons : Kin (.fn .cons) (.fn .vec)
  | vec : Kin (.fn .vec) (.fn .cons)

theorem Kin.symm {symbol symbol' : Symbol} (h : Kin symbol symbol') : Kin symbol' symbol := by
  cases h with
  | same => exact .same symbol
  | cons => exact .vec
  | vec => exact .cons

/-- Any number of separate subterms are replaced along `base`, in either direction, and one function
    that makes cells may stand for the other. -/
inductive Interchanges (base : Term → Term → Prop) : Term → Term → Prop where
  | kin {symbol symbol' : Symbol} (h : Kin symbol symbol') :
      Interchanges base (.atom symbol) (.atom symbol')
  | app {f f' x x' : Term} (hf : Interchanges base f f') (hx : Interchanges base x x') :
      Interchanges base (.app f x) (.app f' x')
  | contract {a b : Term} (h : base a b) : Interchanges base a b
  | expand {a b : Term} (h : base a b) : Interchanges base b a

variable {base : Term → Term → Prop}

namespace Interchanges

theorem atom (symbol : Symbol) : Interchanges base (.atom symbol) (.atom symbol) :=
  .kin (.same symbol)

theorem refl (term : Term) : Interchanges base term term := by
  induction term with
  | atom symbol => exact .atom symbol
  | app f x hf hx => exact .app hf hx

theorem symm {n m : Term} (h : Interchanges base n m) : Interchanges base m n := by
  induction h with
  | kin h => exact .kin h.symm
  | app _ _ hf hx => exact .app hf hx
  | contract h => exact .expand h
  | expand h => exact .contract h

theorem of_replaces {book : Book} {n m : Term} (h : Replaces book n m) :
    Interchanges (Contracts book) n m := by
  induction h with
  | root h => exact .contract h
  | left _ ih => exact .app ih (.refl _)
  | right _ ih => exact .app (.refl _) ih

theorem refl_all (terms : List Term) : List.Forall₂ (Interchanges base) terms terms :=
  List.forall₂_same.2 fun term _ => .refl term

theorem symm_all {terms terms' : List Term} (h : List.Forall₂ (Interchanges base) terms terms') :
    List.Forall₂ (Interchanges base) terms' terms :=
  (h.imp fun _ _ hterm => hterm.symm).flip

theorem apply {f f' : Term} {args args' : List Term} (hf : Interchanges base f f')
    (hargs : List.Forall₂ (Interchanges base) args args') :
    Interchanges base (f.apply args) (f'.apply args') := by
  induction hargs generalizing f f' with
  | nil => exact hf
  | cons harg _ ih => exact ih (.app hf harg)

end Interchanges

inductive Rigid (base : Term → Term → Prop) : Term → Term → Prop where
  | intro {head head' : Symbol} (hhead : Kin head head') {args args' : List Term}
      (hargs : List.Forall₂ (Interchanges base) args args') :
      Rigid base ((Term.atom head).apply args) ((Term.atom head').apply args')

namespace Rigid

theorem interchanges {n m : Term} (h : Rigid base n m) : Interchanges base n m := by
  obtain ⟨hhead, hargs⟩ := h
  exact .apply (.kin hhead) hargs

theorem symm {n m : Term} (h : Rigid base n m) : Rigid base m n := by
  obtain ⟨hhead, hargs⟩ := h
  exact .intro hhead.symm (Interchanges.symm_all hargs)

theorem spine {n m : Term} (h : Rigid base n m) :
    ∃ head head' args args', n.spine = (head, args) ∧ m.spine = (head', args') ∧
      Kin head head' ∧ List.Forall₂ (Interchanges base) args args' := by
  obtain ⟨hhead, hargs⟩ := h
  refine ⟨_, _, _, _, ?_, ?_, hhead, hargs⟩
  · rw [Term.spine_apply]; rfl
  · rw [Term.spine_apply]; rfl

theorem of_spine {n m : Term} {head head' : Symbol} {args args' : List Term}
    (hn : n.spine = (head, args)) (hm : m.spine = (head', args')) (hhead : Kin head head')
    (hargs : List.Forall₂ (Interchanges base) args args') : Rigid base n m := by
  rw [← n.apply_spine, ← m.apply_spine, hn, hm]
  exact .intro hhead hargs

theorem apply {n m : Term} (h : Rigid base n m) {args args' : List Term}
    (hargs : List.Forall₂ (Interchanges base) args args') :
    Rigid base (n.apply args) (m.apply args') := by
  obtain ⟨hhead, hfirst⟩ := h
  rw [← Term.apply_append, ← Term.apply_append]
  exact .intro hhead (List.rel_append hfirst hargs)

theorem refl (term : Term) : Rigid base term term :=
  .of_spine rfl rfl (.same _) (Interchanges.refl_all _)

end Rigid

theorem Interchanges.head_cases {n m : Term} (h : Interchanges base n m) :
    Rigid base n m ∨
      ∃ a b args args', base a b ∧ List.Forall₂ (Interchanges base) args args' ∧
        ((n = a.apply args ∧ m = b.apply args') ∨ (n = b.apply args ∧ m = a.apply args')) := by
  induction h with
  | kin h => exact .inl (.intro h .nil)
  | contract h => exact .inr ⟨_, _, [], [], h, .nil, .inl ⟨rfl, rfl⟩⟩
  | expand h => exact .inr ⟨_, _, [], [], h, .nil, .inr ⟨rfl, rfl⟩⟩
  | @app f f' x x' _ hx ihf _ =>
    have hlast : List.Forall₂ (Interchanges base) [x] [x'] := .cons hx .nil
    obtain hf | ⟨a, b, args, args', hab, hargs, hcase⟩ := ihf
    · exact .inl (hf.apply hlast)
    · refine .inr ⟨a, b, args ++ [x], args' ++ [x'], hab, List.rel_append hargs hlast, ?_⟩
      rw [Term.apply_append, Term.apply_append, Term.apply_append, Term.apply_append]
      obtain ⟨rfl, rfl⟩ | ⟨rfl, rfl⟩ := hcase
      · exact .inl ⟨rfl, rfl⟩
      · exact .inr ⟨rfl, rfl⟩

end SignalCalculus
