import SignalCalculus.Proofs.Direct.Spine
import SignalCalculus.Proofs.Term.Grammar

set_option autoImplicit false

namespace SignalCalculus

def Symbol.IsLeaf (symbol : Symbol) : Prop := symbol.isMark = false ∧ symbol ≠ .fn .galaxy

namespace Term

variable {p : Symbol → Prop} {term w left right : Term}

def Over (p : Symbol → Prop) : Term → Prop
  | .atom symbol => p symbol
  | .app f arg => f.Over p ∧ arg.Over p

@[simp] theorem over_atom {symbol : Symbol} : (atom symbol).Over p ↔ p symbol := Iff.rfl

@[simp] theorem over_app {f arg : Term} : (app f arg).Over p ↔ f.Over p ∧ arg.Over p := Iff.rfl

theorem over_of_forall (h : ∀ symbol, p symbol) (term : Term) : term.Over p := by
  induction term with
  | atom symbol => exact h symbol
  | app f arg ihf iharg => exact ⟨ihf, iharg⟩

@[simp] theorem over_apply {head : Term} {args : List Term} :
    (head.apply args).Over p ↔ head.Over p ∧ ∀ arg ∈ args, arg.Over p := by
  induction args generalizing head with
  | nil => simp [apply]
  | cons arg args ih =>
    have hcons : head.apply (arg :: args) = (app head arg).apply args := rfl
    rw [hcons, ih, over_app, List.forall_mem_cons, and_assoc]

theorem over_iff_spine : term.Over p ↔ p term.spine.1 ∧ ∀ arg ∈ term.spine.2, arg.Over p := by
  have happly := (over_apply : ((atom term.spine.1).apply term.spine.2).Over p ↔ _)
  rwa [term.apply_spine, over_atom] at happly

theorem Over.halves (h : w.Over p) (hcell : w.cell? = some (left, right)) :
    left.Over p ∧ right.Over p := by
  rw [over_iff_spine] at h
  obtain hspine | hspine := cell?_eq_some_iff.1 hcell <;> rw [hspine] at h
  · exact ⟨h.2 left (by simp), h.2 right (by simp)⟩
  · exact ⟨h.2 left (by simp), h.2 right (by simp)⟩

/-- A term without marks and the entry word is written as a phrase that stands for it. -/
theorem Over.phrase (h : term.Over Symbol.IsLeaf) (rest : List Symbol) :
    ∃ phrase : Phrase, term.symbolsOnto rest = phrase.symbols ++ rest ∧ phrase.term = term := by
  induction term generalizing rest with
  | atom symbol =>
    refine ⟨.leaf symbol h.1, ?_, ?_⟩
    · rw [Phrase.symbols]
      rfl
    · rw [Phrase.term, if_neg h.2]
  | app f arg ihf iha =>
    obtain ⟨second, harg, hsecond⟩ := iha h.2 rest
    obtain ⟨first, hf, hfirst⟩ := ihf h.1 (arg.symbolsOnto rest)
    refine ⟨.app first second, ?_, ?_⟩
    · rw [symbolsOnto, hf, harg, Phrase.symbols, List.cons_append, List.append_assoc]
    · rw [Phrase.term, hfirst, hsecond]

theorem Over.build_symbols_eq (h : term.Over Symbol.IsLeaf) :
    build term.symbols = .ok (some term) := by
  obtain ⟨phrase, hsymbols, hterm⟩ := h.phrase []
  rw [List.append_nil] at hsymbols
  rw [symbols, hsymbols, build_symbols, hterm]

end Term

mutual

theorem Phrase.over_term (phrase : Phrase) : phrase.term.Over Symbol.IsLeaf := by
  match phrase with
  | .leaf symbol plain =>
    rw [Phrase.term]
    split
    · exact ⟨rfl, nofun⟩
    · rename_i hne
      exact ⟨plain, hne⟩
  | .app fn arg =>
    rw [Phrase.term]
    exact ⟨fn.over_term, arg.over_term⟩
  | .list items =>
    rw [Phrase.term]
    exact Phrase.over_cells items

theorem Phrase.over_cells (items : List Phrase) : (cells items).Over Symbol.IsLeaf := by
  match items with
  | [] =>
    rw [Phrase.cells]
    exact ⟨rfl, nofun⟩
  | item :: rest =>
    rw [Phrase.cells]
    exact ⟨⟨⟨rfl, nofun⟩, item.over_term⟩, Phrase.over_cells rest⟩

end

theorem Term.over_of_build {program : List Symbol} {term : Term}
    (h : build program = .ok (some term)) : term.Over Symbol.IsLeaf := by
  obtain ⟨phrase, -, rfl⟩ := build_eq_some_iff_phrase.1 h
  exact phrase.over_term

namespace Book

variable {p : Symbol → Prop} {book next : Book}

/-- Every term that is bound to a variable has leaves with the property only. -/
def Over (p : Symbol → Prop) (book : Book) : Prop :=
  ∀ id term, book.resolve id = some term → term.Over p

theorem Over.enter (h : book.Over Symbol.IsLeaf) (equation : Equation) :
    (book.enter equation).1.Over Symbol.IsLeaf := by
  unfold Book.enter binding
  cases hid : boundId? equation.1 with
  | none => exact h
  | some id =>
    cases hbuild : Term.build equation.2 with
    | error e => exact h
    | ok made =>
      cases made with
      | none => exact h
      | some made =>
        intro other term hresolve
        have hput := Table.get?_put id other made book.bindings
        change Table.get? other (Table.put id made book.bindings) = some term at hresolve
        rw [hput] at hresolve
        split at hresolve
        · cases hresolve
          exact Term.over_of_build hbuild
        · exact h other term hresolve

theorem Over.add (h : book.Over Symbol.IsLeaf) {equation : Equation}
    (hadd : book.add equation = .ok next) : next.Over Symbol.IsLeaf := by
  have hentered := h.enter equation
  unfold Book.add at hadd
  split at hadd
  · cases hadd
  · rename_i made hmade
    cases hadd
    rw [hmade] at hentered
    exact hentered

theorem Over.extend (h : book.Over Symbol.IsLeaf) (equations : List Equation) :
    (book.extend equations).1.Over Symbol.IsLeaf := by
  induction equations generalizing book with
  | nil => exact h
  | cons equation rest ih =>
    have hentered := h.enter equation
    unfold Book.extend
    split <;> rename_i made hmade <;> rw [hmade] at hentered
    · exact hentered
    · exact ih hentered

theorem over_of_ofEquations {equations : List Equation} (h : ofEquations equations = .ok book) :
    book.Over Symbol.IsLeaf := by
  have hempty : Over Symbol.IsLeaf {} := fun id term hresolve => by cases hresolve
  have hextend := hempty.extend equations
  unfold ofEquations at h
  split at h
  · cases h
  · rename_i hmade
    cases h
    rw [hmade] at hextend
    exact hextend

end Book

end SignalCalculus
