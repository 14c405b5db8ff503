import SignalCalculus.Term.Basic
import Std.Data.HashMap

set_option autoImplicit false

namespace SignalCalculus

/-- Weak head normal forms by the terms they were found for. -/
structure Memo where
  table : Std.HashMap Term Term := ∅

namespace Memo

def empty : Memo := {}

def find? (memo : Memo) (term : Term) : Option Term := memo.table[term]?

def enter (memo : Memo) (term result : Term) : Memo := ⟨memo.table.insert term result⟩

def enterAll (memo : Memo) (terms : List Term) (result : Term) : Memo :=
  terms.foldl (fun memo term => memo.enter term result) memo

def size (memo : Memo) : Nat := memo.table.size

@[simp] theorem find?_empty (term : Term) : empty.find? term = none := by
  simp [empty, find?]

theorem size_empty : empty.size = 0 := by
  simp [empty, size]

theorem find?_enter (memo : Memo) (term result other : Term) :
    (memo.enter term result).find? other = if term = other then some result else memo.find? other := by
  simp [find?, enter, Std.HashMap.getElem?_insert]

theorem find?_enterAll (memo : Memo) (terms : List Term) (result other : Term) :
    (memo.enterAll terms result).find? other =
      if other ∈ terms then some result else memo.find? other := by
  induction terms generalizing memo with
  | nil => simp [enterAll]
  | cons term rest ih =>
    have step : memo.enterAll (term :: rest) result = (memo.enter term result).enterAll rest result := rfl
    rw [step, ih, find?_enter]
    by_cases hr : other ∈ rest
    · simp [hr]
    · by_cases ht : term = other
      · subst ht
        simp
      · have hne : ¬other = term := fun same => ht same.symm
        simp [hr, ht, hne]

end Memo

end SignalCalculus
