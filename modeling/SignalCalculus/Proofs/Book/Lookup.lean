import SignalCalculus.Proofs.Book.Loading

set_option autoImplicit false

namespace SignalCalculus.Book

variable {equations : List Equation} {key other : List Symbol}

/-- One of the two programs is the left side of an equation that is in the book, and the other one
    is its right side. -/
def InForce (book : Book) (key other : List Symbol) : Prop :=
  book.forward.get? key = some other ∨ book.forward.get? other = some key

instance (book : Book) (key other : List Symbol) : Decidable (book.InForce key other) :=
  inferInstanceAs (Decidable (_ ∨ _))

/-- No equation has the key as its left side, and after the last one that has it as its right side,
    the left side of that one came again. -/
def Superseded (equations : List Equation) (key other : List Symbol) : Prop :=
  (∀ equation ∈ equations, equation.1 ≠ key) ∧
    ∃ before after, equations = before ++ (other, key) :: after ∧
      (∀ equation ∈ after, equation.2 ≠ key) ∧ ∃ equation ∈ after, equation.1 = other

theorem forward_eq_some_iff :
    (ofFitting equations).forward.get? key = some other ↔
      ∃ before after, equations = before ++ (key, other) :: after ∧
        ∀ equation ∈ after, equation.1 ≠ key :=
  Table.get?_ofEntries_eq_some_iff

theorem forward_eq_none_iff :
    (ofFitting equations).forward.get? key = none ↔ ∀ equation ∈ equations, equation.1 ≠ key :=
  Table.get?_ofEntries_eq_none_iff

theorem backward_eq_some_iff :
    (ofFitting equations).backward.get? key = some other ↔
      ∃ before after, equations = before ++ (other, key) :: after ∧
        ∀ equation ∈ after, equation.2 ≠ key := by
  have hswap : ∀ {part : List Equation} {p : Equation → Prop}, (∀ equation ∈ part, p equation) →
      ∀ equation ∈ part.map Prod.swap, p equation.swap := by
    intro part p hpart equation hmem
    obtain ⟨entry, hentry, rfl⟩ := List.mem_map.1 hmem
    exact hpart entry hentry
  change Table.get? key (Table.ofEntries (equations.map Prod.swap)) = some other ↔ _
  rw [Table.get?_ofEntries_eq_some_iff]
  constructor
  · rintro ⟨before, after, hswapped, hafter⟩
    refine ⟨before.map Prod.swap, after.map Prod.swap, ?_, hswap hafter⟩
    simpa using congrArg (List.map Prod.swap) hswapped
  · rintro ⟨before, after, rfl, hafter⟩
    exact ⟨before.map Prod.swap, after.map Prod.swap, by simp, hswap hafter⟩

theorem Superseded.not_inForce (h : Superseded equations key other) :
    ¬(ofFitting equations).InForce key other := by
  obtain ⟨hleft, before, after, rfl, hright, equation, hmem, rfl⟩ := h
  rintro (hforward | hforward)
  · rw [forward_eq_none_iff.2 hleft] at hforward
    cases hforward
  · -- Its left side came again, so it has the right side of an equation behind it.
    rw [List.append_cons, ofFitting, Table.get?_ofEntries_append] at hforward
    cases hagain : Table.get? equation.1 (Table.ofEntries after) with
    | none => exact Table.get?_ofEntries_eq_none_iff.1 hagain equation hmem rfl
    | some right =>
      rw [hagain] at hforward
      cases hforward
      obtain ⟨first, last, rfl, -⟩ := Table.get?_ofEntries_eq_some_iff.1 hagain
      exact hright _ (List.mem_append_right _ List.mem_cons_self) rfl

theorem inForce_or_superseded (h : (ofFitting equations).lookup key = some other) :
    (ofFitting equations).InForce key other ∨ Superseded equations key other := by
  unfold lookup at h
  cases hforward : (ofFitting equations).forward.get? key with
  | some found =>
    rw [hforward] at h
    cases h
    exact .inl (.inl hforward)
  | none =>
    rw [hforward] at h
    obtain ⟨before, after, hsplit, hafter⟩ := backward_eq_some_iff.1 h
    by_cases hagain : ∃ equation ∈ after, equation.1 = other
    · exact .inr ⟨forward_eq_none_iff.1 hforward, before, after, hsplit, hafter, hagain⟩
    · refine .inl (.inr (forward_eq_some_iff.2 ⟨before, after, hsplit, fun equation hmem => ?_⟩))
      exact fun hleft => hagain ⟨equation, hmem, hleft⟩

/-- Whatever was tried to be added to an empty book: what a program is answered with is the other
    side of an equation in the book, unless the last equation added with that program on the right
    has been replaced since and no equation has it on the left. Where no left side was added with
    two right sides, every answer is of an equation in the book. -/
theorem lookup_answers_in_force (calls : List Equation) (key other : List Symbol)
    (h : (addEach {} calls).lookup key = some other) :
    ((addEach {} calls).InForce key other ↔ ¬Superseded (added {} calls) key other) ∧
    ((∀ first ∈ added {} calls, ∀ second ∈ added {} calls, first.1 = second.1 →
      first.2 = second.2) → (addEach {} calls).InForce key other) := by
  rw [addEach_eq] at h ⊢
  obtain hforce | hsuperseded := inForce_or_superseded h
  · exact ⟨iff_of_true hforce fun hsuperseded => hsuperseded.not_inForce hforce, fun _ => hforce⟩
  · refine ⟨iff_of_false hsuperseded.not_inForce (not_not_intro hsuperseded), fun hone => ?_⟩
    obtain ⟨-, before, after, hsplit, hright, equation, hmem, rfl⟩ := hsuperseded
    rw [hsplit] at hone
    refine absurd (hone equation ?_ (equation.1, key) ?_ rfl) (hright equation hmem)
    · exact List.mem_append_right _ (List.mem_cons_of_mem _ hmem)
    · exact List.mem_append_right _ List.mem_cons_self

def replacedFirst : List Equation :=
  [([.var 1], [.plain 5]), ([.var 2], [.plain 5]), ([.var 1], [.plain 7])]

/-- The second of the two variables still is `5`, and it is the answer. -/
theorem kept_equation_answers :
    (addEach {} replacedFirst).lookup [.plain 5] = some [.var 2] ∧
    (addEach {} replacedFirst).InForce [.plain 5] [.var 2] ∧
    ¬Superseded (added {} replacedFirst) [.plain 5] [.var 2] := by
  have hanswer : (addEach {} replacedFirst).lookup [.plain 5] = some [.var 2] := by decide
  have hforce : (addEach {} replacedFirst).InForce [.plain 5] [.var 2] := by decide
  exact ⟨hanswer, hforce, (lookup_answers_in_force _ _ _ hanswer).1.1 hforce⟩

/-- A variable is said to be `1` and then `2`: `1` is still answered with the variable, which no
    equation of the book makes it. -/
theorem lookup_answers_replaced_equation :
    (addEach {} [([.var 1], [.plain 1]), ([.var 1], [.plain 2])]).lookup [.plain 1] =
      some [.var 1] ∧
    ¬(addEach {} [([.var 1], [.plain 1]), ([.var 1], [.plain 2])]).InForce [.plain 1] [.var 1] := by
  decide

end SignalCalculus.Book
