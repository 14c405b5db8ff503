import SignalCalculus.Value.Nested

set_option autoImplicit false

namespace SignalCalculus

namespace Value

inductive Occurs (part : Value) : Value → Prop
  | whole : Occurs part part
  | left {left right : Value} (h : Occurs part left) : Occurs part (pair left right)
  | right {left right : Value} (h : Occurs part right) : Occurs part (pair left right)

/-- Every chain of pairs that occurs in a value ends in the empty list. -/
def IsListed (value : Value) : Prop :=
  ∀ left right : Value, Occurs (pair left right) value → (pair left right).isProper = true

theorem isListed_nil : IsListed nil := nofun

theorem isListed_num (n : Int) : IsListed (num n) := nofun

theorem isListed_pair {left right : Value} :
    IsListed (pair left right) ↔ IsListed left ∧ IsListed right ∧ right.isProper = true := by
  constructor
  · intro h
    exact ⟨fun l r hocc => h l r (.left hocc), fun l r hocc => h l r (.right hocc),
      h left right .whole⟩
  · rintro ⟨hleft, hright, hproper⟩ l r hocc
    cases hocc with
    | whole => exact hproper
    | left hocc => exact hleft l r hocc
    | right hocc => exact hright l r hocc

/-- What a pair becomes is decided by the far end of its chain. -/
theorem nested_eq_list_iff (value : Value) :
    (∃ items, value.nested = .list items) ↔ value.isProper = true := by
  induction value with
  | nil => exact iff_of_true ⟨[], rfl⟩ rfl
  | num n => exact iff_of_false nofun nofun
  | pair left right _ ih =>
    rw [isProper, ← ih, nested]
    constructor
    · rintro ⟨items, h⟩
      split at h
      · exact ⟨_, ‹_›⟩
      · cases h
    · rintro ⟨items, h⟩
      exact ⟨left.nested :: items, by rw [h]⟩

theorem nested_pair_of_isProper (left : Value) {right : Value} (h : right.isProper = true) :
    ∃ items, right.nested = .list items ∧
      (pair left right).nested = .list (left.nested :: items) := by
  obtain ⟨items, hitems⟩ := (nested_eq_list_iff right).2 h
  exact ⟨items, hitems, by rw [nested, hitems]⟩

theorem nested_pair_of_not_isProper {left right : Value} (h : ¬right.isProper = true) :
    (pair left right).nested = .pair left.nested right.nested := by
  rw [nested]
  split
  · rename_i items hitems
    exact absurd ((nested_eq_list_iff right).1 ⟨items, hitems⟩) h
  · rfl

theorem value_nested_eq_iff (value : Value) : value.nested.value = value ↔ value.IsListed := by
  induction value with
  | nil => exact iff_of_true rfl isListed_nil
  | num n => exact iff_of_true rfl (isListed_num n)
  | pair left right ihl ihr =>
    rw [isListed_pair, ← ihl, ← ihr]
    by_cases hproper : right.isProper = true
    · obtain ⟨items, hright, hpair⟩ := nested_pair_of_isProper left hproper
      rw [hpair, hright, Nested.value, Nested.listValue, Nested.value, pair.injEq]
      simp only [hproper, and_true]
    · rw [nested_pair_of_not_isProper hproper, Nested.value, pair.injEq]
      constructor
      · rintro ⟨-, hright⟩
        -- a right half that is a list of one would make the chain end in the empty list
        exact absurd (hright ▸ rfl) hproper
      · rintro ⟨-, -, h⟩
        exact absurd h hproper

end Value

namespace Nested

inductive IsPairFree : Nested → Prop
  | num (n : Int) : IsPairFree (.num n)
  | list {items : List Nested} (h : ∀ item ∈ items, IsPairFree item) : IsPairFree (.list items)

theorem isPairFree_list_cons {item : Nested} {items : List Nested} :
    IsPairFree (.list (item :: items)) ↔ IsPairFree item ∧ IsPairFree (.list items) := by
  constructor
  · intro h
    cases h with
    | list h =>
      obtain ⟨hitem, hitems⟩ := List.forall_mem_cons.1 h
      exact ⟨hitem, .list hitems⟩
  · rintro ⟨hitem, hlist⟩
    cases hlist with
    | list hitems => exact .list (List.forall_mem_cons.2 ⟨hitem, hitems⟩)

theorem isProper_listValue (items : List Nested) : (listValue items).isProper = true := by
  induction items with
  | nil => rfl
  | cons item items ih => exact ih

mutual

theorem isListed_value (data : Nested) : data.value.IsListed := by
  cases data with
  | num n => exact Value.isListed_num n
  | list items => exact isListed_listValue items
  | pair left right =>
    have hright : (Value.pair right.value .nil).IsListed :=
      Value.isListed_pair.2 ⟨isListed_value right, Value.isListed_nil, rfl⟩
    exact Value.isListed_pair.2 ⟨isListed_value left, hright, rfl⟩

theorem isListed_listValue (items : List Nested) : (listValue items).IsListed := by
  cases items with
  | nil => exact Value.isListed_nil
  | cons item items =>
    exact Value.isListed_pair.2
      ⟨isListed_value item, isListed_listValue items, isProper_listValue items⟩

end

theorem isPairFree_nested {value : Value} (h : value.IsListed) : value.nested.IsPairFree := by
  induction value with
  | nil => exact .list nofun
  | num n => exact .num n
  | pair left right ihl ihr =>
    obtain ⟨hleft, hright, hproper⟩ := Value.isListed_pair.1 h
    obtain ⟨items, hitems, hpair⟩ := Value.nested_pair_of_isProper left hproper
    rw [hpair]
    exact isPairFree_list_cons.2 ⟨ihl hleft, hitems ▸ ihr hright⟩

theorem nested_listValue {items : List Nested} (h : ∀ item ∈ items, item.value.nested = item) :
    (listValue items).nested = .list items := by
  induction items with
  | nil => rfl
  | cons item items ih =>
    obtain ⟨hitem, hitems⟩ := List.forall_mem_cons.1 h
    rw [listValue, Value.nested, ih hitems, hitem]

theorem nested_value_eq_iff (data : Nested) : data.value.nested = data ↔ data.IsPairFree := by
  constructor
  · intro h
    exact h ▸ isPairFree_nested (isListed_value data)
  · intro h
    induction h with
    | num n => rfl
    | list _ ih => exact nested_listValue ih

end Nested

/-- A value comes back from nested data exactly if all its chains end in the empty list, and nested
    data come back from a value exactly if they hold integers and lists only. -/
theorem nested_inverts_exactly_lists :
    (∀ value : Value, value.nested.value = value ↔ value.IsListed) ∧
    ∀ data : Nested, data.value.nested = data ↔ data.IsPairFree :=
  ⟨Value.value_nested_eq_iff, Nested.nested_value_eq_iff⟩

/-- A list with a pair in it: the pair comes back as a list of two, and so it is a pair no longer. -/
example :
    (Value.pair (.pair (.num 1) (.num 2)) .nil).nested.value =
      .pair (.pair (.num 1) (.pair (.num 2) .nil)) .nil := rfl

end SignalCalculus
