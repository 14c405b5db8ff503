import SignalCalculus.Proofs.Text.Decimal
import SignalCalculus.Value.Basic

set_option autoImplicit false

namespace SignalCalculus.Value

open Text

abbrev nilText : List Char := "nil".toList

theorem endsNumeral_prettyTail (value : Value) (rest : List Char) :
    EndsNumeral (value.prettyTail nilText rest) := by
  cases value with
  | nil => simp [prettyTail, EndsNumeral]
  | num n => simp [prettyTail, EndsNumeral]
  | pair left right => simp [prettyTail, EndsNumeral]

theorem endsNumeral_closing (rest : List Char) : EndsNumeral (')' :: rest) := by
  simp [EndsNumeral]

/-- What a text tells about the value that it starts with, and about the chain that it goes on
    with. -/
structure Legible (t : Value) : Prop where
  whole : ∀ {u : Value} {rest rest' : List Char}, EndsNumeral rest → EndsNumeral rest' →
    t.prettyOnto nilText rest = u.prettyOnto nilText rest' → t = u ∧ rest = rest'
  tail : ∀ {u : Value} {rest rest' : List Char},
    t.prettyTail nilText rest = u.prettyTail nilText rest' → t = u ∧ rest = rest'

theorem legible_nil : Legible nil where
  whole {u rest rest'} _ _ h := by
    cases u with
    | nil => exact ⟨rfl, List.append_cancel_left h⟩
    | num m => exact absurd h.symm (decimal_append_ne_cons (by decide) (by decide) _ _ _)
    | pair left right => exact absurd (List.cons.inj h).1 (by decide)
  tail {u rest rest'} h := by
    cases u with
    | nil => simpa [prettyTail] using h
    | num m => simp [prettyTail] at h
    | pair left right => simp [prettyTail] at h

theorem legible_num (n : Int) : Legible (num n) where
  whole {u rest rest'} hrest hrest' h := by
    cases u with
    | nil => exact absurd h (decimal_append_ne_cons (by decide) (by decide) _ _ _)
    | num m =>
      obtain ⟨rfl, hsame⟩ := decimal_append_inj hrest hrest' h
      exact ⟨rfl, hsame⟩
    | pair left right => exact absurd h (decimal_append_ne_cons (by decide) (by decide) _ _ _)
  tail {u rest rest'} h := by
    cases u with
    | nil => simp [prettyTail] at h
    | num m =>
      simp only [prettyTail, List.cons.injEq, true_and] at h
      obtain ⟨rfl, hclose⟩ :=
        decimal_append_inj (endsNumeral_closing rest) (endsNumeral_closing rest') h
      exact ⟨rfl, (List.cons.inj hclose).2⟩
    | pair left right => simp [prettyTail] at h

theorem Legible.item {left right left' right' : Value} {rest rest' : List Char}
    (hleft : Legible left) (hright : Legible right)
    (h : left.prettyOnto nilText (right.prettyTail nilText rest) =
      left'.prettyOnto nilText (right'.prettyTail nilText rest')) :
    pair left right = pair left' right' ∧ rest = rest' := by
  obtain ⟨rfl, htail⟩ :=
    hleft.whole (endsNumeral_prettyTail right rest) (endsNumeral_prettyTail right' rest') h
  obtain ⟨rfl, hrest⟩ := hright.tail htail
  exact ⟨rfl, hrest⟩

theorem legible_pair {left right : Value} (hleft : Legible left) (hright : Legible right) :
    Legible (pair left right) where
  whole {u rest rest'} _ _ h := by
    cases u with
    | nil => exact absurd (List.cons.inj h).1 (by decide)
    | num m => exact absurd h.symm (decimal_append_ne_cons (by decide) (by decide) _ _ _)
    | pair left' right' =>
      simp only [prettyOnto, List.cons.injEq, true_and] at h
      exact hleft.item hright h
  tail {u rest rest'} h := by
    cases u with
    | nil => simp [prettyTail] at h
    | num m => simp [prettyTail] at h
    | pair left' right' =>
      simp only [prettyTail, List.cons.injEq, true_and] at h
      exact hleft.item hright h

theorem legible (t : Value) : Legible t := by
  induction t with
  | nil => exact legible_nil
  | num n => exact legible_num n
  | pair left right ihl ihr => exact legible_pair ihl ihr

theorem pretty_inj {t u : Value} : t.pretty = u.pretty ↔ t = u := by
  constructor
  · intro h
    have hnil : EndsNumeral [] := nofun
    exact ((legible t).whole hnil hnil (String.ofList_injective h)).1
  · rintro rfl
    rfl

theorem prettySymbols?_of_ok {program : List Symbol} {value : Value}
    (h : ofSymbols program = .ok value) : prettySymbols? program = some value.pretty := by
  rw [prettySymbols?, h]
  rfl

theorem prettySymbols?_eq_none_iff {program : List Symbol} :
    prettySymbols? program = none ↔ ∃ e, ofSymbols program = .error e := by
  unfold prettySymbols?
  cases ofSymbols program with
  | error e => exact iff_of_true rfl ⟨e, rfl⟩
  | ok value => exact iff_of_false nofun nofun

/-- Tuple notation tells values apart, and so it tells apart the programs that spell different
    values; a program that spells no value has none. -/
theorem pretty_distinguishes_values :
    (∀ t u : Value, t.pretty = u.pretty → t = u) ∧
    (∀ (program program' : List Symbol) (t u : Value),
      ofSymbols program = .ok t → ofSymbols program' = .ok u →
        (prettySymbols? program = some t.pretty ∧ prettySymbols? program' = some u.pretty) ∧
        (t ≠ u → prettySymbols? program ≠ prettySymbols? program')) ∧
    ∀ program : List Symbol,
      prettySymbols? program = none ↔ ∃ e, ofSymbols program = .error e := by
  refine ⟨fun t u h => pretty_inj.1 h, fun program program' t u ht hu => ?_,
    fun program => prettySymbols?_eq_none_iff⟩
  have hprogram := prettySymbols?_of_ok ht
  have hprogram' := prettySymbols?_of_ok hu
  refine ⟨⟨hprogram, hprogram'⟩, fun hne hsame => ?_⟩
  rw [hprogram, hprogram', Option.some.injEq] at hsame
  exact hne (pretty_inj.1 hsame)

/-- A list of two and a pair, `(1, 2)` and `(1 . 2)`, by programs that use either pairing function
    and numbers of either state. -/
theorem list_and_pair_distinguished :
    let list : List Symbol := [.ap, .ap, .fn .cons, .plain 1, .ap, .ap, .fn .vec, .plain 2, .fn .nil]
    let both : List Symbol := [.ap, .ap, .fn .vec, .plain 1, .number ⟨2, true⟩]
    pretty (pair (num 1) (pair (num 2) nil)) = "(1, 2)" ∧
      ofSymbols list = .ok (pair (num 1) (pair (num 2) nil)) ∧
      ofSymbols both = .ok (pair (num 1) (num 2)) ∧
      prettySymbols? list ≠ prettySymbols? both := by
  intro list both
  have hlist : ofSymbols list = .ok (pair (num 1) (pair (num 2) nil)) := rfl
  have hboth : ofSymbols both = .ok (pair (num 1) (num 2)) := rfl
  have hne : pair (num 1) (pair (num 2) nil) ≠ pair (num 1) (num 2) := by decide
  exact ⟨rfl, hlist, hboth,
    (pretty_distinguishes_values.2.1 list both _ _ hlist hboth).2 hne⟩

end SignalCalculus.Value
