import SignalCalculus.Machine.Law

set_option autoImplicit false

namespace SignalCalculus.Law

inductive Need.Advances : Need → Need → Prop
  | second (first : Tagged) : Advances .operand (.second first)
  | parts : Advances .operand (.part [])
  | opens (right : Term) (cells : List (Cell Term Value)) :
      Advances (.part cells) (.part (.left right :: cells))
  | fills {cells cells' : List (Cell Term Value)} {leaf : Value} {right : Term}
      (placed : place Value.pair cells leaf = .next right cells') :
      Advances (.part cells) (.part cells')

variable {g : Fn} {operands : List Term} {need need' : Need} {w term : Term}

theorem withNumber_needs {go : Tagged → Verdict} (h : withNumber w go = .needs need' term) :
    ∃ n, go n = .needs need' term := by
  unfold withNumber at h
  split at h
  · exact ⟨_, h⟩
  · split at h <;> cases h

theorem withInteger_needs {go : Int → Verdict} (h : withInteger w go = .needs need' term) :
    ∃ n, go n = .needs need' term := by
  obtain ⟨n, hn⟩ := withNumber_needs h
  split at hn
  · cases hn
  · exact ⟨_, hn⟩

theorem onOperand_needs (h : onOperand g operands w = .needs need' term) :
    Need.Advances .operand need' := by
  unfold onOperand at h
  split at h
  case h_1 | h_2 | h_3 | h_4 =>
    obtain ⟨n, hn⟩ := withInteger_needs h
    cases hn
  case h_5 | h_6 | h_7 | h_8 | h_9 =>
    obtain ⟨n, hn⟩ := withNumber_needs h
    cases hn
    exact .second n
  case h_10 =>
    dsimp only at h
    split at h
    · cases h
    · split at h <;> cases h
  case h_11 =>
    split at h
    · split at h <;> cases h
    · split at h
      · cases h
      · cases h
        exact .parts
  case h_12 =>
    split at h
    · split at h <;> cases h
    · split at h <;> cases h
    · split at h <;> cases h
  case h_13 =>
    split at h
    · cases h
    · split at h <;> cases h
  case h_14 => cases h

theorem arithmetic_not_needs (a b : Int) : arithmetic g a b ≠ .needs need' term := by
  unfold arithmetic
  split
  case h_3 => split <;> exact nofun
  all_goals exact nofun

theorem onSecond_not_needs (first : Tagged) : onSecond g first w ≠ .needs need' term := by
  intro h
  obtain ⟨second, hsecond⟩ := withNumber_needs h
  split at hsecond
  · cases hsecond
  · split at hsecond
    · cases hsecond
    · exact arithmetic_not_needs _ _ hsecond

theorem onValue_not_needs (value : Value) : onValue g value ≠ .needs need' term := by
  unfold onValue
  split
  case h_3 => split <;> exact nofun
  all_goals exact nofun

theorem settle_needs {cells : List (Cell Term Value)} {leaf : Value}
    (h : onPart.settle g cells leaf = .needs need' term) : Need.Advances (.part cells) need' := by
  unfold onPart.settle at h
  split at h
  · exact absurd h (onValue_not_needs _)
  · rename_i placed
    cases h
    exact .fills placed

theorem onPart_needs {cells : List (Cell Term Value)}
    (h : onPart g cells w = .needs need' term) : Need.Advances (.part cells) need' := by
  unfold onPart at h
  split at h
  · cases h
    exact .opens _ _
  · split at h
    · exact settle_needs h
    · exact settle_needs h
    · split at h <;> cases h

/-- A law that goes on waiting takes in a part of what it needs. -/
theorem onTerm_needs (h : onTerm g operands need w = .needs need' term) : need.Advances need' := by
  cases need with
  | operand => exact onOperand_needs h
  | second first => exact absurd h (onSecond_not_needs first)
  | part cells => exact onPart_needs h

end SignalCalculus.Law
