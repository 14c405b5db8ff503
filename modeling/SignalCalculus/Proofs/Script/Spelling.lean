import SignalCalculus.Proofs.Script.Words
import SignalCalculus.Script.Parse

set_option autoImplicit false

namespace SignalCalculus

open Text Script

namespace Symbol

/-- Whether the word of a symbol can be read: a picture has none, and a bit text holds zeros and
    ones. -/
def IsWritable : Symbol → Prop
  | .picture _ => False
  | .bits text => Wire.IsBits text
  | _ => True

instance : DecidablePred IsWritable
  | .picture _ => isFalse id
  | .bits text => List.decidableBAll (fun c => c = '0' ∨ c = '1') text
  | .number _ | .fn _ | .var _ | .mark _ => isTrue trivial

/-- What is read where a symbol was written: the entry word for the entry variable, else the same
    symbol. -/
def reread : Symbol → Symbol
  | .var id => if id = entryId then .fn .galaxy else .var id
  | symbol => symbol

theorem spelling_number (n : Tagged) :
    (number n).spelling =
      if n.modulated then '[' :: (decimal n.value ++ [']']) else decimal n.value := rfl

theorem spelling_var (id : Int) :
    (var id).spelling = if id = entryId then Fn.galaxy.word else ':' :: decimal id := rfl

theorem spelling_bits (text : List Char) : (bits text).spelling = '{' :: (text ++ ['}']) := rfl

end Symbol

namespace Script

theorem isInner_of_isDigit {c : Char} (h : c.isDigit = true) : IsInner c := by
  have hrange := toNat_of_isDigit h
  have hblank : isBlank c = false := by
    rw [Bool.eq_false_iff]
    simp only [isBlank, ne_eq, Bool.or_eq_true, Bool.and_eq_true, decide_eq_true_eq, beq_iff_eq]
    omega
  have hdelimiter : isDelimiter c = false := by
    rw [Bool.eq_false_iff]
    simp only [isDelimiter, ne_eq, Bool.or_eq_true, beq_iff_eq]
    rintro (((rfl | rfl) | rfl) | rfl) <;> exact absurd h (by decide)
  exact ⟨hblank, hdelimiter⟩

theorem isInner_of_mem_decimal {n : Int} {c : Char} (h : c ∈ decimal n) : IsInner c := by
  obtain rfl | hdigit := mem_decimal h
  · decide
  · exact isInner_of_isDigit hdigit

theorem isInner_of_all {run : List Char} (h : run.all (fun c => decide (IsInner c)) = true)
    {c : Char} (hc : c ∈ run) : IsInner c :=
  of_decide_eq_true (List.all_eq_true.1 h c hc)

theorem isInner_of_mem_word {g : Fn} {c : Char} (h : c ∈ g.word) : IsInner c := by
  have hall : g.word.all (fun c => decide (IsInner c)) = true := by
    cases g <;> decide
  exact isInner_of_all hall h

theorem isInner_of_bit {c : Char} (h : c = '0' ∨ c = '1') : IsInner c := by
  obtain rfl | rfl := h <;> decide

/-- A word is one delimiter, or a nonempty run without blanks and delimiters. -/
theorem spelling_delimiter_or_run {symbol : Symbol} (h : symbol.IsWritable) :
    symbol.spelling ∈ [['('], [','], [')']] ∨
      symbol.spelling ≠ [] ∧ ∀ c ∈ symbol.spelling, IsInner c := by
  cases symbol with
  | number n =>
    right
    rw [Symbol.spelling_number]
    split
    · refine ⟨List.cons_ne_nil _ _, fun c hc => ?_⟩
      simp only [List.mem_cons, List.mem_append, List.not_mem_nil, or_false] at hc
      obtain rfl | hc | rfl := hc
      · decide
      · exact isInner_of_mem_decimal hc
      · decide
    · exact ⟨decimal_ne_nil _, fun c hc => isInner_of_mem_decimal hc⟩
  | fn g =>
    right
    refine ⟨?_, fun c hc => isInner_of_mem_word hc⟩
    cases g <;> exact List.cons_ne_nil _ _
  | var id =>
    right
    rw [Symbol.spelling_var]
    split
    · exact ⟨List.cons_ne_nil _ _, fun c hc => isInner_of_mem_word hc⟩
    · refine ⟨List.cons_ne_nil _ _, fun c hc => ?_⟩
      obtain rfl | hc := List.mem_cons.1 hc
      · decide
      · exact isInner_of_mem_decimal hc
  | mark m =>
    cases m with
    | ap =>
      have hall : (Symbol.mark .ap).spelling.all (fun c => decide (IsInner c)) = true := by decide
      exact .inr ⟨List.cons_ne_nil _ _, fun c hc => isInner_of_all hall hc⟩
    | leftParen | comma | rightParen => exact .inl (by decide)
  | bits text =>
    right
    refine ⟨List.cons_ne_nil _ _, fun c hc => ?_⟩
    simp only [Symbol.spelling_bits, List.mem_cons, List.mem_append, List.not_mem_nil, or_false] at hc
    obtain rfl | hc | rfl := hc
    · decide
    · exact isInner_of_bit (h c hc)
    · decide
  | picture points => exact h.elim

theorem words_spelling {symbol : Symbol} (h : symbol.IsWritable) :
    words symbol.spelling = [symbol.spelling] := by
  obtain hdelimiter | ⟨hne, hrun⟩ := spelling_delimiter_or_run h
  · simp only [List.mem_cons, List.not_mem_nil, or_false] at hdelimiter
    obtain heq | heq | heq := hdelimiter <;> rw [heq] <;> rfl
  · exact words_run hne hrun

theorem mem_spelling {symbol : Symbol} (h : symbol.IsWritable) {c : Char}
    (hc : c ∈ symbol.spelling) : isBlank c = false ∧ c ≠ '=' := by
  obtain hdelimiter | ⟨-, hrun⟩ := spelling_delimiter_or_run h
  · simp only [List.mem_cons, List.not_mem_nil, or_false] at hdelimiter
    obtain heq | heq | heq := hdelimiter <;> rw [heq, List.mem_singleton] at hc <;> subst hc <;> decide
  · have hinner := hrun c hc
    refine ⟨hinner.1, ?_⟩
    rintro rfl
    exact absurd hinner.2 (by decide)

theorem words_renderChars {symbols : List Symbol} (h : ∀ symbol ∈ symbols, symbol.IsWritable) :
    words (renderChars symbols) = symbols.map Symbol.spelling := by
  induction symbols using renderChars.induct with
  | case1 => rfl
  | case2 symbol => exact words_spelling (h symbol List.mem_cons_self)
  | case3 symbol next rest ih =>
    have hfirst := words_spelling (h symbol List.mem_cons_self)
    have hrest := ih fun s hs => h s (List.mem_cons_of_mem _ hs)
    rw [renderChars, words_append_blank (by decide), hfirst, hrest]
    rfl

theorem mem_renderChars {symbols : List Symbol} (h : ∀ symbol ∈ symbols, symbol.IsWritable)
    {c : Char} (hc : c ∈ renderChars symbols) : isLineEnd c = false ∧ c ≠ '=' := by
  have hword : ∀ symbol ∈ symbols, ∀ c ∈ symbol.spelling, isLineEnd c = false ∧ c ≠ '=' := by
    intro symbol hsymbol c hc
    have hmem := mem_spelling (h symbol hsymbol) hc
    refine ⟨?_, hmem.2⟩
    rw [Bool.eq_false_iff]
    intro hend
    exact absurd (isBlank_of_isLineEnd hend) (by rw [hmem.1]; decide)
  induction symbols using renderChars.induct with
  | case1 => cases hc
  | case2 symbol => exact hword symbol List.mem_cons_self c hc
  | case3 symbol next rest ih =>
    rw [renderChars, List.mem_append, List.mem_cons] at hc
    obtain hc | rfl | hc := hc
    · exact hword symbol List.mem_cons_self c hc
    · decide
    · exact ih (fun s hs => h s (List.mem_cons_of_mem _ hs)) hc
        fun s hs => hword s (List.mem_cons_of_mem _ hs)

theorem mark_ofWord?_word (m : Mark) : Mark.ofWord? m.word = some m := by
  cases m <;> rfl

theorem fn_ofWord?_word (g : Fn) : Fn.ofWord? g.word = some g := by
  cases g <;> rfl

theorem mark_ofWord?_fn_word (g : Fn) : Mark.ofWord? g.word = none := by
  cases g <;> rfl

theorem symbol?_eq_literal? {c : Char} (hletter : c.isAlpha = false) (hinner : IsInner c)
    (rest : List Char) : symbol? (c :: rest) = literal? (c :: rest) := by
  have hmark : Mark.ofWord? (c :: rest) = none := by
    have hhead : ∀ m : Mark, m.word.head?.any (fun d => d.isAlpha || isDelimiter d) = true := by
      intro m
      cases m <;> rfl
    rw [Mark.ofWord?, List.find?_eq_none]
    intro m _ hword
    have hm := hhead m
    rw [beq_iff_eq.1 hword] at hm
    simp [hletter, hinner.2] at hm
  have hfn : Fn.ofWord? (c :: rest) = none := by
    have hhead : ∀ g : Fn, g.word.head?.any Char.isAlpha = true := by
      intro g
      cases g <;> rfl
    rw [Fn.ofWord?, List.find?_eq_none]
    intro g _ hword
    have hg := hhead g
    rw [beq_iff_eq.1 hword] at hg
    simp [hletter] at hg
  rw [symbol?, hmark, hfn]

theorem enclosed?_append (close : Char) (inner : List Char) :
    enclosed? close (inner ++ [close]) = some inner := by
  simp [enclosed?]

theorem symbol?_decimal (n : Int) : symbol? (decimal n) = some (.plain n) := by
  obtain ⟨c, rest, hcons⟩ := List.exists_cons_of_ne_nil (decimal_ne_nil n)
  have hc : c ∈ decimal n := hcons ▸ List.mem_cons_self
  have hletter : c.isAlpha = false := by
    obtain rfl | hdigit := mem_decimal hc
    · decide
    · exact isAlpha_of_isDigit hdigit
  have hback := decimal?_decimal n
  rw [hcons, symbol?_eq_literal? hletter (isInner_of_mem_decimal hc), ← hcons]
  unfold literal?
  simp only [hback]

theorem symbol?_spelling {symbol : Symbol} (h : symbol.IsWritable) :
    symbol? symbol.spelling = some symbol.reread := by
  cases symbol with
  | number n =>
    obtain ⟨value, modulated⟩ := n
    cases modulated with
    | false => exact symbol?_decimal value
    | true =>
      have hnone : decimal? ('[' :: (decimal value ++ [']'])) = none :=
        decimal?_eq_none (by decide) (by decide)
      change symbol? ('[' :: (decimal value ++ [']'])) = _
      rw [symbol?_eq_literal? (by decide) (by decide)]
      unfold literal?
      simp only [hnone, enclosed?_append, Option.bind_some, decimal?_decimal, Option.map_some]
      rfl
  | fn g =>
    change symbol? g.word = _
    rw [symbol?, mark_ofWord?_fn_word, fn_ofWord?_word]
    rfl
  | var id =>
    rw [Symbol.spelling_var, Symbol.reread]
    by_cases hentry : id = Symbol.entryId
    · rw [if_pos hentry, if_pos hentry]
      rfl
    · have hnone : decimal? (':' :: decimal id) = none := decimal?_eq_none (by decide) (by decide)
      rw [if_neg hentry, if_neg hentry, symbol?_eq_literal? (by decide) (by decide)]
      unfold literal?
      simp only [hnone, decimal?_decimal, Option.map_some]
  | mark m =>
    change symbol? m.word = _
    rw [symbol?, mark_ofWord?_word]
    rfl
  | bits text =>
    have hnone : decimal? ('{' :: (text ++ ['}'])) = none :=
      decimal?_eq_none (by decide) (by decide)
    have hbits : bits? text = some text := by
      have hall : ∀ c ∈ text, c = '0' ∨ c = '1' := h
      rw [bits?, if_pos]
      simpa [List.all_eq_true] using hall
    rw [Symbol.spelling_bits, symbol?_eq_literal? (by decide) (by decide)]
    unfold literal?
    simp only [hnone, enclosed?_append, Option.bind_some, hbits, Option.map_some]
    rfl
  | picture points => exact h.elim

end Script

end SignalCalculus
