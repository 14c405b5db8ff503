import SignalCalculus.Proofs.Term.Phrase

set_option autoImplicit false

namespace SignalCalculus

def BuildError.IsUnfinished : BuildError → Prop
  | .noFunction | .noArgument _ | .listNotClosed => True
  | _ => False

namespace Term

open Phrase (closing cells)

def opened : List Phrase → List Symbol
  | [] => [.mark .leftParen]
  | [item] => .mark .leftParen :: item.symbols
  | item :: before :: items => opened (before :: items) ++ .mark .comma :: item.symbols

theorem opened_append_closing (item : Phrase) (items later : List Phrase) :
    opened (item :: items) ++ closing later =
      (Phrase.list (items.reverse ++ item :: later)).symbols := by
  induction items generalizing item later with
  | nil =>
    rw [opened, List.reverse_nil, List.nil_append, Phrase.symbols]
    rfl
  | cons before items ih =>
    have hlater : opened (item :: before :: items) ++ closing later =
        opened (before :: items) ++ closing (item :: later) := by
      rw [opened, Phrase.closing, List.append_assoc, List.cons_append]
    rw [hlater, ih, List.reverse_cons, List.append_assoc, List.singleton_append]

theorem listOnto_cells (items later : List Phrase) :
    listOnto (cells later) (items.map Phrase.term) = cells (items.reverse ++ later) := by
  induction items generalizing later with
  | nil => rfl
  | cons item items ih =>
    have hitem : listOnto (cells later) ((item :: items).map Phrase.term) =
        listOnto (cells (item :: later)) (items.map Phrase.term) := by
      rw [Phrase.cells]
      rfl
    rw [hitem, ih, List.reverse_cons, List.append_assoc, List.singleton_append]

/-- Obligations, innermost first, and the part of a program that they were read from. -/
inductive Pending : List Owed → List Symbol → Prop where
  | nil : Pending [] []
  | function {owed : List Owed} {before : List Symbol} (h : Pending owed before) :
      Pending (.function :: owed) (before ++ [.ap])
  | argument {owed : List Owed} {before : List Symbol} (h : Pending owed before) (fn : Phrase) :
      Pending (.argument fn.term :: owed) (before ++ .ap :: fn.symbols)
  | start {owed : List Owed} {before : List Symbol} (h : Pending owed before) :
      Pending (.list [] .start :: owed) (before ++ [.mark .leftParen])
  | element {owed : List Owed} {before : List Symbol} (h : Pending owed before) (item : Phrase)
      (items : List Phrase) :
      Pending (.list ((item :: items).map Phrase.term) .element :: owed)
        (before ++ opened (item :: items))
  | comma {owed : List Owed} {before : List Symbol} (h : Pending owed before) (item : Phrase)
      (items : List Phrase) :
      Pending (.list ((item :: items).map Phrase.term) .comma :: owed)
        (before ++ opened (item :: items) ++ [.mark .comma])

def Progress.Derives (before : List Symbol) : Progress → Prop
  | .owing owed => Pending owed before
  | .complete term => ∃ p : Phrase, p.symbols = before ∧ p.term = term

variable {owed : List Owed} {before : List Symbol} {progress : Progress}

theorem Pending.feed (h : Pending owed before) (p : Phrase)
    (hfeed : feed owed p.term = .ok progress) : progress.Derives (before ++ p.symbols) := by
  induction h generalizing p with
  | nil =>
    cases hfeed
    exact ⟨p, rfl, rfl⟩
  | @function owed before h ih =>
    cases hfeed
    rw [List.append_assoc]
    exact .argument h p
  | @argument owed before h fn ih =>
    have happ := ih (.app fn p) hfeed
    rwa [Phrase.symbols, ← List.cons_append, ← List.append_assoc] at happ
  | @start owed before h ih =>
    cases hfeed
    rw [List.append_assoc]
    exact .element h p []
  | element h item items ih => cases hfeed
  | @comma owed before h item items ih =>
    cases hfeed
    rw [List.append_assoc, List.append_assoc]
    exact .element h p (item :: items)

theorem Pending.read (h : Pending owed before) {symbol : Symbol}
    (hread : read owed symbol = .ok progress) : progress.Derives (before ++ [symbol]) := by
  by_cases plain : symbol.isMark = false
  · rw [read_of_plain plain, leaf_eq_term plain] at hread
    have hleaf := h.feed (.leaf symbol plain) hread
    rwa [Phrase.symbols] at hleaf
  · obtain ⟨m, rfl⟩ : ∃ m, symbol = .mark m := by
      cases symbol with
      | mark m => exact ⟨m, rfl⟩
      | _ => exact absurd rfl plain
    cases m with
    | ap =>
      cases hread
      exact .function h
    | leftParen =>
      cases hread
      exact .start h
    | comma =>
      cases h with
      | element h item items =>
        cases hread
        exact .comma h item items
      | _ => cases hread
    | rightParen =>
      cases h with
      | @start owed before h =>
        have hempty := h.feed (.list []) (by rw [Phrase.term]; exact hread)
        rw [List.append_assoc]
        rwa [Phrase.symbols] at hempty
      | @element owed before h item items =>
        have hterm : listOnto (.fn .nil) ((item :: items).map Phrase.term) =
            (Phrase.list (items.reverse ++ [item])).term := by
          have hcells := listOnto_cells (item :: items) []
          rwa [List.append_nil, List.reverse_cons] at hcells
        have hclosed : opened (item :: items) ++ [.mark .rightParen] =
            (Phrase.list (items.reverse ++ [item])).symbols :=
          opened_append_closing item items []
        rw [List.append_assoc, hclosed]
        exact h.feed _ (hterm ▸ hread)
      | _ => cases hread

theorem derives_of_readAll {rest : List Symbol} {index : Nat} {start : Progress}
    (h : start.Derives before) (hread : readAll start rest index = .ok progress) :
    progress.Derives (before ++ rest) := by
  induction rest generalizing start before index with
  | nil =>
    cases start <;> cases hread <;> rwa [List.append_nil]
  | cons symbol rest ih =>
    cases start with
    | complete term => cases hread
    | owing owed =>
      rw [readAll_cons] at hread
      cases hnext : Term.read owed symbol with
      | error e =>
        rw [hnext] at hread
        cases hread
      | ok next =>
        rw [hnext] at hread
        have hrest := ih (Pending.read h hnext) hread
        rwa [List.append_assoc, List.singleton_append] at hrest

theorem feed_ne_trailing (owed : List Owed) (term : Term) (i : Nat) :
    feed owed term ≠ .error (.trailing i) := by
  fun_induction feed owed term with
  | case3 f owed term ih => exact ih
  | _ =>
    intro h
    cases h

theorem read_ne_trailing (owed : List Owed) (symbol : Symbol) (i : Nat) :
    read owed symbol ≠ .error (.trailing i) := by
  unfold read
  split
  · exact nofun
  · exact nofun
  · split <;> exact nofun
  · split
    · exact nofun
    · exact feed_ne_trailing _ _ i
    · exact nofun
  · exact feed_ne_trailing _ _ i

/-- A phrase has ended where an error finds symbols too many. -/
theorem phrase_of_trailing {rest : List Symbol} {index i : Nat} {start : Progress}
    (h : start.Derives before) (hlen : before.length = index)
    (hread : readAll start rest index = .error (.trailing i)) :
    i < (before ++ rest).length ∧ ∃ p : Phrase, p.symbols = (before ++ rest).take i := by
  induction rest generalizing start before index with
  | nil => cases start <;> cases hread
  | cons symbol rest ih =>
    cases start with
    | complete term =>
      cases hread
      obtain ⟨p, hp, -⟩ := h
      refine ⟨?_, p, ?_⟩
      · rw [List.length_append, List.length_cons, hlen]
        omega
      · rw [hp, ← hlen, List.take_left]
    | owing owed =>
      rw [readAll_cons] at hread
      cases hnext : Term.read owed symbol with
      | error e =>
        rw [hnext] at hread
        cases hread
        exact absurd hnext (read_ne_trailing owed symbol i)
      | ok next =>
        rw [hnext] at hread
        have hrest := ih (Pending.read h hnext) (by simp [hlen]) hread
        rwa [List.append_assoc, List.singleton_append] at hrest

section Program

variable {program : List Symbol} {term : Term} {i : Nat}

theorem derives_of_readAll_program (h : readAll (.owing []) program 0 = .ok progress) :
    progress.Derives program := by
  have hnil : (Progress.owing []).Derives [] := .nil
  exact derives_of_readAll hnil h

theorem build_symbols (p : Phrase) : build p.symbols = .ok (some p.term) := by
  have hread := readAll_symbols p [] [] 0
  rw [List.append_nil] at hread
  exact build_eq_some_iff.2 hread

theorem build_eq_none_iff : build program = .ok none ↔ program = [] := by
  constructor
  · intro h
    unfold build at h
    cases hread : readAll (.owing []) program 0 with
    | error e =>
      rw [hread] at h
      cases h
    | ok progress =>
      have hderives := derives_of_readAll_program hread
      rw [hread] at h
      rcases progress with (_ | ⟨_ | _ | _, owed⟩) | term
      · cases hderives
        rfl
      all_goals cases h
  · rintro rfl
    rfl

theorem build_eq_some_iff_phrase :
    build program = .ok (some term) ↔ ∃ p : Phrase, p.symbols = program ∧ p.term = term := by
  constructor
  · intro h
    exact derives_of_readAll_program (build_eq_some_iff.1 h)
  · rintro ⟨p, rfl, rfl⟩
    exact build_symbols p

theorem build_eq_trailing_iff :
    build program = .error (.trailing i) ↔
      i < program.length ∧ ∃ p : Phrase, p.symbols = program.take i := by
  constructor
  · intro h
    have hnil : (Progress.owing []).Derives [] := .nil
    refine phrase_of_trailing hnil rfl ?_
    unfold build at h
    cases hread : readAll (.owing []) program 0 with
    | error e =>
      rw [hread] at h
      cases h
      rfl
    | ok progress =>
      rw [hread] at h
      rcases progress with (_ | ⟨_ | _ | _, owed⟩) | term <;> cases h
  · rintro ⟨hlt, p, hp⟩
    have hlen : 0 + p.symbols.length = i := by
      rw [Nat.zero_add, hp, List.length_take]
      omega
    obtain ⟨symbol, rest, hdrop⟩ :=
      List.exists_cons_of_ne_nil (fun hnil => absurd (List.drop_eq_nil_iff.1 hnil) (by omega) :
        program.drop i ≠ [])
    have hread := readAll_symbols p [] (symbol :: rest) 0
    rw [hp, ← hdrop, List.take_append_drop, ← hp, hlen, hdrop] at hread
    unfold build
    rw [hread]
    rfl

theorem readAll_split (start : Progress) (first rest : List Symbol) (index : Nat) :
    readAll start (first ++ rest) index =
      (readAll start first index).bind fun progress =>
        readAll progress rest (index + first.length) := by
  induction first generalizing start index with
  | nil => cases start <;> rfl
  | cons symbol first ih =>
    cases start with
    | complete term => rfl
    | owing owed =>
      have hlen : index + (symbol :: first).length = index + 1 + first.length := by
        rw [List.length_cons]
        omega
      rw [hlen, List.cons_append, readAll_cons, readAll_cons]
      cases read owed symbol with
      | error e => rfl
      | ok progress => exact ih progress (index + 1)

/-- A program that ends inside a phrase is told what is owed. -/
theorem build_inside_phrase {p : Phrase} {more : List Symbol} (hprogram : program ≠ [])
    (hmore : more ≠ []) (h : p.symbols = program ++ more) :
    ∃ e, build program = .error e ∧ e.IsUnfinished := by
  have hwhole := readAll_symbols p [] [] 0
  rw [List.append_nil, h, readAll_split] at hwhole
  unfold build
  cases hread : readAll (.owing []) program 0 with
  | error e =>
    rw [hread] at hwhole
    cases hwhole
  | ok progress =>
    have hderives := derives_of_readAll_program hread
    rw [hread] at hwhole
    cases progress with
    | complete term =>
      obtain ⟨symbol, rest, rfl⟩ := List.exists_cons_of_ne_nil hmore
      cases hwhole
    | owing owed =>
      rcases owed with _ | ⟨_ | f | ⟨items, slot⟩, owed⟩
      · cases hderives
        exact absurd rfl hprogram
      · exact ⟨.noFunction, rfl, trivial⟩
      · exact ⟨.noArgument f, rfl, trivial⟩
      · exact ⟨.listNotClosed, rfl, trivial⟩

end Program

/-- The reader accepts exactly the programs of phrases and returns their terms; only the empty
    program builds nothing. It finds symbols too many exactly where a phrase has ended before the
    program, which is at one place at most. A program that ends inside a phrase is told what is
    owed, and every other program is refused. -/
theorem build_accepts_phrases (program : List Symbol) :
    (build program = .ok none ↔ program = []) ∧
    (∀ term, build program = .ok (some term) ↔
      ∃ p : Phrase, p.symbols = program ∧ p.term = term) ∧
    (∀ i, build program = .error (.trailing i) ↔
      i < program.length ∧ ∃ p : Phrase, p.symbols = program.take i) ∧
    (∀ i j, i < program.length → j < program.length →
      (∃ p : Phrase, p.symbols = program.take i) → (∃ p : Phrase, p.symbols = program.take j) →
      i = j) ∧
    (∀ (p : Phrase) (more : List Symbol), program ≠ [] → more ≠ [] →
      p.symbols = program ++ more → ∃ e, build program = .error e ∧ e.IsUnfinished) ∧
    (program ≠ [] → (∀ p : Phrase, p.symbols ≠ program) → ∃ e, build program = .error e) := by
  refine ⟨build_eq_none_iff, fun term => build_eq_some_iff_phrase,
    fun i => build_eq_trailing_iff, ?_, ?_, ?_⟩
  · intro i j hi hj hp hq
    have hbuild := build_eq_trailing_iff.2 ⟨hi, hp⟩
    rw [build_eq_trailing_iff.2 ⟨hj, hq⟩] at hbuild
    cases hbuild
    rfl
  · exact fun p more hprogram hmore h => build_inside_phrase hprogram hmore h
  · intro hprogram hnone
    cases hbuild : build program with
    | error e => exact ⟨e, rfl⟩
    | ok result =>
      cases result with
      | none => exact absurd (build_eq_none_iff.1 hbuild) hprogram
      | some term =>
        obtain ⟨p, hp, -⟩ := build_eq_some_iff_phrase.1 hbuild
        exact absurd hp (hnone p)

/-- An application inside a list is missed before the comma in front of it is, so a program can be
    told what is owed although no phrase starts with it. -/
example : build [.mark .leftParen, .plain 5, .ap] = .error .noFunction := rfl

end Term

end SignalCalculus
