import Mathlib.Data.List.Chain
import Mathlib.Data.List.TakeWhile
import SignalCalculus.Proofs.Script.Words

set_option autoImplicit false

/-!
# Words lie in a text with blanks between them

A layout puts words into a text: before each word and at the end there may be blanks. The words of a
text have exactly one layout in it, so that nothing but blanks is lost, and in this layout two runs
are never side by side. Conversely, delimiters and runs that lie in a text in this way are its words.
-/

namespace SignalCalculus.Script

open Text

def IsMark (word : List Char) : Prop := ∃ c, isDelimiter c = true ∧ word = [c]

def IsRun (word : List Char) : Prop := word ≠ [] ∧ ∀ c ∈ word, IsInner c

structure Spot where
  gap : List Char
  word : List Char

/-- Words with gaps before them, and what stands behind the last one. -/
structure Layout where
  spots : List Spot
  tail : List Char

namespace Layout

def words (layout : Layout) : List (List Char) := layout.spots.map Spot.word

def text (layout : Layout) : List Char :=
  layout.spots.flatMap (fun spot => spot.gap ++ spot.word) ++ layout.tail

/-- A layout covers a text if the two are the same characters and its gaps are blank. -/
structure Covers (layout : Layout) (text : List Char) : Prop where
  text_eq : layout.text = text
  gaps : ∀ spot ∈ layout.spots, ∀ c ∈ spot.gap, isBlank c = true
  tail : ∀ c ∈ layout.tail, isBlank c = true

/-- Of two runs one behind the other, the second has something before it. -/
def Separates (layout : Layout) : Prop :=
  layout.spots.IsChain fun spot next => IsRun spot.word → IsRun next.word → next.gap ≠ []

end Layout

theorem isBlank_of_isDelimiter {c : Char} (h : isDelimiter c = true) : isBlank c = false := by
  simp only [isDelimiter, Bool.or_eq_true, beq_iff_eq] at h
  obtain ((rfl | rfl) | rfl) | rfl := h <;> decide

theorem exists_cons_of_word {word : List Char} (h : IsMark word ∨ IsRun word) :
    ∃ c rest, word = c :: rest ∧ isBlank c = false := by
  obtain ⟨c, hc, rfl⟩ | ⟨hne, hinner⟩ := h
  · exact ⟨c, [], rfl, isBlank_of_isDelimiter hc⟩
  · obtain ⟨c, rest, rfl⟩ := List.exists_cons_of_ne_nil hne
    exact ⟨c, rest, rfl, (hinner c List.mem_cons_self).1⟩

theorem not_isBlank_of_mem_word {word : List Char} (h : IsMark word ∨ IsRun word) :
    ∀ c ∈ word, isBlank c = false := by
  obtain ⟨c, hc, rfl⟩ | ⟨-, hinner⟩ := h
  · simpa using isBlank_of_isDelimiter hc
  · exact fun c hc => (hinner c hc).1

/-! ### The words of a text from the left -/

theorem words_blanks_append {gap : List Char} (h : ∀ c ∈ gap, isBlank c = true) (rest : List Char) :
    words (gap ++ rest) = words rest := by
  induction gap with
  | nil => rfl
  | cons c gap ih =>
    obtain ⟨hc, hgap⟩ := List.forall_mem_cons.1 h
    exact (words_append_blank hc [] (gap ++ rest)).trans (ih hgap)

theorem words_delimiter_cons {c : Char} (h : isDelimiter c = true) (rest : List Char) :
    words (c :: rest) = [c] :: words rest := by
  simp only [words, wordsFrom, isBlank_of_isDelimiter h, h, if_true, Bool.false_eq_true, if_false]
  rfl

theorem wordsFrom_eq_flush {rest : List Char} (h : ∀ c ∈ rest.head?, ¬IsInner c) (held : List Char) :
    wordsFrom held rest = flush held (words rest) := by
  cases rest with
  | nil => rfl
  | cons c rest =>
    have hc : ¬IsInner c := h c rfl
    rw [words, wordsFrom, wordsFrom]
    split
    · rfl
    · split
      · rfl
      · rename_i hblank hdelimiter
        exact absurd ⟨Bool.not_eq_true _ ▸ hblank, Bool.not_eq_true _ ▸ hdelimiter⟩ hc

theorem words_run_append {run rest : List Char} (hrun : IsRun run)
    (hrest : ∀ c ∈ rest.head?, ¬IsInner c) : words (run ++ rest) = run :: words rest := by
  obtain ⟨hne, hinner⟩ := hrun
  rw [words, wordsFrom_append_run hinner, List.append_nil, wordsFrom_eq_flush hrest, flush,
    List.isEmpty_reverse, List.isEmpty_eq_false_iff.2 hne, List.reverse_reverse]
  rfl

/-! ### Layouts -/

namespace Layout

variable {spot : Spot} {spots : List Spot} {tail : List Char}

theorem text_cons : text ⟨spot :: spots, tail⟩ = spot.gap ++ (spot.word ++ text ⟨spots, tail⟩) := by
  simp [Layout.text]

theorem Covers.rest {text : List Char} (h : Covers ⟨spot :: spots, tail⟩ text) :
    Covers ⟨spots, tail⟩ (Layout.text ⟨spots, tail⟩) :=
  ⟨rfl, (List.forall_mem_cons.1 h.gaps).2, h.tail⟩

theorem Covers.cons {gap word rest : List Char} (h : Covers ⟨spots, tail⟩ rest)
    (hgap : ∀ c ∈ gap, isBlank c = true) :
    Covers ⟨⟨gap, word⟩ :: spots, tail⟩ (gap ++ (word ++ rest)) where
  text_eq := by rw [text_cons, h.text_eq]
  gaps := List.forall_mem_cons.2 ⟨hgap, h.gaps⟩
  tail := h.tail

theorem head?_not_isInner {text : List Char} (hcovers : Covers ⟨spots, tail⟩ text)
    (hwords : ∀ spot ∈ spots, IsMark spot.word ∨ IsRun spot.word)
    (hnext : ∀ next ∈ spots.head?, IsRun next.word → next.gap ≠ []) :
    ∀ c ∈ text.head?, ¬IsInner c := by
  obtain ⟨rfl, hgaps, htail⟩ := hcovers
  intro c hc hinner
  cases spots with
  | nil =>
    have hblank : isBlank c = true := htail c (List.mem_of_mem_head? hc)
    exact absurd hblank (by simp [hinner.1])
  | cons next spots =>
    rw [text_cons] at hc
    cases hgap : next.gap with
    | cons d gap =>
      obtain rfl : d = c := by simpa [hgap] using hc
      have hblank : isBlank d = true := hgaps next List.mem_cons_self d (by simp [hgap])
      exact absurd hblank (by simp [hinner.1])
    | nil =>
      obtain ⟨d, hd, hword⟩ | hrun := hwords next List.mem_cons_self
      · obtain rfl : d = c := by simpa [hgap, hword] using hc
        exact absurd hd (by simp [hinner.2])
      · exact hnext next rfl hrun hgap

/-- Delimiters and runs that lie in a text, no two runs side by side, are the words of the text. -/
theorem words_text (layout : Layout) {text : List Char} (hcovers : layout.Covers text)
    (hwords : ∀ word ∈ layout.words, IsMark word ∨ IsRun word) (hseparates : layout.Separates) :
    Script.words text = layout.words := by
  obtain ⟨spots, tail⟩ := layout
  have hspots : ∀ spot ∈ spots, IsMark spot.word ∨ IsRun spot.word :=
    fun spot hspot => hwords spot.word (List.mem_map_of_mem hspot)
  clear hwords
  induction spots generalizing text with
  | nil =>
    obtain ⟨rfl, -, htail⟩ := hcovers
    have hblank := words_blanks_append htail []
    rwa [List.append_nil] at hblank
  | cons spot spots ih =>
    obtain ⟨hspot, hrest⟩ := List.forall_mem_cons.1 hspots
    obtain ⟨hchain, hseparated⟩ := List.isChain_cons.1 hseparates
    have hgap : ∀ c ∈ spot.gap, isBlank c = true := hcovers.gaps spot List.mem_cons_self
    have hwords := ih hcovers.rest hseparated hrest
    rw [← hcovers.text_eq, text_cons, words_blanks_append hgap]
    obtain ⟨c, hc, hword⟩ | hrun := hspot
    · rw [hword, List.singleton_append, words_delimiter_cons hc, hwords, ← hword]
      rfl
    · have hstops := head?_not_isInner hcovers.rest hrest fun next hnext => hchain next hnext hrun
      rw [words_run_append hrun hstops, hwords]
      rfl

theorem exists_longest (p : Char → Bool) (text : List Char) : ∃ run rest : List Char,
    text = run ++ rest ∧ (∀ c ∈ run, p c = true) ∧ ∀ c ∈ rest.head?, p c = false := by
  refine ⟨text.takeWhile p, text.dropWhile p, List.takeWhile_append_dropWhile.symm,
    fun c hc => List.mem_takeWhile_imp hc, fun c hc => ?_⟩
  have hhead := List.head?_dropWhile_not p text
  rwa [Option.mem_def.1 hc] at hhead

theorem Separates.cons_of_mark {mark gap : List Char} (hmark : IsMark mark)
    (h : Separates ⟨spots, tail⟩) : Separates ⟨⟨gap, mark⟩ :: spots, tail⟩ := by
  obtain ⟨c, hc, rfl⟩ := hmark
  refine List.isChain_cons.2 ⟨fun _ _ hrun => ?_, h⟩
  exact absurd hc (by simp [(hrun.2 c List.mem_cons_self).2])

theorem Separates.cons_of_head {text word gap : List Char} (hcovers : Covers ⟨spots, tail⟩ text)
    (htext : ∀ c ∈ text.head?, ¬IsInner c) (h : Separates ⟨spots, tail⟩) :
    Separates ⟨⟨gap, word⟩ :: spots, tail⟩ := by
  refine List.isChain_cons.2 ⟨fun next hnext _ hrun hgap => ?_, h⟩
  obtain ⟨spots', rfl⟩ : ∃ spots', spots = next :: spots' := ⟨_, List.eq_cons_of_mem_head? hnext⟩
  obtain ⟨c, rest, hword⟩ := List.exists_cons_of_ne_nil hrun.1
  rw [← hcovers.text_eq, text_cons, hgap, hword] at htext
  exact htext c rfl (hrun.2 c (hword ▸ List.mem_cons_self))

theorem exists_first_word (text : List Char) : ∃ gap rest : List Char, text = gap ++ rest ∧
    (∀ c ∈ gap, isBlank c = true) ∧
    (rest = [] ∨ ∃ word after : List Char, rest = word ++ after ∧
      (IsMark word ∨ IsRun word ∧ ∀ c ∈ after.head?, ¬IsInner c)) := by
  obtain ⟨gap, rest, rfl, hgap, hrest⟩ := exists_longest isBlank text
  refine ⟨gap, rest, rfl, hgap, ?_⟩
  cases rest with
  | nil => exact .inl rfl
  | cons c rest =>
    refine .inr ?_
    by_cases hdelimiter : isDelimiter c = true
    · exact ⟨[c], rest, rfl, .inl ⟨c, hdelimiter, rfl⟩⟩
    · have hinner : IsInner c := ⟨hrest c rfl, Bool.not_eq_true _ ▸ hdelimiter⟩
      obtain ⟨run, after, rfl, hrun, hafter⟩ := exists_longest (fun d => decide (IsInner d)) rest
      refine ⟨c :: run, after, rfl, .inr ⟨⟨List.cons_ne_nil _ _, ?_⟩, ?_⟩⟩
      · exact List.forall_mem_cons.2 ⟨hinner, fun d hd => of_decide_eq_true (hrun d hd)⟩
      · exact fun d hd => of_decide_eq_false (hafter d hd)

theorem exists_covers (text : List Char) : ∃ layout : Layout, layout.Covers text ∧
    (∀ word ∈ layout.words, IsMark word ∨ IsRun word) ∧ layout.Separates := by
  -- by the length of the text, since a word takes several characters off its front
  induction hsize : text.length using Nat.strongRecOn generalizing text with
  | ind size ih =>
    obtain ⟨gap, rest, rfl, hgap, rfl | ⟨word, after, rfl, hword⟩⟩ := exists_first_word text
    · rw [List.append_nil]
      exact ⟨⟨[], gap⟩, ⟨rfl, nofun, hgap⟩, nofun, List.isChain_nil⟩
    · have hkind : IsMark word ∨ IsRun word := hword.imp_right And.left
      obtain ⟨c, tail, rfl, -⟩ := exists_cons_of_word hkind
      simp only [List.length_append, List.length_cons] at hsize
      obtain ⟨⟨spots, tail⟩, hcovers, hwords, hseparates⟩ := ih after.length (by omega) after rfl
      refine ⟨⟨⟨gap, _⟩ :: spots, tail⟩, hcovers.cons hgap,
        List.forall_mem_cons.2 ⟨hkind, hwords⟩, ?_⟩
      obtain hmark | ⟨-, hafter⟩ := hword
      · exact hseparates.cons_of_mark hmark
      · exact hseparates.cons_of_head hcovers hafter

theorem gaps_eq {gap gap' rest rest' : List Char} (hgap : ∀ c ∈ gap, isBlank c = true)
    (hgap' : ∀ c ∈ gap', isBlank c = true) {word : List Char} (hword : IsMark word ∨ IsRun word)
    (h : gap ++ (word ++ rest) = gap' ++ (word ++ rest')) : gap = gap' ∧ rest = rest' := by
  obtain ⟨c, word, rfl, hblank⟩ := exists_cons_of_word hword
  have htake := congrArg (List.takeWhile isBlank) h
  rw [List.takeWhile_append_of_pos hgap, List.takeWhile_append_of_pos hgap'] at htake
  simp only [List.cons_append, List.takeWhile_cons, hblank, Bool.false_eq_true, if_false,
    List.append_nil] at htake
  subst htake
  exact ⟨rfl, List.append_cancel_left (List.append_cancel_left h)⟩

/-- A text and the words in it leave no choice for the gaps. -/
theorem Covers.unique {text : List Char} {first second : Layout} (hfirst : first.Covers text)
    (hsecond : second.Covers text) (hwords : ∀ word ∈ first.words, IsMark word ∨ IsRun word)
    (hsame : first.words = second.words) : first = second := by
  obtain ⟨spots, tail⟩ := first
  obtain ⟨spots', tail'⟩ := second
  induction spots generalizing spots' text with
  | nil =>
    obtain rfl : spots' = [] := List.map_eq_nil_iff.1 hsame.symm
    exact congrArg _ (hfirst.text_eq.trans hsecond.text_eq.symm)
  | cons spot spots ih =>
    obtain ⟨spot', spots', rfl⟩ : ∃ spot' rest, spots' = spot' :: rest := by
      cases spots' with
      | nil => cases hsame
      | cons spot' rest => exact ⟨spot', rest, rfl⟩
    obtain ⟨gap, word⟩ := spot
    obtain ⟨gap', word'⟩ := spot'
    obtain ⟨rfl, hsameRest⟩ : word = word' ∧ _ := List.cons.inj hsame
    obtain ⟨hword, hrest⟩ := List.forall_mem_cons.1 hwords
    have htext := hfirst.text_eq.trans hsecond.text_eq.symm
    rw [text_cons, text_cons] at htext
    obtain ⟨hgap, hbehind⟩ := gaps_eq (hfirst.gaps _ List.mem_cons_self)
      (hsecond.gaps _ List.mem_cons_self) hword htext
    obtain rfl : gap = gap' := hgap
    have hsecond' : Covers ⟨spots', tail'⟩ (Layout.text ⟨spots, tail⟩) := hbehind ▸ hsecond.rest
    cases ih hfirst.rest hrest spots' hsecond' hsameRest
    rfl

theorem Covers.flatten_words {text : List Char} {layout : Layout} (h : layout.Covers text)
    (hwords : ∀ word ∈ layout.words, IsMark word ∨ IsRun word) :
    layout.words.flatten = text.filter fun c => !isBlank c := by
  obtain ⟨rfl, hgaps, htail⟩ := h
  have hspot : ∀ spot ∈ layout.spots,
      ((spot.gap ++ spot.word).filter fun c => !isBlank c) = spot.word := by
    intro spot hspot
    have hblank := hgaps spot hspot
    have hword := not_isBlank_of_mem_word (hwords spot.word (List.mem_map_of_mem hspot))
    rw [List.filter_append, List.filter_eq_nil_iff.2 fun c hc => by simp [hblank c hc],
      List.filter_eq_self.2 fun c hc => by simp [hword c hc], List.nil_append]
  rw [Layout.text, List.filter_append, List.filter_flatMap, List.flatMap_congr hspot,
    List.filter_eq_nil_iff.2 fun c hc => by simp [htail c hc], List.append_nil]
  rfl

end Layout

theorem exists_layout (text : List Char) :
    ∃ layout : Layout, layout.Covers text ∧ layout.words = words text ∧ layout.Separates ∧
      ∀ word ∈ layout.words, IsMark word ∨ IsRun word := by
  obtain ⟨layout, hcovers, hwords, hseparates⟩ := Layout.exists_covers text
  exact ⟨layout, hcovers, (layout.words_text hcovers hwords hseparates).symm, hseparates, hwords⟩

/-- The words of a text are the text without its blanks, and each of them is a delimiter or a run.
    They lie in the text in exactly one way, and in it no two runs are side by side; delimiters and
    runs that lie in the text like that are no others than its words. Around a blank, a text has the
    words of its two sides. -/
theorem words_lose_only_blanks :
    (∀ text : List Char, (words text).flatten = text.filter fun c => !isBlank c) ∧
    (∀ text : List Char, ∀ word ∈ words text, IsMark word ∨ IsRun word) ∧
    (∀ text : List Char, ∃! layout : Layout, layout.Covers text ∧ layout.words = words text) ∧
    (∀ (text : List Char) (layout : Layout), layout.Covers text → layout.words = words text →
      layout.Separates) ∧
    (∀ (text : List Char) (layout : Layout), layout.Covers text →
      (∀ word ∈ layout.words, IsMark word ∨ IsRun word) → layout.Separates →
        layout.words = words text) ∧
    ∀ (before after : List Char) (c : Char), isBlank c = true →
      words (before ++ c :: after) = words before ++ words after := by
  refine ⟨fun text => ?_, fun text => ?_, fun text => ?_, fun text layout hcovers hsame => ?_,
    fun text layout hcovers hwords hseparates =>
      (layout.words_text hcovers hwords hseparates).symm,
    fun before after c hc => words_append_blank hc before after⟩
  all_goals obtain ⟨found, hfound, hsameFound, hseparates, hwords⟩ := exists_layout text
  · rw [← hsameFound, hfound.flatten_words hwords]
  · exact hsameFound ▸ hwords
  · refine ⟨found, ⟨hfound, hsameFound⟩, fun other ⟨hother, hsameOther⟩ => ?_⟩
    exact (hfound.unique hother hwords (hsameFound.trans hsameOther.symm)).symm
  · obtain rfl := hfound.unique hcovers hwords (hsameFound.trans hsame.symm)
    exact hseparates

/-- A list with one blank inside and one before it. -/
theorem pairList_words :
    let text := "car (1, 2)".toList
    let layout : Layout := ⟨[⟨[], "car".toList⟩, ⟨[' '], ['(']⟩, ⟨[], ['1']⟩, ⟨[], [',']⟩, ⟨[' '], ['2']⟩,
      ⟨[], [')']⟩], []⟩
    (IsMark "car".toList ∨ IsRun "car".toList) ∧ layout.Covers text ∧ layout.Separates ∧
      layout.words = words text ∧ words text = words "car (1,".toList ++ words "2)".toList := by
  intro text layout
  have hspace : isBlank ' ' = true := rfl
  have hcovers : layout.Covers text := ⟨rfl, by simp [layout, hspace], nofun⟩
  have hsame : layout.words = words text := rfl
  have hmember : "car".toList ∈ words text := by decide
  have hkind := words_lose_only_blanks.2.1 text
  have hseparates := words_lose_only_blanks.2.2.2.1 text layout hcovers hsame
  exact ⟨hkind _ hmember, hcovers, hseparates,
    words_lose_only_blanks.2.2.2.2.1 text layout hcovers (hsame ▸ hkind) hseparates,
    words_lose_only_blanks.2.2.2.2.2 "car (1,".toList "2)".toList ' ' rfl⟩

end SignalCalculus.Script
