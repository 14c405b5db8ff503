import SignalCalculus.Proofs.Text.Decimal
import SignalCalculus.Proofs.Wire.Field
import SignalCalculus.Script.Token

set_option autoImplicit false

namespace SignalCalculus.Script

open Text

theorem flush_append (held : List Char) (first second : List (List Char)) :
    flush held (first ++ second) = flush held first ++ second := by
  unfold flush
  split <;> rfl

theorem wordsFrom_append_blank {c : Char} (hc : isBlank c = true) (held before after : List Char) :
    wordsFrom held (before ++ c :: after) = wordsFrom held before ++ words after := by
  induction before generalizing held with
  | nil =>
    have hnil : flush held (words after) = flush held [] ++ words after :=
      flush_append held [] (words after)
    simp only [List.nil_append, wordsFrom, hc, if_true]
    exact hnil
  | cons d before ih =>
    rw [List.cons_append, wordsFrom, wordsFrom]
    split
    · rw [ih, flush_append]
    · split
      · rw [ih, ← List.cons_append, flush_append]
      · exact ih (d :: held)

theorem words_append_blank {c : Char} (hc : isBlank c = true) (before after : List Char) :
    words (before ++ c :: after) = words before ++ words after :=
  wordsFrom_append_blank hc [] before after

def IsInner (c : Char) : Prop := isBlank c = false ∧ isDelimiter c = false

instance (c : Char) : Decidable (IsInner c) := inferInstanceAs (Decidable (_ ∧ _))

theorem wordsFrom_append_run {run : List Char} (hrun : ∀ c ∈ run, IsInner c) (held rest : List Char) :
    wordsFrom held (run ++ rest) = wordsFrom (run.reverse ++ held) rest := by
  induction run generalizing held with
  | nil => rfl
  | cons c run ih =>
    obtain ⟨hblank, hdelimiter⟩ := hrun c List.mem_cons_self
    rw [List.cons_append, wordsFrom, hblank, hdelimiter]
    simp only [Bool.false_eq_true, if_false]
    rw [ih (fun d hd => hrun d (List.mem_cons_of_mem _ hd)), List.reverse_cons, List.append_assoc]
    rfl

theorem wordsFrom_run {run : List Char} (hrun : ∀ c ∈ run, IsInner c) (held : List Char) :
    wordsFrom held run = flush (run.reverse ++ held) [] := by
  have hcut := wordsFrom_append_run hrun held []
  rwa [List.append_nil] at hcut

theorem words_run {run : List Char} (hne : run ≠ []) (hrun : ∀ c ∈ run, IsInner c) :
    words run = [run] := by
  rw [words, wordsFrom_run hrun, List.append_nil, flush, List.isEmpty_reverse,
    List.isEmpty_eq_false_iff.2 hne, List.reverse_reverse]
  rfl

end SignalCalculus.Script
