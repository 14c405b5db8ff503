import SignalCalculus.Proofs.Script.Spelling
import SignalCalculus.Term.Build

set_option autoImplicit false

namespace SignalCalculus

open Text

theorem Term.read_reread (owed : List Owed) (symbol : Symbol) :
    read owed symbol.reread = read owed symbol := by
  cases symbol with
  | var id =>
    rw [Symbol.reread]
    split
    · rename_i hentry
      subst hentry
      rfl
    · rfl
  | _ => rfl

theorem Term.readAll_reread (progress : Progress) (program : List Symbol) (index : Nat) :
    readAll progress (program.map Symbol.reread) index = readAll progress program index := by
  induction program generalizing progress index with
  | nil => cases progress <;> rfl
  | cons symbol rest ih =>
    cases progress with
    | complete term => rfl
    | owing owed =>
      rw [List.map_cons, readAll, readAll, read_reread]
      simp only [ih]

theorem Term.build_reread (program : List Symbol) :
    build (program.map Symbol.reread) = build program := by
  rw [build, readAll_reread, build]

namespace Script

theorem parseWords_spellings (line : Option Int) {symbols : List Symbol}
    (h : ∀ symbol ∈ symbols, symbol.IsWritable) :
    parseWords line (symbols.map Symbol.spelling) = .ok (symbols.map Symbol.reread) := by
  induction symbols with
  | nil => rfl
  | cons symbol rest ih =>
    have hsymbol := h symbol List.mem_cons_self
    have hrest := ih fun s hs => h s (List.mem_cons_of_mem _ hs)
    have hequals : symbol.spelling ≠ ['='] := by
      intro heq
      have hmem : '=' ∈ symbol.spelling := by rw [heq]; exact List.mem_cons_self
      exact (mem_spelling hsymbol hmem).2 rfl
    have hword : parseWord line symbol.spelling = .ok symbol.reread := by
      rw [parseWord, symbol?_spelling hsymbol]
    rw [List.map_cons, parseWords, if_neg hequals, hword, hrest]
    rfl

theorem parseExpression_renderChars (line : Option Int) {symbols : List Symbol}
    (h : ∀ symbol ∈ symbols, symbol.IsWritable) :
    parseExpression line (renderChars symbols) = .ok (symbols.map Symbol.reread) := by
  rw [parseExpression, words_renderChars h]
  exact parseWords_spellings line h

def statement (equation : Equation) : String :=
  render equation.1 ++ " = " ++ render equation.2

/-- An equation that a line of a script can hold: its sides are nonempty and can be read. -/
structure IsWritable (equation : Equation) : Prop where
  left_ne : equation.1 ≠ []
  right_ne : equation.2 ≠ []
  left : ∀ symbol ∈ equation.1, symbol.IsWritable
  right : ∀ symbol ∈ equation.2, symbol.IsWritable

def reread (equation : Equation) : Equation :=
  (equation.1.map Symbol.reread, equation.2.map Symbol.reread)

theorem toList_statement (equation : Equation) :
    (statement equation).toList =
      (renderChars equation.1 ++ [' ']) ++ '=' :: ' ' :: renderChars equation.2 := by
  simp [statement, render, String.toList_append]

theorem parseStatement_statement (line : Option Int) {equation : Equation}
    (h : IsWritable equation) :
    parseStatement line (statement equation).toList = .ok (reread equation) := by
  have hleft : ∀ c ∈ renderChars equation.1 ++ [' '], (c != '=') = true := by
    intro c hc
    rw [bne_iff_ne]
    obtain hc | hc := List.mem_append.1 hc
    · exact (mem_renderChars h.left hc).2
    · rw [List.mem_singleton.1 hc]
      decide
  have hbefore : parseExpression line (renderChars equation.1 ++ [' ']) =
      .ok (equation.1.map Symbol.reread) := by
    have hwords := words_append_blank (c := ' ') (by decide) (renderChars equation.1) []
    rw [parseExpression, hwords, words_renderChars h.left]
    exact (congrArg _ (List.append_nil _)).trans (parseWords_spellings line h.left)
  have hafter : parseExpression line (' ' :: renderChars equation.2) =
      .ok (equation.2.map Symbol.reread) := parseExpression_renderChars line h.right
  have hcut : (statement equation).toList.dropWhile (· != '=') =
      '=' :: ' ' :: renderChars equation.2 := by
    rw [toList_statement, List.dropWhile_append_of_pos hleft]
    rfl
  have htake : (statement equation).toList.takeWhile (· != '=') = renderChars equation.1 ++ [' '] := by
    rw [toList_statement, List.takeWhile_append_of_pos hleft]
    exact List.append_nil _
  have hne₁ : (equation.1.map Symbol.reread).isEmpty = false := by
    simpa using h.left_ne
  have hne₂ : (equation.2.map Symbol.reread).isEmpty = false := by
    simpa using h.right_ne
  unfold parseStatement
  rw [hcut, htake]
  simp only [hbefore, hafter, bind, Except.bind, hne₁, hne₂]
  rfl

theorem linesFrom_append {line : List Char} (h : ∀ c ∈ line, isLineEnd c = false)
    (held rest : List Char) :
    linesFrom held (line ++ rest) = linesFrom (line.reverse ++ held) rest := by
  induction line generalizing held with
  | nil => rfl
  | cons c line ih =>
    have hc := h c List.mem_cons_self
    have hreturn : c ≠ '\r' := by
      rintro rfl
      exact absurd hc (by decide)
    have hstep : linesFrom held (c :: (line ++ rest)) = linesFrom (c :: held) (line ++ rest) := by
      rw [linesFrom, if_neg (by rw [hc]; decide)]
      intro tail heq
      exact absurd heq hreturn
    rw [List.cons_append, hstep, ih fun d hd => h d (List.mem_cons_of_mem _ hd), List.reverse_cons,
      List.append_assoc]
    rfl

theorem lines_append_lineFeed {line : List Char} (h : ∀ c ∈ line, isLineEnd c = false)
    (rest : List Char) : lines (line ++ '\n' :: rest) = line :: lines rest := by
  rw [lines, linesFrom_append h, List.append_nil]
  change line.reverse.reverse :: linesFrom [] rest = _
  rw [List.reverse_reverse]
  rfl

theorem lines_of_ne_nil {line : List Char} (h : ∀ c ∈ line, isLineEnd c = false) (hne : line ≠ []) :
    lines line = [line] := by
  have hrun := linesFrom_append h [] []
  rw [List.append_nil, List.append_nil] at hrun
  rw [lines, hrun, linesFrom, List.isEmpty_reverse, List.isEmpty_eq_false_iff.2 hne,
    List.reverse_reverse]
  rfl

theorem isLineEnd_of_mem_statement {equation : Equation} (h : IsWritable equation) {c : Char}
    (hc : c ∈ (statement equation).toList) : isLineEnd c = false := by
  rw [toList_statement] at hc
  simp only [List.mem_append, List.mem_cons, List.not_mem_nil, or_false] at hc
  obtain (hc | rfl) | rfl | rfl | hc := hc
  · exact (mem_renderChars h.left hc).1
  · decide
  · decide
  · decide
  · exact (mem_renderChars h.right hc).1

theorem parseLines_statements {equations : List Equation} (h : ∀ e ∈ equations, IsWritable e)
    (number : Nat) :
    parseLines number (equations.map fun e => (statement e).toList) =
      .ok (equations.map reread) := by
  induction equations generalizing number with
  | nil => rfl
  | cons equation rest ih =>
    have hequation := parseStatement_statement (some number) (h equation List.mem_cons_self)
    have hrest := ih (fun e he => h e (List.mem_cons_of_mem _ he)) (number + 1)
    have hblank : ¬((statement equation).toList.all isBlank = true) := by
      rw [toList_statement]
      simp [isBlank]
    rw [List.map_cons, parseLines, if_neg hblank, hequation]
    simp only [bind, Except.bind, hrest]
    rfl

theorem lines_intercalate {equations : List Equation} (h : ∀ e ∈ equations, IsWritable e) :
    lines ("\n".intercalate (equations.map statement)).toList =
      equations.map fun e => (statement e).toList := by
  induction equations with
  | nil => rfl
  | cons equation rest ih =>
    have hline := fun c => isLineEnd_of_mem_statement (h equation List.mem_cons_self) (c := c)
    have hrest := ih fun e he => h e (List.mem_cons_of_mem _ he)
    cases rest with
    | nil =>
      have hne : (statement equation).toList ≠ [] := by simp [toList_statement]
      have htext : "\n".intercalate ([equation].map statement) = statement equation := by simp
      rw [htext, lines_of_ne_nil hline hne]
      rfl
    | cons next rest =>
      have htext : ("\n".intercalate ((equation :: next :: rest).map statement)).toList =
          (statement equation).toList ++
            '\n' :: ("\n".intercalate ((next :: rest).map statement)).toList := by
        simp [String.toList_intercalate]
      rw [htext, lines_append_lineFeed hline, hrest]
      rfl

theorem lines_join {equations : List Equation} (h : ∀ e ∈ equations, IsWritable e) :
    lines (String.join (equations.map fun e => statement e ++ "\n")).toList =
      equations.map fun e => (statement e).toList := by
  induction equations with
  | nil => rfl
  | cons equation rest ih =>
    have hline := fun c => isLineEnd_of_mem_statement (h equation List.mem_cons_self) (c := c)
    have hrest := ih fun e he => h e (List.mem_cons_of_mem _ he)
    have htext : (String.join ((equation :: rest).map fun e => statement e ++ "\n")).toList =
        (statement equation).toList ++
          '\n' :: (String.join (rest.map fun e => statement e ++ "\n")).toList := by
      simp [String.toList_append]
    rw [htext, lines_append_lineFeed hline, hrest]
    rfl

/-- Printed programs and printed scripts read back, the entry variable as the entry word. A program
    and what is read back build the same term, or fail alike. The line feed behind the last line of
    a script may be left out. -/
theorem printed_programs_read_back :
    (∀ (line : Option Int) (program : List Symbol), (∀ symbol ∈ program, symbol.IsWritable) →
      parseExpression line (render program).toList = .ok (program.map Symbol.reread) ∧
      Term.build (program.map Symbol.reread) = Term.build program) ∧
    ∀ equations : List Equation, (∀ equation ∈ equations, IsWritable equation) →
      parseScript ("\n".intercalate (equations.map statement)).toList =
          .ok (equations.map reread) ∧
      parseScript (String.join (equations.map fun equation => statement equation ++ "\n")).toList =
          .ok (equations.map reread) := by
  refine ⟨?_, ?_⟩
  · intro line program h
    rw [render, String.toList_ofList]
    exact ⟨parseExpression_renderChars line h, Term.build_reread program⟩
  · intro equations h
    have hlines := parseLines_statements h 1
    refine ⟨?_, ?_⟩
    · rw [parseScript, lines_intercalate h, hlines]
    · rw [parseScript, lines_join h, hlines]

def sampleProgram : List Symbol :=
  [.ap, .var (-1), .mark .leftParen, .number ⟨-120, true⟩, .mark .comma, .bits [], .mark .comma,
    .bits ['0', '1'], .mark .rightParen]

theorem sampleProgram_reads_back :
    (∀ symbol ∈ sampleProgram, symbol.IsWritable) ∧ IsWritable ([.var 7], sampleProgram) ∧
    renderChars sampleProgram = "ap galaxy ( [-120] , \x7b\x7d , \x7b01\x7d )".toList ∧
    parseExpression none (render sampleProgram).toList = .ok (sampleProgram.map Symbol.reread) ∧
    parseScript ("\n".intercalate ([([.var 7], sampleProgram)].map statement)).toList =
      .ok ([([.var 7], sampleProgram)].map reread) := by
  have hwritable : ∀ symbol ∈ sampleProgram, symbol.IsWritable := by decide
  have hequation : IsWritable ([.var 7], sampleProgram) :=
    ⟨by decide, by decide, by decide, hwritable⟩
  have hprogram := printed_programs_read_back.1 none sampleProgram hwritable
  have hscript := printed_programs_read_back.2 [([.var 7], sampleProgram)]
    (by simpa using hequation)
  exact ⟨hwritable, hequation, by decide, hprogram.1, hscript.1⟩

end Script

end SignalCalculus
