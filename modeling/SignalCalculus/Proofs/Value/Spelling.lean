import SignalCalculus.Proofs.Desk.Families

set_option autoImplicit false

/-!
# Two readers of one notation

The reader of values looks for `ap ap cons` and `ap ap vec` and keeps half-filled cells; the reader
of terms keeps what every mark still owes. They go through a program side by side: a cell without its
left half is a pairing function that waits for its first argument, and a cell with its left half is
one that waits for its second. So the reader of values accepts the programs without list sugar whose
term is a tree of a value, and it finds that value.
-/

namespace SignalCalculus

def Symbol.isSugar : Symbol → Bool
  | .mark .ap => false
  | .mark _ => true
  | _ => false

namespace Term

section Simulation

variable {program : List Symbol} {cells : List (Cell Unit Value)} {owed : List Owed}

/-- Half-filled cells and what is owed at the same place of a program. -/
inductive Matches : List (Cell Unit Value) → List Owed → Prop where
  | nil : Matches [] []
  | left {cells : List (Cell Unit Value)} {owed : List Owed} {g : Fn} (pairing : g.IsPairing)
      (h : Matches cells owed) : Matches (.left () :: cells) (.argument (.fn g) :: .function :: owed)
  | right {cells : List (Cell Unit Value)} {owed : List Owed} {g : Fn} {w : Term} {value : Value}
      (pairing : g.IsPairing) (tree : w.TreeOf value) (h : Matches cells owed) :
      Matches (.right value :: cells) (.argument (.app (.fn g) w) :: owed)

theorem Matches.feed (h : Matches cells owed) {w : Term} {value : Value} (tree : w.TreeOf value) :
    match place Value.pair cells value with
    | .whole whole => ∃ made, feed owed w = .ok (.complete made) ∧ made.TreeOf whole
    | .next _ cells' => ∃ owed', feed owed w = .ok (.owing owed') ∧ Matches cells' owed' := by
  induction h generalizing w value with
  | nil => exact ⟨w, rfl, tree⟩
  | left pairing h ih => exact ⟨_, rfl, .right pairing tree h⟩
  | right pairing tree' h ih => exact ih (.cell pairing tree' tree)

theorem treeOf_of_ofSymbol? {symbol : Symbol} {value : Value}
    (h : Value.ofSymbol? symbol = some value) :
    symbol.isMark = false ∧ (leaf symbol).TreeOf value := by
  unfold Value.ofSymbol? at h
  split at h
  · cases h
    exact ⟨rfl, .nil⟩
  · cases h
    exact ⟨rfl, .number _⟩
  · cases h

theorem isSugar_of_plain {symbol : Symbol} (h : symbol.isMark = false) : symbol.isSugar = false := by
  cases symbol with
  | mark m => cases h
  | _ => rfl

/-- The other reader opens two applications at `ap ap` and gives the inner one its function. -/
theorem readAll_pairing {g : Fn} (pairing : g.IsPairing) (owed : List Owed) (rest : List Symbol)
    (index : Nat) : readAll (.owing owed) (.ap :: .ap :: .fn g :: rest) index =
      readAll (.owing (.argument (.fn g) :: .function :: owed)) rest (index + 3) := by
  obtain rfl | rfl := pairing <;> rfl

/-- Where the reader of values succeeds there is no list sugar, and the reader of terms completes a
    tree of the same value. -/
theorem Matches.readAll_of_spelledFrom (h : Matches cells owed) {rest : List Symbol} {index : Nat}
    {value : Value} (hread : Value.spelledFrom program cells rest index = .ok value)
    (index' : Nat) : (∀ symbol ∈ rest, symbol.isSugar = false) ∧
      ∃ w, readAll (.owing owed) rest index' = .ok (.complete w) ∧ w.TreeOf value := by
  fun_induction Value.spelledFrom program cells rest index generalizing owed index' with
  | case1 cells rest index ih =>
    obtain ⟨hsugar, w, hw, tree⟩ := ih (.left (.inl rfl) h) hread (index' + 3)
    exact ⟨by simpa [Symbol.isSugar] using hsugar, w,
      (readAll_pairing (.inl rfl) owed rest index').trans hw, tree⟩
  | case2 cells rest index ih =>
    obtain ⟨hsugar, w, hw, tree⟩ := ih (.left (.inr rfl) h) hread (index' + 3)
    exact ⟨by simpa [Symbol.isSugar] using hsugar, w,
      (readAll_pairing (.inr rfl) owed rest index').trans hw, tree⟩
  | case3 => cases hread
  | case4 cells symbol rest index _ _ leaf hleaf whole hplace hempty =>
    obtain ⟨hmark, tree⟩ := treeOf_of_ofSymbol? hleaf
    have hfeed := h.feed tree
    rw [hplace] at hfeed
    obtain ⟨made, hmade, htree⟩ := hfeed
    obtain rfl := List.isEmpty_iff.1 hempty
    cases hread
    refine ⟨by simpa using isSugar_of_plain hmark, made, ?_, htree⟩
    rw [readAll_cons, read_of_plain hmark, hmade]
    rfl
  | case5 => cases hread
  | case6 cells symbol rest index _ _ leaf hleaf _ cells' hplace ih =>
    obtain ⟨hmark, tree⟩ := treeOf_of_ofSymbol? hleaf
    have hfeed := h.feed tree
    rw [hplace] at hfeed
    obtain ⟨owed', howed, hmatches⟩ := hfeed
    obtain ⟨hsugar, w, hw, htree⟩ := ih hmatches hread (index' + 1)
    refine ⟨List.forall_mem_cons.2 ⟨isSugar_of_plain hmark, hsugar⟩, w, ?_, htree⟩
    rw [readAll_cons, read_of_plain hmark, howed]
    exact hw
  | case7 => cases hread

end Simulation

theorem TreeOf.over_ne_var {w : Term} {value : Value} (h : w.TreeOf value) (id : Int) :
    w.Over (· ≠ .var id) := by
  induction h with
  | nil => exact nofun
  | number n => exact nofun
  | cell pairing _ _ ihl ihr => exact ⟨⟨nofun, ihl⟩, ihr⟩

end Term

theorem Phrase.symbolsOnto_term (p : Phrase) (hsugar : ∀ symbol ∈ p.symbols, symbol.isSugar = false)
    (hentry : p.term.Over (· ≠ .var (-1))) (rest : List Symbol) :
    p.term.symbolsOnto rest = p.symbols ++ rest := by
  match p with
  | .leaf symbol plain =>
    rw [Phrase.term] at hentry ⊢
    rw [Phrase.symbols]
    split
    · rename_i hgalaxy
      rw [if_pos hgalaxy] at hentry
      exact absurd rfl hentry
    · rfl
  | .app fn arg =>
    rw [Phrase.term] at hentry ⊢
    rw [Phrase.symbols] at hsugar ⊢
    simp only [List.mem_cons, List.mem_append] at hsugar
    rw [Term.symbolsOnto, arg.symbolsOnto_term (fun s hs => hsugar s (.inr (.inr hs))) hentry.2,
      fn.symbolsOnto_term (fun s hs => hsugar s (.inr (.inl hs))) hentry.1, List.cons_append,
      List.append_assoc]
  | .list [] => exact absurd (hsugar (.mark .leftParen) (by simp [Phrase.symbols])) (by decide)
  | .list (first :: items) =>
    exact absurd (hsugar (.mark .leftParen) (by simp [Phrase.symbols])) (by decide)

namespace Value

theorem ofSymbols_eq_ok_iff {program : List Symbol} {value : Value} :
    ofSymbols program = .ok value ↔ (∀ symbol ∈ program, symbol.isSugar = false) ∧
      ∃ w, Term.build program = .ok (some w) ∧ w.TreeOf value := by
  constructor
  · intro h
    obtain ⟨hsugar, w, hw, tree⟩ := Term.Matches.nil.readAll_of_spelledFrom h 0
    exact ⟨hsugar, w, Term.build_eq_some_iff.2 hw, tree⟩
  · rintro ⟨hsugar, w, hw, tree⟩
    obtain ⟨p, rfl, rfl⟩ := Term.build_eq_some_iff_phrase.1 hw
    have hsymbols := p.symbolsOnto_term hsugar (tree.over_ne_var _) []
    rw [List.append_nil] at hsymbols
    rw [← hsymbols]
    exact tree.ofSymbols

/-- The reader of values accepts a program exactly if the program has no list sugar and the reader
    of terms makes a tree of a value from it, and finds this value; it refuses every other program.
    The program of the value that was found builds the same tree with `cons` cells and demodulated
    numbers, and the program of any value is read as this value. -/
theorem readers_agree_on_values (program : List Symbol) :
    (∀ value, ofSymbols program = .ok value ↔ (∀ symbol ∈ program, symbol.isSugar = false) ∧
      ∃ w, Term.build program = .ok (some w) ∧ w.TreeOf value) ∧
    (∀ value, ofSymbols program = .ok value → ∀ w, Term.build program = .ok (some w) →
      Term.build value.symbols = .ok (some w.plain)) ∧
    ((∀ value, ofSymbols program ≠ .ok value) →
      ∃ e, ofSymbols program = .error e ∧ (Fault.spelling e).family? = some .codec) ∧
    ∀ value : Value, ofSymbols value.symbols = .ok value := by
  refine ⟨fun value => ofSymbols_eq_ok_iff, fun value hvalue w hw => ?_, fun hnone => ?_,
    ofSymbols_symbols⟩
  · obtain ⟨-, made, hmade, tree⟩ := ofSymbols_eq_ok_iff.1 hvalue
    rw [hw] at hmade
    cases hmade
    rw [tree.plain_eq]
    exact Term.build_value value
  · cases hread : ofSymbols program with
    | error e => exact ⟨e, rfl, rfl⟩
    | ok value => exact absurd hread (hnone value)

/-- A list with a `vec` cell and a modulated number, and half a cell. -/
theorem mixed_cells_read_alike :
    let mixed : List Symbol :=
      [.ap, .ap, .fn .vec, .number ⟨1, true⟩, .ap, .ap, .fn .cons, .plain 2, .fn .nil]
    let half : List Symbol := [.ap, .fn .cons, .plain 1]
    let w : Term := .app (.app (.fn .vec) (.atom (.number ⟨1, true⟩))) (.cell (.num 2) (.fn .nil))
    (ofSymbols mixed = .ok (pair (num 1) (pair (num 2) nil)) ∧ Term.build mixed = .ok (some w) ∧
      Term.build [.ap, .ap, .fn .cons, .plain 1, .ap, .ap, .fn .cons, .plain 2, .fn .nil] =
        .ok (some (.cell (.num 1) (.cell (.num 2) (.fn .nil))))) ∧
    (∀ value, ofSymbols half ≠ .ok value) ∧
      ∃ e, ofSymbols half = .error e ∧ (Fault.spelling e).family? = some .codec := by
  intro mixed half w
  have hvalue : ofSymbols mixed = .ok (pair (num 1) (pair (num 2) nil)) := rfl
  have hbuild : Term.build mixed = .ok (some w) := rfl
  have hnone : ∀ value, ofSymbols half ≠ .ok value := fun value h => by cases h
  exact ⟨⟨hvalue, hbuild, (readers_agree_on_values mixed).2.1 _ hvalue w hbuild⟩, hnone,
    (readers_agree_on_values half).2.2.1 hnone⟩

end Value

end SignalCalculus
