import SignalCalculus.Json.Reader
import SignalCalculus.Proofs.Json.Sorted
import SignalCalculus.Proofs.Text.Decimal

set_option autoImplicit false

namespace SignalCalculus.Json

open Text

def Visible (text : List Char) : Prop := ∀ c ∈ text, 0x20 ≤ c.toNat

theorem Visible.cons {c : Char} {text : List Char} (hc : 0x20 ≤ c.toNat) (h : Visible text) :
    Visible (c :: text) :=
  List.forall_mem_cons.2 ⟨hc, h⟩

theorem Visible.tail {c : Char} {text : List Char} (h : Visible (c :: text)) : Visible text :=
  (List.forall_mem_cons.1 h).2

instance (text : List Char) : Decidable (Visible text) :=
  List.decidableBAll (fun c : Char => 0x20 ≤ c.toNat) text

/-- How a character stands between the quotes of a string. -/
inductive Escaped (c : Char) : List Char → Prop where
  | short (d : Char) (other : d ≠ 'u') (back : shortEscape? d = some c) (visible : 0x20 ≤ d.toNat) :
      Escaped c ['\\', d]
  | unit (a b d e : Char) (back : unit? a b d e = some c.toNat) (low : c.toNat < 0x20)
      (visible : Visible [a, b, d, e]) : Escaped c ['\\', 'u', a, b, d, e]
  | plain (quote : c ≠ '"') (backslash : c ≠ '\\') (visible : 0x20 ≤ c.toNat) : Escaped c [c]

theorem hex_control (n : Fin 0x20) : ∃ a b d e, hex 4 n = [a, b, d, e] ∧
    unit? a b d e = some n.val ∧ Visible [a, b, d, e] := by
  have hall : ∀ n : Fin 0x20, (hex 4 n).length = 4 ∧
      unit? ((hex 4 n).getD 0 ' ') ((hex 4 n).getD 1 ' ') ((hex 4 n).getD 2 ' ')
        ((hex 4 n).getD 3 ' ') = some n.val ∧ Visible (hex 4 n) := by
    decide
  obtain ⟨hlength, hunit, hvisible⟩ := hall n
  obtain ⟨a, b, d, e, hdigits⟩ := List.length_eq_four.1 hlength
  rw [hdigits] at hunit hvisible
  exact ⟨a, b, d, e, hdigits, hunit, hvisible⟩

theorem escaped (c : Char) : Escaped c (escapedChar c) := by
  unfold escapedChar
  iterate 7
    split
    · exact .short _ (by decide) (by subst c; rfl) (by decide)
  split
  · rename_i hlow
    obtain ⟨a, b, d, e, hdigits, hunit, hvisible⟩ := hex_control ⟨c.toNat, hlow⟩
    rw [show hex 4 c.toNat = _ from hdigits]
    exact .unit a b d e hunit hlow hvisible
  · rename_i hvisible
    exact .plain ‹_› ‹_› (Nat.le_of_not_lt hvisible)

theorem unit?_of_escapedOnto {cs rest more : List Char} {a b d e : Char}
    (h : escapedOnto cs rest = '\\' :: 'u' :: a :: b :: d :: e :: more) :
    ∃ n, unit? a b d e = some n := by
  cases cs with
  | nil => cases h
  | cons c cs =>
    rw [escapedOnto] at h
    have hc := escaped c
    generalize escapedChar c = text at h hc
    cases hc with
    | short d other back visible =>
      injection h with _ h
      injection h with h
      exact absurd h other
    | unit a b d e back low visible =>
      simp only [List.cons_append, List.cons.injEq] at h
      obtain ⟨-, -, rfl, rfl, rfl, rfl, -⟩ := h
      exact ⟨_, back⟩
    | plain quote backslash visible =>
      injection h with h
      exact absurd h backslash

theorem readString_unit (held : List Char) {follow : List Char} {a b d e : Char} {n : Nat}
    (hunit : unit? a b d e = some n) (hlow : n < 0xD800)
    (hfollow : ∀ {more a b d e}, follow = '\\' :: 'u' :: a :: b :: d :: e :: more →
      ∃ n, unit? a b d e = some n) :
    readString held ('\\' :: 'u' :: a :: b :: d :: e :: follow) =
      readString (Char.ofNat n :: held) follow := by
  have hsingle : ¬0xD800 ≤ n := by omega
  -- The reader looks for the other half of a pair, and so for four digits, before it decides.
  by_cases hpair : ∃ a b d e more, follow = '\\' :: 'u' :: a :: b :: d :: e :: more
  · obtain ⟨a', b', d', e', more, rfl⟩ := hpair
    obtain ⟨m, hm⟩ := hfollow rfl
    simp [readString, hunit, hm, hsingle]
  · have halone : ∀ a b d e more, follow = '\\' :: 'u' :: a :: b :: d :: e :: more → False :=
      fun a b d e more h => hpair ⟨a, b, d, e, more, h⟩
    simp [readString, hunit]

theorem readString_escapedChar (held : List Char) (c : Char) (cs rest : List Char) :
    readString held (escapedChar c ++ escapedOnto cs rest) =
      readString (c :: held) (escapedOnto cs rest) := by
  have hc := escaped c
  generalize escapedChar c = text at hc
  cases hc with
  | short d other back visible => simp [readString, other, back]
  | unit a b d e back low visible =>
    have hread := readString_unit held back (by omega) (@unit?_of_escapedOnto cs rest)
    rw [Char.ofNat_toNat] at hread
    exact hread
  | plain quote backslash visible => simp [readString, backslash]

theorem readString_escapedOnto (held cs rest : List Char) :
    readString held (escapedOnto cs rest) = some (String.ofList (held.reverse ++ cs), rest) := by
  induction cs generalizing held with
  | nil => simp [escapedOnto, readString]
  | cons c cs ih =>
    rw [escapedOnto, readString_escapedChar, ih]
    simp

theorem readString_text (text : String) (rest : List Char) :
    readString [] (escapedOnto text.toList rest) = some (text, rest) := by
  rw [readString_escapedOnto]
  simp

theorem lt_length_escapedOnto (cs rest : List Char) :
    rest.length < (escapedOnto cs rest).length := by
  induction cs with
  | nil => simp [escapedOnto]
  | cons c cs ih =>
    rw [escapedOnto, List.length_append]
    omega

theorem lt_length_itemsOnto {items : List Json} (rest : List Char)
    (h : ∀ item ∈ items, ∀ rest, rest.length < (lineOnto tight item rest).length) :
    rest.length < (itemsOnto tight items rest).length := by
  induction items with
  | nil => exact Nat.lt_succ_self _
  | cons item items ih =>
    have hitem := h item List.mem_cons_self (itemsOnto tight items rest)
    have hitems := ih fun item hitem => h item (List.mem_cons_of_mem _ hitem)
    simp only [itemsOnto, List.length_append]
    omega

theorem lt_length_fieldsOnto {fields : List (String × Json)} (rest : List Char)
    (h : ∀ field ∈ fields, ∀ rest, rest.length < (lineOnto tight field.2 rest).length) :
    rest.length < (fieldsOnto tight fields rest).length := by
  induction fields with
  | nil => exact Nat.lt_succ_self _
  | cons field fields ih =>
    have hfield := h field List.mem_cons_self (fieldsOnto tight fields rest)
    have hfields := ih fun field hfield => h field (List.mem_cons_of_mem _ hfield)
    have hkey := lt_length_escapedOnto field.1.toList
      (tight.key ++ lineOnto tight field.2 (fieldsOnto tight fields rest))
    simp only [fieldsOnto, stringOnto, List.length_append, List.length_cons] at hkey ⊢
    omega

theorem lt_length_lineOnto {json : Json} (h : json.FloatFree) (rest : List Char) :
    rest.length < (lineOnto tight json rest).length := by
  induction json using Json.induction generalizing rest with
  | null => exact Nat.lt_add_of_pos_right (Nat.succ_pos 3)
  | bool b =>
    cases b with
    | false => exact Nat.lt_add_of_pos_right (Nat.succ_pos 4)
    | true => exact Nat.lt_add_of_pos_right (Nat.succ_pos 3)
  | int n =>
    have hpos := List.length_pos_of_ne_nil (decimal_ne_nil n)
    simp only [lineOnto, List.length_append]
    omega
  | float x => exact h.elim
  | str text =>
    have htext := lt_length_escapedOnto text.toList rest
    simp only [lineOnto, stringOnto, List.length_cons]
    omega
  | arr items ih =>
    have hall := fun item hitem => ih item hitem (floatFree_arr.1 h item hitem)
    cases items with
    | nil => exact Nat.lt_add_of_pos_right (Nat.succ_pos 1)
    | cons item items => exact lt_length_itemsOnto rest hall
  | obj fields ih =>
    have hall := fun field hfield => ih field hfield (floatFree_obj.1 h field hfield)
    cases fields with
    | nil => exact Nat.lt_add_of_pos_right (Nat.succ_pos 1)
    | cons field fields => exact lt_length_fieldsOnto rest hall

/-- What is written begins with no blank and does not look like the end of an array. -/
theorem lineOnto_eq_cons {json : Json} (h : json.FloatFree) (rest : List Char) :
    ∃ c cs, lineOnto tight json rest = c :: cs ∧ isGap c = false ∧ c ≠ ']' := by
  cases json with
  | null => exact ⟨_, _, rfl, by decide, by decide⟩
  | bool b => cases b <;> exact ⟨_, _, rfl, by decide, by decide⟩
  | int n =>
    cases hn : decimal n with
    | nil => exact absurd hn (decimal_ne_nil n)
    | cons c cs =>
      refine ⟨c, cs ++ rest, by rw [lineOnto, hn]; rfl, ?_⟩
      obtain rfl | hdigit := mem_decimal (hn ▸ List.mem_cons_self : c ∈ decimal n)
      · exact ⟨by decide, by decide⟩
      · refine ⟨?_, ?_⟩
        · rw [Bool.eq_false_iff]
          intro hgap
          simp only [isGap, Bool.or_eq_true, beq_iff_eq] at hgap
          obtain ((rfl | rfl) | rfl) | rfl := hgap <;> cases hdigit
        · rintro rfl
          cases hdigit
  | float x => exact h.elim
  | str text => exact ⟨_, _, rfl, by decide, by decide⟩
  | arr items => cases items <;> exact ⟨_, _, rfl, by decide, by decide⟩
  | obj fields => cases fields <;> exact ⟨_, _, rfl, by decide, by decide⟩

theorem skipGap_lineOnto {json : Json} (h : json.FloatFree) (rest : List Char) :
    skipGap (lineOnto tight json rest) = lineOnto tight json rest := by
  obtain ⟨c, cs, hline, hgap, -⟩ := lineOnto_eq_cons h rest
  rw [hline, skipGap, List.dropWhile_cons_of_neg (by simp [hgap])]

def EndsNumber (text : List Char) : Prop := ∀ c, text.head? = some c → isNumberChar c = false

theorem readValue_decimal (fuel : Nat) (n : Int) {rest : List Char} (hrest : EndsNumber rest) :
    readValue (fuel + 1) (decimal n ++ rest) = some (.int n, rest) := by
  have hskip : skipGap (decimal n ++ rest) = decimal n ++ rest :=
    @skipGap_lineOnto (.int n) trivial rest
  have hnumber : ∀ c ∈ decimal n, isNumberChar c = true := by
    intro c hc
    obtain rfl | hdigit := mem_decimal hc
    · rfl
    · simp [isNumberChar, hdigit]
  have hstops : rest.takeWhile isNumberChar = [] ∧ rest.dropWhile isNumberChar = rest := by
    cases rest with
    | nil => exact ⟨rfl, rfl⟩
    | cons c rest => simp [hrest c rfl]
  have htake : (decimal n ++ rest).takeWhile isNumberChar = decimal n := by
    rw [List.takeWhile_append_of_pos hnumber, hstops.1, List.append_nil]
  have hdrop : (decimal n ++ rest).dropWhile isNumberChar = rest := by
    rw [List.dropWhile_append_of_pos hnumber, hstops.2]
  have hstart : ∀ {c : Char}, c ≠ '-' → c.isDigit = false → ∀ text, decimal n ++ rest ≠ c :: text :=
    fun hminus hdigit text => decimal_append_ne_cons hminus hdigit n rest text
  unfold readValue
  rw [hskip]
  split
  case h_7 => simp [htake, hdrop, number?, decimal?_decimal]
  all_goals exact absurd ‹_› (hstart (by decide) (by decide) _)

theorem endsNumber_cons {c : Char} (h : isNumberChar c = false) (rest : List Char) :
    EndsNumber (c :: rest) := by
  intro d hd
  cases hd
  exact h

theorem endsNumber_itemsOnto (items : List Json) (rest : List Char) :
    EndsNumber (itemsOnto tight items rest) := by
  cases items <;> exact endsNumber_cons (by decide) _

theorem endsNumber_fieldsOnto (fields : List (String × Json)) (rest : List Char) :
    EndsNumber (fieldsOnto tight fields rest) := by
  cases fields <;> exact endsNumber_cons (by decide) _

/-- The data are read back from their line, with fuel for every character of it. -/
def ReadsBack (json : Json) : Prop :=
  json.FloatFree ∧ ∀ fuel rest, EndsNumber rest →
    (lineOnto tight json rest).length < fuel + rest.length →
    readValue fuel (lineOnto tight json rest) = some (json, rest)

section Steps

variable {fuel : Nat} {text rest : List Char} {item value : Json}

theorem readItems_last (held : List Json) (h : readValue fuel text = some (item, ']' :: rest)) :
    readItems (fuel + 1) held text = some ((item :: held).reverse, rest) := by
  simp [readItems, h, skipGap, isGap]

theorem readItems_more (held : List Json) (h : readValue fuel text = some (item, ',' :: rest)) :
    readItems (fuel + 1) held text = readItems fuel (item :: held) rest := by
  simp [readItems, h, skipGap, isGap]

theorem readFields_last (held : List (String × Json)) (key : String)
    (h : readValue fuel text = some (value, '}' :: rest)) :
    readFields (fuel + 1) held (stringOnto key (':' :: text)) =
      some (((key, value) :: held).reverse, rest) := by
  simp [readFields, stringOnto, readString_text, h, skipGap, isGap]

theorem readFields_more (held : List (String × Json)) (key : String)
    (h : readValue fuel text = some (value, ',' :: rest)) :
    readFields (fuel + 1) held (stringOnto key (':' :: text)) =
      readFields fuel ((key, value) :: held) rest := by
  simp [readFields, stringOnto, readString_text, h, skipGap, isGap]

theorem readValue_items {c : Char} {items : List Json} (hgap : isGap c = false) (hend : c ≠ ']')
    (h : readItems fuel [] (c :: text) = some (items, rest)) :
    readValue (fuel + 1) ('[' :: c :: text) = some (.arr items, rest) := by
  have hskip : skipGap (c :: text) = c :: text := List.dropWhile_cons_of_neg (by simp [hgap])
  have hopen : skipGap ('[' :: c :: text) = '[' :: c :: text := rfl
  simp only [readValue, hopen, hskip]
  split
  · rename_i heq
    exact absurd (List.cons.inj heq).1 hend
  · rw [h]
    rfl

theorem readValue_fields {key : String} {fields : List (String × Json)}
    (h : readFields fuel [] (stringOnto key text) = some (fields, rest)) :
    readValue (fuel + 1) ('\x7b' :: stringOnto key text) = some (.obj fields, rest) := by
  rw [stringOnto] at h
  simp [readValue, stringOnto, h, skipGap, isGap]

end Steps

theorem readItems_itemsOnto {item : Json} {items : List Json}
    (h : ∀ other ∈ item :: items, ReadsBack other) (fuel : Nat) (held : List Json)
    (rest : List Char)
    (hfuel : (itemsOnto tight (item :: items) rest).length ≤ fuel + rest.length) :
    readItems fuel held (lineOnto tight item (itemsOnto tight items rest)) =
      some (held.reverse ++ item :: items, rest) := by
  -- On the further items: an item and its comma are longer than the unit of fuel that they cost.
  induction items generalizing item fuel held with
  | nil =>
    obtain ⟨hfree, hread⟩ := h item List.mem_cons_self
    have hlong := lt_length_lineOnto hfree (']' :: rest)
    change (lineOnto tight item (']' :: rest)).length + 1 ≤ _ at hfuel
    rw [List.length_cons] at hlong
    cases fuel with
    | zero => omega
    | succ fuel =>
      have hitem := hread fuel (']' :: rest) (endsNumber_cons (by decide) rest)
        (by rw [List.length_cons]; omega)
      have hlast := readItems_last held hitem
      rw [List.reverse_cons] at hlast
      exact hlast
  | cons next items ih =>
    obtain ⟨hfree, hread⟩ := h item List.mem_cons_self
    have hlong := lt_length_lineOnto hfree (itemsOnto tight (next :: items) rest)
    have hmore := lt_length_itemsOnto rest fun other hother =>
      lt_length_lineOnto (h other (List.mem_cons_of_mem _ hother)).1
    change (lineOnto tight item (itemsOnto tight (next :: items) rest)).length + 1 ≤ _ at hfuel
    cases fuel with
    | zero => omega
    | succ fuel =>
      have hitem := hread fuel (itemsOnto tight (next :: items) rest)
        (endsNumber_itemsOnto (next :: items) rest) (by omega)
      have hgoes := readItems_more held hitem
      have hitems := ih (fun other hother => h other (List.mem_cons_of_mem _ hother)) fuel
        (item :: held) (by omega)
      rw [List.reverse_cons, List.append_assoc] at hitems
      exact hgoes.trans hitems

theorem readFields_fieldsOnto {field : String × Json} {fields : List (String × Json)}
    (h : ∀ other ∈ field :: fields, ReadsBack other.2) (fuel : Nat) (held : List (String × Json))
    (rest : List Char)
    (hfuel : (fieldsOnto tight (field :: fields) rest).length ≤ fuel + rest.length) :
    readFields fuel held
        (stringOnto field.1 (':' :: lineOnto tight field.2 (fieldsOnto tight fields rest))) =
      some (held.reverse ++ field :: fields, rest) := by
  -- A field costs one unit of fuel beside its value, and its name and separators are longer.
  have hkey : ∀ (field : String × Json) fields,
      (lineOnto tight field.2 (fieldsOnto tight fields rest)).length + 3 <
        (fieldsOnto tight (field :: fields) rest).length := by
    intro field fields
    have hkey := lt_length_escapedOnto field.1.toList
      (':' :: lineOnto tight field.2 (fieldsOnto tight fields rest))
    exact Nat.add_lt_add_right hkey 2
  induction fields generalizing field fuel held with
  | nil =>
    obtain ⟨hfree, hread⟩ := h field List.mem_cons_self
    have hlong := lt_length_lineOnto hfree ('}' :: rest)
    have hshort := hkey field []
    change (lineOnto tight field.2 ('}' :: rest)).length + 3 < _ at hshort
    rw [List.length_cons] at hlong
    cases fuel with
    | zero => omega
    | succ fuel =>
      have hvalue := hread fuel ('}' :: rest) (endsNumber_cons (by decide) rest)
        (by rw [List.length_cons]; omega)
      have hlast := readFields_last held field.1 hvalue
      rw [List.reverse_cons] at hlast
      exact hlast
  | cons next fields ih =>
    obtain ⟨hfree, hread⟩ := h field List.mem_cons_self
    have hlong := lt_length_lineOnto hfree (fieldsOnto tight (next :: fields) rest)
    have hmore := lt_length_fieldsOnto rest fun other hother =>
      lt_length_lineOnto (h other (List.mem_cons_of_mem _ hother)).1
    have hshort := hkey field (next :: fields)
    cases fuel with
    | zero => omega
    | succ fuel =>
      have hvalue := hread fuel (fieldsOnto tight (next :: fields) rest)
        (endsNumber_fieldsOnto (next :: fields) rest) (by omega)
      have hgoes := readFields_more held field.1 hvalue
      have hfields := ih (fun other hother => h other (List.mem_cons_of_mem _ hother)) fuel
        (field :: held) (by omega)
      rw [List.reverse_cons, List.append_assoc] at hfields
      exact hgoes.trans hfields

theorem ReadsBack.of_succ {json : Json} (hfree : json.FloatFree)
    (h : ∀ fuel rest, EndsNumber rest → (lineOnto tight json rest).length ≤ fuel + rest.length →
      readValue (fuel + 1) (lineOnto tight json rest) = some (json, rest)) : ReadsBack json := by
  refine ⟨hfree, fun fuel rest hrest hfuel => ?_⟩
  have hlong := lt_length_lineOnto hfree rest
  cases fuel with
  | zero => omega
  | succ fuel => exact h fuel rest hrest (by omega)

/-- Data on a line are read back, whatever stands behind them. -/
theorem readsBack {json : Json} (h : json.FloatFree) : ReadsBack json := by
  induction json using Json.induction with
  | null => exact .of_succ h fun fuel rest hrest hfuel => rfl
  | bool b => cases b <;> exact .of_succ h fun fuel rest hrest hfuel => rfl
  | int n => exact .of_succ h fun fuel rest hrest hfuel => readValue_decimal fuel n hrest
  | float x => exact h.elim
  | str text =>
    refine .of_succ h fun fuel rest hrest hfuel => ?_
    have htext := readString_text text rest
    simp [readValue, lineOnto, stringOnto, skipGap, isGap, htext]
  | arr items ih =>
    refine .of_succ h fun fuel rest hrest hfuel => ?_
    have hall : ∀ item ∈ items, ReadsBack item :=
      fun item hitem => ih item hitem (floatFree_arr.1 h item hitem)
    cases items with
    | nil => rfl
    | cons item items =>
      have hitems := readItems_itemsOnto hall fuel [] rest hfuel
      obtain ⟨c, cs, hline, hgap, hend⟩ :=
        lineOnto_eq_cons (hall item List.mem_cons_self).1 (itemsOnto tight items rest)
      rw [hline] at hitems
      rw [lineOnto, hline]
      exact readValue_items hgap hend hitems
  | obj fields ih =>
    refine .of_succ h fun fuel rest hrest hfuel => ?_
    have hall : ∀ field ∈ fields, ReadsBack field.2 :=
      fun field hfield => ih field hfield (floatFree_obj.1 h field hfield)
    cases fields with
    | nil => rfl
    | cons field fields =>
      exact readValue_fields (readFields_fieldsOnto hall fuel [] rest hfuel)

theorem read?_line {json : Json} (h : json.FloatFree) : read? (json.line tight) = some json := by
  have hends : EndsNumber [] := nofun
  have hread := (readsBack h).2 ((lineOnto tight json []).length + 1) [] hends (by simp)
  rw [read?, line, String.toList_ofList, hread]
  rfl

theorem visible_escapedOnto (cs : List Char) {rest : List Char} (h : Visible rest) :
    Visible (escapedOnto cs rest) := by
  induction cs with
  | nil => exact h.cons (by decide)
  | cons c cs ih =>
    rw [escapedOnto]
    have hc := escaped c
    generalize escapedChar c = text at hc
    cases hc with
    | short d other back visible => exact (ih.cons visible).cons (by decide)
    | unit a b d e back low visible =>
      have hdigits : Visible ([a, b, d, e] ++ escapedOnto cs rest) :=
        List.forall_mem_append.2 ⟨visible, ih⟩
      exact (hdigits.cons (by decide)).cons (by decide)
    | plain quote backslash visible => exact ih.cons visible

theorem visible_stringOnto (text : String) {rest : List Char} (h : Visible rest) :
    Visible (stringOnto text rest) :=
  (visible_escapedOnto text.toList h).cons (by decide)

theorem visible_itemsOnto {items : List Json} {rest : List Char}
    (hitems : ∀ item ∈ items, ∀ rest, Visible rest → Visible (lineOnto tight item rest))
    (h : Visible rest) : Visible (itemsOnto tight items rest) := by
  induction items with
  | nil => exact h.cons (by decide)
  | cons item items ih =>
    have hmore := ih fun item hitem => hitems item (List.mem_cons_of_mem _ hitem)
    exact (hitems item List.mem_cons_self _ hmore).cons (by decide)

theorem visible_fieldsOnto {fields : List (String × Json)} {rest : List Char}
    (hfields : ∀ field ∈ fields, ∀ rest, Visible rest → Visible (lineOnto tight field.2 rest))
    (h : Visible rest) : Visible (fieldsOnto tight fields rest) := by
  induction fields with
  | nil => exact h.cons (by decide)
  | cons field fields ih =>
    have hmore := ih fun field hfield => hfields field (List.mem_cons_of_mem _ hfield)
    have hvalue := (hfields field List.mem_cons_self _ hmore).cons (c := ':') (by decide)
    exact (visible_stringOnto field.1 hvalue).cons (by decide)

theorem visible_lineOnto {json : Json} (hfree : json.FloatFree) {rest : List Char}
    (h : Visible rest) : Visible (lineOnto tight json rest) := by
  induction json using Json.induction generalizing rest with
  | null => exact List.forall_mem_append.2 ⟨(by decide : Visible "null".toList), h⟩
  | bool b =>
    cases b with
    | false => exact List.forall_mem_append.2 ⟨(by decide : Visible "false".toList), h⟩
    | true => exact List.forall_mem_append.2 ⟨(by decide : Visible "true".toList), h⟩
  | int n =>
    refine List.forall_mem_append.2 ⟨fun c hc => ?_, h⟩
    obtain rfl | hdigit := mem_decimal hc
    · decide
    · exact Nat.le_trans (by decide) (toNat_of_isDigit hdigit).1
  | float x => exact hfree.elim
  | str text => exact visible_stringOnto text h
  | arr items ih =>
    have hall : ∀ item ∈ items, ∀ rest, Visible rest → Visible (lineOnto tight item rest) :=
      fun item hitem rest => ih item hitem (floatFree_arr.1 hfree item hitem)
    cases items with
    | nil => exact (h.cons (by decide)).cons (by decide)
    | cons item items =>
      have hitems : Visible (itemsOnto tight (item :: items) rest) := visible_itemsOnto hall h
      exact hitems.tail.cons (by decide)
  | obj fields ih =>
    have hall : ∀ field ∈ fields, ∀ rest, Visible rest → Visible (lineOnto tight field.2 rest) :=
      fun field hfield rest => ih field hfield (floatFree_obj.1 hfree field hfield)
    cases fields with
    | nil => exact (h.cons (by decide)).cons (by decide)
    | cons field fields =>
      have hfields : Visible (fieldsOnto tight (field :: fields) rest) := visible_fieldsOnto hall h
      exact hfields.tail.cons (by decide)

theorem newline_not_mem_line {json : Json} (h : json.FloatFree) :
    '\n' ∉ (json.line tight).toList := by
  intro hline
  rw [line, String.toList_ofList] at hline
  exact absurd (visible_lineOnto h (List.forall_mem_nil _) _ hline) (by decide)

end SignalCalculus.Json
