import SignalCalculus.Json.Reader
import SignalCalculus.Link.Url

set_option autoImplicit false

namespace SignalCalculus.Form

open Text Url

/-- The ranges in which the bytes behind a first byte have to be. -/
def laterRanges (first : UInt8) : List (UInt8 × UInt8) :=
  if 0xC2 ≤ first ∧ first ≤ 0xDF then [(0x80, 0xBF)]
  else if first = 0xE0 then [(0xA0, 0xBF), (0x80, 0xBF)]
  else if first = 0xED then [(0x80, 0x9F), (0x80, 0xBF)]
  else if 0xE1 ≤ first ∧ first ≤ 0xEF then [(0x80, 0xBF), (0x80, 0xBF)]
  else if first = 0xF0 then [(0x90, 0xBF), (0x80, 0xBF), (0x80, 0xBF)]
  else if 0xF1 ≤ first ∧ first ≤ 0xF3 then [(0x80, 0xBF), (0x80, 0xBF), (0x80, 0xBF)]
  else if first = 0xF4 then [(0x80, 0x8F), (0x80, 0xBF), (0x80, 0xBF)]
  else []

def countFitting : List (UInt8 × UInt8) → List UInt8 → Nat
  | (low, high) :: ranges, byte :: bytes =>
    if low ≤ byte ∧ byte ≤ high then countFitting ranges bytes + 1 else 0
  | _, _ => 0

/-- The text that bytes are in UTF-8. A byte that starts no character, and a character that breaks
    off, are replaced by one replacement character. -/
def textOf : List UInt8 → List Char
  | [] => []
  | first :: rest =>
    match (first :: rest).toByteArray.utf8DecodeChar? 0 with
    | some c => c :: textOf (rest.drop (c.utf8Size - 1))
    | none => Char.ofNat 0xFFFD :: textOf (rest.drop (countFitting (laterRanges first) rest))
termination_by bytes => bytes.length
decreasing_by all_goals (rw [List.length_drop, List.length_cons]; omega)

theorem textOf_utf8_append (c : Char) (bytes : List UInt8) :
    textOf (String.utf8EncodeChar c ++ bytes) = c :: textOf bytes := by
  obtain ⟨first, later, hc⟩ := List.exists_cons_of_ne_nil (String.utf8EncodeChar_ne_nil (c := c))
  have hlength : later.length = c.utf8Size - 1 := by
    rw [← String.length_utf8EncodeChar, hc, List.length_cons, Nat.add_sub_cancel]
  have hdecode : (first :: (later ++ bytes)).toByteArray.utf8DecodeChar? 0 = some c := by
    rw [← List.cons_append, ← hc, List.toByteArray_append]
    exact ByteArray.utf8DecodeChar?_utf8EncodeChar_append
  rw [hc, List.cons_append, textOf, hdecode]
  simp only [← hlength, List.drop_left]

theorem textOf_utf8 (text : List Char) : textOf (text.flatMap String.utf8EncodeChar) = text := by
  induction text with
  | nil => rw [List.flatMap_nil, textOf]
  | cons c text ih => rw [List.flatMap_cons, textOf_utf8_append, ih]

def bytesOf : List Char → List UInt8
  | '%' :: a :: b :: rest =>
    match Json.hexDigit? a, Json.hexDigit? b with
    | some high, some low => UInt8.ofNat (16 * high + low) :: bytesOf rest
    | _, _ => String.utf8EncodeChar '%' ++ bytesOf (a :: b :: rest)
  | '+' :: rest => String.utf8EncodeChar ' ' ++ bytesOf rest
  | c :: rest => String.utf8EncodeChar c ++ bytesOf rest
  | [] => []

def decoded (text : List Char) : List Char := textOf (bytesOf text)

theorem bytesOf_cons {c : Char} (hpercent : c ≠ '%') (hplus : c ≠ '+') (rest : List Char) :
    bytesOf (c :: rest) = String.utf8EncodeChar c ++ bytesOf rest := by
  rw [bytesOf]
  · rintro a b rest' rfl
    exact absurd rfl hpercent
  · exact hplus

theorem hex_two {n : Nat} (h : n < 256) :
    hex 2 n = [Nat.digitChar (n / 16), Nat.digitChar (n % 16)] := by
  unfold hex
  by_cases hn : n < 16
  · rw [Nat.toDigits_of_lt_base hn, Nat.div_eq_of_lt hn, Nat.mod_eq_of_lt hn]
    rfl
  · have hsplit := Nat.toDigits_append_toDigits (by decide) (show 0 < n / 16 by omega)
      (show n % 16 < 16 by omega)
    rw [Nat.div_add_mod, Nat.toDigits_of_lt_base (show n / 16 < 16 by omega),
      Nat.toDigits_of_lt_base (show n % 16 < 16 by omega)] at hsplit
    rw [← hsplit]
    rfl

theorem percent_eq (byte : UInt8) : percent byte =
    ['%', (Nat.digitChar (byte.toNat / 16)).toUpper, (Nat.digitChar (byte.toNat % 16)).toUpper] := by
  rw [percent, hex_two byte.toNat_lt]
  rfl

theorem hexDigit?_toUpper_digitChar :
    ∀ d < 16, Json.hexDigit? (Nat.digitChar d).toUpper = some d := by
  decide

theorem bytesOf_percent_append (byte : UInt8) (rest : List Char) :
    bytesOf (percent byte ++ rest) = byte :: bytesOf rest := by
  have hbyte := byte.toNat_lt
  rw [percent_eq, List.cons_append, List.cons_append, List.cons_append, List.nil_append, bytesOf,
    hexDigit?_toUpper_digitChar _ (by omega), hexDigit?_toUpper_digitChar _ (by omega)]
  simp only [Nat.div_add_mod, UInt8.ofNat_toNat]

theorem bytesOf_flatMap_percent_append (bytes : List UInt8) (rest : List Char) :
    bytesOf (bytes.flatMap percent ++ rest) = bytes ++ bytesOf rest := by
  induction bytes with
  | nil => rfl
  | cons byte bytes ih =>
    rw [List.flatMap_cons, List.append_assoc, bytesOf_percent_append, ih, List.cons_append]

theorem bytesOf_formChar_append (c : Char) (rest : List Char) :
    bytesOf (formChar c ++ rest) = String.utf8EncodeChar c ++ bytesOf rest := by
  unfold formChar
  split
  · rename_i hplain
    have hpercent : c ≠ '%' := by rintro rfl; exact absurd hplain (by decide)
    have hplus : c ≠ '+' := by rintro rfl; exact absurd hplain (by decide)
    exact bytesOf_cons hpercent hplus rest
  · split
    · rename_i hspace
      rw [hspace]
      rfl
    · exact bytesOf_flatMap_percent_append _ rest

/-- What is written into a form is read back. -/
theorem decoded_flatMap_formChar (text : List Char) : decoded (text.flatMap formChar) = text := by
  have hbytes : bytesOf (text.flatMap formChar) = text.flatMap String.utf8EncodeChar := by
    induction text with
    | nil => rfl
    | cons c text ih => rw [List.flatMap_cons, bytesOf_formChar_append, ih, List.flatMap_cons]
  rw [decoded, hbytes, textOf_utf8]

theorem decoded_eq_self {text : List Char} (h : ∀ c ∈ text, c ≠ '%' ∧ c ≠ '+') :
    decoded text = text := by
  have hbytes : bytesOf text = text.flatMap String.utf8EncodeChar := by
    induction text with
    | nil => rfl
    | cons c text ih =>
      obtain ⟨hc, htext⟩ := List.forall_mem_cons.1 h
      rw [bytesOf_cons hc.1 hc.2, ih htext, List.flatMap_cons]
  rw [decoded, hbytes, textOf_utf8]

theorem mem_flatMap_formChar {text : List Char} {d : Char} (h : d ∈ text.flatMap formChar) :
    isPlain d = true ∨ d = '+' ∨ d = '%' := by
  have hdigit : ∀ n < 16, isPlain (Nat.digitChar n).toUpper = true := by decide
  obtain ⟨c, -, hc⟩ := List.mem_flatMap.1 h
  unfold formChar at hc
  split at hc
  · rename_i hplain
    exact .inl (List.mem_singleton.1 hc ▸ hplain)
  · split at hc
    · exact .inr (.inl (List.mem_singleton.1 hc))
    · obtain ⟨byte, -, hbyte⟩ := List.mem_flatMap.1 hc
      have hlt := byte.toNat_lt
      rw [percent_eq] at hbyte
      simp only [List.mem_cons, List.not_mem_nil, or_false] at hbyte
      obtain rfl | rfl | rfl := hbyte
      · exact .inr (.inr rfl)
      · exact .inl (hdigit _ (by omega))
      · exact .inl (hdigit _ (by omega))

theorem notMem_flatMap_formChar {d : Char} (hplain : isPlain d = false) (hplus : d ≠ '+')
    (hpercent : d ≠ '%') (text : List Char) : d ∉ text.flatMap formChar := by
  intro h
  obtain h | h | h := mem_flatMap_formChar h
  · exact absurd h (by simp [hplain])
  · exact hplus h
  · exact hpercent h

/-- The name and the value that a piece of a form stands for; a piece without a value counts only if
    blank values are kept, and an empty piece never does. -/
def field? (keepBlank : Bool) (piece : List Char) : Option (List Char × List Char) :=
  let (name, value) := cut '=' piece
  if piece.isEmpty || (value.isEmpty && !keepBlank) then none else some (decoded name, decoded value)

def fields (keepBlank : Bool) (form : List Char) : List (List Char × List Char) :=
  (pieces '&' form).filterMap (field? keepBlank)

theorem pieces_eq_cons (c : Char) (text : List Char) :
    ∃ first more, pieces c text = first :: more := by
  cases text with
  | nil => exact ⟨[], [], rfl⟩
  | cons d rest =>
    rw [pieces]
    split
    · split
      · exact ⟨_, _, rfl⟩
      · exact ⟨_, _, rfl⟩
    · exact ⟨_, _, rfl⟩

theorem pieces_cons_self (c : Char) (rest : List Char) :
    pieces c (c :: rest) = [] :: pieces c rest := by
  obtain ⟨first, more, hrest⟩ := pieces_eq_cons c rest
  rw [pieces, hrest]
  exact if_pos rfl

theorem pieces_cons_of_ne {c d : Char} (h : d ≠ c) {rest first : List Char} {more : List (List Char)}
    (hrest : pieces c rest = first :: more) : pieces c (d :: rest) = (d :: first) :: more := by
  rw [pieces, hrest]
  exact if_neg h

theorem pieces_append_cons (c : Char) (before after : List Char) :
    pieces c (before ++ c :: after) = pieces c before ++ pieces c after := by
  induction before with
  | nil => exact pieces_cons_self c after
  | cons d before ih =>
    obtain ⟨first, more, hbefore⟩ := pieces_eq_cons c before
    by_cases hd : d = c
    · rw [hd, List.cons_append, pieces_cons_self, pieces_cons_self, ih, List.cons_append]
    · rw [List.cons_append, pieces_cons_of_ne hd hbefore,
        pieces_cons_of_ne hd (ih.trans (congrArg (· ++ pieces c after) hbefore))]
      rfl

theorem pieces_of_notMem {c : Char} {text : List Char} (h : c ∉ text) : pieces c text = [text] := by
  induction text with
  | nil => rfl
  | cons d text ih =>
    have hd : d ≠ c := fun hsame => h (hsame ▸ List.mem_cons_self)
    exact pieces_cons_of_ne hd (ih fun hmem => h (List.mem_cons_of_mem _ hmem))

theorem fields_nil (keepBlank : Bool) : fields keepBlank [] = [] := rfl

theorem fields_append (keepBlank : Bool) (form more : List Char) :
    fields keepBlank (form ++ '&' :: more) = fields keepBlank form ++ fields keepBlank more := by
  rw [fields, pieces_append_cons, List.filterMap_append]
  rfl

theorem flatMap_formChar_ne_nil {text : List Char} (h : text ≠ []) : text.flatMap formChar ≠ [] := by
  intro hnil
  have hback := decoded_flatMap_formChar text
  rw [hnil, decoded, bytesOf, textOf] at hback
  exact h hback.symm

theorem fields_pair (keepBlank : Bool) (name : List Char) {value : List Char}
    (hname : ∀ c ∈ name, c ∉ ['&', '=', '%', '+']) (hvalue : value ≠ []) :
    fields keepBlank (name ++ '=' :: value.flatMap formChar) = [(name, value)] := by
  have hequals : '=' ∉ name := fun h => hname _ h (by decide)
  have hself : ∀ c ∈ name, c ≠ '%' ∧ c ≠ '+' :=
    fun c hc => ⟨fun h => hname c hc (by simp [h]), fun h => hname c hc (by simp [h])⟩
  have hone : '&' ∉ name ++ '=' :: value.flatMap formChar := by
    rw [List.mem_append, List.mem_cons]
    rintro (h | h | h)
    · exact hname _ h (by decide)
    · exact absurd h (by decide)
    · exact notMem_flatMap_formChar (by decide) (by decide) (by decide) value h
  have hfield : field? keepBlank (name ++ '=' :: value.flatMap formChar) = some (name, value) := by
    have hpiece : (name ++ '=' :: value.flatMap formChar).isEmpty = false := by simp
    have hblank := List.isEmpty_eq_false_iff.2 (flatMap_formChar_ne_nil hvalue)
    simp only [field?, cut_append_cons hequals, hpiece, hblank, Bool.false_and, Bool.or_self,
      Bool.false_eq_true, if_false, decoded_eq_self hself, decoded_flatMap_formChar]
  rw [fields, pieces_of_notMem hone, List.filterMap_cons, hfield]
  rfl

end SignalCalculus.Form
