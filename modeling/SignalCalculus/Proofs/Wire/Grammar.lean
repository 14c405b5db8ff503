import SignalCalculus.Proofs.Wire.Message

set_option autoImplicit false

namespace SignalCalculus.Wire

namespace Message

theorem width_append_inj {groups groups' : Nat} {rest rest' : List Char}
    (h : List.replicate groups '1' ++ '0' :: rest = List.replicate groups' '1' ++ '0' :: rest') :
    groups = groups' ∧ rest = rest' := by
  have htake := congrArg (List.takeWhile (· != '0')) h
  have hdrop := congrArg (List.dropWhile (· != '0')) h
  rw [takeWhile_width, takeWhile_width] at htake
  rw [dropWhile_width, dropWhile_width] at hdrop
  have hlen := congrArg List.length htake
  rw [List.length_replicate, List.length_replicate] at hlen
  exact ⟨hlen, (List.cons.inj hdrop).2⟩

theorem number_append_inj {negative negative' : Bool} {groups groups' : Nat}
    {field field' rest rest' : List Char} (size : field.length = groups * groupSize)
    (size' : field'.length = groups' * groupSize)
    (h : signBits negative ++ (List.replicate groups '1' ++ '0' :: (field ++ rest)) =
      signBits negative' ++ (List.replicate groups' '1' ++ '0' :: (field' ++ rest'))) :
    negative = negative' ∧ groups = groups' ∧ field = field' ∧ rest = rest' := by
  have hsign : (signBits negative).length = (signBits negative').length := by
    rw [length_signBits, length_signBits]
  obtain ⟨hs, hbody⟩ := List.append_inj h hsign
  obtain ⟨rfl, hfields⟩ := width_append_inj hbody
  obtain ⟨hfield, hrest⟩ := List.append_inj hfields (by rw [size, size'])
  refine ⟨?_, rfl, hfield, hrest⟩
  cases negative <;> cases negative' <;> first | rfl | cases hs

/-- No message goes on behind another one, and a text has one derivation at most. -/
theorem text_append_inj {first second : Message} {rest rest' : List Char}
    (h : first.text ++ rest = second.text ++ rest') : first = second ∧ rest = rest' := by
  induction first generalizing second rest rest' with
  | nil =>
    cases second with
    | nil => exact ⟨rfl, by simpa using h⟩
    | pair left right => simp at h
    | number negative groups field bits size => cases negative <;> simp [signBits] at h
  | pair left right ihl ihr =>
    cases second with
    | nil => simp at h
    | number negative groups field bits size => cases negative <;> simp [signBits] at h
    | pair left' right' =>
      simp only [text_pair, List.cons_append, List.append_assoc, List.cons.injEq, true_and] at h
      obtain ⟨rfl, hright⟩ := ihl h
      obtain ⟨rfl, hrest⟩ := ihr hright
      exact ⟨rfl, hrest⟩
  | number negative groups field bits size =>
    cases second with
    | nil => cases negative <;> simp [signBits] at h
    | pair left right => cases negative <;> simp [signBits] at h
    | number negative' groups' field' bits' size' =>
      simp only [text_number, List.append_assoc, List.cons_append] at h
      obtain ⟨rfl, rfl, rfl, rfl⟩ := number_append_inj size size' h
      exact ⟨rfl, rfl⟩

theorem text_injective {first second : Message} (h : first.text = second.text) :
    first = second := by
  have happ : first.text ++ [] = second.text ++ [] := by rw [h]
  exact (text_append_inj happ).1

/-- The field of a message that starts at `pos` runs past the end of `text`, which has only `cut` of
    it. -/
def RunsPast (message : Message) (text : List Char) (pos : Nat) (cut : List Char) : Prop :=
  ∃ before missing after, missing ≠ [] ∧ message.fields = before ++ (cut ++ missing) :: after ∧
    before.flatten.length = pos ∧ text = before.flatten ++ cut

end Message

def cutError (pos : Nat) (cut : List Char) : WireError :=
  if cut.length < 2 then .badPrefix pos cut else .badWidth pos

theorem readInside_error {cells : List (Cell Unit Value)} {text : List Char} {pos : Nat}
    {e : WireError} (h : readItem text pos = .error e) : readInside cells text pos = .error e := by
  rw [readInside]
  split
  · rename_i e' he
    rw [h] at he
    cases he
    rfl
  · rename_i hr
    rw [h] at hr
    cases hr

theorem readItem_short {text : List Char} (h : text.length < 2) (pos : Nat) :
    readItem text pos = .error (cutError pos text) := by
  rw [cutError, if_pos h]
  match text with
  | [] => rfl
  | [c] => simp [readItem, readNumber, sign?, Except.map]

theorem readItem_signed (negative : Bool) (body : List Char) (pos : Nat) :
    readItem (signBits negative ++ body) pos =
      (readNumber (signBits negative ++ body) pos).map
        fun (n, pos, rest) => (.leaf (.num n), pos, rest) := by
  cases negative <;> rfl

theorem readNumber_cut {negative : Bool} {groups : Nat} {field body more : List Char}
    (size : field.length = groups * groupSize) (hmore : more ≠ [])
    (h : List.replicate groups '1' ++ '0' :: field = body ++ more) (pos : Nat) :
    readNumber (signBits negative ++ body) pos = .error (.badWidth pos) := by
  have unended : ∀ count, readNumber (signBits negative ++ List.replicate count '1') pos =
      .error (.badWidth pos) := by
    intro count
    have hdrop : (List.replicate count '1').dropWhile (· != '0') = [] := by simp
    simp only [readNumber, sign?_signBits, hdrop]
  obtain ⟨part, rfl, hpart⟩ | ⟨tail, hwidth, -⟩ := List.append_eq_append_iff.1 h
  · cases part with
    | nil =>
      rw [List.append_nil]
      exact unended groups
    | cons c part =>
      obtain ⟨rfl, rfl⟩ := List.cons.inj hpart
      have hshort : part.length < groups * groupSize := by
        have hpos := List.length_pos_iff.2 hmore
        have hsize : part.length + more.length = groups * groupSize :=
          List.length_append.symm.trans size
        omega
      have htake : (part.take (groups * groupSize)).length < groups * groupSize := by
        rw [List.length_take]
        omega
      simp only [readNumber, sign?_signBits, takeWhile_width, dropWhile_width,
        List.length_replicate, if_pos htake]
  · -- The text stops inside the width.
    have hbody : body = List.replicate body.length '1' := by
      refine List.eq_replicate_iff.2 ⟨rfl, fun c hc => ?_⟩
      exact List.eq_of_mem_replicate (hwidth ▸ List.mem_append_left tail hc)
    rw [hbody]
    exact unended body.length

theorem readItem_cut {negative : Bool} {groups : Nat} {field text more : List Char}
    (size : field.length = groups * groupSize) (hmore : more ≠ [])
    (h : signBits negative ++ (List.replicate groups '1' ++ '0' :: field) = text ++ more)
    (pos : Nat) : readItem text pos = .error (cutError pos text) := by
  by_cases hshort : text.length < 2
  · exact readItem_short hshort pos
  · obtain ⟨body, rfl⟩ : signBits negative <+: text := by
      refine List.prefix_of_prefix_length_le ⟨_, h⟩ ⟨more, rfl⟩ ?_
      rw [length_signBits]
      omega
    rw [List.append_assoc, List.append_cancel_left_eq] at h
    rw [cutError, if_neg hshort, readItem_signed, readNumber_cut size hmore h]
    rfl

theorem append_cases {left right text more : List Char} (h : left ++ right = text ++ more) :
    (∃ part, text = left ++ part ∧ right = part ++ more) ∨
      ∃ part, part ≠ [] ∧ left = text ++ part := by
  obtain hfirst | ⟨part, hleft, hmore⟩ := List.append_eq_append_iff.1 h
  · exact .inl hfirst
  · by_cases hpart : part = []
    · subst hpart
      exact .inl ⟨[], by simpa using hleft.symm, by simpa using hmore.symm⟩
    · exact .inr ⟨part, hpart, hleft⟩

/-- Where a text stops inside a message, the reader refuses the field that the text stops in. -/
theorem readInside_cut (message : Message) {text more : List Char} (hmore : more ≠ [])
    (h : message.text = text ++ more) (cells : List (Cell Unit Value)) (pos : Nat) :
    ∃ start cut, message.RunsPast text start cut ∧
      readInside cells text pos = .error (cutError (pos + start) cut) := by
  induction message generalizing text more cells pos with
  | nil =>
    have hshort : text.length < 2 := by
      have hlen := congrArg List.length h
      have hpos := List.length_pos_iff.2 hmore
      simp only [Message.text_nil, List.length_cons, List.length_nil, List.length_append] at hlen
      omega
    refine ⟨0, text, ⟨[], more, [], hmore, ?_, rfl, rfl⟩, readInside_error (readItem_short hshort pos)⟩
    rw [← h]
    rfl
  | number negative groups field bits size =>
    rw [Message.text_number] at h
    refine ⟨0, text, ⟨[], more, [], hmore, ?_, rfl, rfl⟩,
      readInside_error (readItem_cut size hmore h pos)⟩
    rw [← h]
    rfl
  | pair left right ihl ihr =>
    rw [Message.text_pair] at h
    match text with
    | [] => exact ⟨0, [], ⟨[], ['1', '1'], _, by simp, rfl, rfl, rfl⟩,
        readInside_error (readItem_short (by decide) pos)⟩
    | [c] =>
      obtain ⟨rfl, -⟩ := List.cons.inj h
      exact ⟨0, ['1'], ⟨[], ['1'], _, by simp, rfl, rfl, rfl⟩,
        readInside_error (readItem_short (by decide) pos)⟩
    | c :: d :: body =>
      simp only [List.cons_append, List.cons.injEq] at h
      obtain ⟨rfl, rfl, h⟩ := h
      have hitem : readItem ('1' :: '1' :: body) pos = .ok (.pair, pos + 2, body) := rfl
      rw [readInside_item hitem, readBehind]
      obtain ⟨part, rfl, hright⟩ | ⟨part, hpart, hleft⟩ := append_cases h
      · obtain ⟨start, cut, ⟨before, missing, after, hmissing, hfields, rfl, rfl⟩, hread⟩ :=
          ihr hmore hright (.right left.value :: cells) (pos + 2 + left.text.length)
        refine ⟨2 + left.text.length + before.flatten.length, cut,
          ⟨['1', '1'] :: (left.fields ++ before), missing, after, hmissing, ?_, ?_, ?_⟩, ?_⟩
        · simp [Message.fields, hfields]
        · simp [Message.text]
          omega
        · simp [Message.text]
        · rw [readInside_text]
          change readInside (.right left.value :: cells) _ _ = _
          rw [hread]
          congr 2
          omega
      · obtain ⟨start, cut, ⟨before, missing, after, hmissing, hfields, rfl, rfl⟩, hread⟩ :=
          ihl hpart hleft (.left () :: cells) (pos + 2)
        refine ⟨2 + before.flatten.length, cut,
          ⟨['1', '1'] :: before, missing, after ++ right.fields, hmissing, ?_, ?_, rfl⟩, ?_⟩
        · simp [Message.fields, hfields]
        · simp
          omega
        · rw [hread]
          congr 2
          omega

def Complete (text : List Char) : Prop := ∃ message : Message, message.text = text

def Overfull (text : List Char) : Prop :=
  ∃ (message : Message) (rest : List Char), rest ≠ [] ∧ text = message.text ++ rest

def Truncated (text : List Char) : Prop :=
  ∃ (message : Message) (more : List Char), more ≠ [] ∧ message.text = text ++ more

def MessageOrCut (text : List Char) : Prop :=
  (∃ (message : Message) (rest : List Char), text = message.text ++ rest) ∨ Truncated text

theorem width_cases {body : List Char} (h : IsBits body) :
    ∃ groups, body = List.replicate groups '1' ∨
      ∃ rest, body = List.replicate groups '1' ++ '0' :: rest := by
  induction body with
  | nil => exact ⟨0, .inl rfl⟩
  | cons c body ih =>
    obtain ⟨rfl | rfl, hbody⟩ := isBits_cons.1 h
    · exact ⟨0, .inr ⟨body, rfl⟩⟩
    · obtain ⟨groups, hones | ⟨rest, hrest⟩⟩ := ih hbody
      · exact ⟨groups + 1, .inl (by rw [hones]; rfl)⟩
      · exact ⟨groups + 1, .inr ⟨rest, by rw [hrest]; rfl⟩⟩

theorem messageOrCut_number (negative : Bool) {body : List Char} (h : IsBits body) :
    MessageOrCut (signBits negative ++ body) := by
  obtain ⟨groups, rfl | ⟨rest, rfl⟩⟩ := width_cases h
  · -- A width that has not ended yet: as many groups of zeros make it a number.
    have bits := isBits_replicate (groups * groupSize) (c := '0') (.inl rfl)
    refine .inr ⟨.number negative groups _ bits List.length_replicate,
      '0' :: List.replicate (groups * groupSize) '0', List.cons_ne_nil _ _, ?_⟩
    rw [Message.text_number, List.append_assoc]
  · have hrest : IsBits rest := (isBits_cons.1 (isBits_append.1 h).2).2
    by_cases hsize : groups * groupSize ≤ rest.length
    · have bits : IsBits (rest.take (groups * groupSize)) :=
        fun c hc => hrest c (List.mem_of_mem_take hc)
      refine .inl ⟨.number negative groups _ bits (List.length_take_of_le hsize),
        rest.drop (groups * groupSize), ?_⟩
      simp
    · have hmore : 0 < groups * groupSize - rest.length := by omega
      have bits : IsBits (rest ++ List.replicate (groups * groupSize - rest.length) '0') :=
        isBits_append.2 ⟨hrest, isBits_replicate _ (.inl rfl)⟩
      refine .inr ⟨.number negative groups _ bits ?_,
        List.replicate (groups * groupSize - rest.length) '0', ?_, ?_⟩
      · rw [List.length_append, List.length_replicate]
        omega
      · rw [Ne, List.replicate_eq_nil_iff]
        omega
      · simp

theorem messageOrCut_pair {body : List Char} (hleft : MessageOrCut body)
    (hright : ∀ (left : Message) (rest : List Char), body = left.text ++ rest →
      MessageOrCut rest) :
    MessageOrCut ('1' :: '1' :: body) := by
  obtain ⟨left, rest, rfl⟩ | ⟨left, more, hmore, htext⟩ := hleft
  · obtain ⟨right, rest', rfl⟩ | ⟨right, more, hmore, htext⟩ := hright left rest rfl
    · exact .inl ⟨.pair left right, rest', by simp⟩
    · exact .inr ⟨.pair left right, more, hmore, by simp [htext]⟩
  · refine .inr ⟨.pair left .nil, more ++ ['0', '0'], ?_, by simp [htext]⟩
    exact List.append_ne_nil_of_left_ne_nil hmore _

theorem messageOrCut_of_isBits (text : List Char) (h : IsBits text) : MessageOrCut text := by
  induction hn : text.length using Nat.strongRecOn generalizing text with
  | ind n ih =>
    match text with
    | [] => exact .inr ⟨.nil, ['0', '0'], by simp, rfl⟩
    | [c] =>
      obtain ⟨rfl | rfl, -⟩ := isBits_cons.1 h
      · exact .inr ⟨.nil, ['0'], by simp, rfl⟩
      · exact .inr ⟨.pair .nil .nil, ['1', '0', '0', '0', '0'], by simp, rfl⟩
    | c :: d :: body =>
      obtain ⟨hc, htail⟩ := isBits_cons.1 h
      obtain ⟨hd, hbody⟩ := isBits_cons.1 htail
      obtain rfl | rfl := hc
      · obtain rfl | rfl := hd
        · exact .inl ⟨.nil, body, rfl⟩
        · exact messageOrCut_number false hbody
      · obtain rfl | rfl := hd
        · exact messageOrCut_number true hbody
        · have hlen : body.length < n := by
            rw [← hn, List.length_cons, List.length_cons]
            omega
          refine messageOrCut_pair (ih body.length hlen body hbody rfl) ?_
          rintro left rest rfl
          rw [List.length_append] at hlen
          exact ih rest.length (by omega) rest (isBits_append.1 hbody).2 rfl

theorem demodulateChars_error {text : List Char} (h : IsBits text) {e : WireError}
    (hread : readValue text 0 = .error e) : demodulateChars text = .error e := by
  rw [demodulateChars, firstInvalid?_eq_none h, hread]

theorem demodulateChars_trailing {message : Message} {rest : List Char} (hrest : rest ≠ [])
    (h : IsBits (message.text ++ rest)) :
    demodulateChars (message.text ++ rest) = .error (.trailing message.text.length rest) := by
  obtain ⟨c, tail, rfl⟩ := List.exists_cons_of_ne_nil hrest
  rw [demodulateChars, firstInvalid?_eq_none h, readValue_text, Nat.zero_add]

theorem demodulateChars_invalid {before after : List Char} {c : Char} (hbefore : IsBits before)
    (hc : ¬(c = '0' ∨ c = '1')) :
    demodulateChars (before ++ c :: after) = .error (.invalidBit before.length c) := by
  have hfirst : ∀ pos, firstInvalid? pos (before ++ c :: after) = some (pos + before.length, c) := by
    intro pos
    induction before generalizing pos with
    | nil => simp [firstInvalid?, hc]
    | cons d before ih =>
      obtain ⟨hd, hrest⟩ := isBits_cons.1 hbefore
      rw [List.cons_append, firstInvalid?, if_pos hd, ih hrest, List.length_cons, Nat.add_assoc,
        Nat.add_comm 1]
  rw [demodulateChars, hfirst, Nat.zero_add]

theorem exists_first_invalid {text : List Char} (h : ¬IsBits text) :
    ∃ before c after, text = before ++ c :: after ∧ IsBits before ∧ ¬(c = '0' ∨ c = '1') := by
  induction text with
  | nil => exact absurd isBits_nil h
  | cons c text ih =>
    by_cases hc : c = '0' ∨ c = '1'
    · have htext : ¬IsBits text := fun htext => h (isBits_cons.2 ⟨hc, htext⟩)
      obtain ⟨before, d, after, rfl, hbefore, hd⟩ := ih htext
      exact ⟨c :: before, d, after, rfl, isBits_cons.2 ⟨hc, hbefore⟩, hd⟩
    · exact ⟨[], c, text, rfl, isBits_nil, hc⟩

theorem Complete.not_overfull {text : List Char} (h : Complete text) : ¬Overfull text := by
  rintro ⟨message, rest, hrest, htext⟩
  obtain ⟨first, rfl⟩ := h
  have happ : first.text ++ [] = message.text ++ rest := by rw [List.append_nil, htext]
  exact hrest (Message.text_append_inj happ).2.symm

theorem Complete.not_truncated {text : List Char} (h : Complete text) : ¬Truncated text := by
  rintro ⟨message, more, hmore, htext⟩
  obtain ⟨first, rfl⟩ := h
  have happ : message.text ++ [] = first.text ++ more := by rw [List.append_nil, htext]
  exact hmore (Message.text_append_inj happ).2.symm

theorem Overfull.not_truncated {text : List Char} (h : Overfull text) : ¬Truncated text := by
  rintro ⟨message, more, hmore, htext⟩
  obtain ⟨first, rest, hrest, rfl⟩ := h
  have happ : message.text ++ [] = first.text ++ (rest ++ more) := by
    rw [List.append_nil, htext, List.append_assoc]
  have hnil := (Message.text_append_inj happ).2.symm
  exact hmore (List.append_eq_nil_iff.1 hnil).2

theorem complete_overfull_or_truncated {text : List Char} (h : IsBits text) :
    Complete text ∧ ¬Overfull text ∧ ¬Truncated text ∨
      ¬Complete text ∧ Overfull text ∧ ¬Truncated text ∨
      ¬Complete text ∧ ¬Overfull text ∧ Truncated text := by
  obtain ⟨message, rest, rfl⟩ | htruncated := messageOrCut_of_isBits text h
  · by_cases hrest : rest = []
    · subst hrest
      have hcomplete : Complete (message.text ++ []) := ⟨message, (List.append_nil _).symm⟩
      exact .inl ⟨hcomplete, hcomplete.not_overfull, hcomplete.not_truncated⟩
    · have hoverfull : Overfull (message.text ++ rest) := ⟨message, rest, hrest, rfl⟩
      exact .inr (.inl ⟨fun h => h.not_overfull hoverfull, hoverfull, hoverfull.not_truncated⟩)
  · exact .inr (.inr ⟨fun h => h.not_truncated htruncated, fun h => h.not_truncated htruncated,
      htruncated⟩)

/-- No text is refused for a magnitude that is no binary numeral: other characters are refused
    before. -/
theorem demodulateChars_ne_notBinary (text field : List Char) :
    demodulateChars text ≠ .error (.notBinary field) := by
  by_cases hbits : IsBits text
  · obtain ⟨message, rest, rfl⟩ | ⟨message, more, hmore, htext⟩ := messageOrCut_of_isBits text hbits
    · by_cases hrest : rest = []
      · rw [hrest, List.append_nil, demodulateChars_text]
        exact nofun
      · rw [demodulateChars_trailing hrest hbits]
        exact nofun
    · obtain ⟨start, cut, -, hread⟩ := readInside_cut message hmore htext [] 0
      rw [demodulateChars_error hbits hread, cutError]
      split <;> exact nofun
  · obtain ⟨before, c, after, rfl, hbefore, hc⟩ := exists_first_invalid hbits
    rw [demodulateChars_invalid hbefore hc]
    exact nofun

/-- A text with a character other than `0` and `1` is refused at the first such character. Any
    other text is a message, goes on behind one, or stops inside one: then its only derivation
    gives the value, or the message ends where the error says, or the field starts there that runs
    past the end. -/
theorem demodulate_decides_messages (text : String) :
    (¬IsBits text.toList → ∃ before c after, text.toList = before ++ c :: after ∧ IsBits before ∧
      ¬(c = '0' ∨ c = '1') ∧ demodulate text = .error (.invalidBit before.length c)) ∧
    (IsBits text.toList →
      (Complete text.toList ∧ ¬Overfull text.toList ∧ ¬Truncated text.toList ∨
        ¬Complete text.toList ∧ Overfull text.toList ∧ ¬Truncated text.toList ∨
        ¬Complete text.toList ∧ ¬Overfull text.toList ∧ Truncated text.toList) ∧
      (∀ message : Message, message.text = text.toList →
        demodulate text = .ok message.value ∧
        ∀ other : Message, other.text = text.toList → other = message) ∧
      (∀ (message : Message) (rest : List Char), rest ≠ [] → text.toList = message.text ++ rest →
        demodulate text = .error (.trailing message.text.length rest) ∧
        ∀ (other : Message) (rest' : List Char), text.toList = other.text ++ rest' →
          other.text.length = message.text.length) ∧
      ∀ (message : Message) (more : List Char), more ≠ [] → message.text = text.toList ++ more →
        ∃ pos cut, message.RunsPast text.toList pos cut ∧
          demodulate text = .error (cutError pos cut)) := by
  refine ⟨fun h => ?_, fun h => ⟨complete_overfull_or_truncated h, ?_, ?_, ?_⟩⟩
  · obtain ⟨before, c, after, htext, hbefore, hc⟩ := exists_first_invalid h
    refine ⟨before, c, after, htext, hbefore, hc, ?_⟩
    rw [demodulate, htext, demodulateChars_invalid hbefore hc]
  · intro message hmessage
    refine ⟨?_, fun other hother => Message.text_injective (hother.trans hmessage.symm)⟩
    rw [demodulate, ← hmessage, demodulateChars_text]
  · intro message rest hrest htext
    refine ⟨?_, fun other rest' hother => ?_⟩
    · rw [htext] at h
      rw [demodulate, htext, demodulateChars_trailing hrest h]
    · obtain ⟨rfl, -⟩ := Message.text_append_inj (hother.symm.trans htext)
      rfl
  · intro message more hmore htext
    obtain ⟨start, cut, hpast, hread⟩ := readInside_cut message hmore htext [] 0
    rw [Nat.zero_add] at hread
    exact ⟨start, cut, hpast, demodulateChars_error h hread⟩

/-- The second number of a pair has a width of two groups and one group less a bit. -/
example : demodulateChars ['1', '1', '1', '0', '0', '0', '1', '1', '1', '0', '0', '0', '0'] =
    .error (.badWidth 5) := by
  cbv

end SignalCalculus.Wire
