import Mathlib.Data.List.TakeWhile
import SignalCalculus.Link.Http
import SignalCalculus.Proofs.Link.Form

set_option autoImplicit false

/-!
# Addresses with a key

A key is written behind the whole text of an address. It is the last parameter of the query, and all
other parts stay as they are, exactly if the address has no fragment and no question mark with nothing
behind it. In an address with a number sign the key goes into the fragment; behind a bare question
mark there comes another one, which is then part of the parameter's name.
-/

namespace SignalCalculus.Url

variable {c mark : Char} {text more address : List Char} {parts : Parts}

/-! ### What stands behind a text -/

theorem takeWhile_append_cons {p : Char → Bool} (h : p mark = false ∨ ∃ c ∈ text, p c = false)
    (more : List Char) :
    (text ++ mark :: more).takeWhile p = text.takeWhile p ∧
      (text ++ mark :: more).dropWhile p = text.dropWhile p ++ mark :: more := by
  induction text with
  | nil =>
    have hmark : p mark = false := h.resolve_right (by simp)
    simp [hmark]
  | cons c text ih =>
    cases hc : p c with
    | false => simp [hc]
    | true =>
      have hrest : p mark = false ∨ ∃ c ∈ text, p c = false := by simpa [hc] using h
      obtain ⟨htake, hdrop⟩ := ih hrest
      simp [hc, htake, hdrop]

theorem cut_append (h : c ∈ text) (more : List Char) :
    cut c (text ++ more) = ((cut c text).1, (cut c text).2 ++ more) := by
  obtain ⟨before, after, rfl, hbefore⟩ := List.eq_append_cons_of_mem h
  rw [List.append_assoc, List.cons_append, cut_append_cons hbefore, cut_append_cons hbefore]

theorem mem_dropWhile_iff {p : Char → Bool} (h : p c = false) : c ∈ text.dropWhile p ↔ c ∈ text := by
  have hsplit := List.takeWhile_append_dropWhile (p := p) (l := text)
  constructor
  · exact fun hmem => (List.dropWhile_sublist p).mem hmem
  · intro hmem
    rw [← hsplit, List.mem_append] at hmem
    refine hmem.resolve_left fun htake => ?_
    exact absurd (List.mem_takeWhile_imp htake) (by simp [h])

def IsTrailer (mark : Char) (more : List Char) : Prop :=
  (mark = '?' ∨ mark = '&') ∧ ∀ c ∈ [':', '#', '\t', '\r', '\n'], c ∉ more

theorem IsTrailer.notMem (h : IsTrailer mark more) {c : Char} (hc : c ∈ [':', '#', '\t', '\r', '\n']) :
    c ∉ mark :: more := by
  rw [List.mem_cons]
  rintro (rfl | hmem)
  · obtain rfl | rfl := h.1 <;> exact absurd hc (by decide)
  · exact h.2 c hc hmem

theorem isKept_of_ne (h : ∀ d ∈ ['\t', '\r', '\n'], c ≠ d) :
    (c != '\t' && c != '\r' && c != '\n') = true := by
  simpa [and_assoc] using h

theorem cleaned_append (h : IsTrailer mark more) (url : List Char) :
    cleaned (url ++ mark :: more) = cleaned url ++ mark :: more := by
  have hmark : decide (mark.toNat ≤ 0x20) = false := by
    obtain rfl | rfl := h.1 <;> rfl
  have hkept : (mark :: more).filter (fun c => c != '\t' && c != '\r' && c != '\n') = mark :: more := by
    refine List.filter_eq_self.2 fun c hc => isKept_of_ne ?_
    rintro c hleft rfl
    exact h.notMem (List.mem_cons_of_mem _ (List.mem_cons_of_mem _ hleft)) hc
  rw [cleaned, (takeWhile_append_cons (.inl hmark) more).2, List.filter_append, hkept]
  rfl

theorem splitScheme_append (h : ':' ∉ mark :: more) (url : List Char) :
    splitScheme (url ++ mark :: more) = ((splitScheme url).1, (splitScheme url).2 ++ mark :: more) := by
  by_cases hcolon : ':' ∈ url
  · have hcontains : (url ++ mark :: more).contains ':' = url.contains ':' := by simp [hcolon]
    rw [splitScheme, splitScheme, hcontains, cut_append hcolon]
    simp only
    split <;> rfl
  · have hnone : url.contains ':' = false := by simpa using hcolon
    have hstill : (url ++ mark :: more).contains ':' = false := by
      simpa [hcolon] using h
    simp only [splitScheme, hnone, hstill, Bool.false_and, Bool.false_eq_true, if_false]

theorem mem_splitScheme_iff (hscheme : isSchemeChar c = false) (hcolon : c ≠ ':') (url : List Char) :
    c ∈ (splitScheme url).2 ↔ c ∈ url := by
  unfold splitScheme
  split
  rename_i scheme rest hcut
  split
  · rename_i hfound
    obtain ⟨hmem, -, hall⟩ : ':' ∈ url ∧ _ ∧ _ := by simpa [isScheme] using hfound
    obtain ⟨before, after, rfl, hbefore⟩ := List.eq_append_cons_of_mem hmem
    cases (cut_append_cons hbefore after).symm.trans hcut
    have hnot : c ∉ scheme := fun hc => absurd (hall c hc) (by simp [hscheme])
    simp [hnot, hcolon]
  · rfl

theorem splitHost_of_ne (h : ∀ rest, text ≠ '/' :: '/' :: rest) : splitHost text = ([], text) := by
  unfold splitHost
  split
  · exact absurd rfl (h _)
  · rfl

theorem splitHost_append (hslash : mark ≠ '/') (h : mark = '?' ∨ '?' ∈ text) :
    splitHost (text ++ mark :: more) = ((splitHost text).1, (splitHost text).2 ++ mark :: more) := by
  by_cases hhost : ∃ rest, text = '/' :: '/' :: rest
  · obtain ⟨rest, rfl⟩ := hhost
    have hends : (!endsHost mark) = false ∨ ∃ c ∈ rest, (!endsHost c) = false := by
      obtain rfl | hmem := h
      · exact .inl rfl
      · exact .inr ⟨'?', by simpa using hmem, rfl⟩
    obtain ⟨htake, hdrop⟩ := takeWhile_append_cons (p := fun c => !endsHost c) hends more
    exact Prod.ext htake hdrop
  · have hne : ∀ rest, text ≠ '/' :: '/' :: rest := fun rest htext => hhost ⟨rest, htext⟩
    have hne' : ∀ rest, text ++ mark :: more ≠ '/' :: '/' :: rest := by
      intro rest htext
      match text with
      | [] => exact hslash (List.cons.inj htext).1
      | [c] => exact hslash (List.cons.inj (List.cons.inj htext).2).1
      | c :: d :: text =>
        obtain ⟨rfl, hd⟩ := List.cons.inj htext
        obtain ⟨rfl, -⟩ := List.cons.inj hd
        exact hne text rfl
    rw [splitHost_of_ne hne, splitHost_of_ne hne']

theorem mem_splitHost_iff (hends : endsHost c = true) (hslash : c ≠ '/') :
    c ∈ (splitHost text).2 ↔ c ∈ text := by
  unfold splitHost
  split
  · rw [mem_dropWhile_iff (by simp [hends])]
    simp [hslash]
  · rfl

theorem mem_cleaned_iff (hlow : 0x20 < c.toNat) : c ∈ cleaned text ↔ c ∈ text := by
  have hdrop : decide (c.toNat ≤ 0x20) = false := by simpa using hlow
  have hkept : (c != '\t' && c != '\r' && c != '\n') = true := by
    have hblank : ∀ d ∈ ['\t', '\r', '\n'], d.toNat ≤ 0x20 := by simp
    refine isKept_of_ne ?_
    rintro c hleft rfl
    exact absurd hlow (Nat.not_lt.2 (hblank c hleft))
  rw [cleaned, List.mem_filter, mem_dropWhile_iff hdrop]
  simp [hkept]

/-! ### The parts of a longer address -/

namespace Parts

variable {scheme host rest : List Char}

theorem query_ofRest_eq_nil (scheme host : List Char) (h : '?' ∉ rest) :
    (ofRest scheme host rest).query = [] := by
  have hnot : '?' ∉ (cut '#' rest).1 := fun hmem => h ((List.takeWhile_sublist _).mem hmem)
  simp only [ofRest, cut_of_notMem hnot]

theorem ofRest_append_of_fragment (h : '#' ∈ rest) (more : List Char) :
    ofRest scheme host (rest ++ more) =
      { ofRest scheme host rest with fragment := (ofRest scheme host rest).fragment ++ more } := by
  simp only [ofRest, cut_append h]

theorem ofRest_append_of_query (hnumber : '#' ∉ rest) (hquestion : '?' ∈ rest) (h : '#' ∉ more) :
    ofRest scheme host (rest ++ more) =
      { ofRest scheme host rest with query := (ofRest scheme host rest).query ++ more } := by
  have hlong : '#' ∉ rest ++ more := by simp [hnumber, h]
  simp only [ofRest, cut_of_notMem hlong, cut_of_notMem hnumber, cut_append hquestion]

theorem ofRest_append_mark (hnumber : '#' ∉ rest) (hquestion : '?' ∉ rest) (h : '#' ∉ more) :
    ofRest scheme host (rest ++ '?' :: more) = { ofRest scheme host rest with query := more } := by
  have hlong : '#' ∉ rest ++ '?' :: more := by simp [hnumber, h]
  simp only [ofRest, cut_of_notMem hlong, cut_of_notMem hnumber, cut_append_cons hquestion,
    cut_of_notMem hquestion]

end Parts

def behindHost (address : List Char) : List Char := (splitHost (splitScheme (cleaned address)).2).2

theorem split_eq (address : List Char) :
    split address = (checkHost (splitHost (splitScheme (cleaned address)).2).1).map fun () =>
      Parts.ofRest (splitScheme (cleaned address)).1 (splitHost (splitScheme (cleaned address)).2).1
        (behindHost address) :=
  rfl

theorem mem_behindHost_iff (hc : c = '?' ∨ c = '#') : c ∈ behindHost address ↔ c ∈ address := by
  obtain rfl | rfl := hc <;>
    rw [behindHost, mem_splitHost_iff (by decide) (by decide),
      mem_splitScheme_iff (by decide) (by decide), mem_cleaned_iff (by decide)]

/-- What is written behind an accepted address is written behind the text that path, query and
    fragment are cut from. -/
theorem split_append (h : split address = .ok parts) : ∃ scheme host : List Char,
    parts = Parts.ofRest scheme host (behindHost address) ∧
    ∀ mark more, IsTrailer mark more → (mark = '?' ∨ '?' ∈ address) →
      split (address ++ mark :: more) =
        .ok (Parts.ofRest scheme host (behindHost address ++ mark :: more)) := by
  rw [split_eq] at h
  cases hhost : checkHost (splitHost (splitScheme (cleaned address)).2).1 with
  | error e =>
    rw [hhost] at h
    cases h
  | ok =>
    rw [hhost] at h
    cases h
    refine ⟨_, _, rfl, fun mark more htrailer hquestion => ?_⟩
    have hslash : mark ≠ '/' := by
      obtain rfl | rfl := htrailer.1 <;> decide
    have hinside : mark = '?' ∨ '?' ∈ (splitScheme (cleaned address)).2 := by
      rwa [mem_splitScheme_iff (by decide) (by decide), mem_cleaned_iff (by decide)]
    rw [split_eq, behindHost, cleaned_append htrailer,
      splitScheme_append (htrailer.notMem (by decide)), splitHost_append hslash hinside, hhost]
    rfl

/-! ### Keys -/

/-- Between two addresses nothing is different but one more parameter, which comes last. -/
structure KeyAdded (key : List Char) (before after : Parts) : Prop where
  scheme_eq : after.scheme = before.scheme
  host_eq : after.host = before.host
  path_eq : after.path = before.path
  fragment_eq : after.fragment = before.fragment
  fields_eq : ∀ keepBlank, Form.fields keepBlank after.query =
    Form.fields keepBlank before.query ++ [("apiKey".toList, key)]

def parameter (key : List Char) : List Char := "apiKey=".toList ++ key.flatMap formChar

theorem isTrailer_parameter (hmark : mark = '?' ∨ mark = '&') (key : List Char) :
    IsTrailer mark (parameter key) := by
  refine ⟨hmark, fun c hc hmem => ?_⟩
  have hname : ∀ d ∈ [':', '#', '\t', '\r', '\n'], d ∉ "apiKey=".toList := by simp
  have hkey : ∀ d ∈ [':', '#', '\t', '\r', '\n'], isPlain d = false ∧ d ≠ '+' ∧ d ≠ '%' := by
    simp [isPlain]
  obtain ⟨hplain, hplus, hpercent⟩ := hkey c hc
  obtain h | h := List.mem_append.1 hmem
  · exact hname c hc h
  · exact Form.notMem_flatMap_formChar hplain hplus hpercent key h

theorem withKey_eq {key : List Char} (hkey : key ≠ []) (h : split address = .ok parts) :
    withKey address (some key) =
      .ok (address ++ (if parts.query.isEmpty then '?' else '&') :: parameter key) := by
  obtain ⟨first, rest, rfl⟩ := List.exists_cons_of_ne_nil hkey
  have hquery : query address = .ok parts.query := by rw [query, h]; rfl
  simp only [withKey, hquery]
  rfl

theorem fields_parameter {key : List Char} (hkey : key ≠ []) (keepBlank : Bool) :
    Form.fields keepBlank (parameter key) = [("apiKey".toList, key)] :=
  Form.fields_pair keepBlank "apiKey".toList (by simp) hkey

theorem fields_marked_parameter {key : List Char} (hkey : key ≠ []) (keepBlank : Bool) :
    Form.fields keepBlank ('?' :: parameter key) = [("?apiKey".toList, key)] :=
  Form.fields_pair keepBlank "?apiKey".toList (by simp) hkey

/-- Behind a bare question mark the second one becomes part of the parameter's name. -/
theorem not_keyAdded_of_marked {key : List Char} (hkey : key ≠ []) {before after : Parts}
    (hbefore : before.query = []) (hafter : after.query = '?' :: parameter key) :
    ¬KeyAdded key before after := by
  intro h
  have hfields := h.fields_eq true
  rw [hbefore, hafter, fields_marked_parameter hkey, Form.fields_nil, List.nil_append,
    List.cons.injEq, Prod.mk.injEq] at hfields
  exact absurd hfields.1.1 (by decide)

theorem keyAdded_ofRest_iff {key scheme host rest : List Char} (hkey : key ≠ [])
    (hmark : mark = if (Parts.ofRest scheme host rest).query.isEmpty then '?' else '&') :
    KeyAdded key (Parts.ofRest scheme host rest)
        (Parts.ofRest scheme host (rest ++ mark :: parameter key)) ↔
      '#' ∉ rest ∧ ((Parts.ofRest scheme host rest).query = [] → '?' ∉ rest) := by
  have hkind : mark = '?' ∨ mark = '&' := by split at hmark <;> simp [hmark]
  have htrailer := isTrailer_parameter hkind key
  have hnone : '#' ∉ mark :: parameter key := htrailer.notMem (by decide)
  by_cases hnumber : '#' ∈ rest
  · rw [Parts.ofRest_append_of_fragment hnumber]
    refine iff_of_false (fun h => ?_) fun h => h.1 hnumber
    have hfragment := h.fragment_eq
    simp at hfragment
  · by_cases hquestion : '?' ∈ rest
    · rw [Parts.ofRest_append_of_query hnumber hquestion hnone]
      by_cases hquery : (Parts.ofRest scheme host rest).query = []
      · obtain rfl : mark = '?' := by simpa [hquery] using hmark
        refine iff_of_false (not_keyAdded_of_marked hkey hquery ?_) fun h => h.2 hquery hquestion
        rw [hquery, List.nil_append]
      · obtain rfl : mark = '&' := by simpa [hquery] using hmark
        refine iff_of_true ⟨rfl, rfl, rfl, rfl, fun keepBlank => ?_⟩
          ⟨hnumber, fun h => absurd h hquery⟩
        rw [Form.fields_append, fields_parameter hkey]
    · have hquery := Parts.query_ofRest_eq_nil scheme host hquestion
      obtain rfl : mark = '?' := by simpa [hquery] using hmark
      rw [Parts.ofRest_append_mark hnumber hquestion (List.not_mem_of_not_mem_cons hnone)]
      refine iff_of_true ⟨rfl, rfl, rfl, rfl, fun keepBlank => ?_⟩ ⟨hnumber, fun _ => hquestion⟩
      rw [hquery, fields_parameter hkey]
      rfl

theorem split_withKey {key : List Char} (hkey : key ≠ []) (h : split address = .ok parts) :
    ∃ url later, withKey address (some key) = .ok url ∧ split url = .ok later ∧
      (KeyAdded key parts later ↔ '#' ∉ address ∧ (parts.query = [] → '?' ∉ address)) := by
  obtain ⟨scheme, host, rfl, hlonger⟩ := split_append h
  have hquestion : '?' ∈ behindHost address ↔ '?' ∈ address := mem_behindHost_iff (.inl rfl)
  have hnumber : '#' ∈ behindHost address ↔ '#' ∈ address := mem_behindHost_iff (.inr rfl)
  refine ⟨_, _, withKey_eq hkey h, hlonger _ _ (isTrailer_parameter ?_ key) ?_, ?_⟩
  · split <;> simp
  · rw [← hquestion]
    by_cases hmark : '?' ∈ behindHost address
    · exact .inr hmark
    · rw [Parts.query_ofRest_eq_nil scheme host hmark]
      exact .inl rfl
  · rw [keyAdded_ofRest_iff hkey rfl, hnumber, hquestion]

end SignalCalculus.Url

namespace SignalCalculus.Http

open Url

/-- An endpoint that is made for an accepted address and a key sends the key as the last parameter,
    and changes nothing else of the address, exactly if the address has no number sign, and no question
    mark unless there is a query behind it. -/
theorem Endpoint.key_is_parameter_iff (url fallbackUrl fallbackKey : Option (List Char))
    (timeout : Option Float) (key : List Char) {address : List Char} {parts : Parts} (hkey : key ≠ [])
    (haddress : (url.filter fun cs => !cs.isEmpty).or (fallbackUrl.filter fun cs => !cs.isEmpty) =
      some address) (hparts : split address = .ok parts) :
    ∃ endpoint later, Endpoint.make url fallbackUrl (some key) fallbackKey timeout = .ok endpoint ∧
      split endpoint.url = .ok later ∧
      (KeyAdded key parts later ↔ '#' ∉ address ∧ (parts.query = [] → '?' ∉ address)) := by
  obtain ⟨longer, later, hlonger, hlater, hadded⟩ := split_withKey hkey hparts
  refine ⟨⟨longer, timeout.getD defaultTimeout⟩, later, ?_, hlater, hadded⟩
  simp only [Endpoint.make, haddress, Option.some_or, hlonger]

/-- A key with a space, a reserved character and one beyond ASCII, behind a query with an empty value. -/
theorem Endpoint.spaced_key_is_parameter :
    ∃ endpoint later, Endpoint.make none (some "http://h/p?x=".toList) (some "a &é".toList) none none =
        .ok endpoint ∧
      split endpoint.url = .ok later ∧
      KeyAdded "a &é".toList
        ⟨"http".toList, "h".toList, "/p".toList, "x=".toList, []⟩ later := by
  obtain ⟨endpoint, later, hendpoint, hlater, hadded⟩ :=
    Endpoint.key_is_parameter_iff none (some "http://h/p?x=".toList) none none "a &é".toList
      (by decide) rfl rfl
  exact ⟨endpoint, later, hendpoint, hlater, hadded.2 ⟨by decide, fun h => absurd h (by decide)⟩⟩

/-- In the first address the key goes into the fragment, which is not sent; in the second one the
    parameter's name is `?apiKey`. -/
theorem Endpoint.key_is_no_parameter :
    (∃ endpoint before later, Endpoint.make (some "http://h/p#f".toList) none (some "k".toList) none none =
        .ok endpoint ∧
      split "http://h/p#f".toList = .ok before ∧ split endpoint.url = .ok later ∧
      later.query = [] ∧ later.fragment = "f?apiKey=k".toList ∧ ¬KeyAdded "k".toList before later) ∧
    ∃ endpoint before later, Endpoint.make (some "http://h/p?".toList) none (some "k".toList) none none =
        .ok endpoint ∧
      split "http://h/p?".toList = .ok before ∧ split endpoint.url = .ok later ∧
      later.query = "?apiKey=k".toList ∧ ¬KeyAdded "k".toList before later := by
  refine ⟨⟨_, _, _, rfl, rfl, rfl, rfl, rfl, fun h => ?_⟩,
    ⟨_, _, _, rfl, rfl, rfl, rfl, not_keyAdded_of_marked (by decide) rfl rfl⟩⟩
  exact absurd h.fragment_eq (by decide)

end SignalCalculus.Http
