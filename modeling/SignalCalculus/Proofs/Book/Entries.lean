import Mathlib.Data.List.Basic
import Mathlib.Data.List.Induction
import SignalCalculus.Table

set_option autoImplicit false

namespace SignalCalculus

theorem getLast?_filter_eq_some_iff {α : Type} {p : α → Bool} {items : List α} {last : α} :
    (items.filter p).getLast? = some last ↔
      p last ∧ ∃ before after, items = before ++ last :: after ∧ ∀ item ∈ after, ¬p item := by
  rw [List.getLast?_filter, List.find?_eq_some_iff_append]
  refine and_congr_right fun _ => ⟨?_, ?_⟩
  · rintro ⟨after, before, hitems, hafter⟩
    refine ⟨before.reverse, after.reverse, ?_, ?_⟩
    · rw [← List.reverse_reverse items, hitems]
      simp
    · intro item hitem
      simpa using hafter item (List.mem_reverse.1 hitem)
  · rintro ⟨before, after, rfl, hafter⟩
    refine ⟨after.reverse, before.reverse, by simp, ?_⟩
    intro item hitem
    simpa using hafter item (List.mem_reverse.1 hitem)

theorem eraseDups_concat {α : Type} [DecidableEq α] [BEq α] [LawfulBEq α] (items : List α) (item : α) :
    (items ++ [item]).eraseDups =
      if item ∈ items then items.eraseDups else items.eraseDups ++ [item] := by
  rw [List.eraseDups_append]
  split
  · simp [*, List.removeAll]
  · simp [*, List.removeAll, List.eraseDups_cons]

namespace Table

variable {α β γ : Type} [DecidableEq α] {key : α} {value : β} {table : Table α β}

theorem put_of_not_mem (h : key ∉ keys table) : put key value table = table ++ [(key, value)] := by
  induction table with
  | nil => rfl
  | cons entry rest ih =>
    have hne : entry.1 ≠ key := fun hsame => h (hsame ▸ List.mem_cons_self)
    have hrest : key ∉ keys rest := fun hmem => h (List.mem_cons_of_mem _ hmem)
    rw [put, if_neg hne, ih hrest]
    rfl

theorem nodup_keys_put (h : (keys table).Nodup) : (keys (put key value table)).Nodup := by
  rw [keys_put]
  split
  · exact h
  · rename_i hnew
    exact List.nodup_append.2 ⟨h, by simp, by grind⟩

theorem mem_iff_get? (h : (keys table).Nodup) :
    (key, value) ∈ table ↔ get? key table = some value := by
  induction table with
  | nil => simp [get?]
  | cons entry rest ih =>
    obtain ⟨k, v⟩ := entry
    obtain ⟨hk, hrest⟩ := List.nodup_cons.1 h
    rw [get?, List.mem_cons, ih hrest]
    split
    · rename_i hsame
      subst hsame
      have hnone : ¬get? k rest = some value := by
        rw [← ih hrest]
        exact fun hmem => hk (List.mem_map.2 ⟨_, hmem, rfl⟩)
      simp [hnone, eq_comm]
    · rename_i hother
      simp [Ne.symm hother]

/-- The table that entries make which come one after the other. -/
def ofEntries (entries : List (α × β)) : Table α β :=
  entries.foldl (fun table entry => put entry.1 entry.2 table) []

theorem ofEntries_concat (entries : List (α × β)) (entry : α × β) :
    ofEntries (entries ++ [entry]) = put entry.1 entry.2 (ofEntries entries) := by
  simp [ofEntries]

theorem nodup_keys_ofEntries (entries : List (α × β)) : (keys (ofEntries entries)).Nodup := by
  induction entries using List.reverseRecOn with
  | nil => exact List.nodup_nil
  | append_singleton entries entry ih =>
    rw [ofEntries_concat]
    exact nodup_keys_put ih

theorem keys_ofEntries [BEq α] [LawfulBEq α] (entries : List (α × β)) :
    keys (ofEntries entries) = (entries.map (·.1)).eraseDups := by
  induction entries using List.reverseRecOn with
  | nil => rfl
  | append_singleton entries entry ih =>
    rw [ofEntries_concat, keys_put, ih, List.map_append, List.map_singleton, eraseDups_concat]
    simp only [List.mem_eraseDups]

/-- Entries that are made by some of a list's items: what a key has is said by the last item that
    makes an entry for it. -/
theorem get?_ofEntries_filterMap (made? : γ → Option (α × β)) (items : List γ) (key : α) :
    get? key (ofEntries (items.filterMap made?)) =
      ((items.filter fun item => (made? item).map (·.1) = some key).getLast?).bind
        fun item => (made? item).map (·.2) := by
  induction items using List.reverseRecOn with
  | nil => rfl
  | append_singleton items item ih =>
    rw [List.filterMap_append, List.filter_append]
    -- The last item decides, unless it makes no entry or one for another key.
    cases hitem : made? item with
    | none => simpa [hitem] using ih
    | some entry =>
      rw [List.filterMap_cons_some hitem, List.filterMap_nil, ofEntries_concat, get?_put, ih]
      by_cases hkey : entry.1 = key <;> simp [hitem, hkey]

theorem get?_ofEntries (entries : List (α × β)) (key : α) :
    get? key (ofEntries entries) = ((entries.filter (·.1 = key)).getLast?).map (·.2) := by
  have h := get?_ofEntries_filterMap some entries key
  rw [List.filterMap_some] at h
  simpa [Option.map_eq_bind, Function.comp_def] using h

theorem get?_ofEntries_eq_some_iff_getLast? {entries : List (α × β)} :
    get? key (ofEntries entries) = some value ↔
      (entries.filter (·.1 = key)).getLast? = some (key, value) := by
  rw [get?_ofEntries, Option.map_eq_some_iff]
  constructor
  · rintro ⟨⟨k, v⟩, hlast, rfl⟩
    obtain ⟨hkey, -⟩ := getLast?_filter_eq_some_iff.1 hlast
    obtain rfl : k = key := by simpa using hkey
    exact hlast
  · exact fun hlast => ⟨_, hlast, rfl⟩

theorem get?_ofEntries_append (first second : List (α × β)) (key : α) :
    get? key (ofEntries (first ++ second)) =
      (get? key (ofEntries second)).or (get? key (ofEntries first)) := by
  rw [get?_ofEntries, get?_ofEntries, get?_ofEntries, List.filter_append, List.getLast?_append,
    Option.map_or]

theorem get?_ofEntries_eq_none_iff {entries : List (α × β)} :
    get? key (ofEntries entries) = none ↔ ∀ entry ∈ entries, entry.1 ≠ key := by
  simp [get?_ofEntries]

theorem get?_ofEntries_eq_some_iff {entries : List (α × β)} :
    get? key (ofEntries entries) = some value ↔
      ∃ before after, entries = before ++ (key, value) :: after ∧
        ∀ entry ∈ after, entry.1 ≠ key := by
  rw [get?_ofEntries_eq_some_iff_getLast?, getLast?_filter_eq_some_iff]
  simp

/-- The values of the keys, read off one after the other, are the table. -/
theorem filterMap_keys (h : (keys table).Nodup) :
    (keys table).filterMap (fun key => (get? key table).map fun value => (key, value)) = table := by
  have hread : ∀ entry ∈ table, (get? entry.1 table).map (fun value => (entry.1, value)) =
      some entry := by
    intro entry hmem
    rw [(mem_iff_get? h).1 hmem, Option.map_some]
  rw [keys, List.filterMap_map]
  exact (List.filterMap_congr hread).trans List.filterMap_some

theorem ofEntries_self (h : (keys table).Nodup) : ofEntries table = table := by
  induction table using List.reverseRecOn with
  | nil => rfl
  | append_singleton table entry ih =>
    rw [keys, List.map_append] at h
    obtain ⟨htable, -, hnew⟩ := List.nodup_append.1 h
    rw [ofEntries_concat, ih htable, put_of_not_mem]
    intro hmem
    exact hnew _ hmem _ (List.mem_singleton_self _) rfl

end Table

end SignalCalculus
