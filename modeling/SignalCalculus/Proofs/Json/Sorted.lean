import Mathlib.Data.List.Permutation
import SignalCalculus.Json.Basic
import SignalCalculus.Proofs.Book.Entries

set_option autoImplicit false

namespace SignalCalculus.Json

@[elab_as_elim]
theorem induction {motive : Json → Prop} (null : motive .null) (bool : ∀ b, motive (.bool b))
    (int : ∀ n, motive (.int n)) (float : ∀ x, motive (.float x)) (str : ∀ text, motive (.str text))
    (arr : ∀ items, (∀ item ∈ items, motive item) → motive (.arr items))
    (obj : ∀ fields, (∀ field ∈ fields, motive field.2) → motive (.obj fields)) (json : Json) :
    motive json :=
  @Json.rec motive (fun items => ∀ item ∈ items, motive item)
    (fun fields => ∀ field ∈ fields, motive field.2) (fun field => motive field.2)
    null bool int float str arr obj nofun
    (fun _ _ hitem hitems => List.forall_mem_cons.2 ⟨hitem, hitems⟩) nofun
    (fun _ _ hfield hfields => List.forall_mem_cons.2 ⟨hfield, hfields⟩) (fun _ _ h => h) json

theorem sortedItems_eq (items : List Json) : sortedItems items = items.map sorted := by
  induction items with
  | nil => rfl
  | cons item items ih => rw [sortedItems, ih, List.map_cons]

def sortedField (field : String × Json) : String × Json := (field.1, field.2.sorted)

theorem sortedFields_eq (fields : List (String × Json)) :
    sortedFields fields = fields.map sortedField := by
  induction fields with
  | nil => rfl
  | cons field fields ih =>
    rw [sortedFields, ih, List.map_cons]
    rfl

def inOrder (a b : String × Json) : Bool := !(b.1 < a.1)

theorem inOrder_iff {a b : String × Json} : inOrder a b = true ↔ a.1 ≤ b.1 := by
  rw [inOrder, Bool.not_eq_true', decide_eq_false_iff_not, String.not_lt]

theorem sorted_arr (items : List Json) : (arr items).sorted = .arr (items.map sorted) := by
  rw [sorted, sortedItems_eq]

theorem sorted_obj (fields : List (String × Json)) :
    (obj fields).sorted = .obj ((fields.map sortedField).mergeSort inOrder) := by
  rw [sorted, sortedFields_eq]
  rfl

theorem sorted_obj_singleton (name : String) (value : Json) :
    (obj [(name, value)]).sorted = .obj [(name, value.sorted)] := by
  simp [sorted_obj, sortedField]

theorem pairwise_inOrder (fields : List (String × Json)) :
    (fields.mergeSort inOrder).Pairwise (inOrder · ·) := by
  refine List.pairwise_mergeSort (fun a b c hab hbc => ?_) (fun a b => ?_) fields
  · rw [inOrder_iff] at *
    exact String.le_trans hab hbc
  · rw [Bool.or_eq_true, inOrder_iff, inOrder_iff]
    exact String.le_total a.1 b.1

theorem sorted_sorted (json : Json) : json.sorted.sorted = json.sorted := by
  induction json using Json.induction with
  | arr items ih =>
    simp only [sorted_arr, List.map_map, arr.injEq]
    exact List.map_congr_left ih
  | obj fields ih =>
    have hsame : ((fields.map sortedField).mergeSort inOrder).map sortedField =
        (fields.map sortedField).mergeSort inOrder := by
      refine (List.map_congr_left fun field hfield => ?_).trans (List.map_id _)
      obtain ⟨before, hbefore, rfl⟩ := List.mem_map.1 (List.mem_mergeSort.1 hfield)
      simp [sortedField, ih before hbefore]
    rw [sorted_obj, sorted_obj, hsame, List.mergeSort_of_pairwise (pairwise_inOrder _)]
  | _ => rfl

theorem sorted_eq_null_iff {json : Json} : json.sorted = .null ↔ json = .null := by
  cases json with
  | arr items => simp [sorted_arr]
  | obj fields => simp [sorted_obj]
  | _ => rfl

section Everywhere

variable {p : Json → Prop}

mutual

/-- The property holds of some data and of everything in them. -/
def Everywhere (p : Json → Prop) : Json → Prop
  | .arr items => p (.arr items) ∧ EveryItem p items
  | .obj fields => p (.obj fields) ∧ EveryField p fields
  | json => p json

def EveryItem (p : Json → Prop) : List Json → Prop
  | [] => True
  | item :: items => item.Everywhere p ∧ EveryItem p items

def EveryField (p : Json → Prop) : List (String × Json) → Prop
  | [] => True
  | (_, value) :: fields => value.Everywhere p ∧ EveryField p fields

end

theorem everyItem_iff {items : List Json} :
    EveryItem p items ↔ ∀ item ∈ items, item.Everywhere p := by
  induction items with
  | nil => exact iff_of_true trivial nofun
  | cons item items ih => rw [EveryItem, ih, List.forall_mem_cons]

theorem everyField_iff {fields : List (String × Json)} :
    EveryField p fields ↔ ∀ field ∈ fields, field.2.Everywhere p := by
  induction fields with
  | nil => exact iff_of_true trivial nofun
  | cons field fields ih => rw [EveryField, ih, List.forall_mem_cons]

theorem everywhere_arr {items : List Json} :
    (arr items).Everywhere p ↔ p (.arr items) ∧ ∀ item ∈ items, item.Everywhere p := by
  rw [Everywhere, everyItem_iff]

theorem everywhere_obj {fields : List (String × Json)} :
    (obj fields).Everywhere p ↔ p (.obj fields) ∧ ∀ field ∈ fields, field.2.Everywhere p := by
  rw [Everywhere, everyField_iff]

end Everywhere

def FloatFree : Json → Prop := Everywhere fun
  | .float _ => False
  | _ => True

/-- No object in the data has two fields of one name. -/
def Distinct : Json → Prop := Everywhere fun
  | .obj fields => (fields.map Prod.fst).Nodup
  | _ => True

theorem distinct_arr {items : List Json} : (arr items).Distinct ↔ ∀ item ∈ items, item.Distinct := by
  simp [Distinct, everywhere_arr]

theorem distinct_obj {fields : List (String × Json)} :
    (obj fields).Distinct ↔ (fields.map Prod.fst).Nodup ∧ ∀ field ∈ fields, field.2.Distinct := by
  simp [Distinct, everywhere_obj]

theorem Distinct.name_once {before after : List (String × Json)} {name : String} {value : Json}
    (h : (obj (before ++ (name, value) :: after)).Distinct) :
    name ∉ before.map Prod.fst ∧ name ∉ after.map Prod.fst := by
  obtain ⟨hnames, -⟩ := distinct_obj.1 h
  rw [List.map_append, List.map_cons, List.nodup_middle, List.nodup_cons, List.mem_append,
    not_or] at hnames
  exact hnames.1

theorem floatFree_arr {items : List Json} :
    (arr items).FloatFree ↔ ∀ item ∈ items, item.FloatFree := by
  simp [FloatFree, everywhere_arr]

theorem floatFree_obj {fields : List (String × Json)} :
    (obj fields).FloatFree ↔ ∀ field ∈ fields, field.2.FloatFree := by
  simp [FloatFree, everywhere_obj]

theorem FloatFree.sorted {json : Json} (h : json.FloatFree) : json.sorted.FloatFree := by
  induction json using Json.induction with
  | arr items ih =>
    rw [floatFree_arr] at h
    rw [sorted_arr, floatFree_arr]
    intro item hitem
    obtain ⟨before, hbefore, rfl⟩ := List.mem_map.1 hitem
    exact ih before hbefore (h before hbefore)
  | obj fields ih =>
    rw [floatFree_obj] at h
    rw [sorted_obj, floatFree_obj]
    intro field hfield
    obtain ⟨before, hbefore, rfl⟩ := List.mem_map.1 (List.mem_mergeSort.1 hfield)
    exact ih before hbefore (h before hbefore)
  | _ => exact h

theorem field?_eq_get? (name : String) (fields : List (String × Json)) :
    field? name fields = Table.get? name fields := by
  induction fields with
  | nil => rfl
  | cons field fields ih => rw [field?, Table.get?, ih]

theorem field?_perm {fields fields' : List (String × Json)} (hnames : (fields.map Prod.fst).Nodup)
    (h : fields.Perm fields') (name : String) : field? name fields = field? name fields' := by
  have hnames' : (fields'.map Prod.fst).Nodup := (h.map Prod.fst).nodup_iff.1 hnames
  refine Option.ext fun value => ?_
  rw [field?_eq_get?, field?_eq_get?, ← Table.mem_iff_get? hnames, ← Table.mem_iff_get? hnames']
  exact h.mem_iff

theorem field?_append_cons_self {before : List (String × Json)} {name : String}
    (h : name ∉ before.map Prod.fst) (value : Json) (after : List (String × Json)) :
    field? name (before ++ (name, value) :: after) = some value := by
  induction before with
  | nil => simp [field?]
  | cons field before ih =>
    rw [List.map_cons, List.mem_cons, not_or] at h
    rw [List.cons_append, field?, if_neg (Ne.symm h.1), ih h.2]

theorem field?_append_cons_of_ne {name key : String} (h : name ≠ key) (value : Json)
    (before after : List (String × Json)) :
    field? name (before ++ (key, value) :: after) = field? name (before ++ after) := by
  induction before with
  | nil => simp [field?, h.symm]
  | cons field before ih => simp [field?, ih]

theorem field?_eq_none {fields : List (String × Json)} {name : String}
    (h : name ∉ fields.map Prod.fst) : field? name fields = none := by
  induction fields with
  | nil => rfl
  | cons field fields ih =>
    rw [List.map_cons, List.mem_cons, not_or] at h
    rw [field?, if_neg (Ne.symm h.1), ih h.2]

def isNested : Json → Bool
  | .arr _ | .obj _ => true
  | _ => false

/-- The fields of one object are put in another order, at any depth. -/
inductive Reorders : Json → Json → Prop where
  | fields {fields fields' : List (String × Json)} (h : fields.Perm fields') :
      Reorders (.obj fields) (.obj fields')
  | item {a b : Json} (before after : List Json) (h : Reorders a b) :
      Reorders (.arr (before ++ a :: after)) (.arr (before ++ b :: after))
  | field {a b : Json} (before after : List (String × Json)) (name : String) (h : Reorders a b) :
      Reorders (.obj (before ++ (name, a) :: after)) (.obj (before ++ (name, b) :: after))

namespace Reorders

variable {a b : Json}

theorem symm (h : Reorders a b) : Reorders b a := by
  induction h with
  | fields h => exact .fields h.symm
  | item before after h ih => exact .item before after ih
  | field before after name h ih => exact .field before after name ih

theorem distinct (h : Reorders a b) (ha : a.Distinct) : b.Distinct := by
  induction h with
  | fields h =>
    rw [distinct_obj] at ha ⊢
    exact ⟨(h.map Prod.fst).nodup_iff.1 ha.1, fun field hfield => ha.2 field (h.mem_iff.2 hfield)⟩
  | item before after h ih =>
    rw [distinct_arr] at ha ⊢
    simp only [List.forall_mem_append, List.forall_mem_cons] at ha ⊢
    exact ⟨ha.1, ih ha.2.1, ha.2.2⟩
  | field before after name h ih =>
    rw [distinct_obj] at ha ⊢
    simp only [List.forall_mem_append, List.forall_mem_cons] at ha ⊢
    exact ⟨by simpa using ha.1, ha.2.1, ih ha.2.2.1, ha.2.2.2⟩

theorem isNested (h : Reorders a b) : a.isNested = true := by
  cases h <;> rfl

theorem sorted_eq (h : Reorders a b) (ha : a.Distinct) : a.sorted = b.sorted := by
  induction h with
  | @fields fields fields' h =>
    have hnames : ((fields.map sortedField).map Prod.fst).Nodup := by
      rw [List.map_map]
      exact (distinct_obj.1 ha).1
    have hperm : ((fields.map sortedField).mergeSort inOrder).Perm
        ((fields'.map sortedField).mergeSort inOrder) :=
      (List.mergeSort_perm _ _).trans ((h.map sortedField).trans (List.mergeSort_perm _ _).symm)
    have hsame := hperm.eq_of_pairwise (fun x y hx hy hxy hyx => ?_)
      (pairwise_inOrder (fields.map sortedField)) (pairwise_inOrder (fields'.map sortedField))
    · rw [sorted_obj, sorted_obj, hsame]
    · rw [inOrder_iff] at hxy hyx
      have hy' := List.mem_mergeSort.1 (hperm.mem_iff.2 hy)
      exact List.inj_on_of_nodup_map hnames (List.mem_mergeSort.1 hx) hy' (String.le_antisymm hxy hyx)
  | item before after h ih =>
    have hitem := ih (distinct_arr.1 ha _ (by simp))
    simp only [sorted_arr, List.map_append, List.map_cons, hitem]
  | field before after name h ih =>
    have hvalue := ih ((distinct_obj.1 ha).2 _ (List.mem_append_right _ List.mem_cons_self))
    simp only [sorted_obj, List.map_append, List.map_cons, sortedField, hvalue]

end Reorders

end SignalCalculus.Json
