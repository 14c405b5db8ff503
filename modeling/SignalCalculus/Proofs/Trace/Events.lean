import Mathlib.Data.List.Forall2
import SignalCalculus.Proofs.Json.Sorted
import SignalCalculus.Trace.Event

set_option autoImplicit false

namespace SignalCalculus.Trace

open Text

theorem bind_eq_ok {ε α β : Type} {x : Except ε α} {go : α → Except ε β} {b : β}
    (h : x.bind go = .ok b) : ∃ a, x = .ok a ∧ go a = .ok b := by
  cases x with
  | error e => cases h
  | ok a => exact ⟨a, rfl, h⟩

theorem mapM_eq_ok_iff {ε α β : Type} {f : α → Except ε β} {xs : List α} {ys : List β} :
    xs.mapM f = .ok ys ↔ List.Forall₂ (fun x y => f x = .ok y) xs ys := by
  induction xs generalizing ys with
  | nil => cases ys <;> simp [pure, Except.pure]
  | cons x xs ih =>
    rw [List.mapM_cons]
    constructor
    · intro h
      obtain ⟨y, hx, h⟩ := bind_eq_ok h
      obtain ⟨more, hxs, h⟩ := bind_eq_ok h
      cases h
      exact .cons hx (ih.1 hxs)
    · rintro (_ | ⟨hx, hxs⟩)
      rw [hx, ih.2 hxs]
      rfl

namespace Event

/-- What a part that is not there counts as. -/
def absent (name : String) : Json := if name = "v" then .int 1 else .null

def part (fields : List (String × Json)) (name : String) : Json :=
  (Json.field? name fields).getD (absent name)

/-- The parts of some data are those of an event. -/
structure HasParts (part : String → Json) (event : Event) : Prop where
  version : isOne (part "v") = true
  kind : part "type" = .str event.kind.name
  index : part "i" = .int event.index
  rule : part "t" = event.rule.elim .null .str
  visible : ∀ rule, event.rule = some rule → rule.toList.all isBlank = false
  payload : (part "mu").sorted = event.payload.getD .null
  given : event.payload ≠ some .null

variable {fields : List (String × Json)}

theorem checkVersion_eq_ok_iff : checkVersion fields = .ok () ↔ isOne (part fields "v") = true := by
  unfold checkVersion part
  cases Json.field? "v" fields with
  | none => exact iff_of_true rfl rfl
  | some found =>
    by_cases h : isOne found = true
    · simp [h]
    · simp [h]

theorem ofName?_eq_some_iff {name : String} {kind : Kind} :
    Kind.ofName? name = some kind ↔ name = kind.name := by
  constructor
  · intro h
    have hname := List.find?_some h
    exact (beq_iff_eq.1 hname).symm
  · rintro rfl
    cases kind <;> decide

theorem readKind_eq_ok_iff {kind : Kind} :
    readKind fields = .ok kind ↔ part fields "type" = .str kind.name := by
  have habsent : absent "type" = .null := rfl
  unfold readKind part
  rw [habsent]
  cases (Json.field? "type" fields).getD .null with
  | str name =>
    have hname := @ofName?_eq_some_iff name kind
    cases hread : Kind.ofName? name with
    | none => simp_all
    | some found => simp_all
  | _ => simp

theorem readIndex_eq_ok_iff {index : Nat} :
    readIndex fields = .ok index ↔ part fields "i" = .int index := by
  have habsent : absent "i" = .null := rfl
  unfold readIndex part
  rw [habsent]
  cases Json.field? "i" fields with
  | none => simp
  | some found =>
    cases found with
    | int n =>
      cases n with
      | ofNat n =>
        simp only [Option.getD_some, Except.ok.injEq, Json.int.injEq]
        exact Int.ofNat_inj.symm
      | negSucc n => simp
    | _ => simp

theorem readRule_eq_ok_iff {rule : Option String} : readRule fields = .ok rule ↔
    part fields "t" = rule.elim .null .str ∧
      ∀ text, rule = some text → text.toList.all isBlank = false := by
  have habsent : absent "t" = .null := rfl
  unfold readRule part
  rw [habsent]
  cases Json.field? "t" fields with
  | none => cases rule <;> simp
  | some found =>
    cases found with
    | str text =>
      cases hblank : text.toList.all isBlank with
      | true => cases rule <;> simp_all
      | false =>
        cases rule with
        | none => simp [hblank]
        | some rule =>
          have hrule : text = rule → rule.toList.all isBlank = false := fun h => h ▸ hblank
          simpa [hblank] using hrule
    | _ => cases rule <;> simp

theorem readPayload_eq_iff {payload : Option Json} : readPayload fields = payload ↔
    (part fields "mu").sorted = payload.getD .null ∧ payload ≠ some .null := by
  have hnone : none = payload ↔ Json.null.sorted = payload.getD .null ∧ payload ≠ some .null := by
    cases payload with
    | none => simp [Json.sorted]
    | some found => simp [Json.sorted, eq_comm]
  have habsent : absent "mu" = .null := rfl
  unfold readPayload part
  rw [habsent]
  cases Json.field? "mu" fields with
  | none => exact hnone
  | some found =>
    by_cases hnull : found = .null
    · rw [hnull]
      exact hnone
    · have hsorted : found.sorted ≠ .null := fun h => hnull (Json.sorted_eq_null_iff.1 h)
      cases payload with
      | none => simp [hsorted]
      | some other =>
        have hother : found.sorted = other → other ≠ .null := fun h => h ▸ hsorted
        simpa using hother

theorem ofJson_obj_eq_ok_iff {event : Event} :
    ofJson (.obj fields) = .ok event ↔ HasParts (part fields) event := by
  constructor
  · intro h
    obtain ⟨_, hversion, h⟩ := bind_eq_ok h
    obtain ⟨kind, hkind, h⟩ := bind_eq_ok h
    obtain ⟨index, hindex, h⟩ := bind_eq_ok h
    obtain ⟨rule, hrule, h⟩ := bind_eq_ok h
    cases h
    obtain ⟨hpart, hvisible⟩ := readRule_eq_ok_iff.1 hrule
    obtain ⟨hpayload, hgiven⟩ := readPayload_eq_iff.1 (Eq.refl (readPayload fields))
    exact ⟨checkVersion_eq_ok_iff.1 hversion, readKind_eq_ok_iff.1 hkind,
      readIndex_eq_ok_iff.1 hindex, hpart, hvisible, hpayload, hgiven⟩
  · intro h
    have hversion := checkVersion_eq_ok_iff.2 h.version
    have hkind := readKind_eq_ok_iff.2 h.kind
    have hindex := readIndex_eq_ok_iff.2 h.index
    have hrule := readRule_eq_ok_iff.2 ⟨h.rule, h.visible⟩
    have hpayload := readPayload_eq_iff.2 ⟨h.payload, h.given⟩
    simp only [ofJson, hversion, hkind, hindex, hrule, hpayload]
    rfl

theorem exists_fields {json : Json} {event : Event} (h : ofJson json = .ok event) :
    ∃ fields, json = .obj fields ∧ HasParts (part fields) event := by
  cases json with
  | obj fields => exact ⟨fields, rfl, ofJson_obj_eq_ok_iff.1 h⟩
  | _ => cases h

/-- The rule of an event is not blank, and its payload is in order and is not null. -/
structure IsCanonical (event : Event) : Prop where
  visible : ∀ rule, event.rule = some rule → rule.toList.all isBlank = false
  ordered : ∀ payload, event.payload = some payload → payload.sorted = payload
  given : event.payload ≠ some .null

variable {event : Event} {data : List Json} {events : List Event}

theorem isCanonical_of_ofJson {json : Json} (h : ofJson json = .ok event) : event.IsCanonical := by
  obtain ⟨fields, rfl, hparts⟩ := exists_fields h
  refine ⟨hparts.visible, fun payload hpayload => ?_, hparts.given⟩
  have hsorted := hparts.payload
  rw [hpayload, Option.getD_some] at hsorted
  rw [← hsorted, Json.sorted_sorted]

theorem IsCanonical.ofJson_toJson (h : event.IsCanonical) : ofJson event.toJson = .ok event := by
  have hordered : (event.payload.getD .null).sorted = event.payload.getD .null := by
    cases hpayload : event.payload with
    | none => rfl
    | some payload => exact h.ordered payload hpayload
  refine ofJson_obj_eq_ok_iff.2 ?_
  -- Which fields there are depends on what the event has; each part is then found by evaluation.
  obtain ⟨kind, index, rule, payload⟩ := event
  cases rule <;> cases payload <;> exact ⟨rfl, rfl, rfl, rfl, h.visible, hordered, h.given⟩

theorem ofList_eq_ok_iff : ofList data = .ok events ↔
    List.Forall₂ (fun json event => ofJson json = .ok event) data events ∧
      events.map index = List.range events.length := by
  constructor
  · intro h
    obtain ⟨found, hfound, h⟩ := bind_eq_ok h
    by_cases hrange : found.map index = List.range (found.map index).length
    · rw [if_pos hrange] at h
      cases h
      rw [List.length_map] at hrange
      exact ⟨mapM_eq_ok_iff.1 hfound, hrange⟩
    · rw [if_neg hrange] at h
      cases h
  · rintro ⟨hread, hrange⟩
    have hrange' : events.map index = List.range (events.map index).length := by
      rw [List.length_map, hrange]
    rw [ofList, mapM_eq_ok_iff.2 hread]
    exact if_pos hrange'

theorem isCanonical_of_ofList (h : ofList data = .ok events) : ∀ event ∈ events, event.IsCanonical := by
  have hread := (ofList_eq_ok_iff.1 h).1
  clear h
  induction hread with
  | nil => exact List.forall_mem_nil _
  | cons hjson _ ih => exact List.forall_mem_cons.2 ⟨isCanonical_of_ofJson hjson, ih⟩

theorem ofList_toJson (hcanonical : ∀ event ∈ events, event.IsCanonical)
    (hrange : events.map index = List.range events.length) :
    ofList (events.map toJson) = .ok events := by
  refine ofList_eq_ok_iff.2 ⟨?_, hrange⟩
  rw [List.forall₂_map_left_iff]
  exact List.forall₂_same.2 fun event hevent => (hcanonical event hevent).ofJson_toJson

theorem ofList_ofList (h : ofList data = .ok events) : ofList (events.map toJson) = .ok events :=
  ofList_toJson (isCanonical_of_ofList h) (ofList_eq_ok_iff.1 h).2

end Event

theorem traceOf_eq_ok_iff {data : List Json} {text : String} : traceOf data = .ok text ↔
    ∃ events, Event.ofList data = .ok events ∧
      text = String.join (events.map fun event => event.line ++ "\n") := by
  unfold traceOf
  cases Event.ofList data with
  | error e => simp [Except.map]
  | ok events => simp [Except.map, eq_comm]

end SignalCalculus.Trace
