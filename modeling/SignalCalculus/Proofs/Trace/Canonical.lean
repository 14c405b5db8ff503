import Mathlib.Logic.Relation
import SignalCalculus.Proofs.Json.RoundTrip
import SignalCalculus.Proofs.Trace.Events

set_option autoImplicit false

namespace SignalCalculus.Trace

namespace Event

abbrev readNames : List String := ["v", "type", "i", "t", "mu"]

/-- A field of an event that says no more than its absence does. -/
inductive Idle : String → Json → Prop where
  | unread {key : String} (value : Json) (other : key ∉ readNames) :
      Idle key value
  | version : Idle "v" (.int 1)
  | noRule : Idle "t" .null
  | noPayload : Idle "mu" .null

/-- One way to say an event is another one with some object reordered or without an idle field. No
    object has two fields of one name. -/
inductive Restates : Json → Json → Prop where
  | reorder {a b : Json} (distinct : a.Distinct) (h : a.Reorders b) : Restates a b
  | drop (key : String) (value : Json) (before after : List (String × Json))
      (distinct : (Json.obj (before ++ (key, value) :: after)).Distinct) (idle : Idle key value) :
      Restates (.obj (before ++ (key, value) :: after)) (.obj (before ++ after))

abbrev SameEvent : Json → Json → Prop := Relation.EqvGen Restates

theorem isNested_of_isOne {json : Json} (h : isOne json = true) : json.isNested = false := by
  cases json with
  | arr items => cases h
  | obj fields => cases h
  | _ => rfl

theorem HasParts.of_reordered {part other : String → Json} {event : Event} (h : HasParts part event)
    (hsame : ∀ name ∈ readNames, other name = part name ∨
      (part name).Distinct ∧ (part name).Reorders (other name)) : HasParts other event := by
  -- Only the payload of an event that was read can be an array or an object.
  have hscalar : ∀ name ∈ readNames, (part name).isNested = false → other name = part name := by
    intro name hname hplain
    obtain heq | ⟨-, hreorders⟩ := hsame name hname
    · exact heq
    · rw [hreorders.isNested] at hplain
      cases hplain
  have hversion : other "v" = part "v" := hscalar "v" (by decide) (isNested_of_isOne h.version)
  have hkind : other "type" = part "type" := hscalar "type" (by decide) (by rw [h.kind]; rfl)
  have hindex : other "i" = part "i" := hscalar "i" (by decide) (by rw [h.index]; rfl)
  have hrule : other "t" = part "t" :=
    hscalar "t" (by decide) (by rw [h.rule]; cases event.rule <;> rfl)
  have hpayload : (other "mu").sorted = (part "mu").sorted := by
    obtain heq | ⟨hdistinct, hreorders⟩ := hsame "mu" (by decide)
    · rw [heq]
    · exact (hreorders.sorted_eq hdistinct).symm
  exact ⟨hversion ▸ h.version, hkind ▸ h.kind, hindex ▸ h.index, hrule ▸ h.rule, h.visible,
    hpayload ▸ h.payload, h.given⟩

theorem part_reordered {fields fields' : List (String × Json)}
    (h : (Json.obj fields).Reorders (.obj fields')) (hdistinct : (Json.obj fields).Distinct)
    (name : String) : part fields' name = part fields name ∨
      (part fields name).Distinct ∧ (part fields name).Reorders (part fields' name) := by
  obtain ⟨hnames, hvalues⟩ := Json.distinct_obj.1 hdistinct
  cases h with
  | fields hperm =>
    left
    rw [part, part, Json.field?_perm hnames hperm]
  | @field a b before after key hab =>
    by_cases hname : name = key
    · subst hname
      obtain ⟨hkey, -⟩ := hdistinct.name_once
      right
      rw [part, part, Json.field?_append_cons_self hkey, Json.field?_append_cons_self hkey]
      exact ⟨hvalues (name, a) (by simp), hab⟩
    · left
      rw [part, part, Json.field?_append_cons_of_ne hname, Json.field?_append_cons_of_ne hname]

theorem ofJson_reordered {a b : Json} {event : Event} (h : a.Reorders b) (hdistinct : a.Distinct)
    (hread : ofJson a = .ok event) : ofJson b = .ok event := by
  obtain ⟨fields, rfl, hparts⟩ := exists_fields hread
  obtain ⟨fields', rfl⟩ : ∃ fields', b = .obj fields' := by
    cases h <;> exact ⟨_, rfl⟩
  exact ofJson_obj_eq_ok_iff.2 (hparts.of_reordered fun name _ => part_reordered h hdistinct name)

theorem part_drop {key : String} {value : Json} {before after : List (String × Json)}
    (hdistinct : (Json.obj (before ++ (key, value) :: after)).Distinct) (hidle : Idle key value) :
    ∀ name ∈ readNames,
      part (before ++ (key, value) :: after) name = part (before ++ after) name := by
  intro name hname
  by_cases hkey : name = key
  · subst hkey
    obtain ⟨hbefore, hafter⟩ := hdistinct.name_once
    have hfresh : name ∉ (before ++ after).map Prod.fst := by simp_all
    have habsent : value = absent name := by
      cases hidle with
      | unread value other => exact absurd hname other
      | version => rfl
      | noRule => rfl
      | noPayload => rfl
    rw [part, part, Json.field?_append_cons_self hbefore, Json.field?_eq_none hfresh, habsent]
    rfl
  · rw [part, part, Json.field?_append_cons_of_ne hkey]

theorem Restates.ofJson_iff {a b : Json} {event : Event} (h : Restates a b) :
    ofJson a = .ok event ↔ ofJson b = .ok event := by
  cases h with
  | reorder distinct h =>
    exact ⟨ofJson_reordered h distinct, ofJson_reordered h.symm (h.distinct distinct)⟩
  | drop key value before after distinct idle =>
    have hparts := part_drop distinct idle
    rw [ofJson_obj_eq_ok_iff, ofJson_obj_eq_ok_iff]
    exact ⟨fun h => h.of_reordered fun name hname => .inl (hparts name hname).symm,
      fun h => h.of_reordered fun name hname => .inl (hparts name hname)⟩

theorem SameEvent.ofJson_iff {a b : Json} {event : Event} (h : SameEvent a b) :
    ofJson a = .ok event ↔ ofJson b = .ok event := by
  induction h with
  | rel a b h => exact h.ofJson_iff
  | refl a => exact Iff.rfl
  | symm a b _ ih => exact ih.symm
  | trans a b c _ _ ihab ihbc => exact ihab.trans ihbc

theorem ofList_of_sameEvent {data data' : List Json} {events : List Event}
    (hsame : List.Forall₂ SameEvent data data') (h : ofList data = .ok events) :
    ofList data' = .ok events := by
  obtain ⟨hread, hrange⟩ := ofList_eq_ok_iff.1 h
  refine ofList_eq_ok_iff.2 ⟨?_, hrange⟩
  clear h hrange
  induction hsame generalizing events with
  | nil => exact hread
  | cons hab _ ih =>
    obtain _ | ⟨hjson, hmore⟩ := hread
    exact .cons (hab.ofJson_iff.1 hjson) (ih hmore)

def FloatFreePayload (json : Json) : Prop :=
  ∀ fields payload, json = .obj fields → Json.field? "mu" fields = some payload → payload.FloatFree

theorem floatFree_payload {fields : List (String × Json)} {event : Event}
    (hfree : FloatFreePayload (.obj fields)) (h : HasParts (part fields) event) {payload : Json}
    (hpayload : event.payload = some payload) : payload.FloatFree := by
  have hsorted := h.payload
  rw [hpayload, Option.getD_some] at hsorted
  rw [← hsorted]
  refine Json.FloatFree.sorted ?_
  unfold part
  cases hfield : Json.field? "mu" fields with
  | none => trivial
  | some found => exact hfree fields found rfl hfield

theorem floatFree_toJson {event : Event}
    (h : ∀ payload, event.payload = some payload → payload.FloatFree) : event.toJson.FloatFree := by
  obtain ⟨kind, index, rule, payload⟩ := event
  rw [toJson, Json.floatFree_obj]
  simp only [List.forall_mem_append]
  refine ⟨⟨?_, ?_⟩, ?_⟩
  · simp [Json.FloatFree, Json.Everywhere]
  · cases rule <;> simp [Json.FloatFree, Json.Everywhere]
  · cases payload with
    | none => exact List.forall_mem_nil _
    | some payload => exact List.forall_mem_singleton.2 (h payload rfl)

theorem floatFree_toJson_of_ofList {data : List Json} {events : List Event}
    (hfree : ∀ json ∈ data, FloatFreePayload json) (h : ofList data = .ok events) :
    ∀ event ∈ events, event.toJson.FloatFree := by
  have hread := (ofList_eq_ok_iff.1 h).1
  clear h
  induction hread with
  | nil => exact List.forall_mem_nil _
  | cons hjson _ ih =>
    obtain ⟨hfirst, hrest⟩ := List.forall_mem_cons.1 hfree
    obtain ⟨fields, rfl, hparts⟩ := exists_fields hjson
    exact List.forall_mem_cons.2 ⟨floatFree_toJson fun payload => floatFree_payload hfirst hparts, ih hrest⟩

end Event

theorem takeWhile_line {line : List Char} (h : '\n' ∉ line) (rest : List Char) :
    (line ++ '\n' :: rest).takeWhile (· != '\n') = line := by
  have hline : ∀ c ∈ line, (c != '\n') = true := by
    intro c hc
    simp only [bne_iff_ne]
    rintro rfl
    exact h hc
  rw [List.takeWhile_append_of_pos hline, List.takeWhile_cons_of_neg (by simp), List.append_nil]

theorem lines_inj {xs ys : List String} (hxs : ∀ line ∈ xs, '\n' ∉ line.toList)
    (hys : ∀ line ∈ ys, '\n' ∉ line.toList)
    (h : String.join (xs.map (· ++ "\n")) = String.join (ys.map (· ++ "\n"))) : xs = ys := by
  have hcons : ∀ (line : String) lines,
      (String.join ((line :: lines).map (· ++ "\n"))).toList =
        line.toList ++ '\n' :: (String.join (lines.map (· ++ "\n"))).toList := by
    intro line lines
    simp [String.join_cons]
  induction xs generalizing ys with
  | nil =>
    cases ys with
    | nil => rfl
    | cons y ys =>
      have htext := congrArg String.toList h
      rw [hcons] at htext
      simp at htext
  | cons x xs ih =>
    cases ys with
    | nil =>
      have htext := congrArg String.toList h
      rw [hcons] at htext
      simp at htext
    | cons y ys =>
      obtain ⟨hx, hxs⟩ := List.forall_mem_cons.1 hxs
      obtain ⟨hy, hys⟩ := List.forall_mem_cons.1 hys
      have htext := congrArg String.toList h
      rw [hcons, hcons] at htext
      have hline := congrArg (List.takeWhile (· != '\n')) htext
      rw [takeWhile_line hx, takeWhile_line hy] at hline
      rw [hline] at htext
      have hrest := (List.cons.inj (List.append_cancel_left htext)).2
      rw [String.toList_inj.1 hline, ih hxs hys (String.toList_inj.1 hrest)]

theorem traceOf_of_ofList {data : List Json} {events : List Event}
    (h : Event.ofList data = .ok events) :
    traceOf data = .ok (String.join (events.map fun event => event.line ++ "\n")) :=
  traceOf_eq_ok_iff.2 ⟨events, h, rfl⟩

theorem events_of_traceOf {data data' : List Json} {events events' : List Event}
    (h : Event.ofList data = .ok events) (h' : Event.ofList data' = .ok events')
    (hfree : ∀ event ∈ events, event.toJson.FloatFree)
    (hfree' : ∀ event ∈ events', event.toJson.FloatFree) (htext : traceOf data = traceOf data') :
    events = events' := by
  rw [traceOf_of_ofList h, traceOf_of_ofList h'] at htext
  have hlines : events.map Event.line = events'.map Event.line := by
    refine lines_inj (fun line hline => ?_) (fun line hline => ?_) ?_
    · obtain ⟨event, hevent, rfl⟩ := List.mem_map.1 hline
      exact Json.newline_not_mem_line (hfree event hevent)
    · obtain ⟨event, hevent, rfl⟩ := List.mem_map.1 hline
      exact Json.newline_not_mem_line (hfree' event hevent)
    · rw [List.map_map, List.map_map]
      exact Except.ok.inj htext
  -- The reader of lines finds the data of the events, and from these the events are read again.
  have hback : ∀ {events : List Event}, (∀ event ∈ events, event.toJson.FloatFree) →
      (events.map Event.line).map Json.read? = (events.map Event.toJson).map some := by
    intro events hfree
    rw [List.map_map, List.map_map]
    exact List.map_congr_left fun event hevent => Json.read?_line (hfree event hevent)
  have hdata := (hback hfree).symm.trans ((congrArg _ hlines).trans (hback hfree'))
  have hread := Event.ofList_ofList h
  rw [(List.map_inj_right fun _ _ => Option.some.inj).1 hdata, Event.ofList_ofList h'] at hread
  exact (Except.ok.inj hread).symm

/-- The canonical form of data without floating-point numbers in their payloads: it is its own
    canonical form, it does not depend on how the events were said, and its text has a line for each
    event and tells what the events are. Each event has the type, the index, the rule and the payload
    of its data. -/
theorem trace_is_canonical {data : List Json} {events : List Event}
    (hread : Event.ofList data = .ok events)
    (hfree : ∀ json ∈ data, Event.FloatFreePayload json) :
    Event.ofList (events.map Event.toJson) = .ok events ∧
    (∀ data', List.Forall₂ Event.SameEvent data data' →
      Event.ofList data' = .ok events ∧ traceOf data' = traceOf data) ∧
    (∀ data' events', Event.ofList data' = .ok events' →
      (∀ json ∈ data', Event.FloatFreePayload json) → traceOf data' = traceOf data →
      events' = events) ∧
    traceOf data = .ok (String.join (events.map fun event => event.line ++ "\n")) ∧
    (∀ event ∈ events, '\n' ∉ event.line.toList ∧ Json.read? event.line = some event.toJson) ∧
    List.Forall₂ (fun json event => ∃ fields, json = .obj fields ∧
      Event.HasParts (Event.part fields) event) data events := by
  have hjson := Event.floatFree_toJson_of_ofList hfree hread
  refine ⟨Event.ofList_ofList hread, fun data' hsame => ?_, fun data' events' hread' hfree' htext => ?_,
    traceOf_of_ofList hread, fun event hevent => ?_,
    (Event.ofList_eq_ok_iff.1 hread).1.imp fun _ _ => Event.exists_fields⟩
  · have hread' := Event.ofList_of_sameEvent hsame hread
    exact ⟨hread', by rw [traceOf_of_ofList hread', traceOf_of_ofList hread]⟩
  · exact events_of_traceOf hread' hread (Event.floatFree_toJson_of_ofList hfree' hread') hjson htext
  · exact ⟨Json.newline_not_mem_line (hjson event hevent), Json.read?_line (hjson event hevent)⟩

/-- Two ways to say that a request went out: one has the fields of the payload in another order, no
    version and a rule that is null. -/
theorem request_said_in_two_ways :
    traceOf [.obj [("v", .int 1), ("type", .str "send.request"), ("i", .int 0),
        ("mu", .obj [("bits", .str "01"), ("to", .arr [.int (-7)])])]] =
      traceOf [.obj [("type", .str "send.request"), ("i", .int 0),
        ("mu", .obj [("to", .arr [.int (-7)]), ("bits", .str "01")]), ("t", .null)]] := by
  have hread : Event.ofList [.obj [("type", .str "send.request"), ("i", .int 0),
      ("mu", .obj [("to", .arr [.int (-7)]), ("bits", .str "01")]), ("t", .null)]] =
      .ok [⟨.request, 0, none, some (.obj [("bits", .str "01"), ("to", .arr [.int (-7)])])⟩] := by
    cbv
  refine ((trace_is_canonical hread ?_).2.1 _ (.cons ?_ .nil)).2
  · intro json hjson fields payload hfields hpayload
    rw [List.mem_singleton.1 hjson] at hfields
    cases hfields
    cases hpayload
    simp [Json.FloatFree, Json.Everywhere, Json.EveryField, Json.EveryItem]
  · have hrule := Event.Restates.drop "t" .null [("type", .str "send.request"), ("i", .int 0),
      ("mu", .obj [("to", .arr [.int (-7)]), ("bits", .str "01")])] []
      (by simp [Json.Distinct, Json.Everywhere, Json.EveryField, Json.EveryItem]) .noRule
    have horder := Json.Reorders.field [("type", .str "send.request"), ("i", .int 0)] [] "mu"
      (.fields (List.Perm.swap ("bits", .str "01") ("to", .arr [.int (-7)]) []))
    have hversion := Event.Restates.drop "v" (.int 1) [] [("type", .str "send.request"), ("i", .int 0),
      ("mu", .obj [("bits", .str "01"), ("to", .arr [.int (-7)])])]
      (by simp [Json.Distinct, Json.Everywhere, Json.EveryField, Json.EveryItem]) .version
    refine .trans _ _ _ (.rel _ _ hrule) (.trans _ _ _ (.rel _ _ (.reorder ?_ horder))
      (.symm _ _ (.rel _ _ hversion)))
    simp [Json.Distinct, Json.Everywhere, Json.EveryField, Json.EveryItem]

end SignalCalculus.Trace
