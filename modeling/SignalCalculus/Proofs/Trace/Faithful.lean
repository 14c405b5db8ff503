import SignalCalculus.Proofs.Trace.Events
import SignalCalculus.Proofs.Trace.Listening

set_option autoImplicit false

namespace SignalCalculus

open Trace (Report Recorder Event)

namespace Trace

open Text

def Report.asEvent (index : Nat) : Report → Event
  | .applied rule => ⟨.applied, index, some (String.ofList rule), none⟩
  | .cached => ⟨.cached, index, none, none⟩
  | .stuck id => ⟨.stuck, index, none, some (.obj [("variable", .int id)])⟩
  | .request bits => ⟨.request, index, none, some (.obj [("bits", .ofChars bits)])⟩
  | .reply bits => ⟨.reply, index, none, some (.obj [("bits", .ofChars bits)])⟩

theorem Report.toJson_asEvent (index : Nat) (report : Report) :
    (report.asEvent index).toJson = report.toJson index := by
  cases report <;> rfl

theorem Report.index_asEvent (index : Nat) (report : Report) :
    (report.asEvent index).index = index := by
  cases report <;> rfl

theorem Report.NamesLaw.isCanonical {report : Report} (h : report.NamesLaw) (index : Nat) :
    (report.asEvent index).IsCanonical := by
  cases report with
  | applied rule =>
    obtain ⟨g, rfl⟩ := h
    refine ⟨fun rule hrule => ?_, nofun, nofun⟩
    cases hrule
    rw [String.toList_ofList]
    cases g <;> decide
  | cached => exact ⟨nofun, nofun, nofun⟩
  | stuck _ | request _ | reply _ =>
    refine ⟨nofun, fun payload hpayload => ?_, nofun⟩
    cases hpayload
    exact Json.sorted_obj_singleton _ _

theorem Recorder.trace_of_namesLaw {recorder : Recorder}
    (h : ∀ report ∈ recorder.reports.toList, report.NamesLaw) :
    recorder.trace =
      .ok (String.join (recorder.data.map fun json => json.line Json.tight ++ "\n")) := by
  let events := recorder.reports.toList.mapIdx fun index report => report.asEvent index
  have hdata : recorder.data = events.map Event.toJson :=
    List.ext_getElem (by simp [data, events]) fun index _ _ => by
      simp [data, events, Report.toJson_asEvent]
  have hrange : events.map Event.index = List.range events.length :=
    List.ext_getElem (by simp) fun index _ _ => by simp [events, Report.index_asEvent]
  have hread : Event.ofList (events.map Event.toJson) = .ok events := by
    refine Event.ofList_toJson (fun event hevent => ?_) hrange
    obtain ⟨index, hindex, rfl⟩ := List.mem_mapIdx.1 hevent
    exact (h _ (List.getElem_mem hindex)).isCanonical index
  refine traceOf_eq_ok_iff.2 ⟨events, hdata ▸ hread, ?_⟩
  rw [hdata, List.map_map]
  rfl

end Trace

namespace Engine

theorem bind_withRecorder (engine : Engine) (recorder : Recorder) (id : Nat) :
    (engine.withRecorder recorder).bind id = (engine.bind id).withRecorder recorder := by
  have hbound : (engine.withRecorder recorder).boundTo = engine.boundTo := rfl
  have hmemo : (engine.withRecorder recorder).memo = engine.memo := rfl
  have hlimit : (engine.withRecorder recorder).memoLimit = engine.memoLimit := rfl
  unfold Engine.bind
  rw [hbound, hmemo, hlimit]
  split
  · rfl
  · split <;> rfl

structure EvalReports (book : Book) (id fuel : Nat) (engine : Engine) (replies : List (List Char))
    (query : Option Term) (news : List Report) : Prop where
  same : ∀ recorder,
    (engine.withRecorder recorder).eval id book fuel Link.recorded ⟨replies, []⟩ query =
      (engine.eval id book fuel Link.recorded ⟨replies, []⟩ query).map fun (result, after, link) =>
        (result, after.withRecorder (recorder.recordAll news), link)
  steps : ∀ {result after link},
    engine.eval id book fuel Link.recorded ⟨replies, []⟩ query = some (result, after, link) →
    (query = none → engine.steps = 0) →
    after.steps = news.countP Report.isApplied + overrunsOf result
  told : ∀ {result after link},
    engine.eval id book fuel Link.recorded ⟨replies, []⟩ query = some (result, after, link) →
    Told replies [] (news.filter Report.isExchange) result link
  named : ∀ report ∈ news, report.NamesLaw

theorem exists_evalReports (book : Book) (id fuel : Nat) (engine : Engine)
    (replies : List (List Char)) (query : Option Term) :
    ∃ news, EvalReports book id fuel engine replies query news := by
  cases query with
  | none =>
    refine ⟨[], fun _ => rfl, fun h hfresh => ?_, fun h => ?_, List.forall_mem_nil _⟩
    · cases h
      exact hfresh rfl
    · cases h
      exact told_nothing replies [] _
  | some term =>
    have heval : ∀ engine : Engine,
        engine.eval id book fuel Link.recorded ⟨replies, []⟩ (some term) =
          (Machine.settleFrom book fuel (.running (Machine.forcing term)) (engine.bind id)).bind
            fun state => converse book fuel Link.recorded fuel state.1 state.2 ⟨replies, []⟩ :=
      fun _ => rfl
    obtain ⟨first, hrun⟩ := Machine.exists_runReports book fuel (.running (Machine.forcing term))
      (engine.bind id)
    have hstarts := heval engine
    cases hrest : Machine.settleFrom book fuel (.running (Machine.forcing term)) (engine.bind id) with
    | none =>
      rw [hrest] at hstarts
      refine ⟨[], fun recorder => ?_, fun h => ?_, fun h => ?_, List.forall_mem_nil _⟩
      · rw [heval, bind_withRecorder, hrun.same, hrest, hstarts]
        rfl
      all_goals
        rw [hstarts] at h
        cases h
    | some state =>
      obtain ⟨rest, between⟩ := state
      rw [hrest] at hstarts
      obtain ⟨more, hmore⟩ := exists_conversationReports book fuel fuel rest between replies []
      have hsteps := hrun.steps hrest
      have hexchange := hrun.exchange hrest
      refine ⟨first ++ more, fun recorder => ?_, fun h _ => ?_, fun h => ?_,
        List.forall_mem_append.2 ⟨hrun.named, hmore.named⟩⟩
      · rw [heval, bind_withRecorder, hrun.same, hrest, hstarts, Recorder.recordAll_append]
        exact hmore.same _
      · have hrounds := hmore.steps (hstarts.symm.trans h)
        have hzero := engine.steps_bind id
        have hnone : (Step.running (Machine.forcing term)).overruns = 0 := rfl
        rw [List.countP_append]
        omega
      · have hlog := hmore.told (hstarts.symm.trans h)
        rw [← hexchange, List.append_assoc, ← List.filter_append] at hlog
        exact hlog

/-- The outcome of an evaluation but for what its recorder holds. -/
def unheard (out : Except Fault Term × Engine × Link.Recording) :
    Except Fault Term × Engine × Link.Recording :=
  (out.1, out.2.1.withRecorder {}, out.2.2)

end Engine

end SignalCalculus
