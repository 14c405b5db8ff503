import SignalCalculus.Proofs.Limit.Queries

set_option autoImplicit false

namespace SignalCalculus.Desk

variable {books : Nat → Book} {desk next : Desk} {engine' : Engine}

structure Sound (books : Nat → Book) (desk : Desk) : Prop where
  valid : desk.engine.unlimited.Valid books
  bound : desk.reductions ≠ [] → desk.engine.boundTo ≠ none
  each : ∀ reduction ∈ desk.reductions, reduction.Justified books desk.engine.sends

def limited (stepLimit memoLimit : Int) (recorder : Trace.Recorder) : Desk :=
  { engine := { stepLimit, memoLimit, recorder } }

theorem sound_limited (books : Nat → Book) (stepLimit memoLimit : Int)
    (recorder : Trace.Recorder) : (limited stepLimit memoLimit recorder).Sound books where
  valid := ⟨rfl, fun term w hfind => by simp [limited, Engine.unlimited] at hfind⟩
  bound := fun hne => absurd rfl hne
  each := fun reduction hmem => by simp [limited] at hmem

theorem Sound.served (h : desk.Sound books)
    (hs : desk.engine.unlimited.Served books engine'.unlimited) :
    Sound books { desk with engine := engine' } where
  valid := hs.valid
  bound := fun hne => hs.bound (h.bound hne)
  each := fun reduction hmem => (h.each reduction hmem).mono hs.grown

theorem Sound.set (h : desk.Sound books) {index : Nat} {reduction : Reduction}
    (hintact : Reduction.Intact books desk.engine reduction engine') :
    Sound books ⟨engine', desk.reductions.set index reduction⟩ where
  valid := hintact.1.valid
  bound := fun hne => hintact.1.bound (h.bound fun hnil => hne (by rw [hnil]; rfl))
  each := by
    intro other hmem
    obtain hmem | rfl := List.mem_or_eq_of_mem_set hmem
    · exact (h.each other hmem).mono hintact.1.grown
    · exact hintact.2

theorem Sound.lookup (h : desk.Sound books) {index : Nat} {reduction : Reduction}
    (hr : desk.reductions[index]? = some reduction) :
    reduction.Justified books desk.engine.sends ∧ desk.engine.boundTo ≠ none := by
  have hmem := List.mem_of_getElem? hr
  exact ⟨h.each reduction hmem, h.bound (List.ne_nil_of_mem hmem)⟩

theorem Sound.perform (h : desk.Sound books) {operation : Operation} {answer : Answer} {fuel : Nat}
    (ho : desk.Harmless books operation)
    (hrun : desk.perform books fuel operation = some (answer, next)) : next.Sound books := by
  have hstay : desk.engine.unlimited.Served books desk.engine.unlimited :=
    ⟨h.valid, Nat.le_refl _, fun hne => hne⟩
  cases performs_of_perform hrun with
  | evaluates run => exact h.served (Engine.eval_served h.valid run)
  | normalizes run => exact h.served (Engine.weakHead_served h.valid run)
  | startsNothing => exact h
  | @starts id term =>
    have hvalid := h.valid.bind id
    rw [← Engine.unlimited_bind] at hvalid
    refine ⟨hvalid, fun _ => ?_, fun reduction hmem => ?_⟩
    · rw [Engine.bind_boundTo]
      exact nofun
    · obtain hmem | hmem := List.mem_append.1 hmem
      · rw [Engine.bind_sends]
        exact h.each reduction hmem
      · obtain rfl := List.mem_singleton.1 hmem
        exact nofun
  | @advances index reduction reduction' outcome engine' found run =>
    obtain ⟨hj, hbound⟩ := h.lookup found
    exact h.set (Reduction.advance_intact hj h.valid hbound
      (fun term => ho reduction term found) run)
  | @resumes index reply seq reduction reduction' outcome engine' found run =>
    obtain ⟨hj, hbound⟩ := h.lookup found
    exact h.set (Reduction.resume_intact hj h.valid hbound
      (fun bits current suspended => ho reduction bits current suspended found) run)
  | cancels found => exact h.set ⟨hstay, (h.lookup found).1.cancel⟩
  | misses about missing => exact h
  | forgets => exact h.served ⟨h.valid.forget, Nat.le_refl _, fun hne => hne⟩

theorem History.sound {last : Desk} {operations : List Operation} {answers : List Answer}
    (h : History (perform books) (Harmless books) desk operations answers last)
    (hsound : desk.Sound books) : last.Sound books := by
  induction h with
  | nil desk => exact hsound
  | cons fuel ok done tail ih => exact ih (hsound.perform ok done)

/-- Some harmless history leads from a new engine with some limits to this desk. -/
def Arises (books : Nat → Book) (desk : Desk) : Prop :=
  ∃ stepLimit memoLimit recorder operations answers, History (perform books) (Harmless books)
    (limited stepLimit memoLimit recorder) operations answers desk

theorem Arises.sound (h : desk.Arises books) : desk.Sound books := by
  obtain ⟨stepLimit, memoLimit, recorder, operations, answers, h⟩ := h
  exact h.sound (sound_limited books stepLimit memoLimit recorder)

end SignalCalculus.Desk
