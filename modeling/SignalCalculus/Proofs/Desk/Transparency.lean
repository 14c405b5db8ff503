import SignalCalculus.Proofs.Desk.Refinement

set_option autoImplicit false

namespace SignalCalculus.Desk

variable {books : Nat → Book} {allowed : Desk → Operation → Prop}

theorem History.direct {desk last : Desk} {operations : List Operation} {answers : List Answer}
    (hallowed : ∀ desk operation, allowed desk operation → desk.Harmless books operation)
    (h : History (perform books) allowed desk operations answers last)
    {directs : List Direct.Reduction} (hagrees : desk.Agrees books directs) :
    ∃ directs',
      History (Direct.perform books) (fun _ _ => True) directs operations answers directs' ∧
      last.Agrees books directs' := by
  induction h generalizing directs with
  | nil desk => exact ⟨directs, .nil directs, hagrees⟩
  | @cons desk next last operation answer operations answers fuel ok done tail ih =>
    obtain ⟨fuel', ⟨answer', between⟩, hdirect, hanswer, hnext⟩ :=
      (hagrees.perform (hallowed desk operation ok)).forth fuel _ done
    cases hanswer
    obtain ⟨directs', htail, hlast⟩ := ih hnext
    exact ⟨directs', .cons fuel' trivial hdirect htail, hlast⟩

theorem History.of_direct {directs directs' : List Direct.Reduction} {operations : List Operation}
    {answers : List Answer}
    (hallowed : ∀ desk operation, allowed desk operation ∧ desk.Harmless books operation)
    (h : History (Direct.perform books) (fun _ _ => True) directs operations answers directs')
    {desk : Desk} (hagrees : desk.Agrees books directs) :
    ∃ last, History (perform books) allowed desk operations answers last := by
  induction h generalizing desk with
  | nil directs => exact ⟨desk, .nil desk⟩
  | @cons directs next directs' operation answer operations answers fuel ok done tail ih =>
    obtain ⟨ok, harmless⟩ := hallowed desk operation
    obtain ⟨fuel', ⟨answer', between⟩, hdesk, hanswer, hnext⟩ :=
      (hagrees.perform harmless).back fuel _ done
    cases hanswer
    obtain ⟨last, htail⟩ := ih hnext
    exact ⟨last, .cons fuel' ok hdesk htail⟩

theorem harmless_of_alike (h : ∀ first second, (books first).Alike (books second)) (desk : Desk)
    (operation : Operation) : desk.Harmless books operation := by
  cases operation with
  | advance index => exact fun _ _ _ _ _ _ => h _ _
  | resume index reply seq => exact fun _ _ _ _ _ _ _ _ => h _ _
  | eval id term peer => trivial
  | weakHead id term => trivial
  | start id term => trivial
  | cancel index => trivial
  | forget => trivial

theorem harmless_of_one_book (book : Book) (desk : Desk) (operation : Operation) :
    desk.Harmless (fun _ => book) operation :=
  harmless_of_alike (fun _ _ => .refl book) desk operation

/-- Some history against one book leads from a new engine without a step limit to this desk. -/
def Reached (book : Book) (desk : Desk) : Prop :=
  ∃ memoLimit recorder operations answers, History (perform fun _ => book) (fun _ _ => True)
    (fresh memoLimit recorder) operations answers desk

theorem Reached.valid {book : Book} {desk : Desk} (h : Reached book desk) :
    desk.engine.Valid fun _ => book := by
  obtain ⟨memoLimit, recorder, operations, answers, h⟩ := h
  obtain ⟨directs, -, hagrees⟩ :=
    h.direct (fun desk operation _ => harmless_of_one_book book desk operation)
      (agrees_fresh _ memoLimit recorder)
  exact hagrees.valid

/-- Against one book, an engine without a step limit answers every finite sequence of operations as
    direct reduction does, and halts where direct reduction halts; and its memo never holds anything
    but weak head normal forms that direct reduction finds without a request. -/
theorem memo_unobservable (book : Book) (memoLimit : Int) (recorder : Trace.Recorder)
    (operations : List Operation) (answers : List Answer) :
    ((∃ desk, History (perform fun _ => book) (fun _ _ => True) (fresh memoLimit recorder)
        operations answers desk) ↔
      ∃ directs, History (Direct.perform fun _ => book) (fun _ _ => True) []
        operations answers directs) ∧
    ∀ desk, History (perform fun _ => book) (fun _ _ => True) (fresh memoLimit recorder)
        operations answers desk →
      ∀ term w, desk.engine.memo.find? term = some w → Direct.Reduces book term w := by
  have hfresh := agrees_fresh (fun _ => book) memoLimit recorder
  refine ⟨⟨?_, ?_⟩, ?_⟩
  · rintro ⟨desk, h⟩
    obtain ⟨directs, hdirects, -⟩ :=
      h.direct (fun desk operation _ => harmless_of_one_book book desk operation) hfresh
    exact ⟨directs, hdirects⟩
  · rintro ⟨directs, h⟩
    exact h.of_direct
      (fun desk operation => ⟨trivial, harmless_of_one_book book desk operation⟩) hfresh
  · intro desk h term w hfind
    have hreached : Reached book desk := ⟨memoLimit, recorder, operations, answers, h⟩
    obtain ⟨id, -, hw⟩ := hreached.valid.entries term w hfind
    exact hw

end SignalCalculus.Desk
