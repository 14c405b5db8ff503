import SignalCalculus.Proofs.Desk.Basic
import SignalCalculus.Proofs.Memo.Query

set_option autoImplicit false

namespace SignalCalculus

open Machine (AtRest)
open Engine (Valid Served)

inductive Phase.Agrees (book : Book) (sends : Nat) : Phase → Direct.Phase → Prop where
  | ready (term : Term) : Agrees book sends (.ready term) (.ready term)
  | waiting {bits : List Char} {suspended : Suspended} {term : Term} {replies : List (List Char)}
      (sent : suspended.Justified book sends)
      (rests : AtRest book (fun fuel => (Direct.force book fuel term).after replies)
        (.sent bits suspended)) :
      Agrees book sends (.waiting bits (replies.length + 1) suspended) (.waiting term replies)
  | finished (w : Term) : Agrees book sends (.finished w) .finished
  | closed (started : Bool) : Agrees book sends (.closed started) (.closed started)

namespace Reduction

structure Agrees (books : Nat → Book) (sends : Nat) (reduction : Reduction)
    (direct : Direct.Reduction) : Prop where
  book : reduction.book = direct.book
  phase : Phase.Agrees (books reduction.book) sends reduction.phase direct.phase

variable {books : Nat → Book} {reduction reduction' : Reduction} {direct direct' : Direct.Reduction}
  {engine engine' : Engine} {sends : Nat}

theorem Agrees.mono {sends' : Nat} (h : reduction.Agrees books sends direct)
    (hle : sends ≤ sends') : reduction.Agrees books sends' direct := by
  obtain ⟨hbook, hphase⟩ := h
  refine ⟨hbook, ?_⟩
  revert hphase
  generalize reduction.phase = phase, direct.phase = phase'
  intro hphase
  cases hphase with
  | ready term => exact .ready term
  | waiting sent rests => exact .waiting (sent.mono hle) rests
  | finished w => exact .finished w
  | closed started => exact .closed started

theorem Agrees.cancel (h : reduction.Agrees books sends direct) :
    reduction.cancel.Agrees books sends direct.cancel := by
  obtain ⟨book, phase⟩ := reduction
  obtain ⟨book', phase'⟩ := direct
  obtain ⟨rfl, hphase⟩ := h
  cases hphase with
  | ready term => exact ⟨rfl, .closed false⟩
  | waiting sent rests => exact ⟨rfl, .closed true⟩
  | finished w => exact ⟨rfl, .finished w⟩
  | closed started => exact ⟨rfl, .closed started⟩

def Stepped (books : Nat → Book) (engine : Engine)
    (halt : Except Fault Outcome × Reduction × Engine)
    (direct : Except Fault Outcome × Direct.Reduction) : Prop :=
  halt.1 = direct.1 ∧ halt.2.1.Agrees books halt.2.2.sends direct.2 ∧
    engine.Served books halt.2.2

theorem rest_stepped (hbook : reduction.book = direct.book) (term : Term)
    (replies : List (List Char)) {fuel : Nat} {rest : Rest}
    (hrest : AtRest (books reduction.book)
      (fun fuel => (Direct.force (books reduction.book) fuel term).after replies) rest)
    (hj : rest.step.Justified (books reduction.book) engine'.sends)
    (hserved : engine.Served books engine')
    (hd : (Direct.force (books reduction.book) fuel term).after replies ≠ .unfinished) :
    ∃ halt, direct.rest term replies
        ((Direct.force (books reduction.book) fuel term).after replies) = some halt ∧
      Stepped books engine ((reduction.rest replies.length rest).1,
        (reduction.rest replies.length rest).2, engine') halt := by
  have hm := hrest.tells fuel hd
  cases rest with
  | finished w =>
    rw [show _ = Dialogue.done w from hm]
    exact ⟨_, rfl, rfl, ⟨hbook, .finished w⟩, hserved⟩
  | failed fault =>
    rw [show _ = Dialogue.failed fault from hm]
    exact ⟨_, rfl, rfl, ⟨hbook, .closed true⟩, hserved⟩
  | sent bits suspended =>
    obtain ⟨next, hask⟩ := hm
    rw [hask]
    exact ⟨_, rfl, rfl, ⟨hbook, .waiting hj hrest⟩, hserved⟩

theorem run_haltAlike (reduction : Reduction) (direct : Direct.Reduction)
    (hbook : reduction.book = direct.book) (term : Term) (replies : List (List Char))
    {run : Nat → Option (Rest × Engine)}
    (hrun : ∀ fuel rest engine', run fuel = some (rest, engine') →
      AtRest (books reduction.book)
        (fun fuel => (Direct.force (books reduction.book) fuel term).after replies) rest ∧
      rest.step.Justified (books reduction.book) engine'.sends ∧ engine.Served books engine')
    (hhalts : ∀ fuel, (Direct.force (books reduction.book) fuel term).after replies ≠ .unfinished →
      ∃ fuel' rest engine', run fuel' = some (rest, engine')) :
    HaltAlike (Stepped books engine)
      (fun fuel => (run fuel).bind fun halt => some ((reduction.rest replies.length halt.1).1,
        (reduction.rest replies.length halt.1).2, halt.2))
      (fun fuel => direct.rest term replies
        ((Direct.force (books reduction.book) fuel term).after replies)) := by
  constructor
  · intro fuel halt h
    obtain ⟨⟨rest, engine'⟩, hrest, heq⟩ := Option.bind_eq_some_iff.1 h
    cases heq
    obtain ⟨hrest, hjust, hserved⟩ := hrun fuel rest engine' hrest
    obtain ⟨fuel', hd⟩ := hrest.reached
    obtain ⟨halt, hdirect, hstepped⟩ := rest_stepped hbook term replies hrest hjust hserved hd
    exact ⟨fuel', halt, hdirect, hstepped⟩
  · intro fuel halt h
    have hd : (Direct.force (books reduction.book) fuel term).after replies ≠ .unfinished := by
      intro hd
      rw [hd] at h
      cases h
    obtain ⟨fuel', rest, engine', hhalt⟩ := hhalts fuel hd
    obtain ⟨hrest, hjust, hserved⟩ := hrun fuel' rest engine' hhalt
    obtain ⟨halt', hdirect, hstepped⟩ := rest_stepped hbook term replies hrest hjust hserved hd
    rw [h] at hdirect
    cases hdirect
    exact ⟨fuel', _, Option.bind_eq_some_iff.2 ⟨(rest, engine'), hhalt, rfl⟩, hstepped⟩

def Suits (books : Nat → Book) (engine : Engine) (reduction : Reduction) : Prop :=
  ∀ id, engine.boundTo = some id → (books reduction.book).Alike (books id)

theorem Agrees.advance (h : reduction.Agrees books engine.sends direct) (hv : engine.Valid books)
    (hbound : engine.boundTo ≠ none)
    (ha : ∀ term, reduction.phase = .ready term → reduction.Suits books engine) :
    HaltAlike (Stepped books engine)
      (fun fuel => reduction.advance (books reduction.book) fuel engine)
      (fun fuel => direct.advance (books direct.book) fuel) := by
  obtain ⟨id, hid⟩ := Option.ne_none_iff_exists'.1 hbound
  obtain ⟨book, phase⟩ := reduction
  obtain ⟨book', phase'⟩ := direct
  obtain ⟨rfl, hphase⟩ := h
  have hstay : engine.Served books engine := ⟨hv, Nat.le_refl _, fun hne => hne⟩
  cases hphase with
  | ready term =>
    have halike := ha term rfl id hid
    have hs := hv.sound hid halike
    have hattuned := Machine.attuned_forcing (books book) term
    have hjust := Engine.justified_forcing (books book) engine.sends term
    have hready := run_haltAlike ⟨book, .ready term⟩ ⟨book, .ready term⟩ rfl term []
      (fun fuel rest engine' hrun => by
        obtain ⟨hrest, hjust, hkeeps⟩ := Machine.atRest_run hattuned hv.stepLimit hs hjust hrun
        simp only [Dialogue.after_nil]
        exact ⟨hrest, hjust, hkeeps.served hv.stepLimit hid halike⟩)
      (fun fuel hd => hattuned.settles hv.stepLimit hs hjust (by rwa [Dialogue.after_nil] at hd))
    simp only [Dialogue.after_nil] at hready
    exact hready
  | waiting sent rests => exact .at_once ⟨rfl, ⟨rfl, .waiting sent rests⟩, hstay⟩
  | finished w => exact .at_once ⟨rfl, ⟨rfl, .finished w⟩, hstay⟩
  | closed started =>
    cases started with
    | false => exact .at_once ⟨rfl, ⟨rfl, .closed true⟩, hstay⟩
    | true => exact .at_once ⟨rfl, ⟨rfl, .closed true⟩, hstay⟩

theorem Agrees.resume (h : reduction.Agrees books engine.sends direct) (hv : engine.Valid books)
    (hbound : engine.boundTo ≠ none)
    (ha : ∀ bits current suspended, reduction.phase = .waiting bits current suspended →
      reduction.Suits books engine) (reply : List Char) (seq : Option Int) :
    HaltAlike (Stepped books engine)
      (fun fuel => reduction.resume (books reduction.book) fuel engine reply seq)
      (fun fuel => direct.resume (books direct.book) fuel reply seq) := by
  obtain ⟨id, hid⟩ := Option.ne_none_iff_exists'.1 hbound
  obtain ⟨book, phase⟩ := reduction
  obtain ⟨book', phase'⟩ := direct
  obtain ⟨rfl, hphase⟩ := h
  have hstay : engine.Served books engine := ⟨hv, Nat.le_refl _, fun hne => hne⟩
  cases hphase with
  | ready term => exact .at_once ⟨rfl, ⟨rfl, .ready term⟩, hstay⟩
  | @waiting bits suspended term replies sent rests =>
    have halike := ha _ _ _ rfl id hid
    have hs := hv.sound hid halike
    dsimp only [Reduction.resume, Direct.Reduction.resume]
    cases seq.filter (· ≠ ((replies.length + 1 : Nat) : Int)) with
    | some wrong => exact .at_once ⟨rfl, ⟨rfl, .waiting sent rests⟩, hstay⟩
    | none =>
      have hlength : (replies ++ [reply]).length = replies.length + 1 := List.length_append
      rw [← hlength]
      apply run_haltAlike
      · rfl
      · intro fuel rest engine' hrun
        obtain ⟨hrest, hjust, hkeeps⟩ :=
          Machine.atRest_resume rests hv.stepLimit hs sent hrun
        simp only [Dialogue.after_append]
        exact ⟨hrest, hjust, hkeeps.served hv.stepLimit hid halike⟩
      · intro fuel hd
        rw [Dialogue.after_append] at hd
        exact Machine.resume_settles rests hv.stepLimit hs sent hd
  | finished w => exact .at_once ⟨rfl, ⟨rfl, .finished w⟩, hstay⟩
  | closed started => exact .at_once ⟨rfl, ⟨rfl, .closed started⟩, hstay⟩

end Reduction

namespace Desk

/-- An operation that runs no reduction while the engine is bound to a book unlike its own. -/
def Harmless (books : Nat → Book) (desk : Desk) : Operation → Prop
  | .advance index => ∀ reduction term, desk.reductions[index]? = some reduction →
      reduction.phase = .ready term → reduction.Suits books desk.engine
  | .resume index _ _ => ∀ reduction bits seq suspended, desk.reductions[index]? = some reduction →
      reduction.phase = .waiting bits seq suspended → reduction.Suits books desk.engine
  | _ => True

structure Agrees (books : Nat → Book) (desk : Desk) (directs : List Direct.Reduction) : Prop where
  valid : desk.engine.Valid books
  bound : desk.reductions ≠ [] → desk.engine.boundTo ≠ none
  length : desk.reductions.length = directs.length
  each : ∀ (index : Nat) (reduction : Reduction) (direct : Direct.Reduction),
    desk.reductions[index]? = some reduction → directs[index]? = some direct →
    reduction.Agrees books desk.engine.sends direct

variable {books : Nat → Book} {desk : Desk} {directs : List Direct.Reduction} {engine' : Engine}

theorem agrees_fresh (books : Nat → Book) (memoLimit : Int) (recorder : Trace.Recorder) :
    (fresh memoLimit recorder).Agrees books [] where
  valid := ⟨rfl, fun term w hfind => by simp [fresh] at hfind⟩
  bound := fun hne => absurd rfl hne
  length := rfl
  each := fun index reduction direct h => by simp [fresh] at h

theorem Agrees.served (h : desk.Agrees books directs) (hs : desk.engine.Served books engine') :
    Agrees books { desk with engine := engine' } directs where
  valid := hs.valid
  bound := fun hne => hs.bound (h.bound hne)
  length := h.length
  each := fun index reduction direct hr hd => (h.each index reduction direct hr hd).mono hs.grown

theorem Agrees.set (h : desk.Agrees books directs) (hs : desk.engine.Served books engine')
    {index : Nat} {reduction : Reduction} {direct : Direct.Reduction}
    (hr : reduction.Agrees books engine'.sends direct) :
    Agrees books ⟨engine', desk.reductions.set index reduction⟩ (directs.set index direct) where
  valid := hs.valid
  bound := fun hne => hs.bound (h.bound fun hnil => hne (by rw [hnil]; rfl))
  length := by simp only [List.length_set, h.length]
  each := by
    intro other reduction' direct' hr' hd'
    rw [List.getElem?_set] at hr' hd'
    by_cases hother : index = other
    · subst hother
      rw [if_pos rfl] at hr' hd'
      split at hr'
      · split at hd'
        · cases hr'
          cases hd'
          exact hr
        · cases hd'
      · cases hr'
    · rw [if_neg hother] at hr' hd'
      exact (h.each other reduction' direct' hr' hd').mono hs.grown

theorem Agrees.start (h : desk.Agrees books directs) (id : Nat) (term : Term) :
    Agrees books ⟨desk.engine.bind id, desk.reductions ++ [⟨id, .ready term⟩]⟩
      (directs ++ [⟨id, .ready term⟩]) where
  valid := h.valid.bind id
  bound := fun _ => by rw [Engine.bind_boundTo]; exact nofun
  length := by simp only [List.length_append, h.length, List.length_singleton]
  each := by
    intro index reduction direct hr hd
    rw [List.getElem?_append] at hr hd
    rw [← h.length] at hd
    split at hr
    · rename_i hlt
      rw [if_pos hlt] at hd
      have hsends := desk.engine.bind_sends id
      exact (h.each index reduction direct hr hd).mono (Nat.le_of_eq hsends.symm)
    · rename_i hlt
      rw [if_neg hlt] at hd
      obtain ⟨rfl⟩ := List.mem_singleton.1 (List.mem_of_getElem? hr)
      obtain ⟨rfl⟩ := List.mem_singleton.1 (List.mem_of_getElem? hd)
      exact ⟨rfl, .ready term⟩

theorem Agrees.lookup (h : desk.Agrees books directs) (index : Nat) :
    (desk.reductions[index]? = none ∧ directs[index]? = none) ∨
      ∃ reduction direct, desk.reductions[index]? = some reduction ∧
        directs[index]? = some direct ∧ reduction.Agrees books desk.engine.sends direct ∧
        desk.engine.boundTo ≠ none := by
  by_cases hlt : index < desk.reductions.length
  · have hlt' : index < directs.length := h.length ▸ hlt
    refine .inr ⟨_, _, List.getElem?_eq_getElem hlt, List.getElem?_eq_getElem hlt', ?_, ?_⟩
    · exact h.each index _ _ (List.getElem?_eq_getElem hlt) (List.getElem?_eq_getElem hlt')
    · exact h.bound fun hnil => by simp [hnil] at hlt
  · have hle : desk.reductions.length ≤ index := Nat.le_of_not_lt hlt
    exact .inl ⟨List.getElem?_eq_none hle, List.getElem?_eq_none (h.length ▸ hle)⟩

/-- A harmless operation halts on both sides or on neither, with the same answer, and leads from
    agreement to agreement. -/
theorem Agrees.perform (h : desk.Agrees books directs) {operation : Operation}
    (ho : desk.Harmless books operation) :
    HaltAlike (fun halt direct => halt.1 = direct.1 ∧ halt.2.Agrees books direct.2)
      (fun fuel => desk.perform books fuel operation)
      (fun fuel => Direct.perform books fuel directs operation) := by
  have hstay : desk.engine.Served books desk.engine := ⟨h.valid, Nat.le_refl _, fun hne => hne⟩
  cases operation with
  | eval id term peer =>
    refine (h.valid.eval_haltAlike id (Link.ofPeer peer) [] term).followed ?_
    rintro ⟨result, engine', requests⟩ direct ⟨rfl, hserved⟩
    exact ⟨rfl, h.served hserved⟩
  | weakHead id term =>
    refine (h.valid.weakHead_haltAlike id term).followed ?_
    rintro ⟨result, engine'⟩ direct ⟨rfl, hserved⟩
    exact ⟨rfl, h.served hserved⟩
  | start id term =>
    cases term with
    | none => exact .at_once ⟨rfl, h⟩
    | some term => exact .at_once ⟨rfl, h.start id term⟩
  | advance index =>
    dsimp only [Desk.perform, Direct.perform]
    obtain ⟨hr, hd⟩ | ⟨reduction, direct, hr, hd, hagrees, hbound⟩ := h.lookup index
    · rw [hr, hd]
      exact .at_once ⟨rfl, h⟩
    · rw [hr, hd]
      refine (hagrees.advance h.valid hbound fun term => ho reduction term hr).followed ?_
      rintro ⟨outcome, reduction', engine'⟩ ⟨outcome', direct'⟩ ⟨rfl, hagrees', hserved⟩
      exact ⟨rfl, h.set hserved hagrees'⟩
  | resume index reply seq =>
    dsimp only [Desk.perform, Direct.perform]
    obtain ⟨hr, hd⟩ | ⟨reduction, direct, hr, hd, hagrees, hbound⟩ := h.lookup index
    · rw [hr, hd]
      exact .at_once ⟨rfl, h⟩
    · rw [hr, hd]
      refine (hagrees.resume h.valid hbound
        (fun bits current suspended => ho reduction bits current suspended hr)
        reply seq).followed ?_
      rintro ⟨outcome, reduction', engine'⟩ ⟨outcome', direct'⟩ ⟨rfl, hagrees', hserved⟩
      exact ⟨rfl, h.set hserved hagrees'⟩
  | cancel index =>
    dsimp only [Desk.perform, Direct.perform]
    obtain ⟨hr, hd⟩ | ⟨reduction, direct, hr, hd, hagrees, -⟩ := h.lookup index
    · rw [hr, hd]
      exact .at_once ⟨rfl, h⟩
    · rw [hr, hd]
      exact .at_once ⟨rfl, h.set hstay hagrees.cancel⟩
  | forget =>
    refine .at_once ⟨rfl, h.served ⟨h.valid.forget, Nat.le_refl _, fun hne => hne⟩⟩

end Desk

end SignalCalculus
