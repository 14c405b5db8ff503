import SignalCalculus.Proofs.Desk.Transparency
import SignalCalculus.Proofs.Memo.Probe

set_option autoImplicit false

/-!
# Desks with several books

The memo of an engine is for the book that the engine is bound to, and a query binds the engine to
its book. A stepped reduction is run later, with its own book and with whatever memo the engine has
then. As long as reductions are only run while the engine is bound to a book like their own, every
entry is what a new engine finds in the bound book, and every reduction that ends without a request
has the result that a new engine has in its own book. Without that condition this holds of all
histories only if all books are alike.
-/

namespace SignalCalculus

open Direct (Reduces)

namespace Engine

variable {book : Book} {term w : Term}

theorem valid_new (books : Nat → Book) : ({} : Engine).Valid books :=
  ⟨rfl, fun term w hfind => by simp at hfind⟩

def Normalizes (book : Book) (term w : Term) : Prop :=
  ∃ fuel engine, ({} : Engine).weakHead 0 book fuel term = some (.ok w, engine)

def Evaluates (book : Book) (term w : Term) : Prop :=
  ∃ fuel engine,
    ({} : Engine).eval 0 book fuel Link.absent () (some term) = some (.ok w, engine, ())

theorem normalizes_iff : Normalizes book term w ↔ Reduces book term w :=
  (valid_new fun _ => book).weakHead_iff

theorem Evaluates.of_force {fuel : Nat} (hw : Direct.force book fuel term = .done w) :
    Evaluates book term w :=
  (valid_new fun _ => book).eval_absent_iff.2 ⟨fuel, hw⟩

end Engine

theorem Dialogue.converse_requests {peer : Peer} {dialogue : Dialogue Term}
    {requests requests' : List (List Char)} {result : Except Fault Term}
    (h : dialogue.converse (Link.ofPeer peer) requests = some (result, requests')) :
    requests.length ≤ requests'.length := by
  induction dialogue generalizing requests with
  | done w => cases h; exact Nat.le_refl _
  | failed fault => cases h; exact Nat.le_refl _
  | unfinished => cases h
  | ask bits next ih =>
    simp only [Dialogue.converse, Link.ofPeer] at h
    cases hp : peer (requests ++ [bits]) with
    | error fault =>
      rw [hp] at h
      cases h
      simp
    | ok reply =>
      rw [hp] at h
      have hle := ih reply h
      simp only [List.length_append, List.length_singleton] at hle
      omega

theorem Dialogue.done_of_converse {peer : Peer} {dialogue : Dialogue Term} {w : Term}
    (h : dialogue.converse (Link.ofPeer peer) [] = some (.ok w, [])) : dialogue = .done w := by
  cases dialogue with
  | done v => cases h; rfl
  | failed fault => cases h
  | unfinished => cases h
  | ask bits next =>
    simp only [Dialogue.converse, Link.ofPeer] at h
    cases hp : peer ([] ++ [bits]) with
    | error fault => rw [hp] at h; cases h
    | ok reply =>
      rw [hp] at h
      have hle := Dialogue.converse_requests h
      simp at hle

namespace Desk

open Engine (Normalizes Evaluates)

variable {books : Nat → Book} {desk : Desk}

/-- Every entry is what a new engine finds in the book that this engine is bound to. -/
def EntriesHold (books : Nat → Book) (engine : Engine) : Prop :=
  ∀ term w, engine.memo.find? term = some w →
    ∃ id, engine.boundTo = some id ∧ Normalizes (books id) term w

/-- If the operation ends without a request, a new engine has the same result in the operation's own
    book; a reduction's own book is the one that it was started with. -/
def OwnResult (books : Nat → Book) (desk : Desk) : Operation → Answer → Prop
  | .eval id (some term) _, .evaluated (.ok w) [] => Evaluates (books id) term w
  | .weakHead id term, .normalized (.ok w) => Normalizes (books id) term w
  | .advance index, .stepped (.ok (.done w)) => ∀ reduction term,
      desk.reductions[index]? = some reduction → reduction.phase = .ready term →
      Evaluates (books reduction.book) term w
  | _, _ => True

theorem EntriesHold.of_valid {engine : Engine} (h : engine.Valid books) :
    EntriesHold books engine := by
  intro term w hfind
  obtain ⟨id, hid, hw⟩ := h.entries term w hfind
  exact ⟨id, hid, Engine.normalizes_iff.2 hw⟩

theorem Agrees.ownResult {directs : List Direct.Reduction} (h : desk.Agrees books directs)
    {operation : Operation} (ho : desk.Harmless books operation) {fuel : Nat} {answer : Answer}
    {next : Desk} (hrun : desk.perform books fuel operation = some (answer, next)) :
    OwnResult books desk operation answer := by
  obtain ⟨fuel', ⟨answer', directs'⟩, hdirect, hanswer, -⟩ := (h.perform ho).forth fuel _ hrun
  obtain rfl : answer = answer' := hanswer
  unfold OwnResult
  split
  · rename_i id term peer w
    obtain ⟨⟨result, requests⟩, heval, heq⟩ := Option.bind_eq_some_iff.1 hdirect
    cases heq
    exact .of_force (Dialogue.done_of_converse heval)
  · rename_i id term w
    obtain ⟨result, hweak, heq⟩ := Option.bind_eq_some_iff.1 hdirect
    cases heq
    exact Engine.normalizes_iff.2 ⟨fuel', Direct.weakHead_eq_ok.1 hweak⟩
  · rename_i index w
    intro reduction term hr hphase
    dsimp only [Direct.perform] at hdirect
    obtain ⟨hnone, -⟩ | ⟨reduction', direct, hr', hd, hagrees, -⟩ := h.lookup index
    · rw [hnone] at hr
      cases hr
    · rw [hr] at hr'
      cases hr'
      rw [hd] at hdirect
      obtain ⟨⟨outcome, direct'⟩, hadvance, heq⟩ := Option.bind_eq_some_iff.1 hdirect
      cases heq
      obtain ⟨book, phase⟩ := reduction
      obtain ⟨book', phase'⟩ := direct
      obtain ⟨rfl, hagree⟩ := hagrees
      cases hphase
      cases hagree
      exact .of_force (Direct.Reduction.done_of_rest hadvance)
  · trivial

end Desk

theorem Reduction.advance_of_entry {engine : Engine} {term w : Term}
    (hfind : engine.memo.find? term = some w) (hcell : w.cell? = none) {book : Book} {id : Nat} :
    Reduction.advance book 3 engine ⟨id, .ready term⟩ =
      some (.ok (.done w), ⟨id, .finished w⟩, engine.report .cached) := by
  simp only [Reduction.advance, Machine.run, Machine.forcing, Machine.settleFrom, Machine.step,
    Machine.rebuild, hfind, hcell, place]
  rfl

namespace Desk

open Engine (Evaluates)

variable {books : Nat → Book}

/-- If the memo holds for the bound book whatever is done at a desk, each book has the weak head
    normal forms of every other one: a reduction of the first book that is run after one of the
    second has been started enters them. -/
theorem reduces_of_entriesHold {first second : Nat}
    (h : ∀ operations answers desk, History (perform books) (fun _ _ => True) (fresh 0 {})
      operations answers desk → EntriesHold books desk.engine)
    {term w : Term} (hw : Reduces (books first) term w) : Reduces (books second) term w := by
  by_cases hsame : first = second
  · exact hsame ▸ hw
  · have hempty : ((({} : Engine).bind first).bind second).memo = .empty := by
      have hbound : (({} : Engine).bind first).boundTo ≠ some second := by
        rw [Engine.bind_boundTo]
        simpa using hsame
      rw [Engine.bind, if_pos hbound]
    have hlimit := (((Engine.valid_new books).bind first).bind second).stepLimit
    -- The first book's reduction is run while the engine is bound to the second.
    obtain ⟨fuel, rest, engine', hrun, hbound, hentry⟩ := Machine.run_probe hlimit hempty hw
    rw [Engine.bind_boundTo] at hbound
    have hadvance : ∃ answer reductions, perform books fuel
        ⟨(({} : Engine).bind first).bind second,
          [⟨first, .ready (probe term)⟩, ⟨second, .ready (probe term)⟩]⟩ (.advance 0) =
        some (answer, ⟨engine', reductions⟩) := by
      simp only [perform, List.getElem?_cons_zero, Reduction.advance]
      rw [hrun]
      exact ⟨_, _, rfl⟩
    obtain ⟨answer, reductions, hadvance⟩ := hadvance
    have hhistory : History (perform books) (fun _ _ => True) (fresh 0 {})
        [.start first (some (probe term)), .start second (some (probe term)), .advance 0]
        [.started, .started, answer] ⟨engine', reductions⟩ :=
      .cons 0 trivial rfl (.cons 0 trivial rfl (.cons fuel trivial hadvance (.nil _)))
    obtain ⟨id, hid, hnormal⟩ := h _ _ _ hhistory term w hentry
    rw [hbound] at hid
    cases hid
    exact Engine.normalizes_iff.1 hnormal

/-- The entries of the memo hold for the bound book, and reductions that end without a request have
    the results of their own books, as long as no reduction is run while the engine is bound to a
    book unlike its own. Whatever is done at a desk, the entries hold if and only if all books are
    alike. -/
theorem entries_hold_for_bound_book (books : Nat → Book) :
    (∀ memoLimit recorder operations answers desk,
      History (perform books) (Harmless books) (fresh memoLimit recorder) operations answers desk →
      EntriesHold books desk.engine ∧
        ∀ operation answer next fuel, desk.Harmless books operation →
          desk.perform books fuel operation = some (answer, next) →
          OwnResult books desk operation answer) ∧
    ((∀ memoLimit recorder operations answers desk,
        History (perform books) (fun _ _ => True) (fresh memoLimit recorder)
          operations answers desk →
        EntriesHold books desk.engine) ↔
      ∀ first second, (books first).Alike (books second)) := by
  refine ⟨?_, ?_, ?_⟩
  · intro memoLimit recorder operations answers desk h
    obtain ⟨directs, -, hagrees⟩ :=
      h.direct (fun _ _ harmless => harmless) (agrees_fresh books memoLimit recorder)
    refine ⟨.of_valid hagrees.valid, fun operation answer next fuel harmless hrun => ?_⟩
    exact hagrees.ownResult harmless hrun
  · intro h first second term w
    exact ⟨reduces_of_entriesHold (h 0 {}), reduces_of_entriesHold (h 0 {})⟩
  · intro halike memoLimit recorder operations answers desk h
    obtain ⟨directs, -, hagrees⟩ := h.direct (fun desk operation _ => harmless_of_alike halike _ _)
      (agrees_fresh books memoLimit recorder)
    exact .of_valid hagrees.valid

def twoBooks : Nat → Book
  | 0 => ({} : Book).record [.var 1] [.plain 1] (some (1, .num 1))
  | _ => ({} : Book).record [.var 1] [.plain 2] (some (1, .num 2))

def boundVar : Term := .atom (.var 1)

def twoStarted : Desk :=
  ⟨(({} : Engine).bind 0).bind 1, [⟨0, .ready boundVar⟩, ⟨1, .ready boundVar⟩]⟩

/-- The reduction of the bound book is run first, which does no harm. -/
theorem entries_hold_for_own_run : ∃ answer next,
    History (perform twoBooks) (Harmless twoBooks) (fresh 0 {})
      [.start 0 (some boundVar), .start 1 (some boundVar)] [.started, .started] twoStarted ∧
    twoStarted.Harmless twoBooks (.advance 1) ∧
    twoStarted.perform twoBooks 12 (.advance 1) = some (answer, next) ∧
    EntriesHold twoBooks twoStarted.engine ∧
    OwnResult twoBooks twoStarted (.advance 1) answer := by
  have hhistory : History (perform twoBooks) (Harmless twoBooks) (fresh 0 {})
      [.start 0 (some boundVar), .start 1 (some boundVar)] [.started, .started] twoStarted :=
    .cons 0 trivial rfl (.cons 0 trivial rfl (.nil _))
  have harmless : twoStarted.Harmless twoBooks (.advance 1) := by
    intro reduction term hr _ id hid
    cases hr
    cases hid
    exact .refl _
  have hrun : (twoStarted.perform twoBooks 12 (.advance 1)).isSome := by cbv
  obtain ⟨⟨answer, next⟩, hrun⟩ := Option.isSome_iff_exists.1 hrun
  obtain ⟨hentries, hown⟩ := (entries_hold_for_bound_book twoBooks).1 0 {} _ _ _ hhistory
  exact ⟨answer, next, hhistory, harmless, hrun, hentries, hown _ _ _ _ harmless hrun⟩

/-- The reduction of the other book is run first: its result is entered for the bound book, and the
    reduction of the bound book takes it from there. -/
theorem advance_takes_result_of_other_book : ∃ desk,
    History (perform twoBooks) (fun _ _ => True) (fresh 0 {})
      [.start 0 (some boundVar), .start 1 (some boundVar), .advance 0, .advance 1]
      [.started, .started, .stepped (.ok (.done (.num 1))), .stepped (.ok (.done (.num 1)))] desk ∧
    ¬EntriesHold twoBooks desk.engine ∧ Evaluates (twoBooks 1) boundVar (.num 2) := by
  have hfirst : (twoStarted.perform twoBooks 12 (.advance 0)).map
      (fun (answer, next) => (answer, next.reductions, next.engine.boundTo,
        next.engine.memo.find? boundVar)) =
      some (.stepped (.ok (.done (.num 1))), [⟨0, .finished (.num 1)⟩, ⟨1, .ready boundVar⟩],
        some 1, some (.num 1)) := by
    cbv
  obtain ⟨⟨answer, engine, reductions⟩, hfirst, heq⟩ := Option.map_eq_some_iff.1 hfirst
  obtain ⟨hanswer, hreductions, hbound, hentry⟩ :
      answer = .stepped (.ok (.done (.num 1))) ∧
        reductions = [⟨0, .finished (.num 1)⟩, ⟨1, .ready boundVar⟩] ∧
        engine.boundTo = some 1 ∧ engine.memo.find? boundVar = some (.num 1) := by
    simpa only [Prod.mk.injEq] using heq
  subst hanswer hreductions
  have hsecond : perform twoBooks 3 ⟨engine, [⟨0, .finished (.num 1)⟩, ⟨1, .ready boundVar⟩]⟩
      (.advance 1) = some (.stepped (.ok (.done (.num 1))),
        ⟨engine.report .cached, [⟨0, .finished (.num 1)⟩, ⟨1, .finished (.num 1)⟩]⟩) := by
    simp only [perform, List.getElem?_cons_succ, List.getElem?_cons_zero]
    rw [Reduction.advance_of_entry hentry rfl]
    rfl
  have hown : Reduces (twoBooks 1) boundVar (.num 2) := ⟨4, by cbv⟩
  have hforce : Direct.force (twoBooks 1) 5 boundVar = .done (.num 2) := by cbv
  refine ⟨_, .cons 0 trivial rfl (.cons 0 trivial rfl
    (.cons 12 trivial hfirst (.cons 3 trivial hsecond (.nil _)))), ?_, ?_⟩
  · intro hhold
    obtain ⟨id, hid, hnormal⟩ := hhold boundVar (.num 1) hentry
    obtain rfl : 1 = id := Option.some.inj (hbound.symm.trans hid)
    have hsame := (Engine.normalizes_iff.1 hnormal).unique hown
    exact absurd hsame (by decide)
  · exact .of_force hforce

end Desk

end SignalCalculus
