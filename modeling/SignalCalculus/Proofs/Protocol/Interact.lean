import SignalCalculus.Proofs.Protocol.Endings
import SignalCalculus.Proofs.Protocol.Round

set_option autoImplicit false

namespace SignalCalculus

theorem Round.pictures?_ofPictures (pictures : List (List (Int × Int))) :
    Round.pictures? (.ofPictures pictures) = .ok pictures := by
  induction pictures with
  | nil => rfl
  | cons points pictures ih =>
    rw [Term.ofPictures, Term.cell, Round.pictures?, ih]
    rfl

theorem Round.ofTerm_cell (state : Value) (pictures : List (List (Int × Int))) :
    Round.ofTerm (.cell (.ofValue state) (.cell (.ofPictures pictures) (.fn .nil))) =
      .ok ⟨state.symbols, pictures⟩ := by
  have hstate : (Term.ofValue state).symbols = state.symbols := Term.symbolsOnto_ofValue state []
  simp only [Round.ofTerm, Term.cell, Term.cell?, Round.pictures?_ofPictures, hstate]
  rfl

open Desk (Reached Prints Returns Sends)

theorem Session.interact_of_forces {session : Session} {reductions : List Reduction}
    (hreached : Reached session.ownBook ⟨session.engine, reductions⟩) {protocol program : List Symbol}
    {p s : Term} (hp : Term.build protocol = .ok (some p)) (hs : Term.build program = .ok (some s))
    (x y : Int) {state : Value} {pictures : List (List (Int × Int))}
    (hw : Direct.Forces session.ownBook
      ((Term.fn .interact).apply [p, s, (Term.fn .vec).apply [.num x, .num y]])
      (.cell (.ofValue state) (.cell (.ofPictures pictures) (.fn .nil)))) :
    ∃ fuel session', session.interact fuel protocol program x y =
        some (.ok (.round ⟨state.symbols, pictures⟩), session') ∧
      session'.link = session.link ∧ session'.state = state.symbols := by
  have hcloses := Direct.forceCloses_ok_iff.2 (Direct.tells_ends_iff.2 hw)
  obtain ⟨fuel, engine, hrun⟩ :=
    hreached.closesSilently 0 hcloses (Link.optional Link.recorded) session.link
  have heval : session.evalTerm fuel 0
      (some ((Term.fn .interact).apply [p, s, (Term.fn .vec).apply [.num x, .num y]])) =
      some (.ok (.cell (.ofValue state) (.cell (.ofPictures pictures) (.fn .nil))),
        { session with engine }) := by
    rw [Session.evalTerm]
    exact Option.bind_eq_some_iff.2 ⟨_, hrun, rfl⟩
  refine ⟨fuel, { session with engine, state := state.symbols }, ?_, rfl, rfl⟩
  rw [Session.interact, Term.build_round hp hs]
  refine Option.bind_eq_some_iff.2 ⟨_, heval, ?_⟩
  dsimp only
  rw [Round.ofTerm_cell]
  rfl

namespace Desk

/-- If a protocol, applied to a state and an event, answers without a request with a flag, a next
    state and data, then a round with a zero flag and data that are pictures returns, without a
    request, the next state and these pictures, in a session as well; and a round with any other
    flag sends the requests of the round that starts from the next state with the sent data as its
    event, and returns, for the same replies, the same results that hold nothing but data. -/
theorem interact_follows_protocol {book : Book} {desk desk' desk'' : Desk} (id id' id'' : Nat)
    {p s e : Term} {flag : Int} {state data rest : Value} (hdesk : Reached book desk)
    (hdesk' : Reached book desk') (hdesk'' : Reached book desk'')
    (hanswer : Prints book id desk (p.apply [s, e])
      (Value.pair (.num flag) (.pair state (.pair data rest))).symbols) :
    (flag = 0 → ∀ pictures, data = .ofPictures pictures →
      Prints book id' desk' ((Term.fn .interact).apply [p, s, e])
        (Term.cell (.ofValue state) (.cell (.ofPictures pictures) (.fn .nil))).symbols ∧
      ∀ (session : Session) (reductions : List Reduction) (protocol program : List Symbol)
        (x y : Int), session.ownBook = book → Reached book ⟨session.engine, reductions⟩ →
        Term.build protocol = .ok (some p) → Term.build program = .ok (some s) →
        e = (Term.fn .vec).apply [.num x, .num y] →
        ∃ fuel session', session.interact fuel protocol program x y =
            some (.ok (.round ⟨state.symbols, pictures⟩), session') ∧
          session'.link = session.link ∧ session'.state = state.symbols) ∧
    (flag ≠ 0 →
      (∀ replies requests,
        Sends book id' desk' ((Term.fn .interact).apply [p, s, e]) replies requests ↔
          Sends book id'' desk'' ((Term.fn .interact).apply
            [p, .ofValue state, .app (.fn .send) (.ofValue data)]) replies requests) ∧
      ∀ replies requests w, w.IsData →
        (Returns book id' desk' ((Term.fn .interact).apply [p, s, e]) replies requests w ↔
          Returns book id'' desk'' ((Term.fn .interact).apply
            [p, .ofValue state, .app (.fn .send) (.ofValue data)]) replies requests w)) := by
  have hdenotes := hdesk.prints_value_iff.1 hanswer
  constructor
  · rintro rfl pictures rfl
    have hforces := Direct.forces_interact_of_flag_eq_zero hdenotes
    refine ⟨hdesk'.prints_iff.2 ⟨_, hforces, rfl⟩, ?_⟩
    rintro session reductions protocol program x y rfl hreached hp hs rfl
    exact Session.interact_of_forces hreached hp hs x y hforces
  · intro hflag
    have htells : ∀ trips (pause : Pause Term), pause.IsData →
        (Direct.Tells book ((Term.fn .interact).apply [p, s, e]) trips pause ↔
          Direct.Tells book ((Term.fn .interact).apply
            [p, .ofValue state, .app (.fn .send) (.ofValue data)]) trips pause) :=
      fun trips pause => Direct.tells_interact_of_flag_ne_zero hflag hdenotes
    constructor
    · intro replies requests
      rw [hdesk'.sends_iff, hdesk''.sends_iff]
      exact exists_congr fun trips => exists_congr fun bits =>
        and_congr_left' (htells trips (.asks bits) trivial)
    · intro replies requests w hw
      rw [hdesk'.returns_iff, hdesk''.returns_iff]
      exact exists_congr fun trips => exists_congr fun left =>
        and_congr_left' (htells trips (.ends w) hw)

/-- A protocol that keeps its state and has the event for its data: it answers a state `s` and an
    event `e` with the flag, `s` and the list of the one picture of the one point `e`. -/
def showsEvent (flag : Int) : Term :=
  let wrap := (Term.fn .c).apply [.fn .cons, .fn .nil]
  let data := (Term.fn .b).apply [wrap, (Term.fn .b).apply [wrap, wrap]]
  let answer := (Term.fn .c).apply [(Term.fn .b).apply [.fn .b, .fn .cons], data]
  (Term.fn .b).apply [(Term.fn .b).apply [.app (.fn .cons) (.num flag)], answer]

/-- With a zero flag the round returns the state and the picture of the event; with flag 1 it sends
    what the round sends whose event is the reply to the data. -/
theorem interact_shows_event :
    Reached {} (fresh 0 {}) ∧
    (∀ flag, Prints {} 0 (fresh 0 {})
      ((showsEvent flag).apply [.num 7, (Term.fn .vec).apply [.num 1, .num 2]])
      (Value.pair (.num flag) (.pair (.num 7) (.pair (.ofPictures [[(1, 2)]]) .nil))).symbols) ∧
    Prints {} 0 (fresh 0 {})
      ((Term.fn .interact).apply
        [showsEvent 0, .num 7, (Term.fn .vec).apply [.num 1, .num 2]])
      (Term.cell (.ofValue (.num 7)) (.cell (.ofPictures [[(1, 2)]]) (.fn .nil))).symbols ∧
    ∀ replies requests,
      Sends {} 0 (fresh 0 {}) ((Term.fn .interact).apply
        [showsEvent 1, .num 7, (Term.fn .vec).apply [.num 1, .num 2]]) replies requests ↔
      Sends {} 0 (fresh 0 {}) ((Term.fn .interact).apply
        [showsEvent 1, .num 7, .app (.fn .send) (.ofValue (.ofPictures [[(1, 2)]]))])
        replies requests := by
  have hfresh : Reached {} (fresh 0 {}) := ⟨0, {}, [], [], .nil _⟩
  have hforce : ∀ flag, Direct.force {} 30
      ((showsEvent flag).apply [.num 7, (Term.fn .vec).apply [.num 1, .num 2]]) =
      .done (.ofValue (.pair (.num flag)
        (.pair (.num 7) (.pair (.ofPictures [[(1, 2)]]) .nil)))) := by
    intro flag
    cbv
  have hanswer : ∀ flag, Prints {} 0 (fresh 0 {})
      ((showsEvent flag).apply [.num 7, (Term.fn .vec).apply [.num 1, .num 2]])
      (Value.pair (.num flag)
        (.pair (.num 7) (.pair (.ofPictures [[(1, 2)]]) .nil))).symbols :=
    fun flag => hfresh.prints_value_iff.2 ⟨30, hforce flag⟩
  have hends := interact_follows_protocol 0 0 0 hfresh hfresh hfresh (hanswer 0)
  have hgoes := interact_follows_protocol 0 0 0 hfresh hfresh hfresh (hanswer 1)
  exact ⟨hfresh, hanswer, (hends.1 rfl [[(1, 2)]] rfl).1,
    (hgoes.2 (by decide)).1⟩

end Desk

end SignalCalculus
