import SignalCalculus.Proofs.Memo.Conversation

set_option autoImplicit false

namespace SignalCalculus

open Direct (Reduces)
open Machine (AtRest Attuned Matches)

/-- Two computations, each of which halts with some fuel or never, halt alike: if one of them does,
    so does the other, with a related result. -/
structure HaltAlike {α β : Type} (related : α → β → Prop) (first : Nat → Option α)
    (second : Nat → Option β) : Prop where
  forth : ∀ fuel a, first fuel = some a → ∃ fuel' b, second fuel' = some b ∧ related a b
  back : ∀ fuel b, second fuel = some b → ∃ fuel' a, first fuel' = some a ∧ related a b

theorem HaltAlike.at_once {α β : Type} {related : α → β → Prop} {a : α} {b : β}
    (h : related a b) : HaltAlike related (fun _ => some a) (fun _ => some b) := by
  constructor
  · rintro fuel _ ⟨⟩
    exact ⟨0, b, rfl, h⟩
  · rintro fuel _ ⟨⟩
    exact ⟨0, a, rfl, h⟩

theorem HaltAlike.followed {α β γ δ : Type} {related : α → β → Prop} {related' : γ → δ → Prop}
    {first : Nat → Option α} {second : Nat → Option β} {f : α → γ} {g : β → δ}
    (h : HaltAlike related first second) (hfg : ∀ a b, related a b → related' (f a) (g b)) :
    HaltAlike related' (fun fuel => (first fuel).bind fun a => some (f a))
      (fun fuel => (second fuel).bind fun b => some (g b)) := by
  constructor
  · intro fuel c hc
    obtain ⟨a, ha, hfa⟩ := Option.bind_eq_some_iff.1 hc
    cases hfa
    obtain ⟨fuel', b, hb, hab⟩ := h.forth fuel a ha
    exact ⟨fuel', g b, Option.bind_eq_some_iff.2 ⟨b, hb, rfl⟩, hfg a b hab⟩
  · intro fuel d hd
    obtain ⟨b, hb, hgb⟩ := Option.bind_eq_some_iff.1 hd
    cases hgb
    obtain ⟨fuel', a, ha, hab⟩ := h.back fuel b hb
    exact ⟨fuel', f a, Option.bind_eq_some_iff.2 ⟨a, ha, rfl⟩, hfg a b hab⟩

/-- Two books give the same terms the same weak head normal forms. -/
def Book.Alike (first second : Book) : Prop :=
  ∀ term w, Reduces first term w ↔ Reduces second term w

theorem Book.Alike.refl (book : Book) : book.Alike book := fun _ _ => Iff.rfl

namespace Engine

variable {σ : Type} {link : Link σ} {say : Nat → Dialogue Term}

/-- There is no step limit, and every entry of the memo is a weak head normal form in the book that
    the engine is bound to. -/
structure Valid (books : Nat → Book) (engine : Engine) : Prop where
  stepLimit : engine.stepLimit = 0
  entries : ∀ term w, engine.memo.find? term = some w →
    ∃ id, engine.boundTo = some id ∧ Reduces (books id) term w

variable {books : Nat → Book} {engine engine' : Engine}

theorem Valid.sound {book : Book} {id : Nat} (h : engine.Valid books)
    (hid : engine.boundTo = some id) (ha : book.Alike (books id)) : engine.memo.Sound book := by
  intro term w hfind
  obtain ⟨id', hid', hw⟩ := h.entries term w hfind
  rw [hid] at hid'
  cases hid'
  exact (ha term w).2 hw

theorem Keeps.valid {book : Book} {id : Nat} (h : engine.Keeps book engine')
    (hlimit : engine.stepLimit = 0) (hid : engine.boundTo = some id)
    (ha : book.Alike (books id)) : engine'.Valid books := by
  refine ⟨h.stepLimit.trans hlimit, fun term w hfind => ⟨id, h.boundTo.trans hid, ?_⟩⟩
  exact (ha term w).1 (h.sound term w hfind)

theorem bind_boundTo (engine : Engine) (id : Nat) : (engine.bind id).boundTo = some id := by
  unfold bind
  split
  · rfl
  · rename_i hsame
    split <;> simpa using hsame

theorem bind_sends (engine : Engine) (id : Nat) : (engine.bind id).sends = engine.sends := by
  unfold bind
  split
  · rfl
  · split <;> rfl

theorem Valid.bind (h : engine.Valid books) (id : Nat) : (engine.bind id).Valid books := by
  have hempty : ∀ boundTo term w, Memo.empty.find? term = some w →
      ∃ id, boundTo = some id ∧ Reduces (books id) term w := by
    intro boundTo term w hfind
    simp at hfind
  unfold Engine.bind
  split
  · exact ⟨h.stepLimit, hempty _⟩
  · split
    · exact ⟨h.stepLimit, hempty _⟩
    · exact ⟨h.stepLimit, h.entries⟩

theorem Valid.forget (h : engine.Valid books) : engine.forget.Valid books := by
  refine ⟨h.stepLimit, fun term w hfind => ?_⟩
  simp [Engine.forget] at hfind

structure Served (books : Nat → Book) (before after : Engine) : Prop where
  valid : after.Valid books
  grown : before.sends ≤ after.sends
  bound : before.boundTo ≠ none → after.boundTo ≠ none

theorem Keeps.served {book : Book} {id : Nat} (h : engine.Keeps book engine')
    (hlimit : engine.stepLimit = 0) (hid : engine.boundTo = some id)
    (ha : book.Alike (books id)) : engine.Served books engine' where
  valid := h.valid hlimit hid ha
  grown := h.grown
  bound := fun hne => h.boundTo ▸ hne

theorem Served.bind {id : Nat} (h : (engine.bind id).Served books engine') :
    engine.Served books engine' where
  valid := h.valid
  grown := engine.bind_sends id ▸ h.grown
  bound := fun _ => h.bound (by rw [bind_boundTo]; exact nofun)

theorem justified_forcing (book : Book) (sends : Nat) (term : Term) :
    (Machine.forcing term).Justified book sends := rfl

theorem justified_weakHead (book : Book) (engine : Engine) (term : Term) :
    (Machine.weakHead engine term).Justified book engine.sends := by
  refine ⟨Nat.le_refl _, fun _ w hw t ht => ?_, term, List.mem_singleton.2 rfl, trivial⟩
  obtain rfl := List.mem_singleton.1 ht
  exact hw

theorem Valid.bound (h : engine.Valid books) (id : Nat) :
    (engine.bind id).stepLimit = 0 ∧ (engine.bind id).memo.Sound (books id) :=
  ⟨(h.bind id).stepLimit, (h.bind id).sound (engine.bind_boundTo id) (.refl _)⟩

theorem Keeps.served_bind {id : Nat} (h : (engine.bind id).Keeps (books id) engine')
    (hv : engine.Valid books) : engine.Served books engine' :=
  (h.served (hv.bound id).1 (engine.bind_boundTo id) (.refl _)).bind

theorem Valid.eval_direct {id fuel : Nat} {term : Option Term} {state state' : σ}
    {result : Except Fault Term} (h : engine.Valid books)
    (hrun : engine.eval id (books id) fuel link state term = some (result, engine', state')) :
    (∃ fuel', Direct.eval (books id) fuel' link state term = some (result, state')) ∧
      engine.Served books engine' := by
  cases term with
  | none =>
    cases hrun
    exact ⟨⟨0, rfl⟩, h, Nat.le_refl _, fun hne => hne⟩
  | some term =>
    obtain ⟨⟨rest, engine1⟩, hfirst, hrun⟩ := Option.bind_eq_some_iff.1 hrun
    obtain ⟨hlimit, hs⟩ := h.bound id
    obtain ⟨hrest, hjust, hkeeps⟩ := Machine.atRest_run (Machine.attuned_forcing (books id) term)
      hlimit hs (justified_forcing ..) hfirst
    obtain ⟨hdirect, hkeeps'⟩ :=
      converse_direct hrest (hkeeps.stepLimit.trans hlimit) hkeeps.sound hjust hrun
    exact ⟨hdirect, (hkeeps.trans hkeeps').served_bind h⟩

theorem Valid.eval_of_direct {id fuel : Nat} {term : Option Term} {state state' : σ}
    {result : Except Fault Term} (h : engine.Valid books)
    (hrun : Direct.eval (books id) fuel link state term = some (result, state')) :
    ∃ fuel' engine', engine.eval id (books id) fuel' link state term =
      some (result, engine', state') := by
  cases term with
  | none =>
    cases hrun
    exact ⟨0, engine, rfl⟩
  | some term =>
    obtain ⟨hlimit, hs⟩ := h.bound id
    have hattuned := Machine.attuned_forcing (books id) term
    have hjust := justified_forcing (books id) (engine.bind id).sends term
    have hd : Direct.force (books id) fuel term ≠ .unfinished := by
      intro hd
      rw [Direct.eval, hd] at hrun
      cases hrun
    obtain ⟨first, rest, engine1, hfirst⟩ := hattuned.settles hlimit hs hjust hd
    obtain ⟨hrest, hjust, hkeeps⟩ := Machine.atRest_run hattuned hlimit hs hjust hfirst
    obtain ⟨enough, engine', hconverse⟩ := converse_of_direct rfl hrest
      (hkeeps.stepLimit.trans hlimit) hkeeps.sound hjust hrun
    refine ⟨max first enough, engine', Option.bind_eq_some_iff.2 ⟨(rest, engine1), ?_, ?_⟩⟩
    · exact Machine.settleFrom_mono (Nat.le_max_left ..) hfirst
    · exact hconverse _ _ (Nat.le_max_right ..) (Nat.le_max_right ..)

theorem Valid.eval_haltAlike (h : engine.Valid books) (id : Nat) (link : Link σ) (state : σ)
    (term : Option Term) :
    HaltAlike
      (fun (halt : Except Fault Term × Engine × σ) (direct : Except Fault Term × σ) =>
        direct = (halt.1, halt.2.2) ∧ engine.Served books halt.2.1)
      (fun fuel => engine.eval id (books id) fuel link state term)
      (fun fuel => Direct.eval (books id) fuel link state term) := by
  constructor
  · rintro fuel ⟨result, engine', state'⟩ hrun
    obtain ⟨⟨fuel', hdirect⟩, hserved⟩ := h.eval_direct hrun
    exact ⟨fuel', _, hdirect, rfl, hserved⟩
  · rintro fuel ⟨result, state'⟩ hrun
    obtain ⟨fuel', engine', heval⟩ := h.eval_of_direct hrun
    exact ⟨fuel', _, heval, rfl, (h.eval_direct heval).2⟩

theorem Valid.eval_absent_iff (h : engine.Valid books) {id : Nat} {term w : Term} :
    (∃ fuel engine', engine.eval id (books id) fuel Link.absent () (some term) =
      some (.ok w, engine', ())) ↔ ∃ fuel, Direct.force (books id) fuel term = .done w := by
  constructor
  · rintro ⟨fuel, engine', hrun⟩
    obtain ⟨⟨fuel', hdirect⟩, -⟩ := h.eval_direct hrun
    exact ⟨fuel', Direct.eval_eq_ok.1 hdirect⟩
  · rintro ⟨fuel, hw⟩
    exact h.eval_of_direct (Direct.eval_eq_ok.2 hw)

def unlinked : Rest → Except Fault Term
  | .finished w => .ok w
  | .failed fault => .error fault
  | .sent bits _ => .error (.protocol (.noLink bits))

theorem weakHead_eq (engine : Engine) (id : Nat) (book : Book) (fuel : Nat) (term : Term) :
    engine.weakHead id book fuel term =
      (Machine.run book fuel (engine.bind id) (Machine.weakHead (engine.bind id) term)).map
        fun (rest, engine) => (unlinked rest, engine) := by
  dsimp only [weakHead]
  cases Machine.run book fuel (engine.bind id) (Machine.weakHead (engine.bind id) term) with
  | none => rfl
  | some halt =>
    obtain ⟨rest, engine1⟩ := halt
    cases rest <;> rfl

theorem direct_weakHead_of_matches {book : Book} {fuel : Nat} {term : Term} {rest : Rest}
    (h : Matches (Direct.reduce book fuel term) rest) :
    Direct.weakHead book fuel term = some (unlinked rest) := by
  unfold Direct.weakHead
  cases rest with
  | finished w => rw [show Direct.reduce book fuel term = .done w from h]; rfl
  | failed fault => rw [show Direct.reduce book fuel term = .failed fault from h]; rfl
  | sent bits suspended =>
    obtain ⟨next, hask⟩ := h
    rw [hask]
    rfl

theorem Valid.weakHead_direct {id fuel : Nat} {term : Term} {result : Except Fault Term}
    (h : engine.Valid books)
    (hrun : engine.weakHead id (books id) fuel term = some (result, engine')) :
    (∃ fuel', Direct.weakHead (books id) fuel' term = some result) ∧
      engine.Served books engine' := by
  rw [weakHead_eq] at hrun
  obtain ⟨⟨rest, engine1⟩, hfirst, heq⟩ := Option.map_eq_some_iff.1 hrun
  cases heq
  obtain ⟨hlimit, hs⟩ := h.bound id
  obtain ⟨hrest, -, hkeeps⟩ := Machine.atRest_run (Machine.attuned_weakHead (books id) _)
    hlimit hs (justified_weakHead ..) hfirst
  obtain ⟨fuel', hd⟩ := hrest.reached
  exact ⟨⟨fuel', direct_weakHead_of_matches (hrest.tells fuel' hd)⟩, hkeeps.served_bind h⟩

theorem Valid.weakHead_of_direct {id fuel : Nat} {term : Term} {result : Except Fault Term}
    (h : engine.Valid books) (hrun : Direct.weakHead (books id) fuel term = some result) :
    ∃ fuel' engine', engine.weakHead id (books id) fuel' term = some (result, engine') := by
  obtain ⟨hlimit, hs⟩ := h.bound id
  have hattuned := Machine.attuned_weakHead (books id) ⟨(engine.bind id).sends, term, []⟩
  have hjust := justified_weakHead (books id) (engine.bind id) term
  have hd : Direct.reduce (books id) fuel term ≠ .unfinished := by
    intro hd
    rw [Direct.weakHead, hd] at hrun
    cases hrun
  obtain ⟨first, rest, engine1, hfirst⟩ := hattuned.settles hlimit hs hjust hd
  obtain ⟨hrest, -, -⟩ := Machine.atRest_run hattuned hlimit hs hjust hfirst
  rw [direct_weakHead_of_matches (hrest.tells fuel hd)] at hrun
  cases hrun
  refine ⟨first, engine1, ?_⟩
  rw [weakHead_eq]
  exact Option.map_eq_some_iff.2 ⟨(rest, engine1), hfirst, rfl⟩

theorem Valid.weakHead_iff (h : engine.Valid books) {id : Nat} {term w : Term} :
    (∃ fuel engine', engine.weakHead id (books id) fuel term = some (.ok w, engine')) ↔
      Reduces (books id) term w := by
  constructor
  · rintro ⟨fuel, engine', hrun⟩
    obtain ⟨⟨fuel', hdirect⟩, -⟩ := h.weakHead_direct hrun
    exact ⟨fuel', Direct.weakHead_eq_ok.1 hdirect⟩
  · rintro ⟨fuel, hw⟩
    exact h.weakHead_of_direct (Direct.weakHead_eq_ok.2 hw)

theorem Valid.weakHead_haltAlike (h : engine.Valid books) (id : Nat) (term : Term) :
    HaltAlike
      (fun (halt : Except Fault Term × Engine) (direct : Except Fault Term) =>
        direct = halt.1 ∧ engine.Served books halt.2)
      (fun fuel => engine.weakHead id (books id) fuel term)
      (fun fuel => Direct.weakHead (books id) fuel term) := by
  constructor
  · rintro fuel ⟨result, engine'⟩ hrun
    obtain ⟨⟨fuel', hdirect⟩, hserved⟩ := h.weakHead_direct hrun
    exact ⟨fuel', _, hdirect, rfl, hserved⟩
  · intro fuel result hrun
    obtain ⟨fuel', engine', hweak⟩ := h.weakHead_of_direct hrun
    exact ⟨fuel', _, hweak, rfl, (h.weakHead_direct hweak).2⟩

end Engine

end SignalCalculus
