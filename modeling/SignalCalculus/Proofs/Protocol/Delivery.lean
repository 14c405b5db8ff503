import SignalCalculus.Proofs.Direct.Closing
import SignalCalculus.Proofs.Protocol.Spelled
import SignalCalculus.Proofs.Protocol.Values

set_option autoImplicit false

/-!
# Values that arrive through requests

A term delivers a value if forcing it gives the term of that value, after some requests and replies.
A law that forces an operand passes on the requests of the operand's parts in the order of the
parts, and then goes on with the value: `send` asks once more and delivers what its reply says, and
`mod` and `dem` undo each other.
-/

namespace SignalCalculus.Direct

variable {book : Book} {term x u : Term} {trips more : List Trip} {pause : Pause Term}

/-- Forcing a term gives the term of this value, after these requests and replies. -/
def Delivers (book : Book) (term : Term) (trips : List Trip) (value : Value) : Prop :=
  Tells book term trips (.ends (.ofValue value))

theorem Denotes.delivers {value : Value} (h : Denotes book term value) :
    Delivers book term [] value := tells_ends_iff.2 h

theorem tells_ends_atom_iff {symbol : Symbol} :
    Tells book term trips (.ends (.atom symbol)) ↔
      Speaks book term trips (.ends (.atom symbol)) := by
  rw [tells_iff]
  constructor
  · rintro (⟨bits, hpause, -⟩ | ⟨before, after, u, rfl, hu, hhalves⟩)
    · cases hpause
    · unfold TellsHalves at hhalves
      cases hcell : u.cell? with
      | none =>
        rw [hcell] at hhalves
        obtain ⟨rfl, hends⟩ := hhalves
        cases hends
        rwa [List.append_nil]
      | some halves =>
        -- The forced form of a cell is a cell again, never an atom.
        rw [hcell] at hhalves
        obtain ⟨bits, hpause, -⟩ | ⟨_, _, l, -, -, hright⟩ := hhalves
        · cases hpause
        · obtain ⟨bits, hpause, -⟩ | ⟨_, _, r, -, -, -, hends⟩ := hright
          · cases hpause
          · cases hends
  · intro h
    exact .inr ⟨trips, [], .atom symbol, (List.append_nil trips).symm, h, rfl, rfl⟩

theorem tells_cell_iff {left right : Term} :
    Tells book term trips (.ends (.cell left right)) ↔ ∃ before middle after u l r,
      trips = before ++ (middle ++ after) ∧ Speaks book term before (.ends u) ∧
        u.cell? = some (l, r) ∧ Tells book l middle (.ends left) ∧
        Tells book r after (.ends right) := by
  rw [tells_iff]
  constructor
  · rintro (⟨bits, hpause, -⟩ | ⟨before, rest, u, rfl, hu, hhalves⟩)
    · cases hpause
    · unfold TellsHalves at hhalves
      cases hcell : u.cell? with
      | none =>
        rw [hcell] at hhalves
        obtain ⟨-, hends⟩ := hhalves
        cases hends
        cases hcell
      | some halves =>
        obtain ⟨l, r⟩ := halves
        rw [hcell] at hhalves
        obtain ⟨bits, hpause, -⟩ | ⟨middle, rest, l', rfl, hl, hright⟩ := hhalves
        · cases hpause
        · obtain ⟨bits, hpause, -⟩ | ⟨after, last, r', rfl, hr, rfl, hends⟩ := hright
          · cases hpause
          · cases hends
            rw [List.append_nil]
            exact ⟨before, middle, after, u, l, r, rfl, hu, hcell, hl, hr⟩
  · rintro ⟨before, middle, after, u, l, r, rfl, hu, hcell, hl, hr⟩
    refine .inr ⟨before, middle ++ after, u, rfl, hu, ?_⟩
    unfold TellsHalves
    rw [hcell]
    refine .inr ⟨middle, after, _, rfl, hl, .inr ⟨after, [], _, ?_, hr, rfl, rfl⟩⟩
    rw [List.append_nil]

theorem delivers_pair_iff {left right : Value} :
    Delivers book term trips (.pair left right) ↔ ∃ before middle after u l r,
      trips = before ++ (middle ++ after) ∧ Speaks book term before (.ends u) ∧
        u.cell? = some (l, r) ∧ Delivers book l middle left ∧ Delivers book r after right :=
  tells_cell_iff

theorem tells_self {w : Term} {value : Value} (hw : Spells w value) :
    Tells book w [] (.ends w) := by
  induction hw with
  | nil => exact tells_ends_atom_iff.2 (speaks_ends_iff.2 (.normal rfl))
  | number n => exact tells_ends_atom_iff.2 (speaks_ends_iff.2 (.normal rfl))
  | cell _ _ ihl ihr =>
    exact tells_cell_iff.2 ⟨[], [], [], _, _, _, rfl, speaks_ends_iff.2 (.normal rfl), rfl, ihl, ihr⟩

theorem Delivers.cell {left right : Term} {l r : Value} (hl : Delivers book left trips l)
    (hr : Delivers book right more r) :
    Delivers book (.cell left right) (trips ++ more) (.pair l r) := by
  have hself : Speaks book (.cell left right) [] (.ends (.cell left right)) :=
    speaks_ends_iff.2 (.normal rfl)
  exact delivers_pair_iff.2 ⟨[], trips, more, _, left, right, rfl, hself, rfl, hl, hr⟩

/-- If the reduction of a term goes through some requests to what another term says, then so does
    its forcing. -/
theorem Tells.of_speaks {a b : Term}
    (h : ∀ more pause, Speaks book b more pause → Speaks book a (trips ++ more) pause)
    (hb : Tells book b more pause) : Tells book a (trips ++ more) pause := by
  refine tells_iff.2 ?_
  obtain ⟨bits, rfl, hask⟩ | ⟨before, after, u, rfl, hu, hhalves⟩ := tells_iff.1 hb
  · exact .inl ⟨bits, rfl, h _ _ hask⟩
  · exact .inr ⟨trips ++ before, after, u, (List.append_assoc ..).symm, h _ _ hu, hhalves⟩

section Strict

variable {g : Fn} {args : List Term}

theorem Complies.needs {need : Law.Need} (hx : Speaks book x trips (.ends u))
    (h : Complies book term g args (Law.onTerm g (Law.operands g args) need u) more pause) :
    Complies book term g args (.needs need x) (trips ++ more) pause :=
  complies_iff.2 (.inr ⟨trips, more, u, rfl, hx, h⟩)

/-- A law that forces a value part by part goes through the requests of the parts, one part after
    the other, and then to what it makes of the value. This holds of all that follows from a verdict
    in the way in which a need follows from what the needed term says. -/
theorem Tells.part (follows : Law.Verdict → List Trip → Prop) {operands : List Term}
    (hneeds : ∀ {need : Law.Need} {x u : Term} {trips more : List Trip},
      Speaks book x trips (.ends u) → follows (Law.onTerm g operands need u) more →
      follows (.needs need x) (trips ++ more))
    {w : Term} {value : Value} (hx : Tells book x trips (.ends w)) (hw : Spells w value)
    (cells : List (Cell Term Value)) (h : follows (Law.onPart.settle g cells value) more) :
    follows (.needs (.part cells) x) (trips ++ more) := by
  induction hw generalizing x cells trips more with
  | nil => exact hneeds (tells_ends_atom_iff.1 hx) h
  | number n => exact hneeds (tells_ends_atom_iff.1 hx) h
  | @cell left right leftValue rightValue _ _ ihl ihr =>
    obtain ⟨before, middle, after, u, l, r, rfl, hu, hcell, hl, hr⟩ := tells_cell_iff.1 hx
    have hpart : Law.onTerm g operands (.part cells) u = .needs (.part (.left r :: cells)) l := by
      simp only [Law.onTerm, Law.onPart, hcell]
    rw [List.append_assoc, List.append_assoc]
    refine hneeds hu ?_
    rw [hpart]
    -- The left half waits in its cell while the right half is forced.
    exact ihl hl (.left r :: cells) (ihr hr (.right leftValue :: cells) h)

theorem Tells.complies_part {w : Term} {value : Value} (hx : Tells book x trips (.ends w))
    (hw : Spells w value) (cells : List (Cell Term Value))
    (h : Complies book term g args (Law.onPart.settle g cells value) more pause) :
    Complies book term g args (.needs (.part cells) x) (trips ++ more) pause :=
  Tells.part (fun verdict trips => Complies book term g args verdict trips pause)
    Complies.needs hx hw cells h

theorem Tells.obeyCloses_part {w : Term} {value : Value} {result : Except Fault Term}
    (hx : Tells book x trips (.ends w)) (hw : Spells w value) (cells : List (Cell Term Value))
    (h : ObeyCloses book term g args (Law.onPart.settle g cells value) more result) :
    ObeyCloses book term g args (.needs (.part cells) x) (trips ++ more) result :=
  Tells.part (fun verdict trips => ObeyCloses book term g args verdict trips result)
    ObeyCloses.needs hx hw cells h

theorem speaks_unary_iff (hg : g.arity? = some 1) :
    Speaks book (.app (.fn g) x) trips pause ↔
      Complies book (.app (.fn g) x) g [x] (Law.begin g [x]) trips pause := by
  have hglance : glance book (.app (.fn g) x) = .fires g [x] := by
    have hspine : (Term.app (.fn g) x).spine = (.fn g, [x]) := rfl
    rw [glance_of_fn hspine, hg]
    rfl
  have hoperands : Law.operands g [x] = [x] := by
    rw [Law.operands, hg]
    rfl
  rw [speaks_iff, hglance]
  dsimp only
  rw [hoperands]

theorem complies_becomes (hg : g.arity? = some 1) {result : Term} :
    Complies book term g [x] (.becomes result) trips pause ↔ Speaks book result trips pause := by
  have hsurplus : Law.surplus g [x] = [] := by
    rw [Law.surplus, hg]
    rfl
  rw [complies_iff]
  dsimp only
  rw [hsurplus]
  exact Iff.rfl

end Strict

theorem Tells.asks_send {w : Term} {value : Value} (h : Tells book x trips (.ends w))
    (hw : Spells w value) :
    Tells book (.app (.fn .send) x) trips (.asks (Wire.valueBits value)) := by
  refine tells_iff.2 (.inl ⟨_, rfl, (speaks_unary_iff rfl).2 ?_⟩)
  rw [← List.append_nil trips]
  exact h.complies_part hw [] (complies_iff.2 (.inl ⟨rfl, rfl⟩))

theorem Tells.send {w : Term} {value answer : Value} (h : Tells book x trips (.ends w))
    (hw : Spells w value) {reply : List Char} (hreply : Wire.demodulateChars reply = .ok answer) :
    Delivers book (.app (.fn .send) x) (trips ++ [(Wire.valueBits value, reply)]) answer := by
  have honReply : Law.onReply reply = .becomes (.ofValue answer) := by rw [Law.onReply, hreply]
  have hspeaks : ∀ more pause, Speaks book (.ofValue answer) more pause →
      Speaks book (.app (.fn .send) x)
        ((trips ++ [(Wire.valueBits value, reply)]) ++ more) pause := by
    intro more pause hmore
    rw [speaks_unary_iff rfl, List.append_assoc]
    refine h.complies_part hw [] (complies_iff.2 (.inr ⟨reply, more, rfl, ?_⟩))
    rw [honReply, complies_becomes rfl]
    exact hmore
  have htells := Tells.of_speaks hspeaks (denotes_ofValue answer).delivers
  rwa [List.append_nil] at htells

theorem Delivers.send {value answer : Value} (h : Delivers book x trips value) {reply : List Char}
    (hreply : Wire.demodulateChars reply = .ok answer) :
    Delivers book (.app (.fn .send) x) (trips ++ [(Wire.valueBits value, reply)]) answer :=
  Tells.send h (spells_ofValue value) hreply

def modulation : Term → Value → Except Fault Term
  | .atom (.number ⟨n, true⟩), _ => .error (.eval (.alreadyModulated ⟨n, true⟩))
  | _, value => .ok (modulated value)

/-- `mod` asks what its operand asks, whose value it modulates. -/
theorem Tells.mod {w : Term} {value : Value} (h : Tells book x trips (.ends w))
    (hw : Spells w value) :
    ReduceCloses book (.app (.fn .mod) x) trips (modulation w value) := by
  have hends : ∀ symbol : Symbol, glance book (.atom symbol) = .normal →
      ObeyCloses book (.app (.fn .mod) x) .mod [x] (.becomes (.atom symbol)) []
        (.ok (.atom symbol)) := by
    intro symbol hnormal
    exact (obeyCloses_becomes [x] [] rfl).2
      (reduceCloses_ok_iff.2 (speaks_ends_iff.2 (.normal hnormal)))
  refine (reduceCloses_fires [x] [] rfl).2 ?_
  cases hw with
  | number n =>
    obtain ⟨n, modulated⟩ := n
    rw [← List.append_nil trips]
    refine .needs (tells_ends_atom_iff.1 h) ?_
    cases modulated with
    | true => exact obeyCloses_iff.2 ⟨rfl, rfl⟩
    | false => exact hends _ rfl
  | nil =>
    rw [← List.append_nil trips]
    exact .needs (tells_ends_atom_iff.1 h) ((tells_self .nil).obeyCloses_part .nil [] (hends _ rfl))
  | @cell left right l r hleft hright =>
    obtain ⟨before, middle, after, u, lower, upper, rfl, hu, hcell, hl, hr⟩ := tells_cell_iff.1 h
    -- What the operand was reduced to is demanded once more, as the first part of its value.
    have hnormal : glance book u = .normal := by
      obtain rfl | rfl := Term.eq_of_cell? hcell <;> rfl
    have hself : Tells book u (middle ++ after) (.ends (.cell left right)) :=
      tells_cell_iff.2 ⟨[], middle, after, u, lower, upper, rfl,
        speaks_ends_iff.2 (.normal hnormal), hcell, hl, hr⟩
    refine .needs hu ?_
    rw [onTerm_mod_of_cell hcell, ← List.append_nil (middle ++ after)]
    exact hself.obeyCloses_part (.cell hleft hright) [] (hends _ rfl)

theorem Delivers.mod {value : Value} (h : Delivers book x trips value) :
    Speaks book (.app (.fn .mod) x) trips (.ends (modulated value)) := by
  have hplain : modulation (.ofValue value) value = .ok (modulated value) := by
    cases value <;> rfl
  have hmod := Tells.mod h (spells_ofValue value)
  rw [hplain] at hmod
  exact reduceCloses_ok_iff.1 hmod

theorem delivers_dem {value : Value} (h : Speaks book x trips (.ends (modulated value))) :
    Delivers book (.app (.fn .dem) x) trips value := by
  have hspeaks : ∀ more pause, Speaks book (.ofValue value) more pause →
      Speaks book (.app (.fn .dem) x) (trips ++ more) pause := by
    intro more pause hmore
    refine (speaks_unary_iff rfl).2 (.needs h ?_)
    rw [onTerm_dem_modulated, complies_becomes rfl]
    exact hmore
  have htells := Tells.of_speaks hspeaks (denotes_ofValue value).delivers
  rwa [List.append_nil] at htells

theorem Delivers.modem {value : Value} (h : Delivers book x trips value) :
    Delivers book (.app (.fn .modem) x) trips value := by
  have hmodem : Law.lazy? .modem [x] = some (.app (.fn .dem) (.app (.fn .mod) x)) := rfl
  exact (speakAlike_lazy hmodem).tells.2 (delivers_dem h.mod)

end SignalCalculus.Direct
