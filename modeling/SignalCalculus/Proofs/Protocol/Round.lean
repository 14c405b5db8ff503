import SignalCalculus.Proofs.Protocol.Replies
import SignalCalculus.Proofs.Protocol.Spelled
import SignalCalculus.Proofs.Protocol.Values
import SignalCalculus.Proofs.Term.Reading

set_option autoImplicit false

namespace SignalCalculus

section Spelling

theorem Term.symbolsOnto_ofValue (value : Value) (rest : List Symbol) :
    (ofValue value).symbolsOnto rest = value.symbolsOnto rest := by
  induction value generalizing rest with
  | nil => rfl
  | num n => rfl
  | pair left right ihl ihr =>
    rw [Value.symbolsOnto, ← ihr, ← ihl]
    rfl

theorem Value.ofSymbols_symbols (value : Value) : ofSymbols value.symbols = .ok value := by
  have hread := (spells_ofValue value).ofSymbols
  rwa [Term.symbols, Term.symbolsOnto_ofValue value []] at hread

theorem IsValue.eq_ofValue {w : Term} (hw : IsValue w) {value : Value} {rest rest' : List Symbol}
    (h : w.symbolsOnto rest = value.symbolsOnto rest') : w = .ofValue value ∧ rest = rest' := by
  induction hw generalizing value rest rest' with
  | nil =>
    cases value with
    | nil =>
      cases h
      exact ⟨rfl, rfl⟩
    | num n => cases h
    | pair left right => cases h
  | number n =>
    cases value with
    | nil => cases h
    | num m =>
      cases h
      exact ⟨rfl, rfl⟩
    | pair left right => cases h
  | cell _ _ ihl ihr =>
    cases value with
    | nil => cases h
    | num n => cases h
    | pair left right =>
      simp only [Term.cell, Term.symbolsOnto, Value.symbolsOnto, List.cons.injEq, true_and] at h
      obtain ⟨rfl, hright⟩ := ihl h
      obtain ⟨rfl, hrest⟩ := ihr hright
      exact ⟨rfl, hrest⟩

theorem Desk.Reached.prints_value_iff {book : Book} {desk : Desk} (h : Reached book desk) {id : Nat}
    {term : Term} {value : Value} :
    Prints book id desk term value.symbols ↔ Direct.Denotes book term value := by
  rw [h.prints_iff]
  constructor
  · rintro ⟨w, hforces, hw⟩
    have hspells : Value.ofSymbols w.symbols = .ok value := by rw [hw, value.ofSymbols_symbols]
    obtain ⟨rfl, -⟩ := (isValue_of_ofSymbols hforces hspells).eq_ofValue hw
    exact hforces
  · intro hdenotes
    exact ⟨_, hdenotes, Term.symbolsOnto_ofValue value []⟩

end Spelling

namespace Direct

variable {book : Book} {p s e : Term} {flag : Int} {state data rest : Value}

def nextState (answer : Term) : Term :=
  .app (.fn .modem) (.app (.fn .car) (.app (.fn .cdr) answer))

def roundData (answer : Term) : Term :=
  .app (.fn .car) (.app (.fn .cdr) (.app (.fn .cdr) answer))

theorem Denotes.nextState {answer : Term}
    (h : Denotes book answer (.pair (.num flag) (.pair state rest))) :
    Denotes book (nextState answer) state := h.cdr.car.modem

theorem Denotes.roundData {answer : Term}
    (h : Denotes book answer (.pair (.num flag) (.pair state (.pair data rest)))) :
    Denotes book (roundData answer) data := h.cdr.cdr.car

/-- The flag decides between the end of the round and its next part. -/
theorem speakAlike_interact (h : Denotes book (p.apply [s, e]) (.pair (.num flag) rest)) :
    SpeakAlike book ((Term.fn .interact).apply [p, s, e])
      (if flag = 0 then
        .cell (Direct.nextState (p.apply [s, e]))
          (.cell (.app (.fn .multipledraw) (Direct.roundData (p.apply [s, e]))) (.fn .nil))
      else
        (Term.fn .interact).apply [p, Direct.nextState (p.apply [s, e]),
          .app (.fn .send) (Direct.roundData (p.apply [s, e]))]) := by
  have hround : Law.lazy? .interact [p, s, e] = some ((Term.fn .f38).apply [p, p.apply [s, e]]) := rfl
  have hanswer : Law.lazy? .f38 [p, p.apply [s, e]] = some (Law.f38 p (p.apply [s, e])) := rfl
  exact (speakAlike_lazy hround).trans ((speakAlike_lazy hanswer).trans (speakAlike_if0 h.car))

theorem forces_interact_of_flag_eq_zero {pictures : List (List (Int × Int))}
    (h : Denotes book (p.apply [s, e])
      (.pair (.num 0) (.pair state (.pair (.ofPictures pictures) rest)))) :
    Forces book ((Term.fn .interact).apply [p, s, e])
      (.cell (.ofValue state) (.cell (.ofPictures pictures) (.fn .nil))) := by
  have hnil : Forces book (.fn .nil) (.fn .nil) := forces_atom_iff.2 (.normal rfl)
  exact (speakAlike_interact h).forces
    (forces_cell h.nextState (forces_cell h.roundData.multipledraw hnil))

end Direct

def Pause.IsData : Pause Term → Prop
  | .ends w => w.IsData
  | .asks _ => True

theorem Interchanges.tells_iff {book : Book} {n m : Term}
    (h : Interchanges (Direct.SameValue book) n m) {trips : List Trip} {pause : Pause Term}
    (hpause : pause.IsData) : Direct.Tells book n trips pause ↔ Direct.Tells book m trips pause := by
  have htells : ∀ n m, Interchanges (Direct.SameValue book) n m →
      Direct.Tells book n trips pause → Direct.Tells book m trips pause := by
    rintro n m h ⟨fuel, hn⟩
    obtain ⟨pause', hm, halike⟩ := h.tells Direct.sameValue_respected (.inl trivial) hn
    cases halike with
    | ends hdata => rwa [hdata hpause] at hm
    | asks bits => exact hm
  exact ⟨htells n m h, htells m n h.symm⟩

theorem Direct.tells_interact_of_flag_ne_zero {book : Book} {p s e : Term} {flag : Int}
    {state data rest : Value} (hflag : flag ≠ 0)
    (h : Denotes book (p.apply [s, e]) (.pair (.num flag) (.pair state (.pair data rest))))
    {trips : List Trip} {pause : Pause Term} (hpause : pause.IsData) :
    Tells book ((Term.fn .interact).apply [p, s, e]) trips pause ↔
      Tells book ((Term.fn .interact).apply
        [p, .ofValue state, .app (.fn .send) (.ofValue data)]) trips pause := by
  have hnext := speakAlike_interact h
  rw [if_neg hflag] at hnext
  have hstate : SameValue book (Direct.nextState (p.apply [s, e])) (.ofValue state) :=
    ⟨state, h.nextState, denotes_ofValue state⟩
  have hdata : SameValue book (Direct.roundData (p.apply [s, e])) (.ofValue data) :=
    ⟨data, h.roundData, denotes_ofValue data⟩
  have hround := Interchanges.app (.app (.app (.atom (.fn .interact)) (.refl p)) (.contract hstate))
    (.app (.atom (.fn .send)) (.contract hdata))
  exact hnext.tells.trans (hround.tells_iff hpause)

end SignalCalculus
