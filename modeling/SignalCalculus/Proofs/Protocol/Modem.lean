import SignalCalculus.Proofs.Protocol.Delivery
import SignalCalculus.Proofs.Protocol.Round

set_option autoImplicit false

namespace SignalCalculus

theorem Term.mem_symbolsOnto {symbol : Symbol} {rest : List Symbol} (term : Term)
    (h : symbol ∈ rest) : symbol ∈ term.symbolsOnto rest := by
  induction term generalizing rest with
  | atom other => exact List.mem_cons_of_mem other h
  | app f x ihf ihx => exact List.mem_cons_of_mem _ (ihf (ihx h))

def Demodulated (program : List Symbol) : Prop :=
  ∀ n : Tagged, Symbol.number n ∈ program → n.modulated = false

theorem IsValue.exists_ofValue {w : Term} (hw : IsValue w) {rest : List Symbol}
    (h : Demodulated (w.symbolsOnto rest)) : ∃ value, w = .ofValue value := by
  induction hw generalizing rest with
  | nil => exact ⟨.nil, rfl⟩
  | number n =>
    obtain ⟨n, modulated⟩ := n
    obtain rfl : modulated = false := h _ List.mem_cons_self
    exact ⟨.num n, rfl⟩
  | @cell left right _ _ ihl ihr =>
    have hhalves : Demodulated (left.symbolsOnto (right.symbolsOnto rest)) := fun n hn =>
      h n (List.mem_cons_of_mem _ (List.mem_cons_of_mem _ (List.mem_cons_of_mem _ hn)))
    have hright : Demodulated (right.symbolsOnto rest) := fun n hn =>
      hhalves n (left.mem_symbolsOnto hn)
    obtain ⟨l, rfl⟩ := ihl hhalves
    obtain ⟨r, rfl⟩ := ihr hright
    exact ⟨.pair l r, rfl⟩

theorem Direct.Tells.delivers {book : Book} {x w : Term} {trips : List Trip} {value : Value}
    (h : Tells book x trips (.ends w)) (hvalue : Value.ofSymbols w.symbols = .ok value)
    (hplain : Demodulated w.symbols) : w = .ofValue value ∧ Delivers book x trips value := by
  obtain ⟨value', rfl⟩ := (isValue_of_tells h hvalue).exists_ofValue hplain
  have hsymbols : (Term.ofValue value').symbols = value'.symbols :=
    Term.symbolsOnto_ofValue value' []
  rw [hsymbols, value'.ofSymbols_symbols] at hvalue
  cases hvalue
  exact ⟨rfl, h⟩

namespace Desk

open Direct (Delivers modulated)

/-- Let a term be evaluated, with some replies, to a program that spells a value and has plain
    numbers only. Then `modem` of the term, with the same replies, sends the same requests and has
    the same result. If the value is no number, `mod` of the term sends these requests too and its
    result is the message of the value, and `dem` of this message gives the value back. -/
theorem modem_returns_same {book : Book} {desk desk' : Desk} {x w : Term} {id : Nat}
    {replies requests : List (List Char)} {value : Value} (hdesk : Reached book desk)
    (hdesk' : Reached book desk') (id' : Nat) (hx : Returns book id desk x replies requests w)
    (hvalue : Value.ofSymbols w.symbols = .ok value) (hplain : Demodulated w.symbols) :
    Returns book id' desk' (.app (.fn .modem) x) replies requests w ∧
    ((∀ n, value ≠ .num n) →
      Returns book id' desk' (.app (.fn .mod) x) replies requests
        (.atom (.bits (Wire.valueBits value))) ∧
      ∀ replies', Returns book id' desk' (.app (.fn .dem) (.atom (.bits (Wire.valueBits value))))
        replies' [] (.ofValue value)) := by
  obtain ⟨trips, left, htells, rfl, rfl⟩ := hdesk.returns_iff.1 hx
  obtain ⟨rfl, hdelivers⟩ := htells.delivers hvalue hplain
  refine ⟨hdesk'.returns_of_tells id' hdelivers.modem left, fun hlist => ?_⟩
  have hbits : modulated value = .atom (.bits (Wire.valueBits value)) := by
    cases value with
    | num n => exact absurd rfl (hlist n)
    | nil => rfl
    | pair l r => rfl
  have hmod := hdelivers.mod
  have hself : Direct.Speaks book (modulated value) [] (.ends (modulated value)) := by
    rw [hbits]
    exact Direct.speaks_ends_iff.2 (.normal rfl)
  have hdem := Direct.delivers_dem hself
  rw [hbits] at hmod hdem
  exact ⟨hdesk'.returns_of_tells id' (Direct.tells_ends_atom_iff.2 hmod) left,
    fun replies' => hdesk'.returns_of_tells id' hdem replies'⟩

/-- A list that comes back for a request, in front of which `mod` and `modem` are put. -/
theorem modem_returns_same_reply :
    let x := Term.app (.fn .send) (.fn .nil)
    let bits := Wire.valueBits (.pair (.num 1) .nil)
    Returns {} 0 (fresh 0 {}) x [bits] [['0', '0']] (.cell (.num 1) (.fn .nil)) ∧
    Returns {} 0 (fresh 0 {}) (.app (.fn .modem) x) [bits] [['0', '0']]
      (.cell (.num 1) (.fn .nil)) ∧
    Returns {} 0 (fresh 0 {}) (.app (.fn .mod) x) [bits] [['0', '0']] (.atom (.bits bits)) := by
  intro x bits
  have hfresh : Reached {} (fresh 0 {}) := ⟨0, {}, [], [], .nil _⟩
  have hsent : Delivers {} x [(Wire.valueBits .nil, bits)] (.pair (.num 1) .nil) :=
    (Direct.denotes_ofValue .nil).delivers.send (Wire.demodulateChars_valueBits _)
  have hx : Returns {} 0 (fresh 0 {}) x [bits] [['0', '0']] (.cell (.num 1) (.fn .nil)) :=
    hfresh.returns_of_tells 0 hsent []
  have hvalue : Value.ofSymbols (Term.cell (.num 1) (.fn .nil)).symbols =
      .ok (.pair (.num 1) .nil) := Value.ofSymbols_symbols (.pair (.num 1) .nil)
  have hplain : Demodulated (Term.cell (.num 1) (.fn .nil)).symbols := by
    intro n hn
    have hone : n = ⟨1, false⟩ := by simpa [Term.cell, Term.symbols, Term.symbolsOnto] using hn
    rw [hone]
  obtain ⟨hmodem, hmod⟩ := modem_returns_same hfresh hfresh 0 hx hvalue hplain
  exact ⟨hx, hmodem, (hmod fun n hn => Value.noConfusion hn).1⟩

end Desk

end SignalCalculus
