import SignalCalculus.Proofs.Protocol.Modem
import SignalCalculus.Proofs.Protocol.Pictures

set_option autoImplicit false

namespace SignalCalculus

def answered (reply : List Char) : Except Fault Term :=
  match Wire.demodulateChars reply with
  | .ok answer => .ok (.ofValue answer)
  | .error e => .error (.wire e)

theorem Spells.eq_of_num {w : Term} {n : Int} (h : Spells w (.num n))
    (hstate : ¬Demodulated w.symbols) : w = .atom (.number ⟨n, true⟩) := by
  obtain ⟨⟩ | ⟨n, modulated⟩ := h
  cases modulated with
  | true => rfl
  | false =>
    refine absurd (fun m hm => ?_) hstate
    obtain rfl : m = ⟨n, false⟩ := by simpa [Term.symbols, Term.symbolsOnto] using hm
    rfl

namespace Direct

variable {book : Book} {x w : Term} {trips : List Trip} {value : Value}

theorem modulation_of_ne_num (hw : Spells w value) (hlist : ∀ n, value ≠ .num n) :
    modulation w value = .ok (.atom (.bits (Wire.valueBits value))) := by
  cases hw with
  | nil => rfl
  | number n => exact absurd rfl (hlist n.value)
  | cell hl hr => rfl

theorem Tells.force_mod (h : Tells book x trips (.ends w)) (hw : Spells w value) :
    ForceCloses book (.app (.fn .mod) x) trips (modulation w value) := by
  refine (h.mod hw).force fun u hu => ?_
  unfold modulation at hu
  split at hu
  · cases hu
  · cases hu
    cases value <;> rfl

theorem Tells.force_send (h : Tells book x trips (.ends w)) (hw : Spells w value)
    (reply : List Char) :
    ForceCloses book (.app (.fn .send) x) (trips ++ [(Wire.valueBits value, reply)])
      (answered reply) := by
  unfold answered
  cases hreply : Wire.demodulateChars reply with
  | ok answer => exact forceCloses_ok_iff.2 (h.send hw hreply)
  | error e =>
    have hfails : Law.onReply reply = .fails (.wire e) := by rw [Law.onReply, hreply]
    have hreduce : ReduceCloses book (.app (.fn .send) x)
        (trips ++ [(Wire.valueBits value, reply)]) (.error (.wire e)) := by
      refine (reduceCloses_fires [x] [] rfl).2 (h.obeyCloses_part hw [] ?_)
      refine obeyCloses_iff.2 ⟨reply, [], rfl, ?_⟩
      rw [hfails]
      exact obeyCloses_iff.2 ⟨rfl, rfl⟩
    refine hreduce.force fun u hu => ?_
    cases hu

end Direct

namespace Desk

/-- Let a term be evaluated, with some replies, to a program that spells a value and has a modulated
    number. `mod` of the term refuses the value if it is that number, and else gives the message of
    the value with plain numbers. `send` sends this message, and `draw` draws the plain numbers. -/
theorem forced_numbers_lose_state {book : Book} {desk desk' : Desk} {x w : Term} {id : Nat}
    {replies requests : List (List Char)} {value : Value} (hdesk : Reached book desk)
    (hdesk' : Reached book desk') (id' : Nat) (hx : Returns book id desk x replies requests w)
    (hvalue : Value.ofSymbols w.symbols = .ok value) (hstate : ¬Demodulated w.symbols) :
    (∀ n, value = .num n → Closes book id' desk' (.app (.fn .mod) x) replies requests
      (.error (.eval (.alreadyModulated ⟨n, true⟩)))) ∧
    ((∀ n, value ≠ .num n) → Closes book id' desk' (.app (.fn .mod) x) replies requests
      (.ok (.atom (.bits (Wire.valueBits value))))) ∧
    Sends book id' desk' (.app (.fn .send) x) (replies.take requests.length)
      (requests ++ [Wire.valueBits value]) ∧
    (∀ reply left, Closes book id' desk' (.app (.fn .send) x)
      (replies.take requests.length ++ reply :: left) (requests ++ [Wire.valueBits value])
      (answered reply)) ∧
    Closes book id' desk' (.app (.fn .draw) x) replies requests value.drawn := by
  obtain ⟨trips, left, htells, rfl, rfl⟩ := hdesk.returns_iff.1 hx
  -- The states of the numbers stay in `w` and are gone from `value`.
  have hw : Spells w value := (isValue_of_tells htells hvalue).spells hvalue
  have htake : (trips.map Prod.snd ++ left).take (trips.map Prod.fst).length =
      trips.map Prod.snd := by
    rw [List.length_map, ← List.length_map (f := Prod.snd), List.take_left]
  have hmod := hdesk'.closes id' (htells.force_mod hw) left
  rw [htake]
  refine ⟨?_, ?_, ?_, ?_, hdesk'.closes id' (htells.force_draw hw) left⟩
  · rintro n rfl
    rwa [hw.eq_of_num hstate] at hmod
  · intro hlist
    rwa [Direct.modulation_of_ne_num hw hlist] at hmod
  · exact hdesk'.sends_iff.2 ⟨trips, _, htells.asks_send hw, rfl, rfl⟩
  · intro reply left
    have hsend := hdesk'.closes id' (htells.force_send hw reply) left
    simpa using hsend

def modulatedPoint : Term := .cell (.cell (.atom (.number ⟨1, true⟩)) (.num 2)) (.fn .nil)

theorem spells_modulatedPoint : Spells modulatedPoint (.pair (.pair (.num 1) (.num 2)) .nil) :=
  .cell (.cell (.number ⟨1, true⟩) (.number ⟨2, false⟩)) .nil

theorem not_demodulated_modulatedPoint : ¬Demodulated modulatedPoint.symbols := by
  intro h
  have hmem : Symbol.number ⟨1, true⟩ ∈ modulatedPoint.symbols := by decide
  cases h _ hmem

/-- The coordinate is drawn as the integer that it has, and the list is modulated and sent with it. -/
theorem modulated_coordinate_drawn :
    Returns {} 0 (fresh 0 {}) modulatedPoint [] [] modulatedPoint ∧
    ¬Demodulated modulatedPoint.symbols ∧
    Closes {} 0 (fresh 0 {}) (.app (.fn .mod) modulatedPoint) [] []
      (.ok (.atom (.bits (Wire.valueBits (.pair (.pair (.num 1) (.num 2)) .nil))))) ∧
    Sends {} 0 (fresh 0 {}) (.app (.fn .send) modulatedPoint) []
      [Wire.valueBits (.pair (.pair (.num 1) (.num 2)) .nil)] ∧
    Closes {} 0 (fresh 0 {}) (.app (.fn .draw) modulatedPoint) [] []
      (.ok (.atom (.picture [(1, 2)]))) := by
  have hfresh : Reached {} (fresh 0 {}) := ⟨0, {}, [], [], .nil _⟩
  have hx : Returns {} 0 (fresh 0 {}) modulatedPoint [] [] modulatedPoint :=
    hfresh.returns_of_tells 0 (Direct.tells_self spells_modulatedPoint) []
  obtain ⟨-, hmod, hsends, -, hdraw⟩ := forced_numbers_lose_state hfresh hfresh 0 hx
    spells_modulatedPoint.ofSymbols not_demodulated_modulatedPoint
  exact ⟨hx, not_demodulated_modulatedPoint, hmod fun n => nofun, hsends, hdraw⟩

/-- None of the laws that force a value refuses the modulated number in it. -/
theorem modulated_number_not_refused :
    Returns {} 0 (fresh 0 {}) modulatedPoint [['0', '0']] [] modulatedPoint ∧
    IsValue modulatedPoint ∧ ¬Demodulated modulatedPoint.symbols ∧
    ∀ g ∈ [Fn.mod, Fn.send, Fn.draw], ∀ requests e,
      ¬Closes {} 0 (fresh 0 {}) (.app (.fn g) modulatedPoint) [['0', '0']] requests
        (.error (.eval e)) := by
  have hfresh : Reached {} (fresh 0 {}) := ⟨0, {}, [], [], .nil _⟩
  have hw := spells_modulatedPoint
  have hself : Direct.Tells {} modulatedPoint [] (.ends modulatedPoint) := Direct.tells_self hw
  refine ⟨hfresh.returns_of_tells 0 hself [['0', '0']], ?_, not_demodulated_modulatedPoint, ?_⟩
  · exact .cell (.cell (.number _) (.number _)) .nil
  · have hends : ∀ g ∈ [Fn.mod, Fn.send, Fn.draw], ∃ requests w,
        Closes {} 0 (fresh 0 {}) (.app (.fn g) modulatedPoint) [['0', '0']] requests (.ok w) := by
      intro g hg
      simp only [List.mem_cons, List.not_mem_nil, or_false] at hg
      obtain rfl | rfl | rfl := hg
      · exact ⟨_, _, hfresh.closes 0 (hself.force_mod hw) [['0', '0']]⟩
      · have hsend := hself.send hw (Wire.demodulateChars_valueBits .nil)
        exact ⟨_, _, hfresh.returns_of_tells 0 hsend []⟩
      · exact ⟨_, _, hfresh.closes 0 (hself.force_draw hw) [['0', '0']]⟩
    intro g hg requests e hfails
    obtain ⟨requests', w, hcloses⟩ := hends g hg
    cases (hfresh.closes_unique hfails hcloses).2

end Desk

end SignalCalculus
