import SignalCalculus.Proofs.Memo.Entered
import SignalCalculus.Proofs.Memo.Query

set_option autoImplicit false

namespace SignalCalculus

open Direct (Reduces)

/-- A term that needs the given term and nothing more. -/
def probe (term : Term) : Term := .app (.fn .inc) term

theorem glance_probe (book : Book) (term : Term) : glance book (probe term) = .fires .inc [term] :=
  rfl

theorem onOperand_inc (args : List Term) (w : Term) :
    Law.onOperand .inc args w = .stuck ∨ (∃ fault, Law.onOperand .inc args w = .fails fault) ∨
      ∃ n, Law.onOperand .inc args w = .becomes (.num n) := by
  simp only [Law.onOperand, Law.withInteger, Law.withNumber]
  split
  · split
    · exact .inr (.inl ⟨_, rfl⟩)
    · exact .inr (.inr ⟨_, rfl⟩)
  · split
    · exact .inl rfl
    · exact .inr (.inl ⟨_, rfl⟩)

namespace Direct

theorem force_probe {book : Book} {term w : Term} (h : Reduces book term w) :
    ∃ fuel, force book fuel (probe term) ≠ .unfinished := by
  obtain ⟨fuel, hw⟩ := h
  have hw' : reduce book (fuel + 2) term = .done w := reduce_mono (by omega) hw
  have hobey : reduce book (fuel + 4) (probe term) =
      obey book (fuel + 2) (probe term) .inc [term] (Law.onOperand .inc [term] w) := by
    rw [reduce_succ, glance_probe]
    change (reduce book (fuel + 2) term).bind _ = _
    rw [hw']
    rfl
  refine ⟨fuel + 5, ?_⟩
  rw [force, hobey]
  intro hd
  obtain hv | ⟨fault, hv⟩ | ⟨n, hv⟩ := onOperand_inc [term] w
  · rw [hv] at hd
    cases hd
  · rw [hv] at hd
    cases hd
  · rw [hv] at hd
    cases hd

end Direct

namespace Machine

theorem leads_probe {book : Book} {engine : Engine} (hlimit : engine.stepLimit = 0) (term : Term)
    (stack : List Frame) (hfind : engine.memo.find? (probe term) = none) :
    ∃ frame engine', Leads book (.running ⟨.demand (probe term), stack⟩, engine)
      (.running ⟨.demand term, frame :: stack⟩, engine') := by
  have hdemand : step book engine ⟨.demand (probe term), stack⟩ =
      (.running ⟨.chase ⟨engine.sends, probe term, []⟩, stack⟩, engine) := by
    simp only [step, hfind]
  obtain ⟨engine', -, hlook⟩ := look_eq hlimit book ⟨engine.sends, probe term, []⟩ stack
  have hchase : step book engine ⟨.chase ⟨engine.sends, probe term, []⟩, stack⟩ =
      look book engine ⟨engine.sends, probe term, []⟩ stack := by
    simp only [step]
  refine ⟨.law ⟨engine.sends, probe term, []⟩ .inc [term] .operand, engine', .head ?_⟩
  rw [hdemand]
  refine .head ?_
  rw [hchase, hlook]
  exact .refl _

theorem run_probe {book : Book} {engine : Engine} {term w : Term} (hlimit : engine.stepLimit = 0)
    (hempty : engine.memo = .empty) (hw : Reduces book term w) :
    ∃ fuel rest engine', run book fuel engine (forcing (probe term)) = some (rest, engine') ∧
      engine'.boundTo = engine.boundTo ∧ engine'.memo.find? term = some w := by
  have hs : engine.memo.Sound book := hempty ▸ Memo.sound_empty book
  have hattuned := attuned_forcing book (probe term)
  have hjust := Engine.justified_forcing book engine.sends (probe term)
  obtain ⟨fuel, hd⟩ := Direct.force_probe hw
  obtain ⟨fuel', rest, engine', hrun⟩ := hattuned.settles hlimit hs hjust hd
  obtain ⟨-, -, hkeeps⟩ := atRest_run hattuned hlimit hs hjust hrun
  refine ⟨fuel', rest, engine', hrun, hkeeps.boundTo, ?_⟩
  have hready : Ready book (.running (forcing (probe term)), engine) := ⟨hlimit, hs, hjust⟩
  obtain ⟨frame, engine1, hleads⟩ := leads_probe hlimit term [.force []]
    (by rw [hempty, Memo.find?_empty])
  obtain ⟨engine2, hleads', hentry⟩ := gives_demand hw (hleads.ready hready)
  have hleads2 := hleads.trans hleads'
  obtain ⟨fuel2, hrun2⟩ := hleads2.settleFrom hrun
  have hcovers := settleFrom_covers (hleads2.ready hready) hrun2 term
    (by rw [hentry term (List.mem_singleton.2 rfl)]; rfl)
  obtain ⟨v, hv⟩ := Option.isSome_iff_exists.1 hcovers
  rw [hv, (hkeeps.sound term v hv).unique hw]

end Machine

end SignalCalculus
