import SignalCalculus.Proofs.Direct.Force
import SignalCalculus.Proofs.Term.Leaves

set_option autoImplicit false

namespace SignalCalculus

open Term (Over)

namespace Law

/-- Every symbol that a law can bring in has the property. -/
structure Admits (p : Symbol → Prop) : Prop where
  number : ∀ n, p (.number n)
  bits : ∀ text, p (.bits text)
  picture : ∀ points, p (.picture points)
  fn : ∀ g, g ≠ .galaxy → p (.fn g)

theorem admits_isLeaf : Admits Symbol.IsLeaf where
  number := fun _ => ⟨rfl, nofun⟩
  bits := fun _ => ⟨rfl, nofun⟩
  picture := fun _ => ⟨rfl, nofun⟩
  fn := fun _ hg => ⟨rfl, fun h => hg (Symbol.fn.inj h)⟩

def Need.Over (p : Symbol → Prop) : Need → Prop
  | .part cells => ∀ term, Cell.left term ∈ cells → term.Over p
  | _ => True

def Verdict.Over (p : Symbol → Prop) : Verdict → Prop
  | .becomes term => term.Over p
  | .needs need term => need.Over p ∧ term.Over p
  | _ => True

variable {p : Symbol → Prop} {g : Fn} {operands : List Term} {w : Term}

theorem lazy?_over (hp : Admits p) (h : ∀ x ∈ operands, x.Over p) {term : Term}
    (hlazy : lazy? g operands = some term) : term.Over p := by
  have hfn : ∀ g, g ≠ .galaxy → p (.fn g) := hp.fn
  unfold lazy? at hlazy
  split at hlazy <;> cases hlazy <;>
    simp_all [interact, f38, Term.cell]

theorem begin_over (hp : Admits p) (h : ∀ x ∈ operands, x.Over p) :
    (begin g operands).Over p := by
  unfold begin
  split
  · rename_i hlazy
    exact lazy?_over hp h hlazy
  · split
    · exact ⟨nofun, h _ List.mem_cons_self⟩
    · exact ⟨nofun, h _ List.mem_cons_self⟩
    · exact ⟨trivial, h _ List.mem_cons_self⟩
    · trivial

theorem withNumber_over {go : Tagged → Verdict} (hgo : ∀ n, (go n).Over p) :
    (withNumber w go).Over p := by
  unfold withNumber
  split
  · exact hgo _
  · split <;> trivial

theorem withInteger_over {go : Int → Verdict} (hgo : ∀ n, (go n).Over p) :
    (withInteger w go).Over p := by
  refine withNumber_over fun n => ?_
  split
  · trivial
  · exact hgo n.value

theorem ofBool_over (hp : Admits p) (flag : Bool) : (Term.ofBool flag).Over p := by
  cases flag with
  | false => exact hp.fn .f nofun
  | true => exact hp.fn .t nofun

theorem ofValue_over (hp : Admits p) (value : Value) : (Term.ofValue value).Over p := by
  induction value with
  | nil => exact hp.fn .nil nofun
  | num n => exact hp.number _
  | pair left right ihl ihr => exact ⟨⟨hp.fn .cons nofun, ihl⟩, ihr⟩

theorem arithmetic_over (hp : Admits p) (a b : Int) : (arithmetic g a b).Over p := by
  unfold arithmetic
  split
  · exact hp.number _
  · exact hp.number _
  · split
    · trivial
    · exact hp.number _
  · exact ofBool_over hp _
  · exact ofBool_over hp _
  · trivial

theorem onValue_over (hp : Admits p) (value : Value) : (onValue g value).Over p := by
  unfold onValue
  split
  · exact hp.bits _
  · trivial
  · split
    · exact hp.picture _
    · trivial
  · trivial

theorem place_over {cells : List (Cell Term Value)} {leaf : Value} {term : Term}
    {rest : List (Cell Term Value)} (h : ∀ term, Cell.left term ∈ cells → term.Over p)
    (hplace : place Value.pair cells leaf = .next term rest) :
    term.Over p ∧ ∀ other, Cell.left other ∈ rest → other.Over p := by
  induction cells generalizing leaf with
  | nil => cases hplace
  | cons cell cells ih =>
    have hcells : ∀ term, Cell.left term ∈ cells → term.Over p :=
      fun term hmem => h term (List.mem_cons_of_mem _ hmem)
    cases cell with
    | left right =>
      cases hplace
      refine ⟨h term List.mem_cons_self, fun other hmem => ?_⟩
      obtain heq | hmem := List.mem_cons.1 hmem
      · cases heq
      · exact hcells other hmem
    | right made => exact ih hcells hplace

theorem onPart_over (hp : Admits p) {cells : List (Cell Term Value)}
    (h : ∀ term, Cell.left term ∈ cells → term.Over p) (hw : w.Over p) :
    (onPart g cells w).Over p := by
  have hsettle : ∀ leaf, (onPart.settle g cells leaf).Over p := by
    intro leaf
    unfold onPart.settle
    split
    · exact onValue_over hp _
    · rename_i hplace
      exact (place_over h hplace).symm
  unfold onPart
  split
  · rename_i hcell
    obtain ⟨hleft, hright⟩ := hw.halves hcell
    refine ⟨fun term hmem => ?_, hleft⟩
    obtain heq | hmem := List.mem_cons.1 hmem
    · cases heq
      exact hright
    · exact h term hmem
  · split
    · exact hsettle _
    · exact hsettle _
    · split <;> trivial

theorem onOperand_over (hp : Admits p) (h : ∀ x ∈ operands, x.Over p) (hw : w.Over p) :
    (onOperand g operands w).Over p := by
  unfold onOperand
  split
  · exact withInteger_over fun n => hp.number _
  · exact withInteger_over fun n => hp.number _
  · exact withInteger_over fun n => hp.number _
  · refine withInteger_over fun n => ?_
    change Term.Over p (ite _ _ _)
    split <;> exact h _ (by simp)
  -- The binary functions go on to their second operand.
  iterate 5 exact withNumber_over fun n => ⟨trivial, h _ (by simp)⟩
  · split
    split
    · trivial
    · split
      · trivial
      · exact ofBool_over hp _
  · split
    · split
      · trivial
      · exact hp.number _
    · split
      · trivial
      · exact ⟨nofun, hw⟩
  · split
    · split
      · exact hp.number _
      · trivial
    · split
      · exact ofValue_over hp _
      · trivial
    · split <;> trivial
  · split
    · exact hp.fn .nil nofun
    · split
      · trivial
      · exact ⟨⟨hp.fn .cons nofun, hp.fn .draw nofun, hp.fn .car nofun, hw⟩,
          hp.fn .multipledraw nofun, hp.fn .cdr nofun, hw⟩
  · trivial

theorem onSecond_over (hp : Admits p) (first : Tagged) : (onSecond g first w).Over p := by
  refine withNumber_over fun second => ?_
  split
  · trivial
  · split
    · trivial
    · exact arithmetic_over hp _ _

theorem onTerm_over (hp : Admits p) (h : ∀ x ∈ operands, x.Over p) {need : Need}
    (hneed : need.Over p) (hw : w.Over p) : (onTerm g operands need w).Over p := by
  cases need with
  | operand => exact onOperand_over hp h hw
  | second first => exact onSecond_over hp first
  | part cells => exact onPart_over hp hneed hw

end Law

namespace Direct

variable {p : Symbol → Prop} {book : Book} {term w : Term}

theorem glance_over (hbook : book.Over p) (h : term.Over p) :
    match glance book term with
    | .unfolds bound args => bound.Over p ∧ ∀ arg ∈ args, arg.Over p
    | .fires _ args => ∀ arg ∈ args, arg.Over p
    | _ => True := by
  obtain ⟨head, args, hspine⟩ : ∃ head args, term.spine = (head, args) := ⟨_, _, rfl⟩
  have hargs := (Term.over_iff_spine.1 h).2
  rw [hspine] at hargs
  cases head with
  | var id =>
    rw [glance_of_var hspine]
    cases hid : book.resolve id with
    | none => trivial
    | some bound => exact ⟨hbook id bound hid, hargs⟩
  | fn g =>
    rw [glance_of_fn hspine]
    cases g.arity? with
    | none => trivial
    | some arity =>
      by_cases hlacks : args.length < arity
      · simp only [if_pos hlacks]
      · simp only [if_neg hlacks]
        exact hargs
  | number n | bits text | picture points =>
    simp only [glance, hspine]
    cases args <;> trivial
  | mark m => simp only [glance, hspine]

theorem Reduces.over (hp : Law.Admits p) (hbook : book.Over p) (h : Reduces book term w)
    (hterm : term.Over p) : w.Over p := by
  have hover : (∀ term w, Reduces book term w → term.Over p → w.Over p) ∧
      ∀ term g args verdict w, Obeys book term g args verdict w → term.Over p →
        (∀ arg ∈ args, arg.Over p) → verdict.Over p → w.Over p := by
    apply reduces_induction
    case normal => exact fun term _ hterm => hterm
    case unfold =>
      intro term bound args v w hg _ ihv _ ihw hterm
      have hsees := glance_over hbook hterm
      rw [hg] at hsees
      obtain ⟨hbound, hargs⟩ := hsees
      exact ihw (Term.over_apply.2 ⟨ihv hbound, hargs⟩)
    case fire =>
      intro term g args w hg _ ih hterm
      have hargs := glance_over hbook hterm
      rw [hg] at hargs
      exact ih hterm hargs (Law.begin_over hp fun x hx => hargs x (List.mem_of_mem_take hx))
    case becomes =>
      intro term g args result w _ ih _ hargs hresult
      exact ih (Term.over_apply.2 ⟨hresult, fun x hx => hargs x (List.mem_of_mem_drop hx)⟩)
    case stuck => exact fun term g args hterm _ _ => hterm
    case needs =>
      intro term g args need wanted v w _ ihv _ ih hterm hargs hneeds
      refine ih hterm hargs (Law.onTerm_over hp (fun x hx => ?_) hneeds.1 (ihv hneeds.2))
      exact hargs x (List.mem_of_mem_take hx)
  exact hover.1 term w h hterm

theorem Forces.over (hp : Law.Admits p) (hbook : book.Over p) (h : Forces book term w)
    (hterm : term.Over p) : w.Over p := by
  obtain ⟨fuel, h⟩ := h
  induction fuel generalizing term w with
  | zero => cases h
  | succ fuel ih =>
    obtain ⟨u, hu, hw⟩ := force_succ_iff.1 h
    have hover := Reduces.over hp hbook ⟨fuel, hu⟩ hterm
    obtain ⟨-, rfl⟩ | ⟨left, right, l, r, hcell, hl, hr, rfl⟩ := hw
    · exact hover
    · obtain ⟨hleft, hright⟩ := hover.halves hcell
      exact ⟨⟨hp.fn .cons nofun, ih hleft hl⟩, ih hright hr⟩

theorem Forces.self (h : Forces book term w) : Forces book w w := by
  obtain ⟨fuel, h⟩ := h
  induction fuel generalizing term w with
  | zero => cases h
  | succ fuel ih =>
    obtain ⟨u, hu, hw⟩ := force_succ_iff.1 h
    obtain ⟨hcell, rfl⟩ | ⟨left, right, l, r, -, hl, hr, rfl⟩ := hw
    · exact forces_iff.2 ⟨w, Reduces.self ⟨fuel, hu⟩, .inl ⟨hcell, rfl⟩⟩
    · exact forces_cell (ih hl) (ih hr)

end Direct

end SignalCalculus
