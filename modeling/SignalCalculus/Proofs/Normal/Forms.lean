import SignalCalculus.Proofs.Law.Verdicts

set_option autoImplicit false

namespace SignalCalculus

namespace Direct

variable {book : Book} {g : Fn} {operands : List Term} {wanted v w : Term}

/-- A strict law that has come this far waits for this term. -/
inductive Waits (book : Book) : Fn → List Term → Law.Need → Term → Prop
  | operand {g : Fn} {x : Term} (strict : g ∈ Fn.unary) : Waits book g [x] .operand x
  | condition {x y z : Term} : Waits book .if0 [x, y, z] .operand x
  | first {g : Fn} {x y : Term} (strict : g ∈ Fn.binary) : Waits book g [x, y] .operand x
  | second {g : Fn} {x y : Term} {n : Tagged} (strict : g ∈ Fn.binary)
      (number : Reduces book x (.atom (.number n))) : Waits book g [x, y] (.second n) y
  | whole {x : Term} : Waits book .mod [x] .operand x
  | part {g : Fn} {x y wanted : Term} {cells : List (Cell Term Value)} (strict : g ∈ Fn.forcing)
      (reached : ComesTo book x cells y) (same : ∀ v, Reduces book wanted v → Reduces book y v) :
      Waits book g [x] (.part cells) wanted

/-- A law is held up only for a reason, and waits only for what it demands. -/
inductive Backed (book : Book) (g : Fn) (operands : List Term) : Law.Verdict → Prop
  | becomes (term : Term) : Backed book g operands (.becomes term)
  | fails (fault : Fault) : Backed book g operands (.fails fault)
  | sends (bits : List Char) : Backed book g operands (.sends bits)
  | stuck {x u : Term} (demands : Demands book g operands x) (reduces : Reduces book x u)
      (neutral : Neutral book u) : Backed book g operands .stuck
  | needs {need : Law.Need} {wanted : Term} (waits : Waits book g operands need wanted) :
      Backed book g operands (.needs need wanted)

theorem Waits.demands {need : Law.Need} (h : Waits book g operands need wanted)
    (hv : Reduces book wanted v) : ∃ x, Demands book g operands x ∧ Reduces book x v := by
  cases h with
  | operand strict => exact ⟨_, .operand strict, hv⟩
  | condition => exact ⟨_, .condition, hv⟩
  | first strict => exact ⟨_, .first strict, hv⟩
  | second strict number => exact ⟨_, .second strict number, hv⟩
  | whole => exact ⟨_, .part (by decide) .whole, hv⟩
  | part strict reached same => exact ⟨_, .part strict reached, same v hv⟩

theorem Backed.of_settles {verdict : Law.Verdict} (h : verdict.Settles) :
    Backed book g operands verdict := by
  cases h with
  | becomes term => exact .becomes term
  | fails fault => exact .fails fault
  | sends bits => exact .sends bits

theorem Waits.fits {need : Law.Need} (h : Waits book g operands need wanted) :
    Law.Fits g operands need := by
  cases h with
  | operand strict => exact .operand strict
  | condition => exact .condition
  | first strict => exact .first strict
  | second strict number => exact .second strict
  | whole => exact .whole
  | part strict reached same => exact .part strict

theorem begin_backed (h : g.arity? = some operands.length) :
    Backed book g operands (Law.begin g operands) := by
  obtain ⟨term, hlazy⟩ | ⟨hlazy, hstrict⟩ := Law.lazy_or_strict h
  · unfold Law.begin
    rw [hlazy]
    exact .becomes term
  · obtain ⟨hg, x, rfl⟩ | ⟨rfl, x, y, z, rfl⟩ | ⟨hg, x, y, rfl⟩ | ⟨hg, x, rfl⟩ := hstrict
    · rw [Law.begin_unary hg]
      exact .needs (.operand hg)
    · exact .needs .condition
    · rw [Law.begin_binary hg]
      exact .needs (.first hg)
    · have hpart : Waits book g [x] (.part []) x := .part hg .whole fun v hv => hv
      simp only [Fn.forcing, List.mem_cons, List.not_mem_nil, or_false] at hg
      obtain rfl | rfl | rfl := hg
      · exact .needs .whole
      · exact .needs hpart
      · exact .needs hpart

theorem settle_backed {x y : Term} {cells : List (Cell Term Value)} {leaf : Value}
    (hg : g ∈ Fn.forcing) (hreached : ComesTo book x cells y) (hleaf : Yields book y leaf) :
    Backed book g [x] (Law.onPart.settle g cells leaf) := by
  induction cells generalizing y leaf with
  | nil =>
    exact .of_settles (Law.onValue_settles hg leaf)
  | cons cell cells ih =>
    cases hreached with
    | left before h halves =>
      exact .needs (.part hg (.right before h halves hleaf) fun v hv => hv)
    | right before h halves hl => exact ih before (.cell h halves hl hleaf)

theorem onPart_backed {x y : Term} {cells : List (Cell Term Value)} (hg : g ∈ Fn.forcing)
    (hstuck : ¬w.isStuck = true) (hreached : ComesTo book x cells y) (hw : Reduces book y w) :
    Backed book g [x] (Law.onPart g cells w) := by
  unfold Law.onPart
  unfold Term.isStuck at hstuck
  cases hcell : w.cell? with
  | some halves =>
    exact .needs (.part hg (.left hreached hw hcell) fun v hv => hv)
  | none =>
    dsimp only
    split
    · rename_i hspine
      rw [Term.eq_of_spine_nil hspine] at hw
      exact settle_backed hg hreached (.nil hw)
    · rename_i n hspine
      rw [Term.eq_of_spine_nil hspine] at hw
      exact settle_backed hg hreached (.number hw)
    · rw [if_neg hstuck]
      exact .fails _

theorem onWhole_backed {x : Term} (hstuck : ¬w.isStuck = true) (hw : Reduces book x w) :
    Backed book .mod [x] (Law.onOperand .mod [x] w) := by
  unfold Law.onOperand
  unfold Term.isStuck at hstuck
  dsimp only
  split
  · split
    · exact .fails _
    · exact .becomes _
  · rw [if_neg hstuck]
    refine .needs (.part (by decide) .whole fun v hv => ?_)
    rwa [← hw.self.unique hv]

theorem onTerm_backed_of_not_stuck {need : Law.Need} (h : Waits book g operands need wanted)
    (hv : Reduces book wanted v) (hstuck : ¬v.isStuck = true) :
    Backed book g operands (Law.onTerm g operands need v) := by
  cases h with
  | operand strict => exact .of_settles (Law.onUnary_settles strict hstuck wanted)
  | @condition _ y z =>
    have hinteger : (Law.withInteger v fun n => .becomes (if n = 0 then y else z)).Settles :=
      Law.withInteger_settles hstuck fun n => .becomes _
    exact .of_settles hinteger
  | @first _ _ y strict =>
    rw [Law.onTerm, Law.onOperand_binary strict]
    unfold Law.withNumber
    unfold Term.isStuck at hstuck
    split
    · rename_i n hspine
      rw [Term.eq_of_spine_nil hspine] at hv
      exact .needs (.second strict hv)
    · rw [if_neg hstuck]
      exact .fails _
  | second strict number => exact .of_settles (Law.onSecond_settles strict hstuck _)
  | whole => exact onWhole_backed hstuck hv
  | part strict reached same => exact onPart_backed strict hstuck reached (same v hv)

theorem onTerm_backed {need : Law.Need} (h : Waits book g operands need wanted)
    (hv : Reduces book wanted v) (hnormal : IsNormal book v) :
    Backed book g operands (Law.onTerm g operands need v) := by
  by_cases hstuck : v.isStuck = true
  · obtain ⟨x, hdemands, hx⟩ := h.demands hv
    rw [Law.onTerm_of_isStuck h.fits hstuck]
    exact .stuck hdemands hx (hnormal.isStuck_iff.1 hstuck)
  · exact onTerm_backed_of_not_stuck h hv hstuck

theorem glance_spine (book : Book) (term : Term) :
    match glance book term with
    | .normal => IsNormal book term
    | .fires g args =>
      term = (Term.fn g).apply args ∧ g.arity? = some (Law.operands g args).length
    | _ => True := by
  obtain ⟨head, args, hspine⟩ : ∃ head args, term.spine = (head, args) := ⟨_, _, rfl⟩
  have hterm := term.apply_spine
  rw [hspine] at hterm
  cases head with
  | var id =>
    rw [glance_of_var hspine]
    cases hid : book.resolve id with
    | none =>
      rw [← hterm]
      exact .neutral (.free hid args)
    | some bound => trivial
  | fn g =>
    rw [glance_of_fn hspine]
    cases harity : g.arity? with
    | none => trivial
    | some arity =>
      by_cases hlacks : args.length < arity
      · simp only [if_pos hlacks]
        rw [← hterm]
        exact .lacking harity hlacks
      · simp only [if_neg hlacks, Law.operands, harity, Option.getD_some, List.length_take]
        exact ⟨hterm.symm, congrArg some (by omega)⟩
  | number n | bits text | picture points =>
    simp only [glance, hspine]
    cases args with
    | nil =>
      rw [← hterm]
      constructor
    | cons arg args => trivial
  | mark m =>
    simp only [glance, hspine]

theorem isNormal_of_glance {term : Term} (h : glance book term = .normal) :
    IsNormal book term := by
  have hspine := glance_spine book term
  rwa [h] at hspine

theorem glance_eq_fires {term : Term} {args : List Term} (h : glance book term = .fires g args) :
    term = (Term.fn g).apply args ∧ g.arity? = some (Law.operands g args).length := by
  have hspine := glance_spine book term
  rwa [h] at hspine

/-- Whatever a term reduces to is a weak head normal form. -/
theorem Reduces.isNormal {term : Term} (h : Reduces book term w) : IsNormal book w := by
  have hnormal : (∀ term w, Reduces book term w → IsNormal book w) ∧
      ∀ term g args verdict w, Obeys book term g args verdict w →
        glance book term = .fires g args → Backed book g (Law.operands g args) verdict →
        IsNormal book w := by
    -- Along a law, the invariant is that each verdict is backed.
    apply reduces_induction
    case normal => exact fun term hg => isNormal_of_glance hg
    case unfold => exact fun term bound args v w _ _ _ _ ih => ih
    case fire =>
      intro term g args w hg _ ih
      exact ih hg (begin_backed (glance_eq_fires hg).2)
    case becomes => exact fun term g args result w _ ih _ _ => ih
    case stuck =>
      intro term g args hg hbacked
      have hargs : Law.operands g args ++ Law.surplus g args = args := List.take_append_drop _ _
      cases hbacked with
      | stuck hdemands hx hu =>
        have hheld := Neutral.held hdemands hx hu (Law.surplus g args)
        rw [hargs, ← (glance_eq_fires hg).1] at hheld
        exact .neutral hheld
    case needs =>
      intro term g args need wanted v w hv ihv _ ih hg hbacked
      cases hbacked with
      | needs hwaits => exact ih hg (onTerm_backed hwaits hv ihv)
  exact hnormal.1 term w h

section Held

variable {term x y u : Term} {args : List Term} {cells : List (Cell Term Value)}

theorem onPart_of_cell {left right : Term} (h : w.cell? = some (left, right)) (g : Fn)
    (cells : List (Cell Term Value)) :
    Law.onPart g cells w = .needs (.part (.left right :: cells)) left := by
  unfold Law.onPart
  rw [h]

theorem Yields.obeys {leaf : Value} (h : Yields book y leaf)
    (hw : Obeys book term g args (Law.onPart.settle g cells leaf) w) :
    Obeys book term g args (.needs (.part cells) y) w := by
  induction h generalizing cells with
  | nil h => exact obeys_iff.2 ⟨_, h, hw⟩
  | number h => exact obeys_iff.2 ⟨_, h, hw⟩
  | @cell term' v left right l r h halves hl hr ihl ihr =>
    have hright : Obeys book term g args (.needs (.part (.right l :: cells)) right) w := ihr hw
    have hleft : Obeys book term g args (.needs (.part (.left right :: cells)) left) w := ihl hright
    refine obeys_iff.2 ⟨v, h, ?_⟩
    rw [Law.onTerm, onPart_of_cell halves]
    exact hleft

/-- A law that forces a value comes to every element that forcing comes to. -/
theorem ComesTo.obeys (h : ComesTo book x cells y)
    (hw : Obeys book term g args (.needs (.part cells) y) w) :
    Obeys book term g args (.needs (.part []) x) w := by
  induction h with
  | whole => exact hw
  | left before h halves ih =>
    refine ih (obeys_iff.2 ⟨_, h, ?_⟩)
    rw [Law.onTerm, onPart_of_cell halves]
    exact hw
  | right before h halves hl ih =>
    refine ih (obeys_iff.2 ⟨_, h, ?_⟩)
    rw [Law.onTerm, onPart_of_cell halves]
    exact hl.obeys hw

theorem ComesTo.whole_or_cell (h : ComesTo book x cells y) :
    y = x ∨ ∃ w left right, Reduces book x w ∧ w.cell? = some (left, right) := by
  induction h with
  | whole => exact .inl rfl
  | @left _ _ w left right _ h halves ih =>
    obtain rfl | hcell := ih
    · exact .inr ⟨w, left, right, h, halves⟩
    · exact .inr hcell
  | @right _ _ w left right _ _ h halves _ ih =>
    obtain rfl | hcell := ih
    · exact .inr ⟨w, left, right, h, halves⟩
    · exact .inr hcell

theorem Waits.obeys {need : Law.Need} (h : Waits book g operands need wanted)
    (hv : Reduces book wanted v) (hstuck : v.isStuck = true) (hargs : Law.operands g args = operands) :
    Obeys book term g args (.needs need wanted) term := by
  refine obeys_iff.2 ⟨v, hv, ?_⟩
  rw [hargs, Law.onTerm_of_isStuck h.fits hstuck]
  exact obeys_iff.2 rfl

theorem obeys_mod (hw : Obeys book term .mod args (.needs (.part []) x) w) {v left right : Term}
    (hx : Reduces book x v) (halves : v.cell? = some (left, right)) :
    Obeys book term .mod args (.needs .operand x) w := by
  have hforce : Law.onOperand .mod (Law.operands .mod args) v = .needs (.part []) v := by
    unfold Law.onOperand
    obtain hspine | hspine := Term.cell?_eq_some_iff.1 halves <;> simp only [hspine] <;> rfl
  obtain ⟨v', hv', hnext⟩ := obeys_iff.1 hw
  obtain rfl := hx.unique hv'
  refine obeys_iff.2 ⟨v, hx, ?_⟩
  rw [Law.onTerm, hforce]
  exact obeys_iff.2 ⟨v, hx.self, hnext⟩

theorem Demands.obeys (h : Demands book g operands x) (hx : Reduces book x u)
    (hstuck : u.isStuck = true) (hargs : Law.operands g args = operands) :
    Obeys book term g args (Law.begin g operands) term := by
  cases h with
  | operand strict =>
    rw [Law.begin_unary strict]
    exact (Waits.operand strict).obeys hx hstuck hargs
  | condition => exact Waits.condition.obeys hx hstuck hargs
  | first strict =>
    rw [Law.begin_binary strict]
    exact (Waits.first strict).obeys hx hstuck hargs
  | second strict number =>
    rw [Law.begin_binary strict]
    refine obeys_iff.2 ⟨_, number, ?_⟩
    rw [hargs, Law.onTerm, Law.onOperand_binary strict]
    exact (Waits.second strict number).obeys hx hstuck hargs
  | @part _ _ _ cells strict reached =>
    have hheld : Obeys book term g args (.needs (.part cells) x) term :=
      (Waits.part strict reached fun v hv => hv).obeys hx hstuck hargs
    have hpart := reached.obeys hheld
    simp only [Fn.forcing, List.mem_cons, List.not_mem_nil, or_false] at strict
    obtain rfl | rfl | rfl := strict
    · obtain rfl | ⟨v, left, right, hv, halves⟩ := reached.whole_or_cell
      · exact Waits.whole.obeys hx hstuck hargs
      · exact obeys_mod hpart hv halves
    · exact hpart
    · exact hpart

end Held

/-- Every weak head normal form reduces to itself. -/
theorem IsNormal.reduces (h : IsNormal book w) : Reduces book w w := by
  cases h with
  | number n => exact .normal rfl
  | bits text => exact .normal rfl
  | picture points => exact .normal rfl
  | @lacking g arity args takes lacks =>
    refine .normal ?_
    rw [glance_of_fn (Term.spine_atom_apply _ args), takes]
    exact if_pos lacks
  | neutral hneutral =>
    cases hneutral with
    | free unbound args =>
      refine .normal ?_
      rw [glance_of_var (Term.spine_atom_apply _ args), unbound]
    | @held g operands x u demands reduces neutral more =>
      have harity := demands.arity_eq
      have hlacks : ¬(operands ++ more).length < operands.length := by
        rw [List.length_append]
        omega
      have hargs : Law.operands g (operands ++ more) = operands := by
        rw [Law.operands, harity]
        exact List.take_left
      have hfires : glance book ((Term.fn g).apply (operands ++ more)) =
          .fires g (operands ++ more) := by
        rw [glance_of_fn (Term.spine_atom_apply _ _), harity]
        exact if_neg hlacks
      -- The law comes to the demanded term and is held up there, so the redex stays.
      refine .fire hfires ?_
      rw [hargs]
      exact demands.obeys reduces neutral.isStuck hargs

end Direct

end SignalCalculus
