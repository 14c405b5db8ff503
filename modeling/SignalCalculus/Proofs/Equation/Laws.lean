import SignalCalculus.Proofs.Equation.Interchange

set_option autoImplicit false

namespace SignalCalculus.Law

variable {base : Term → Term → Prop}

inductive CellsAgree (base : Term → Term → Prop) : Cell Term Value → Cell Term Value → Prop where
  | left {rest rest' : Term} (h : Interchanges base rest rest') :
      CellsAgree base (.left rest) (.left rest')
  | right (made : Value) : CellsAgree base (.right made) (.right made)

inductive NeedsAgree (base : Term → Term → Prop) : Need → Need → Prop where
  | operand : NeedsAgree base .operand .operand
  | second (first : Tagged) : NeedsAgree base (.second first) (.second first)
  | part {cells cells' : List (Cell Term Value)}
      (h : List.Forall₂ (CellsAgree base) cells cells') :
      NeedsAgree base (.part cells) (.part cells')

/-- What a law says on either side; that it fails is enough. -/
inductive Agrees (base : Term → Term → Prop) : Verdict → Verdict → Prop where
  | becomes {term term' : Term} (h : Interchanges base term term') :
      Agrees base (.becomes term) (.becomes term')
  | stuck : Agrees base .stuck .stuck
  | fails (fault fault' : Fault) : Agrees base (.fails fault) (.fails fault')
  | needs {need need' : Need} {term term' : Term} (hneed : NeedsAgree base need need')
      (h : Interchanges base term term') : Agrees base (.needs need term) (.needs need' term')
  | sends (bits : List Char) : Agrees base (.sends bits) (.sends bits)

theorem interact_agrees {p p' s s' e e' : Term} (hp : Interchanges base p p')
    (hs : Interchanges base s s') (he : Interchanges base e e') :
    Interchanges base (interact p s e) (interact p' s' e') :=
  .app (.app (.atom _) hp) (.app (.app hp hs) he)

theorem f38_agrees {p p' r r' : Term} (hp : Interchanges base p p')
    (hr : Interchanges base r r') : Interchanges base (f38 p r) (f38 p' r') := by
  have hrest : Interchanges base (.app (.fn .cdr) r) (.app (.fn .cdr) r') := .app (.atom _) hr
  have hstate := Interchanges.app (.atom (.fn .modem)) (.app (.atom (.fn .car)) hrest)
  have hdata := Interchanges.app (.atom (.fn .car)) (.app (.atom (.fn .cdr)) hrest)
  have hpictures := Interchanges.app (.atom (.fn .multipledraw)) hdata
  have hflag := Interchanges.app (.atom (.fn .car)) hr
  have hround := Interchanges.app (.app (.app (.atom (.fn .interact)) hp) hstate)
    (.app (.atom (.fn .send)) hdata)
  have htail := Interchanges.app (.app (.atom (.fn .cons)) hpictures) (.atom (.fn .nil))
  have hend := Interchanges.app (.app (.atom (.fn .cons)) hstate) htail
  exact .app (.app (.app (.atom (.fn .if0)) hflag) hend) hround

theorem lazy?_agrees {g : Fn} {operands operands' : List Term} {term : Term}
    (hops : List.Forall₂ (Interchanges base) operands operands')
    (h : lazy? g operands = some term) :
    ∃ term', lazy? g operands' = some term' ∧ Interchanges base term term' := by
  unfold lazy? at h
  split at h
  · -- `t`
    rcases hops with _ | ⟨hx, _ | ⟨hy, _ | _⟩⟩
    cases h
    exact ⟨_, rfl, hx⟩
  · -- `f`
    rcases hops with _ | ⟨hx, _ | ⟨hy, _ | _⟩⟩
    cases h
    exact ⟨_, rfl, hy⟩
  · -- `i`
    rcases hops with _ | ⟨hx, _ | _⟩
    cases h
    exact ⟨_, rfl, hx⟩
  · -- `c`
    rcases hops with _ | ⟨hx, _ | ⟨hy, _ | ⟨hz, _ | _⟩⟩⟩
    cases h
    exact ⟨_, rfl, .app (.app hx hz) hy⟩
  · -- `b`
    rcases hops with _ | ⟨hx, _ | ⟨hy, _ | ⟨hz, _ | _⟩⟩⟩
    cases h
    exact ⟨_, rfl, .app hx (.app hy hz)⟩
  · -- `s`
    rcases hops with _ | ⟨hx, _ | ⟨hy, _ | ⟨hz, _ | _⟩⟩⟩
    cases h
    exact ⟨_, rfl, .app (.app hx hz) (.app hy hz)⟩
  · -- `cons`
    rcases hops with _ | ⟨hx, _ | ⟨hy, _ | ⟨hz, _ | _⟩⟩⟩
    cases h
    exact ⟨_, rfl, .app (.app hz hx) hy⟩
  · -- `vec`
    rcases hops with _ | ⟨hx, _ | ⟨hy, _ | ⟨hz, _ | _⟩⟩⟩
    cases h
    exact ⟨_, rfl, .app (.app hz hx) hy⟩
  · -- `car`
    rcases hops with _ | ⟨hx, _ | _⟩
    cases h
    exact ⟨_, rfl, .app hx (.atom _)⟩
  · -- `cdr`
    rcases hops with _ | ⟨hx, _ | _⟩
    cases h
    exact ⟨_, rfl, .app hx (.atom _)⟩
  · -- `nil`
    rcases hops with _ | ⟨hx, _ | _⟩
    cases h
    exact ⟨_, rfl, .atom _⟩
  · -- `modem`
    rcases hops with _ | ⟨hx, _ | _⟩
    cases h
    exact ⟨_, rfl, .app (.atom _) (.app (.atom _) hx)⟩
  · -- `interact`
    rcases hops with _ | ⟨hp, _ | ⟨hs, _ | ⟨he, _ | _⟩⟩⟩
    cases h
    exact ⟨_, rfl, interact_agrees hp hs he⟩
  · -- `f38`
    rcases hops with _ | ⟨hp, _ | ⟨hr, _ | _⟩⟩
    cases h
    exact ⟨_, rfl, f38_agrees hp hr⟩
  · cases h

theorem lazy?_none_agrees {g : Fn} {operands operands' : List Term}
    (hops : List.Forall₂ (Interchanges base) operands operands')
    (h : lazy? g operands = none) : lazy? g operands' = none := by
  cases hterm : lazy? g operands' with
  | none => rfl
  | some term' =>
    obtain ⟨term, hsome, -⟩ := lazy?_agrees (Interchanges.symm_all hops) hterm
    rw [h] at hsome
    cases hsome

theorem begin_agrees {operands operands' : List Term}
    (hops : List.Forall₂ (Interchanges base) operands operands') (g : Fn) :
    Agrees base (begin g operands) (begin g operands') := by
  unfold begin
  cases hterm : lazy? g operands with
  | some term =>
    obtain ⟨term', hterm', hinter⟩ := lazy?_agrees hops hterm
    rw [hterm']
    exact .becomes hinter
  | none =>
    rw [lazy?_none_agrees hops hterm]
    cases hops with
    | nil => cases g <;> exact .stuck
    | cons hx _ =>
      cases g <;> first | exact .needs (.part .nil) hx | exact .needs .operand hx

theorem isStuckSpine_eq {head head' : Symbol} (hhead : Kin head head') {args args' : List Term}
    (hlen : args.length = args'.length) :
    Term.isStuckSpine (head, args) = Term.isStuckSpine (head', args') := by
  cases hhead with
  | cons | vec => simp only [Term.isStuckSpine, Fn.arity?, hlen]
  | same =>
    cases head with
    | fn g => simp only [Term.isStuckSpine, hlen]
    | var id | number n | mark m | bits text | picture points => rfl

theorem Agrees.unless_stuck {head head' : Symbol} (hhead : Kin head head') {args args' : List Term}
    {verdict verdict' : Verdict} (hargs : List.Forall₂ (Interchanges base) args args')
    (h : Agrees base verdict verdict') :
    Agrees base (if Term.isStuckSpine (head, args) then .stuck else verdict)
      (if Term.isStuckSpine (head', args') then .stuck else verdict') := by
  rw [isStuckSpine_eq hhead hargs.length_eq]
  split
  · exact .stuck
  · exact h

theorem withNumber_agrees {w w' : Term} (hw : Rigid base w w') {go go' : Tagged → Verdict}
    (hgo : ∀ n, Agrees base (go n) (go' n)) :
    Agrees base (withNumber w go) (withNumber w' go') := by
  obtain ⟨head, head', args, args', hs, hs', hhead, hargs⟩ := hw.spine
  unfold withNumber
  rw [hs, hs']
  have hother := Agrees.unless_stuck hhead hargs
    (.fails (.eval (.expectedNumber w)) (.eval (.expectedNumber w')))
  cases hhead with
  | cons | vec => exact hother
  | same =>
    cases head with
    | number n =>
      cases hargs with
      | nil => exact hgo n
      | cons harg hargs => exact hother
    | fn g | var id | mark m | bits text | picture points => exact hother

theorem withInteger_agrees {w w' : Term} (hw : Rigid base w w') {go go' : Int → Verdict}
    (hgo : ∀ n, Agrees base (go n) (go' n)) :
    Agrees base (withInteger w go) (withInteger w' go') := by
  refine withNumber_agrees hw fun n => ?_
  split
  · exact .fails _ _
  · exact hgo n.value

theorem onValue_agrees (g : Fn) (value : Value) :
    Agrees base (onValue g value) (onValue g value) := by
  unfold onValue
  split
  · exact .becomes (.refl _)
  · exact .sends _
  · split
    · exact .becomes (.refl _)
    · exact .fails _ _
  · exact .stuck

theorem place_agrees {cells cells' : List (Cell Term Value)}
    (hcells : List.Forall₂ (CellsAgree base) cells cells') (g : Fn) (leaf : Value) :
    Agrees base (onPart.settle g cells leaf) (onPart.settle g cells' leaf) := by
  unfold onPart.settle
  induction hcells generalizing leaf with
  | nil => exact onValue_agrees g leaf
  | cons hcell htail ih =>
    cases hcell with
    | left hrest => exact .needs (.part (.cons (.right leaf) htail)) hrest
    | right made => exact ih (.pair made leaf)

theorem cell?_some_agrees {w w' left right : Term} (hw : Rigid base w w')
    (h : w.cell? = some (left, right)) :
    ∃ left' right', w'.cell? = some (left', right') ∧ Interchanges base left left' ∧
      Interchanges base right right' := by
  obtain ⟨head, head', args, args', hs, hs', hhead, hargs⟩ := hw.spine
  obtain hspine | hspine := Term.cell?_eq_some_iff.1 h
  · rw [hspine] at hs
    cases hs
    rcases hargs with _ | ⟨hleft, _ | ⟨hright, _ | _⟩⟩
    refine ⟨_, _, Term.cell?_eq_some_iff.2 ?_, hleft, hright⟩
    cases hhead with
    | same => exact .inl hs'
    | cons => exact .inr hs'
  · rw [hspine] at hs
    cases hs
    rcases hargs with _ | ⟨hleft, _ | ⟨hright, _ | _⟩⟩
    refine ⟨_, _, Term.cell?_eq_some_iff.2 ?_, hleft, hright⟩
    cases hhead with
    | same => exact .inr hs'
    | vec => exact .inl hs'

theorem cell?_none_agrees {w w' : Term} (hw : Rigid base w w') (h : w.cell? = none) :
    w'.cell? = none := by
  cases hcell : w'.cell? with
  | none => rfl
  | some halves =>
    obtain ⟨left, right, hsome, -⟩ := cell?_some_agrees hw.symm hcell
    rw [h] at hsome
    cases hsome

theorem onPart_agrees {cells cells' : List (Cell Term Value)} {w w' : Term}
    (hcells : List.Forall₂ (CellsAgree base) cells cells') (hw : Rigid base w w') (g : Fn) :
    Agrees base (onPart g cells w) (onPart g cells' w') := by
  unfold onPart
  cases hcell : w.cell? with
  | some halves =>
    obtain ⟨left', right', hcell', hleft, hright⟩ := cell?_some_agrees hw hcell
    rw [hcell']
    exact .needs (.part (.cons (.left hright) hcells)) hleft
  | none =>
    rw [cell?_none_agrees hw hcell]
    obtain ⟨head, head', args, args', hs, hs', hhead, hargs⟩ := hw.spine
    dsimp only
    rw [hs, hs']
    have hother := Agrees.unless_stuck hhead hargs
      (.fails (.eval (.expectedList g w)) (.eval (.expectedList g w')))
    cases hhead with
    | cons | vec => exact hother
    | same =>
      cases head with
      | fn k =>
        by_cases hk : k = .nil
        · subst hk
          cases hargs with
          | nil => exact place_agrees hcells g .nil
          | cons harg hargs => exact hother
        · cases k <;> first | exact absurd rfl hk | exact hother
      | number n =>
        cases hargs with
        | nil => exact place_agrees hcells g (.num n.value)
        | cons harg hargs => exact hother
      | var id | mark m | bits text | picture points => exact hother

theorem isnil_agrees {w w' : Term} (hw : Rigid base w w') (operands operands' : List Term) :
    Agrees base (onOperand .isnil operands w) (onOperand .isnil operands' w') := by
  obtain ⟨head, head', args, args', hs, hs', hhead, hargs⟩ := hw.spine
  simp only [onOperand, hs, hs']
  have hempty : args.isEmpty = args'.isEmpty := by cases hargs <;> rfl
  refine .unless_stuck hhead hargs ?_
  rw [hempty]
  cases hhead with
  | cons | vec => exact .becomes (.refl _)
  | same =>
    cases head with
    | number n => exact .fails _ _
    | fn k | var id | mark m | bits text | picture points => exact .becomes (.refl _)

theorem mod_agrees {w w' : Term} (hw : Rigid base w w') (operands operands' : List Term) :
    Agrees base (onOperand .mod operands w) (onOperand .mod operands' w') := by
  obtain ⟨head, head', args, args', hs, hs', hhead, hargs⟩ := hw.spine
  simp only [onOperand, hs, hs']
  have hother := Agrees.unless_stuck hhead hargs (.needs (.part .nil) hw.interchanges)
  cases hhead with
  | cons | vec => exact hother
  | same =>
    cases head with
    | number n =>
      cases hargs with
      | nil =>
        dsimp only
        split
        · exact .fails _ _
        · exact .becomes (.refl _)
      | cons harg hargs => exact hother
    | fn k | var id | mark m | bits text | picture points => exact hother

theorem dem_agrees {w w' : Term} (hw : Rigid base w w') (operands operands' : List Term) :
    Agrees base (onOperand .dem operands w) (onOperand .dem operands' w') := by
  obtain ⟨head, head', args, args', hs, hs', hhead, hargs⟩ := hw.spine
  simp only [onOperand, hs, hs']
  have hother := Agrees.unless_stuck hhead hargs
    (.fails (.eval (.expectedNumber w)) (.eval (.expectedNumber w')))
  cases hhead with
  | cons | vec => exact hother
  | same =>
    cases head with
    | number n =>
      cases hargs with
      | nil =>
        dsimp only
        split
        · exact .becomes (.refl _)
        · exact .fails _ _
      | cons harg hargs => exact hother
    | bits text =>
      dsimp only
      split
      · exact .becomes (.refl _)
      · exact .fails _ _
    | fn k | var id | mark m | picture points => exact hother

theorem multipledraw_agrees {w w' : Term} (hw : Rigid base w w') (operands operands' : List Term) :
    Agrees base (onOperand .multipledraw operands w) (onOperand .multipledraw operands' w') := by
  have hfirst := Interchanges.app (.atom (.fn .draw))
    (.app (.atom (.fn .car)) hw.interchanges)
  have hrest := Interchanges.app (.atom (.fn .multipledraw))
    (.app (.atom (.fn .cdr)) hw.interchanges)
  have hcell := Interchanges.app (.app (.atom (.fn .cons)) hfirst) hrest
  obtain ⟨head, head', args, args', hs, hs', hhead, hargs⟩ := hw.spine
  simp only [onOperand, hs, hs']
  have hother := Agrees.unless_stuck hhead hargs (.becomes hcell)
  cases hhead with
  | cons | vec => exact hother
  | same =>
    cases head with
    | fn k =>
      by_cases hk : k = .nil
      · subst hk
        cases hargs with
        | nil => exact .becomes (.refl _)
        | cons harg hargs => exact hother
      · cases k <;> first | exact absurd rfl hk | exact hother
    | number n | var id | mark m | bits text | picture points => exact hother

theorem unary_agrees {w w' : Term} (hw : Rigid base w w') {g : Fn} {operands operands' : List Term}
    (hg : g ∈ [Fn.inc, .dec, .neg]) :
    Agrees base (onOperand g operands w) (onOperand g operands' w') := by
  simp only [List.mem_cons, List.not_mem_nil, or_false] at hg
  obtain rfl | rfl | rfl := hg <;>
  · simp only [onOperand]
    exact withInteger_agrees hw fun n => .becomes (.refl _)

theorem binary_agrees {w w' : Term} (hw : Rigid base w w') {g : Fn} {operands operands' : List Term}
    (hops : List.Forall₂ (Interchanges base) operands operands')
    (hg : g ∈ [Fn.add, .mul, .div, .eq, .lt]) :
    Agrees base (onOperand g operands w) (onOperand g operands' w') := by
  rcases hops with _ | ⟨hx, _ | ⟨hy, _ | ⟨hz, hrest⟩⟩⟩
  · cases g <;> first | exact .stuck | simp at hg
  · cases g <;> first | exact .stuck | simp at hg
  · have hneeds := withNumber_agrees hw fun n => Agrees.needs (.second n) hy
    cases g <;> first | exact hneeds | simp at hg
  · cases g <;> first | exact .stuck | simp at hg

theorem if0_agrees {w w' : Term} (hw : Rigid base w w') {operands operands' : List Term}
    (hops : List.Forall₂ (Interchanges base) operands operands') :
    Agrees base (onOperand .if0 operands w) (onOperand .if0 operands' w') := by
  rcases hops with _ | ⟨hc, _ | ⟨hx, _ | ⟨hy, _ | ⟨hz, hrest⟩⟩⟩⟩
  · exact .stuck
  · exact .stuck
  · exact .stuck
  · simp only [onOperand]
    refine withInteger_agrees hw fun n => .becomes ?_
    split
    · exact hx
    · exact hy
  · exact .stuck

theorem onOperand_agrees {w w' : Term} (hw : Rigid base w w') {operands operands' : List Term}
    (hops : List.Forall₂ (Interchanges base) operands operands') (g : Fn) :
    Agrees base (onOperand g operands w) (onOperand g operands' w') := by
  cases g with
  | inc => exact unary_agrees hw (by simp)
  | dec => exact unary_agrees hw (by simp)
  | neg => exact unary_agrees hw (by simp)
  | if0 => exact if0_agrees hw hops
  | add => exact binary_agrees hw hops (by simp)
  | mul => exact binary_agrees hw hops (by simp)
  | div => exact binary_agrees hw hops (by simp)
  | eq => exact binary_agrees hw hops (by simp)
  | lt => exact binary_agrees hw hops (by simp)
  | isnil => exact isnil_agrees hw operands operands'
  | mod => exact mod_agrees hw operands operands'
  | dem => exact dem_agrees hw operands operands'
  | multipledraw => exact multipledraw_agrees hw operands operands'
  | _ => exact .stuck

theorem arithmetic_agrees (g : Fn) (a b : Int) :
    Agrees base (arithmetic g a b) (arithmetic g a b) := by
  unfold arithmetic
  split
  · exact .becomes (.refl _)
  · exact .becomes (.refl _)
  · split
    · exact .fails _ _
    · exact .becomes (.refl _)
  · exact .becomes (.refl _)
  · exact .becomes (.refl _)
  · exact .stuck

theorem onSecond_agrees {w w' : Term} (hw : Rigid base w w') (g : Fn) (first : Tagged) :
    Agrees base (onSecond g first w) (onSecond g first w') := by
  refine withNumber_agrees hw fun second => ?_
  split
  · exact .fails _ _
  · split
    · exact .fails _ _
    · exact arithmetic_agrees g _ _

theorem onTerm_agrees {need need' : Need} {w w' : Term} {operands operands' : List Term} (g : Fn)
    (hops : List.Forall₂ (Interchanges base) operands operands')
    (hneed : NeedsAgree base need need') (hw : Rigid base w w') :
    Agrees base (onTerm g operands need w) (onTerm g operands' need' w') := by
  cases hneed with
  | operand => exact onOperand_agrees hw hops g
  | second first => exact onSecond_agrees hw g first
  | part hcells => exact onPart_agrees hcells hw g

theorem onReply_agrees (reply : List Char) : Agrees base (onReply reply) (onReply reply) := by
  unfold onReply
  split
  · exact .becomes (.refl _)
  · exact .fails _ _

end SignalCalculus.Law
