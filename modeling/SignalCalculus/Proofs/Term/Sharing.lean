import Mathlib.Data.Fintype.EquivFin
import Mathlib.Logic.Relation
import SignalCalculus.Term.Graph

set_option autoImplicit false

/-!
# Nodes that stand for the same term

In a graph without cycles every node stands for one term, which may be far larger than the graph. The
comparison of two nodes ends, opens no pair of nodes twice, and says whether the two terms are equal,
provided that nodes that stand for equal terms have equal fingerprints; other nodes may share
fingerprints as they like. Pairs are passed over before their halves have been visited, so what is
known at the end is that the opened pairs hold each other up: nodes that fit together, with halves
that are the same node or an opened pair again.
-/

namespace SignalCalculus.Graph

def IsHalf (graph : Graph) (half whole : Nat) : Prop :=
  ∃ f a, graph.nodes[whole]? = some (.join f a) ∧ (half = f ∨ half = a)

/-- All halves are nodes, and no node is reached from itself by going to halves. -/
structure IsAcyclic (graph : Graph) : Prop where
  half_lt : ∀ half whole, graph.IsHalf half whole → half < graph.nodes.size
  no_cycle : ∀ id, ¬Relation.TransGen graph.IsHalf id id

/-- A node stands for a term. -/
inductive Unfolds (graph : Graph) : Nat → Term → Prop
  | leaf {id : Nat} {symbol : Symbol} (h : graph.nodes[id]? = some (.leaf symbol)) :
      Unfolds graph id (.atom symbol)
  | join {id f a : Nat} {fn arg : Term} (h : graph.nodes[id]? = some (.join f a))
      (hf : Unfolds graph f fn) (ha : Unfolds graph a arg) : Unfolds graph id (.app fn arg)

/-- Fingerprints depend on the terms that nodes stand for and on nothing else. -/
def IsStructural (graph : Graph) : Prop :=
  ∀ x y term, graph.Unfolds x term → graph.Unfolds y term → graph.fingerprint x = graph.fingerprint y

/-- A comparison goes on to its end, opening these pairs on the way. -/
inductive Visits (graph : Graph) : Comparison → List (Nat × Nat) → Bool → Prop
  | ends {now : Comparison} {same : Bool} (h : graph.turn now = .ends same) :
      Visits graph now [] same
  | passes {now next : Comparison} {opened : List (Nat × Nat)} {same : Bool}
      (h : graph.turn now = .passes next) (hnext : Visits graph next opened same) :
      Visits graph now opened same
  | misfits {now : Comparison} {pair : Nat × Nat} (h : graph.turn now = .opens pair none) :
      Visits graph now [pair] false
  | opens {now next : Comparison} {pair : Nat × Nat} {opened : List (Nat × Nat)} {same : Bool}
      (h : graph.turn now = .opens pair (some next)) (hnext : Visits graph next opened same) :
      Visits graph now (pair :: opened) same

variable {graph : Graph} {now next : Comparison} {pair : Nat × Nat} {opened : List (Nat × Nat)}
  {same : Bool} {x y : Nat}

/-! ### Unfolding -/

theorem Unfolds.lt_size {id : Nat} {term : Term} (h : graph.Unfolds id term) :
    id < graph.nodes.size := by
  cases h with
  | leaf h => exact (Array.getElem?_eq_some_iff.1 h).1
  | join h _ _ => exact (Array.getElem?_eq_some_iff.1 h).1

theorem Unfolds.unique {id : Nat} {s t : Term} (hs : graph.Unfolds id s) (ht : graph.Unfolds id t) :
    s = t := by
  induction hs generalizing t with
  | leaf h =>
    cases ht with
    | leaf h' => cases h.symm.trans h'; rfl
    | join h' _ _ => cases h.symm.trans h'
  | join h _ _ ihf iha =>
    cases ht with
    | leaf h' => cases h.symm.trans h'
    | join h' hf ha =>
      cases h.symm.trans h'
      rw [ihf hf, iha ha]

theorem IsAcyclic.wellFounded (h : graph.IsAcyclic) :
    WellFounded fun half whole : Fin graph.nodes.size => graph.IsHalf half whole := by
  let below : Fin graph.nodes.size → Fin graph.nodes.size → Prop :=
    fun low high => Relation.TransGen graph.IsHalf low high
  have : IsTrans (Fin graph.nodes.size) below := ⟨fun _ _ _ => Relation.TransGen.trans⟩
  have : Std.Irrefl below := ⟨fun id => h.no_cycle id⟩
  have hbelow : WellFounded below := Finite.wellFounded_of_trans_of_irrefl below
  exact Subrelation.wf (fun hhalf => Relation.TransGen.single hhalf) hbelow

theorem isAcyclic_of_half_lt (h : ∀ half whole, graph.IsHalf half whole → half < whole) :
    graph.IsAcyclic where
  half_lt half whole hhalf := by
    obtain ⟨f, a, hnode, -⟩ := id hhalf
    exact (h half whole hhalf).trans (Array.getElem?_eq_some_iff.1 hnode).1
  no_cycle id hcycle := by
    have hlt : ∀ {low high : Nat}, Relation.TransGen graph.IsHalf low high → low < high := by
      intro low high hpath
      induction hpath with
      | single hhalf => exact h _ _ hhalf
      | tail _ hhalf ih => exact ih.trans (h _ _ hhalf)
    exact absurd (hlt hcycle) (Nat.lt_irrefl id)

theorem IsAcyclic.exists_unfolds (h : graph.IsAcyclic) {id : Nat} (hid : id < graph.nodes.size) :
    ∃ term, graph.Unfolds id term := by
  suffices hall : ∀ id : Fin graph.nodes.size, ∃ term, graph.Unfolds id term from hall ⟨id, hid⟩
  intro id
  induction id using h.wellFounded.induction with
  | _ id ih =>
    have hnode : graph.nodes[id.val]? = some graph.nodes[id] := Array.getElem?_eq_getElem id.isLt
    cases hkind : graph.nodes[id] with
    | leaf symbol => exact ⟨.atom symbol, .leaf (hnode.trans (congrArg some hkind))⟩
    | join f a =>
      have hjoin := hnode.trans (congrArg some hkind)
      have hf : graph.IsHalf f id := ⟨f, a, hjoin, .inl rfl⟩
      have ha : graph.IsHalf a id := ⟨f, a, hjoin, .inr rfl⟩
      obtain ⟨fn, hfn⟩ := ih ⟨f, h.half_lt f id hf⟩ hf
      obtain ⟨arg, harg⟩ := ih ⟨a, h.half_lt a id ha⟩ ha
      exact ⟨.app fn arg, .join hjoin hfn harg⟩

/-! ### What two nodes that fit together are -/

theorem opened?_eq_some {pairs : List (Nat × Nat)} (h : graph.opened? x y = some pairs) :
    (∃ symbol, graph.nodes[x]? = some (.leaf symbol) ∧ graph.nodes[y]? = some (.leaf symbol) ∧
      pairs = []) ∨
    ∃ f a g b, graph.nodes[x]? = some (.join f a) ∧ graph.nodes[y]? = some (.join g b) ∧
      pairs = [(f, g), (a, b)] := by
  unfold opened? at h
  split at h
  · rename_i s t hx hy
    split at h
    · rename_i hsame
      subst hsame
      cases h
      exact .inl ⟨s, hx, hy, rfl⟩
    · cases h
  · rename_i f a g b hx hy
    cases h
    exact .inr ⟨f, a, g, b, hx, hy, rfl⟩
  · cases h

def Alike (graph : Graph) (pair : Nat × Nat) : Prop :=
  ∃ term, graph.Unfolds pair.1 term ∧ graph.Unfolds pair.2 term

theorem Alike.opened? (h : graph.Alike pair) : ∃ pairs, graph.opened? pair.1 pair.2 = some pairs ∧
    ∀ next ∈ pairs, graph.Alike next := by
  obtain ⟨term, hx, hy⟩ := h
  cases hx with
  | leaf hx =>
    cases hy with
    | leaf hy => exact ⟨[], by rw [Graph.opened?, hx, hy]; exact if_pos rfl, nofun⟩
  | join hx hf ha =>
    cases hy with
    | join hy hg hb =>
      refine ⟨_, by rw [Graph.opened?, hx, hy], ?_⟩
      exact List.forall_mem_cons.2 ⟨⟨_, hf, hg⟩, List.forall_mem_singleton.2 ⟨_, ha, hb⟩⟩

/-! ### The course of a comparison -/

theorem exists_visits (graph : Graph) (now : Comparison) :
    ∃ opened, graph.Visits now opened (graph.run now) := by
  fun_induction graph.run now with
  | case1 now same h => exact ⟨[], .ends h⟩
  | case2 now next h ih =>
    obtain ⟨opened, hnext⟩ := ih
    exact ⟨opened, .passes h hnext⟩
  | case3 now pair h => exact ⟨[pair], .misfits h⟩
  | case4 now pair next h ih =>
    obtain ⟨opened, hnext⟩ := ih
    exact ⟨pair :: opened, .opens h hnext⟩

theorem turn_eq_opens_some (h : graph.turn now = .opens pair (some next)) :
    ∃ pairs todo, graph.opened? pair.1 pair.2 = some pairs ∧ now.todo = pair :: todo ∧
      next = ⟨now.seen.insert pair, pairs ++ todo⟩ := by
  obtain ⟨-, todo, htodo, hnext⟩ := turn_eq_opens h
  obtain ⟨pairs, hpairs, rfl⟩ := Option.map_eq_some_iff.1 hnext.symm
  exact ⟨pairs, todo, hpairs, htodo, rfl⟩

theorem Visits.notMem_seen (h : graph.Visits now opened same) : ∀ pair ∈ opened, pair ∉ now.seen := by
  induction h with
  | ends => exact nofun
  | passes h _ ih =>
    obtain ⟨_, -, hseen, -⟩ := turn_eq_passes h
    exact hseen ▸ ih
  | misfits h => exact List.forall_mem_singleton.2 (turn_eq_opens h).1
  | opens h _ ih =>
    obtain ⟨pairs, todo, -, -, rfl⟩ := turn_eq_opens_some h
    refine List.forall_mem_cons.2 ⟨(turn_eq_opens h).1, fun other hother hseen => ?_⟩
    exact ih other hother (Std.HashSet.mem_insert.2 (.inr hseen))

theorem Visits.nodup (h : graph.Visits now opened same) : opened.Nodup := by
  induction h with
  | ends => exact List.nodup_nil
  | passes _ _ ih => exact ih
  | misfits => exact List.nodup_singleton _
  | opens h hnext ih =>
    obtain ⟨pairs, todo, -, -, rfl⟩ := turn_eq_opens_some h
    refine List.nodup_cons.2 ⟨fun hmem => ?_, ih⟩
    exact hnext.notMem_seen _ hmem Std.HashSet.mem_insert_self

theorem Visits.eq_true (h : graph.Visits now opened same) (hstructural : graph.IsStructural)
    (halike : ∀ pair ∈ now.todo, graph.Alike pair) : same = true := by
  induction h with
  | ends h =>
    obtain ⟨rfl, -⟩ | ⟨-, pair, todo, htodo, hdiffer⟩ := turn_eq_ends h
    · rfl
    · obtain ⟨term, hx, hy⟩ := halike pair (htodo ▸ List.mem_cons_self)
      exact absurd (hstructural _ _ term hx hy) hdiffer
  | passes h _ ih =>
    obtain ⟨pair, htodo, -, -⟩ := turn_eq_passes h
    exact ih fun other hother => halike other (htodo ▸ List.mem_cons_of_mem _ hother)
  | misfits h =>
    obtain ⟨-, todo, htodo, hnone⟩ := turn_eq_opens h
    obtain ⟨pairs, hpairs, -⟩ := (halike _ (htodo ▸ List.mem_cons_self)).opened?
    rw [hpairs] at hnone
    cases hnone
  | opens h _ ih =>
    obtain ⟨pairs, todo, hpairs, htodo, rfl⟩ := turn_eq_opens_some h
    obtain ⟨pairs', hpairs', hhalves⟩ := (halike _ (htodo ▸ List.mem_cons_self)).opened?
    obtain rfl : pairs = pairs' := Option.some.inj (hpairs.symm.trans hpairs')
    refine ih fun other hother => ?_
    obtain hother | hother := List.mem_append.1 hother
    · exact hhalves other hother
    · exact halike other (htodo ▸ List.mem_cons_of_mem _ hother)

def Settled (seen : Std.HashSet (Nat × Nat)) (opened : List (Nat × Nat)) (pair : Nat × Nat) : Prop :=
  pair.1 = pair.2 ∨ pair ∈ seen ∨ pair ∈ opened

/-- Where a comparison finds no difference, all pairs still to visit are settled in the end, and so
    are the halves of all opened pairs. -/
theorem Visits.settled (h : graph.Visits now opened same) (hsame : same = true) :
    (∀ pair ∈ now.todo, Settled now.seen opened pair) ∧
    ∀ pair ∈ opened, ∃ pairs, graph.opened? pair.1 pair.2 = some pairs ∧
      ∀ half ∈ pairs, Settled now.seen opened half := by
  induction h with
  | ends h =>
    obtain ⟨-, htodo⟩ | ⟨rfl, -⟩ := turn_eq_ends h
    · exact ⟨fun pair hpair => absurd (htodo ▸ hpair) List.not_mem_nil, nofun⟩
    · cases hsame
  | passes h _ ih =>
    obtain ⟨htodo, hopened⟩ := ih hsame
    obtain ⟨pair, htodo', hseen, hpair⟩ := turn_eq_passes h
    rw [hseen] at htodo hopened
    refine ⟨?_, hopened⟩
    rw [htodo']
    exact List.forall_mem_cons.2 ⟨hpair.imp_right .inl, htodo⟩
  | misfits => cases hsame
  | @opens now next pair opened same h _ ih =>
    obtain ⟨htodo, hopened⟩ := ih hsame
    obtain ⟨pairs, todo, hpairs, htodo', rfl⟩ := turn_eq_opens_some h
    -- before the turn this pair counts as opened, after it as seen
    have hmove : ∀ other, Settled (now.seen.insert pair) opened other →
        Settled now.seen (pair :: opened) other := by
      rintro other (hother | hother | hother)
      · exact .inl hother
      · obtain hother | hother := Std.HashSet.mem_insert.1 hother
        · exact .inr (.inr (List.mem_cons.2 (.inl (eq_of_beq hother).symm)))
        · exact .inr (.inl hother)
      · exact .inr (.inr (List.mem_cons_of_mem _ hother))
    refine ⟨?_, List.forall_mem_cons.2 ⟨⟨pairs, hpairs, ?_⟩, ?_⟩⟩
    · rw [htodo']
      exact List.forall_mem_cons.2 ⟨.inr (.inr List.mem_cons_self),
        fun other hother => hmove other (htodo other (List.mem_append_right _ hother))⟩
    · exact fun half hhalf => hmove half (htodo half (List.mem_append_left _ hhalf))
    · intro other hother
      obtain ⟨pairs', hpairs', hhalves⟩ := hopened other hother
      exact ⟨pairs', hpairs', fun half hhalf => hmove half (hhalves half hhalf)⟩

/-- Each pair fits together, and its halves are the same node or a pair again. -/
def IsBisimulation (graph : Graph) (opened : List (Nat × Nat)) : Prop :=
  ∀ pair ∈ opened, ∃ pairs, graph.opened? pair.1 pair.2 = some pairs ∧
    ∀ half ∈ pairs, half.1 = half.2 ∨ half ∈ opened

theorem IsBisimulation.unfolds (h : graph.IsBisimulation opened) {term : Term}
    (hx : graph.Unfolds x term) (hpair : x = y ∨ (x, y) ∈ opened) : graph.Unfolds y term := by
  -- the pairs may vouch for each other in a circle, so the induction is on the first node's term
  induction hx generalizing y with
  | @leaf x symbol hx =>
    obtain rfl | hpair := hpair
    · exact .leaf hx
    · obtain ⟨pairs, hpairs, -⟩ := h _ hpair
      obtain ⟨symbol', hx', hy, -⟩ | ⟨f, a, g, b, hx', -, -⟩ := opened?_eq_some hpairs
      · cases hx.symm.trans hx'
        exact .leaf hy
      · cases hx.symm.trans hx'
  | @join x f a fn arg hx hf ha ihf iha =>
    obtain rfl | hpair := hpair
    · exact .join hx hf ha
    · obtain ⟨pairs, hpairs, hhalves⟩ := h _ hpair
      obtain ⟨symbol, hx', -, -⟩ | ⟨f', a', g, b, hx', hy, rfl⟩ := opened?_eq_some hpairs
      · cases hx.symm.trans hx'
      · cases hx.symm.trans hx'
        have hfg := hhalves (f, g) List.mem_cons_self
        have hab := hhalves (a, b) (List.mem_cons_of_mem _ List.mem_cons_self)
        exact .join hy (ihf hfg) (iha hab)

theorem Visits.isBisimulation {pair : Nat × Nat}
    (h : graph.Visits { todo := [pair] } opened true) :
    graph.IsBisimulation opened ∧ (pair.1 = pair.2 ∨ pair ∈ opened) := by
  have hsettled : ∀ other, Settled ∅ opened other → other.1 = other.2 ∨ other ∈ opened :=
    fun other hother => hother.imp_right fun hmem => hmem.resolve_left Std.HashSet.not_mem_empty
  obtain ⟨htodo, hopened⟩ := h.settled rfl
  refine ⟨fun other hother => ?_, hsettled pair (htodo pair List.mem_cons_self)⟩
  obtain ⟨pairs, hpairs, hhalves⟩ := hopened other hother
  exact ⟨pairs, hpairs, fun half hhalf => hsettled half (hhalves half hhalf)⟩

theorem unfolds_of_same (h : graph.same x y = true) {term : Term} (hx : graph.Unfolds x term) :
    graph.Unfolds y term := by
  obtain ⟨opened, hvisits⟩ := exists_visits graph { todo := [(x, y)] }
  rw [show graph.run { todo := [(x, y)] } = true from h] at hvisits
  obtain ⟨hbisimulation, hpair⟩ := hvisits.isBisimulation
  exact hbisimulation.unfolds hx hpair

theorem same_of_alike (hstructural : graph.IsStructural) (h : graph.Alike (x, y)) :
    graph.same x y = true := by
  obtain ⟨opened, hvisits⟩ := exists_visits graph { todo := [(x, y)] }
  exact hvisits.eq_true hstructural (List.forall_mem_singleton.2 h)

theorem same_iff (hstructural : graph.IsStructural) {s t : Term} (hs : graph.Unfolds x s)
    (ht : graph.Unfolds y t) : graph.same x y = true ↔ s = t := by
  constructor
  · intro h
    exact (unfolds_of_same h hs).unique ht
  · rintro rfl
    exact same_of_alike hstructural ⟨s, hs, ht⟩

theorem same_iff_alike (hacyclic : graph.IsAcyclic) (hstructural : graph.IsStructural)
    (hx : x < graph.nodes.size) : graph.same x y = true ↔ graph.Alike (x, y) := by
  constructor
  · intro h
    obtain ⟨term, hterm⟩ := hacyclic.exists_unfolds hx
    exact ⟨term, hterm, unfolds_of_same h hterm⟩
  · exact same_of_alike hstructural

theorem same_equivalence (hacyclic : graph.IsAcyclic) (hstructural : graph.IsStructural) :
    Equivalence fun x y : Fin graph.nodes.size => graph.same x y = true where
  refl x := by
    obtain ⟨term, hterm⟩ := hacyclic.exists_unfolds x.isLt
    exact same_of_alike hstructural ⟨term, hterm, hterm⟩
  symm {x y} h := by
    obtain ⟨term, hx, hy⟩ := (same_iff_alike hacyclic hstructural x.isLt).1 h
    exact same_of_alike hstructural ⟨term, hy, hx⟩
  trans {x y z} hxy hyz := by
    obtain ⟨term, hx, hy⟩ := (same_iff_alike hacyclic hstructural x.isLt).1 hxy
    exact same_of_alike hstructural ⟨term, hx, unfolds_of_same hyz hy⟩

end SignalCalculus.Graph
