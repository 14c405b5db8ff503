import SignalCalculus.Proofs.Term.Sharing

set_option autoImplicit false

namespace SignalCalculus

namespace Graph

variable {graph : Graph} {node : Node} {fingerprint : UInt64} {id : Nat} {term : Term}

/-- Nodes come behind their halves, and each has the fingerprint of its term. -/
structure IsBuilt (graph : Graph) : Prop where
  size_eq : graph.fingerprints.size = graph.nodes.size
  half_lt : ∀ half whole, graph.IsHalf half whole → half < whole
  fingerprint_eq : ∀ id term, graph.Unfolds id term → graph.fingerprint id = term.fingerprint

theorem IsBuilt.isStructural (h : graph.IsBuilt) : graph.IsStructural := fun x y term hx hy =>
  (h.fingerprint_eq x term hx).trans (h.fingerprint_eq y term hy).symm

theorem isBuilt_empty : IsBuilt {} where
  size_eq := rfl
  half_lt half whole := by
    rintro ⟨f, a, h, -⟩
    cases h
  fingerprint_eq id term h := absurd h.lt_size (Nat.not_lt_zero id)

theorem getElem?_push_of_lt (hid : id < graph.nodes.size) :
    (graph.push node fingerprint).nodes[id]? = graph.nodes[id]? :=
  Array.getElem?_push_lt hid ▸ (Array.getElem?_eq_getElem hid).symm

theorem getElem?_push_size :
    (graph.push node fingerprint).nodes[graph.nodes.size]? = some node :=
  Array.getElem?_push_size

theorem Unfolds.push (h : graph.Unfolds id term) :
    (graph.push node fingerprint).Unfolds id term := by
  induction h with
  | leaf h => exact .leaf ((getElem?_push_of_lt (Array.getElem?_eq_some_iff.1 h).1).trans h)
  | join h _ _ ihf iha =>
    exact .join ((getElem?_push_of_lt (Array.getElem?_eq_some_iff.1 h).1).trans h) ihf iha

theorem IsBuilt.unfolds_of_push (h : graph.IsBuilt)
    (hterm : (graph.push node fingerprint).Unfolds id term) (hid : id < graph.nodes.size) :
    graph.Unfolds id term := by
  induction hterm with
  | leaf hnode => exact .leaf ((getElem?_push_of_lt hid).symm.trans hnode)
  | @join id f a _ _ hnode _ _ ihf iha =>
    have hold := (getElem?_push_of_lt hid).symm.trans hnode
    have hf := h.half_lt f id ⟨f, a, hold, .inl rfl⟩
    have ha := h.half_lt a id ⟨f, a, hold, .inr rfl⟩
    exact .join hold (ihf (hf.trans hid)) (iha (ha.trans hid))

theorem IsBuilt.push (h : graph.IsBuilt)
    (hhalves : ∀ f a, node = .join f a → f < graph.nodes.size ∧ a < graph.nodes.size)
    (hfingerprint : ∀ term, (graph.push node fingerprint).Unfolds graph.nodes.size term →
      fingerprint = term.fingerprint) : (graph.push node fingerprint).IsBuilt where
  size_eq := by simp [Graph.push, h.size_eq]
  half_lt half whole := by
    rintro ⟨f, a, hnode, hhalf⟩
    have hlt : whole < graph.nodes.size + 1 := by
      simpa [Graph.push] using (Array.getElem?_eq_some_iff.1 hnode).1
    obtain hlt | rfl := Nat.lt_succ_iff_lt_or_eq.1 hlt
    · exact h.half_lt half whole ⟨f, a, (getElem?_push_of_lt hlt).symm.trans hnode, hhalf⟩
    · obtain ⟨hf, ha⟩ := hhalves f a (Option.some.inj (getElem?_push_size.symm.trans hnode))
      obtain rfl | rfl := hhalf
      · exact hf
      · exact ha
  fingerprint_eq id term hterm := by
    have hlt : id < graph.nodes.size + 1 := by simpa [Graph.push] using hterm.lt_size
    obtain hlt | rfl := Nat.lt_succ_iff_lt_or_eq.1 hlt
    · rw [← h.fingerprint_eq id term (h.unfolds_of_push hterm hlt)]
      simp [Graph.push, Graph.fingerprint, Array.getElem?_push, h.size_eq, hlt.ne]
    · rw [← hfingerprint term hterm, ← h.size_eq]
      simp [Graph.push, Graph.fingerprint]

/-- A node and a graph in which it stands for a term, and every node of the graph before for its
    own. -/
structure Adds (graph : Graph) (term : Term) (added : Nat × Graph) : Prop where
  isBuilt : added.2.IsBuilt
  unfolds : added.2.Unfolds added.1 term
  keeps : ∀ id old, graph.Unfolds id old → added.2.Unfolds id old

theorem adds_leaf (h : graph.IsBuilt) (symbol : Symbol) :
    graph.Adds (.atom symbol)
      (graph.nodes.size, graph.push (.leaf symbol) symbol.fingerprint) where
  isBuilt := by
    refine h.push nofun fun term hterm => ?_
    have hatom := hterm.unique (.leaf getElem?_push_size)
    rw [hatom]
    rfl
  unfolds := .leaf getElem?_push_size
  keeps _ _ hold := hold.push

theorem adds_join (h : graph.IsBuilt) {f a : Nat} {fn arg : Term} (hf : graph.Unfolds f fn)
    (ha : graph.Unfolds a arg) : graph.Adds (.app fn arg) (graph.join f a) where
  isBuilt := by
    refine h.push (fun g b hnode => ?_) fun term hterm => ?_
    · cases hnode
      exact ⟨hf.lt_size, ha.lt_size⟩
    · have happ := hterm.unique (.join getElem?_push_size hf.push ha.push)
      rw [happ, h.fingerprint_eq f fn hf, h.fingerprint_eq a arg ha]
      rfl
  unfolds := .join getElem?_push_size hf.push ha.push
  keeps _ _ hold := hold.push

theorem adds_add (h : graph.IsBuilt) (term : Term) : graph.Adds term (graph.add term) := by
  induction term generalizing graph with
  | atom symbol => exact adds_leaf h symbol
  | app fn arg ihf iha =>
    have hf := ihf h
    have ha := iha hf.isBuilt
    have happ := adds_join ha.isBuilt (ha.keeps _ _ hf.unfolds) ha.unfolds
    exact ⟨happ.isBuilt, happ.unfolds,
      fun id old hold => happ.keeps id old (ha.keeps id old (hf.keeps id old hold))⟩

end Graph

def Term.doubled (term : Term) : Nat → Term
  | 0 => term
  | count + 1 => (Term.app term term).doubled count

theorem Term.doubled_inj {a b : Term} (count : Nat) : a.doubled count = b.doubled count ↔ a = b := by
  induction count generalizing a b with
  | zero => rfl
  | succ count ih =>
    rw [doubled, doubled, ih, Term.app.injEq, and_self]

theorem Graph.adds_double {graph : Graph} (h : graph.IsBuilt) {id : Nat} {term : Term}
    (hterm : graph.Unfolds id term) (count : Nat) :
    graph.Adds (term.doubled count) (graph.double id count) := by
  induction count generalizing graph id term with
  | zero => exact ⟨h, hterm, fun _ _ hold => hold⟩
  | succ count ih =>
    have hjoin := adds_join h hterm hterm
    have hrest := ih hjoin.isBuilt hjoin.unfolds
    exact ⟨hrest.isBuilt, hrest.unfolds,
      fun id old hold => hrest.keeps id old (hjoin.keeps id old hold)⟩

theorem Term.sameDoubled_iff (doublings : Nat) (a b : Term) :
    Term.sameDoubled doublings a b = true ↔ a = b := by
  have ha := Graph.adds_add Graph.isBuilt_empty a
  have hb := Graph.adds_add ha.isBuilt b
  have hx := Graph.adds_double hb.isBuilt (hb.keeps _ _ ha.unfolds) doublings
  have hy := Graph.adds_double hx.isBuilt (hx.keeps _ _ hb.unfolds) doublings
  have hsame := Graph.same_iff hy.isBuilt.isStructural (hy.keeps _ _ hx.unfolds) hy.unfolds
  exact hsame.trans (Term.doubled_inj doublings)

namespace Graph

/-- In a graph without cycles whose fingerprints are structural, every node stands for one term. A
    comparison of two nodes comes to an end without opening a pair twice, and says whether they stand
    for the same term. So it is an equivalence, and nodes that are the same have one fingerprint. The
    graphs that are made of terms are of this kind: two terms that were applied to themselves over and
    over, each time with one node more, are the same exactly if the two terms are equal. -/
theorem same_decides_unfoldings (graph : Graph) (hacyclic : graph.IsAcyclic)
    (hstructural : graph.IsStructural) :
    (∀ id < graph.nodes.size, ∃! term, graph.Unfolds id term) ∧
    (∀ x y : Nat, ∃ opened, graph.Visits { todo := [(x, y)] } opened (graph.same x y) ∧
      opened.Nodup) ∧
    (∀ (x y : Nat) (s t : Term), graph.Unfolds x s → graph.Unfolds y t →
      (graph.same x y = true ↔ s = t)) ∧
    (Equivalence fun x y : Fin graph.nodes.size => graph.same x y = true) ∧
    (∀ x < graph.nodes.size, ∀ y < graph.nodes.size, graph.same x y = true →
      graph.fingerprint x = graph.fingerprint y) ∧
    ∀ (doublings : Nat) (s t : Term), Term.sameDoubled doublings s t = true ↔ s = t := by
  refine ⟨fun id hid => ?_, fun x y => ?_, fun x y s t hs ht => same_iff hstructural hs ht,
    same_equivalence hacyclic hstructural, fun x hx y _ h => ?_, Term.sameDoubled_iff⟩
  · obtain ⟨term, hterm⟩ := hacyclic.exists_unfolds hid
    exact ⟨term, hterm, fun other hother => hother.unique hterm⟩
  · obtain ⟨opened, hvisits⟩ := exists_visits graph { todo := [(x, y)] }
    exact ⟨opened, hvisits, hvisits.nodup⟩
  · obtain ⟨term, hxterm, hyterm⟩ := (same_iff_alike hacyclic hstructural hx).1 h
    exact hstructural x y term hxterm hyterm

/-- Two applications of the same terms, with halves that are different nodes, and another symbol; all
    nodes have one fingerprint. -/
theorem colliding_nodes_told_apart :
    let graph : Graph :=
      ⟨#[.leaf (.fn .inc), .leaf (.fn .inc), .leaf (.fn .dec), .join 0 1, .join 1 0], #[]⟩
    graph.IsAcyclic ∧ graph.IsStructural ∧ graph.same 3 4 = true ∧ graph.same 0 2 = false := by
  intro graph
  have hacyclic : graph.IsAcyclic := by
    refine isAcyclic_of_half_lt fun half whole ⟨f, a, hnode, hhalf⟩ => ?_
    match whole, hnode with
    | 3, hnode => cases hnode; omega
    | 4, hnode => cases hnode; omega
  have hstructural : graph.IsStructural := fun _ _ _ _ _ => rfl
  have hdecides := (same_decides_unfoldings graph hacyclic hstructural).2.2.1
  have hzero : graph.Unfolds 0 (.fn .inc) := .leaf rfl
  have hone : graph.Unfolds 1 (.fn .inc) := .leaf rfl
  have htwo : graph.Unfolds 2 (.fn .dec) := .leaf rfl
  refine ⟨hacyclic, hstructural, ?_, ?_⟩
  · exact (hdecides 3 4 _ _ (.join rfl hzero hone) (.join rfl hone hzero)).2 rfl
  · rw [Bool.eq_false_iff]
    exact fun h => absurd ((hdecides 0 2 _ _ hzero htwo).1 h) (by decide)

end Graph

end SignalCalculus
