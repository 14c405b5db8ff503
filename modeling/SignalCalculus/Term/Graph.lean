import SignalCalculus.Term.Basic
import Std.Data.HashSet.Lemmas

set_option autoImplicit false

/-!
# Shared terms

A graph keeps terms whose subterms are shared: each node names its halves by their numbers, which
are smaller than its own. Two nodes are compared by a list of pairs still to visit and a set of pairs
that were opened. No pair is opened twice, so the work is bounded by the graph and not by the terms
it stands for.
-/

namespace SignalCalculus

inductive Node where
  | leaf (symbol : Symbol)
  | join (fn arg : Nat)
  deriving DecidableEq, Inhabited

/-- Nodes, each of which names only nodes before it, and a fingerprint for each. -/
structure Graph where
  nodes : Array Node := #[]
  fingerprints : Array UInt64 := #[]

namespace Graph

def push (graph : Graph) (node : Node) (fingerprint : UInt64) : Graph :=
  ⟨graph.nodes.push node, graph.fingerprints.push fingerprint⟩

def fingerprint (graph : Graph) (id : Nat) : UInt64 := graph.fingerprints.getD id 0

def join (graph : Graph) (fn arg : Nat) : Nat × Graph :=
  (graph.nodes.size,
    graph.push (.join fn arg) (Symbol.mix (graph.fingerprint fn) (graph.fingerprint arg)))

/-- Adds a term without sharing; the number is its node. -/
def add (graph : Graph) : Term → Nat × Graph
  | .atom symbol => (graph.nodes.size, graph.push (.leaf symbol) symbol.fingerprint)
  | .app f arg =>
    let (f, graph) := graph.add f
    let (arg, graph) := graph.add arg
    graph.join f arg

def double (graph : Graph) (id : Nat) : Nat → Nat × Graph
  | 0 => (id, graph)
  | count + 1 =>
    let (id, graph) := graph.join id id
    graph.double id count

/-- The pairs that have to be the same for two nodes to be the same; none if the nodes do not fit
    together. -/
def opened? (graph : Graph) (x y : Nat) : Option (List (Nat × Nat)) :=
  match graph.nodes[x]?, graph.nodes[y]? with
  | some (.leaf a), some (.leaf b) => if a = b then some [] else none
  | some (.join f a), some (.join g b) => some [(f, g), (a, b)]
  | _, _ => none

structure Comparison where
  seen : Std.HashSet (Nat × Nat) := ∅
  todo : List (Nat × Nat)

inductive Turn where
  | ends (same : Bool)
  | passes (next : Comparison)
  | opens (pair : Nat × Nat) (next : Option Comparison)

def turn (graph : Graph) : Comparison → Turn
  | ⟨_, []⟩ => .ends true
  | ⟨seen, (x, y) :: todo⟩ =>
    if x = y then .passes ⟨seen, todo⟩
    else if graph.fingerprint x != graph.fingerprint y then .ends false
    else if seen.contains (x, y) then .passes ⟨seen, todo⟩
    else .opens (x, y) ((graph.opened? x y).map fun pairs => ⟨seen.insert (x, y), pairs ++ todo⟩)

variable {graph : Graph} {now next : Comparison} {pair : Nat × Nat}

theorem turn_eq_ends {same : Bool} (h : graph.turn now = .ends same) :
    (same = true ∧ now.todo = []) ∨
      same = false ∧ ∃ pair todo, now.todo = pair :: todo ∧
        graph.fingerprint pair.1 ≠ graph.fingerprint pair.2 := by
  obtain ⟨seen, _ | ⟨⟨x, y⟩, todo⟩⟩ := now
  · cases h
    exact .inl ⟨rfl, rfl⟩
  · rw [turn] at h
    split at h
    · cases h
    · split at h
      · cases h
        exact .inr ⟨rfl, (x, y), todo, rfl, bne_iff_ne.1 ‹_›⟩
      · split at h <;> cases h

theorem turn_eq_passes (h : graph.turn now = .passes next) :
    ∃ pair, now.todo = pair :: next.todo ∧ next.seen = now.seen ∧
      (pair.1 = pair.2 ∨ pair ∈ now.seen) := by
  obtain ⟨seen, _ | ⟨⟨x, y⟩, todo⟩⟩ := now
  · cases h
  · rw [turn] at h
    split at h
    · cases h
      exact ⟨(x, y), rfl, rfl, .inl ‹_›⟩
    · split at h
      · cases h
      · split at h
        · cases h
          exact ⟨(x, y), rfl, rfl, .inr ‹_›⟩
        · cases h

theorem turn_eq_opens {next : Option Comparison} (h : graph.turn now = .opens pair next) :
    pair ∉ now.seen ∧ ∃ todo, now.todo = pair :: todo ∧
      next = (graph.opened? pair.1 pair.2).map fun pairs =>
        ⟨now.seen.insert pair, pairs ++ todo⟩ := by
  obtain ⟨seen, _ | ⟨⟨x, y⟩, todo⟩⟩ := now
  · cases h
  · rw [turn] at h
    split at h
    · cases h
    · split at h
      · cases h
      · split at h
        · cases h
        · rename_i hseen
          cases h
          exact ⟨hseen, todo, rfl, rfl⟩

theorem lt_size_of_opened? {x y : Nat} {pairs : List (Nat × Nat)}
    (h : graph.opened? x y = some pairs) : x < graph.nodes.size ∧ y < graph.nodes.size := by
  unfold opened? at h
  split at h
  · rename_i hx hy
    exact ⟨(Array.getElem?_eq_some_iff.1 hx).1, (Array.getElem?_eq_some_iff.1 hy).1⟩
  · rename_i hx hy
    exact ⟨(Array.getElem?_eq_some_iff.1 hx).1, (Array.getElem?_eq_some_iff.1 hy).1⟩
  · cases h

def pairs (graph : Graph) : List (Nat × Nat) :=
  (List.range graph.nodes.size).flatMap fun x => (List.range graph.nodes.size).map fun y => (x, y)

theorem mem_pairs : pair ∈ graph.pairs ↔ pair.1 < graph.nodes.size ∧ pair.2 < graph.nodes.size := by
  simp [pairs, Prod.ext_iff]

def unopened (graph : Graph) (seen : Std.HashSet (Nat × Nat)) : List (Nat × Nat) :=
  graph.pairs.filter fun pair => !seen.contains pair

theorem length_unopened_lt (hpair : pair ∈ graph.pairs) {seen : Std.HashSet (Nat × Nat)}
    (hseen : pair ∉ seen) :
    (graph.unopened (seen.insert pair)).length < (graph.unopened seen).length := by
  have hfilter : graph.unopened (seen.insert pair) =
      (graph.unopened seen).filter fun other => other != pair := by
    rw [unopened, unopened, List.filter_filter]
    refine List.filter_congr fun other _ => ?_
    rw [Std.HashSet.contains_insert, Bool.not_or, bne_comm]
    rfl
  rw [hfilter, List.length_filter_lt_length_iff_exists]
  exact ⟨pair, List.mem_filter.2 ⟨hpair, by simpa using hseen⟩, by simp⟩

def run (graph : Graph) (now : Comparison) : Bool :=
  match _ : graph.turn now with
  | .ends same => same
  | .passes next => graph.run next
  | .opens _ none => false
  | .opens _ (some next) => graph.run next
termination_by ((graph.unopened now.seen).length, now.todo.length)
decreasing_by
  · rename_i h
    obtain ⟨pair, htodo, hseen, -⟩ := turn_eq_passes h
    rw [hseen, htodo]
    exact Prod.Lex.right _ (Nat.lt_succ_self _)
  · rename_i h
    obtain ⟨hseen, todo, -, hnext⟩ := turn_eq_opens h
    obtain ⟨pairs, hpairs, rfl⟩ := Option.map_eq_some_iff.1 hnext.symm
    exact Prod.Lex.left _ _ (length_unopened_lt (mem_pairs.2 (lt_size_of_opened? hpairs)) hseen)

/-- Whether two nodes stand for the same term. -/
def same (graph : Graph) (x y : Nat) : Bool := graph.run { todo := [(x, y)] }

end Graph

/-- Whether two terms, each applied to itself `doublings` times over, are the same. -/
def Term.sameDoubled (doublings : Nat) (a b : Term) : Bool :=
  let (x, graph) := Graph.add {} a
  let (y, graph) := graph.add b
  let (x, graph) := graph.double x doublings
  let (y, graph) := graph.double y doublings
  graph.same x y

end SignalCalculus
