import SignalCalculus.Proofs.Book.Loading
import SignalCalculus.Proofs.Machine.Bindings

set_option autoImplicit false

namespace SignalCalculus.Book

open SignalCalculus.Symbol (entryId)

variable {equations : List Equation} {id : Int} {lhs rhs : List Symbol} {lefts : List (List Symbol)}

/-- Of left sides, the last one that names a variable. -/
def lastName? (id : Int) (lefts : List (List Symbol)) : Option (List Symbol) :=
  (lefts.filter (Names id)).getLast?

/-- Of the names of the entry variable, the one that came up last is also the one that was used
    last. -/
def EntryInOrder (equations : List Equation) : Prop :=
  lastName? entryId (equations.map (·.1)).eraseDups = lastName? entryId (equations.map (·.1))

instance (equations : List Equation) : Decidable (EntryInOrder equations) :=
  inferInstanceAs (Decidable (_ = _))

/-- Both names of the entry variable are listed, with right sides that are one term. -/
def OneEntryTerm (book : Book) : Prop :=
  ∃ right right' term, ([.fn .galaxy], right) ∈ book.snapshot ∧
    ([.var entryId], right') ∈ book.snapshot ∧
    Term.build right = .ok (some term) ∧ Term.build right' = .ok (some term)

def Loadable (equations : List Equation) : Prop :=
  ∀ equation ∈ equations, fits equation ∧ equation.2 ≠ []

theorem lastName?_eq_none_iff : lastName? id lefts = none ↔ ∀ lhs ∈ lefts, ¬Names id lhs := by
  simp [lastName?]

theorem names_of_lastName? (h : lastName? id lefts = some lhs) : lhs ∈ lefts ∧ Names id lhs := by
  simpa using List.mem_filter.1 (List.mem_of_getLast? h)

theorem lastName?_eraseDups (name : List Symbol)
    (honly : ∀ lhs ∈ lefts, Names id lhs → lhs = name) :
    lastName? id lefts.eraseDups = lastName? id lefts := by
  cases hlast : lastName? id lefts with
  | none =>
    rw [lastName?_eq_none_iff] at hlast ⊢
    exact fun lhs hmem => hlast lhs (List.mem_eraseDups.1 hmem)
  | some lhs =>
    obtain ⟨hmem, hnames⟩ := names_of_lastName? hlast
    cases hlast' : lastName? id lefts.eraseDups with
    | none => exact absurd hnames (lastName?_eq_none_iff.1 hlast' lhs (List.mem_eraseDups.2 hmem))
    | some lhs' =>
      obtain ⟨hmem', hnames'⟩ := names_of_lastName? hlast'
      rw [honly lhs hmem hnames, honly lhs' (List.mem_eraseDups.1 hmem') hnames']

theorem filter_defines (h : Loadable equations) (id : Int) :
    equations.filter (Defines id) = equations.filter fun equation => Names id equation.1 := by
  refine List.filter_congr fun equation hmem => ?_
  simp [Defines, (h equation hmem).2]

theorem lastName?_map_fst (id : Int) (equations : List Equation) :
    lastName? id (equations.map (·.1)) =
      (equations.filter fun equation => Names id equation.1).getLast?.map (·.1) := by
  rw [lastName?, List.filter_map, List.getLast?_map]
  rfl

theorem resolve_of_lastName?_none (h : Loadable equations)
    (hname : lastName? id (equations.map (·.1)) = none) :
    (ofFitting equations).resolve id = none := by
  refine (resolve_eq_none_iff fun equation hmem => (h equation hmem).1).2 fun equation hmem => ?_
  exact fun hdefines => lastName?_eq_none_iff.1 hname _ (List.mem_map_of_mem hmem) hdefines.1

theorem resolve_of_lastName?_some (h : Loadable equations)
    (hname : lastName? id (equations.map (·.1)) = some lhs) :
    ∃ rhs term, (lhs, rhs) ∈ (ofFitting equations).snapshot ∧ Term.build rhs = .ok (some term) ∧
      (ofFitting equations).resolve id = some term := by
  have hfits : ∀ equation ∈ equations, fits equation := fun equation hmem => (h equation hmem).1
  rw [lastName?_map_fst, Option.map_eq_some_iff] at hname
  obtain ⟨⟨left, rhs⟩, hlast, rfl⟩ := hname
  rw [← filter_defines h] at hlast
  obtain ⟨hdefines, before, after, rfl, hafter⟩ := getLast?_filter_eq_some_iff.1 hlast
  have hmem : (left, rhs) ∈ before ++ (left, rhs) :: after :=
    List.mem_append_right _ List.mem_cons_self
  have hdefines : Defines id (left, rhs) := by simpa using hdefines
  obtain ⟨term, hbuild⟩ := build_of_defines (hfits _ hmem) hdefines
  refine ⟨rhs, term, ?_, hbuild, (resolve_eq_some_iff hfits).2 ⟨_, hlast, hbuild⟩⟩
  -- No equation behind it defines the variable, so none has the same left side.
  rw [mem_snapshot_iff, getLast?_filter_eq_some_iff]
  refine ⟨by simp, before, after, rfl, fun equation hequation hleft => ?_⟩
  have hleft : equation.1 = left := by simpa using hleft
  have hright := (h equation (List.mem_append_right _ (List.mem_cons_of_mem _ hequation))).2
  refine hafter equation hequation (decide_eq_true ⟨?_, hright⟩)
  rw [hleft]
  exact hdefines.1

theorem snapshot_snapshot (equations : List Equation) :
    (ofFitting (ofFitting equations).snapshot).snapshot = (ofFitting equations).snapshot := by
  rw [snapshot_ofFitting, snapshot_ofFitting]
  exact Table.ofEntries_self (Table.nodup_keys_ofEntries equations)

theorem Loadable.snapshot (h : Loadable equations) : Loadable (ofFitting equations).snapshot := by
  rintro ⟨lhs, rhs⟩ hlisted
  have hmem := List.mem_of_getLast? (mem_snapshot_iff.1 hlisted)
  exact h _ (List.mem_filter.1 hmem).1

theorem rhs_unique {rhs' : List Symbol} (h : (lhs, rhs) ∈ (ofFitting equations).snapshot)
    (h' : (lhs, rhs') ∈ (ofFitting equations).snapshot) : rhs = rhs' := by
  have hlast := mem_snapshot_iff.1 h
  rw [mem_snapshot_iff.1 h'] at hlast
  cases hlast
  rfl

theorem resolve_snapshot_of_name (h : Loadable equations)
    (hname : lastName? id (equations.map (·.1)).eraseDups = lastName? id (equations.map (·.1))) :
    (ofFitting (ofFitting equations).snapshot).resolve id = (ofFitting equations).resolve id := by
  rw [← lefts_snapshot] at hname
  cases hlast : lastName? id (equations.map (·.1)) with
  | none =>
    rw [resolve_of_lastName?_none h hlast,
      resolve_of_lastName?_none h.snapshot (hname.trans hlast)]
  | some lhs =>
    obtain ⟨rhs, term, hlisted, hbuild, hresolve⟩ := resolve_of_lastName?_some h hlast
    obtain ⟨rhs', term', hlisted', hbuild', hresolve'⟩ :=
      resolve_of_lastName?_some h.snapshot (hname.trans hlast)
    rw [snapshot_snapshot] at hlisted'
    obtain rfl := rhs_unique hlisted hlisted'
    rw [hbuild] at hbuild'
    cases hbuild'
    rw [hresolve, hresolve']

theorem resolve_of_oneEntryTerm (h : Loadable equations)
    (hone : (ofFitting equations).OneEntryTerm) :
    ∃ term, (ofFitting equations).resolve entryId = some term ∧
      (ofFitting (ofFitting equations).snapshot).resolve entryId = some term := by
  obtain ⟨right, right', term, hword, hvar, hbuild, hbuild'⟩ := hone
  -- Whichever name is the last one, what it is said to be is this term.
  have hterm : ∀ equations : List Equation, Loadable equations →
      ([.fn .galaxy], right) ∈ (ofFitting equations).snapshot →
      ([.var entryId], right') ∈ (ofFitting equations).snapshot →
      (ofFitting equations).resolve entryId = some term := by
    intro equations h hword hvar
    cases hlast : lastName? entryId (equations.map (·.1)) with
    | none =>
      have hmem := List.mem_of_getLast? (mem_snapshot_iff.1 hvar)
      have hleft := List.mem_map_of_mem (f := (·.1)) (List.mem_filter.1 hmem).1
      exact absurd (.inl rfl) (lastName?_eq_none_iff.1 hlast _ hleft)
    | some lhs =>
      obtain ⟨rhs, made, hlisted, hmade, hresolve⟩ := resolve_of_lastName?_some h hlast
      obtain ⟨-, rfl | ⟨rfl, -⟩⟩ := names_of_lastName? hlast
      · obtain rfl := rhs_unique hlisted hvar
        rw [hmade] at hbuild'
        cases hbuild'
        exact hresolve
      · obtain rfl := rhs_unique hlisted hword
        rw [hmade] at hbuild
        cases hbuild
        exact hresolve
  refine ⟨term, hterm equations h hword hvar, hterm _ h.snapshot ?_ ?_⟩
  · rwa [snapshot_snapshot]
  · rwa [snapshot_snapshot]

theorem oneEntryTerm_of_resolve_eq (h : Loadable equations)
    (hsame : (ofFitting (ofFitting equations).snapshot).resolve entryId =
      (ofFitting equations).resolve entryId)
    (horder : ¬EntryInOrder equations) : (ofFitting equations).OneEntryTerm := by
  rw [EntryInOrder, ← lefts_snapshot] at horder
  cases hlast : lastName? entryId (equations.map (·.1)) with
  | none =>
    cases hlast' : lastName? entryId ((ofFitting equations).snapshot.map (·.1)) with
    | none => exact absurd (hlast'.trans hlast.symm) horder
    | some lhs' =>
      obtain ⟨-, term, -, -, hresolve⟩ := resolve_of_lastName?_some h.snapshot hlast'
      rw [resolve_of_lastName?_none h hlast, hresolve] at hsame
      cases hsame
  | some lhs =>
    obtain ⟨rhs, term, hlisted, hbuild, hresolve⟩ := resolve_of_lastName?_some h hlast
    cases hlast' : lastName? entryId ((ofFitting equations).snapshot.map (·.1)) with
    | none =>
      rw [resolve_of_lastName?_none h.snapshot hlast', hresolve] at hsame
      cases hsame
    | some lhs' =>
      obtain ⟨rhs', term', hlisted', hbuild', hresolve'⟩ :=
        resolve_of_lastName?_some h.snapshot hlast'
      rw [hresolve, hresolve'] at hsame
      cases hsame
      rw [snapshot_snapshot] at hlisted'
      rw [hlast, hlast'] at horder
      obtain ⟨-, rfl | ⟨rfl, -⟩⟩ := names_of_lastName? hlast <;>
        obtain ⟨-, rfl | ⟨rfl, -⟩⟩ := names_of_lastName? hlast'
      · exact absurd rfl horder
      · exact ⟨rhs', rhs, _, hlisted', hlisted, hbuild', hbuild⟩
      · exact ⟨rhs, rhs', _, hlisted, hlisted', hbuild, hbuild'⟩
      · exact absurd rfl horder

/-- The entry variable is bound as before if and only if the name that came up last was also used
    last, or both names are said to be the same term. -/
theorem resolve_snapshot_entry_iff (h : Loadable equations) :
    (ofFitting (ofFitting equations).snapshot).resolve entryId =
        (ofFitting equations).resolve entryId ↔
      EntryInOrder equations ∨ (ofFitting equations).OneEntryTerm := by
  constructor
  · intro hsame
    by_cases horder : EntryInOrder equations
    · exact .inl horder
    · exact .inr (oneEntryTerm_of_resolve_eq h hsame horder)
  · rintro (horder | hone)
    · exact resolve_snapshot_of_name h horder
    · obtain ⟨term, hresolve, hresolve'⟩ := resolve_of_oneEntryTerm h hone
      rw [hresolve, hresolve']

theorem resolve_snapshot_of_ne (h : Loadable equations) (hid : id ≠ entryId) :
    (ofFitting (ofFitting equations).snapshot).resolve id = (ofFitting equations).resolve id := by
  refine resolve_snapshot_of_name h (lastName?_eraseDups [.var id] fun lhs _ hnames => ?_)
  exact hnames.resolve_right fun hentry => hid hentry.2

theorem entryInOrder_of_one_name (name : List Symbol)
    (honly : ∀ equation ∈ equations, Names entryId equation.1 → equation.1 = name) :
    EntryInOrder equations := by
  refine lastName?_eraseDups name fun lhs hmem hnames => ?_
  obtain ⟨equation, hequation, rfl⟩ := List.mem_map.1 hmem
  exact honly equation hequation hnames

/-- Equations that were all added and none of which lacks a right side: the book can be made again
    from its own list. It lists the same equations and binds every variable other than the entry
    variable to the same term. The entry variable is bound as before, and then every query has the
    same result with either book, if and only if the last of its two names to come up is also the
    last to be used, or both are said to be the same term; so it is where one name is used only. -/
theorem snapshot_restores_book (equations : List Equation) (book : Book)
    (hbook : ofEquations equations = .ok book) (hright : ∀ equation ∈ equations, equation.2 ≠ []) :
    ∃ again, ofEquations book.snapshot = .ok again ∧ again.snapshot = book.snapshot ∧
      again.size = book.size ∧
      (∀ id, id ≠ entryId → again.resolve id = book.resolve id) ∧
      (again.resolve entryId = book.resolve entryId ↔
        EntryInOrder equations ∨ book.OneEntryTerm) ∧
      (EntryInOrder equations ∨ book.OneEntryTerm → again.Interchangeable book) ∧
      ((∃ name, ∀ equation ∈ equations, Names entryId equation.1 → equation.1 = name) →
        EntryInOrder equations) := by
  obtain ⟨hfits, rfl⟩ := ofEquations_eq_ok_iff.1 hbook
  have h : Loadable equations := fun equation hmem => ⟨hfits equation hmem, hright equation hmem⟩
  have hother := fun id (hid : id ≠ entryId) => resolve_snapshot_of_ne h hid
  have hentry := resolve_snapshot_entry_iff h
  refine ⟨ofFitting (ofFitting equations).snapshot,
    ofEquations_eq_ok_iff.2 ⟨fun equation hmem => (h.snapshot equation hmem).1, rfl⟩,
    snapshot_snapshot equations, ?_, hother, hentry,
    fun hcondition => interchangeable_of_resolve fun id => ?_,
    fun ⟨name, honly⟩ => entryInOrder_of_one_name name honly⟩
  · rw [← length_snapshot, ← length_snapshot, snapshot_snapshot]
  · by_cases hid : id = entryId
    · subst hid
      exact hentry.2 hcondition
    · exact hother id hid

def entryRepeated : List Equation :=
  [([.fn .galaxy], [.plain 1]), ([.var (-1)], [.plain 2]), ([.var 2], [.ap, .fn .inc, .var (-1)]),
    ([.var (-1)], [.plain 3])]

theorem entryRepeated_restored :
    ∃ book again, ofEquations entryRepeated = .ok book ∧
      (∀ equation ∈ entryRepeated, equation.2 ≠ []) ∧ ofEquations book.snapshot = .ok again ∧
      again.snapshot = book.snapshot ∧ again.resolve entryId = book.resolve entryId ∧
      again.Interchangeable book := by
  have hbook : ofEquations entryRepeated = .ok (addEach {} entryRepeated) := rfl
  have hright : ∀ equation ∈ entryRepeated, equation.2 ≠ [] := by decide
  have horder : EntryInOrder entryRepeated := by decide
  obtain ⟨again, hagain, hlist, -, -, hentry, hqueries, -⟩ :=
    snapshot_restores_book entryRepeated _ hbook hright
  exact ⟨_, again, hbook, hright, hagain, hlist, hentry.2 (.inl horder), hqueries (.inl horder)⟩

def entryReturned : List Equation :=
  [([.fn .galaxy], [.plain 1]), ([.var (-1)], [.plain 2]), ([.fn .galaxy], [.plain 3])]

/-- The book says that the entry variable is `3`, and the book that is made of its list says that it
    is `2`. -/
theorem snapshot_loses_entry :
    ∃ book again, ofEquations entryReturned = .ok book ∧
      (∀ equation ∈ entryReturned, equation.1 ≠ [] ∧ equation.2 ≠ []) ∧
      ofEquations book.snapshot = .ok again ∧
      book.resolve entryId = some (.num 3) ∧ again.resolve entryId = some (.num 2) ∧
      (({} : Engine).eval 0 book 12 Link.absent () (some (.atom (.var entryId)))).map (·.1) =
        some (.ok (.num 3)) ∧
      (({} : Engine).eval 0 again 12 Link.absent () (some (.atom (.var entryId)))).map (·.1) =
        some (.ok (.num 2)) := by
  refine ⟨{
      forward := [([.fn .galaxy], [.plain 3]), ([.var (-1)], [.plain 2])]
      backward := [([.plain 1], [.fn .galaxy]), ([.plain 2], [.var (-1)]),
        ([.plain 3], [.fn .galaxy])]
      bindings := [(-1, .num 3)]
      order := [[.fn .galaxy], [.var (-1)]] }, {
      forward := [([.fn .galaxy], [.plain 3]), ([.var (-1)], [.plain 2])]
      backward := [([.plain 3], [.fn .galaxy]), ([.plain 2], [.var (-1)])]
      bindings := [(-1, .num 2)]
      order := [[.fn .galaxy], [.var (-1)]] }, rfl, by decide, rfl, by decide, by decide, ?_, ?_⟩
  · cbv
  · cbv

end SignalCalculus.Book
