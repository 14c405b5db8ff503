import SignalCalculus.Book
import SignalCalculus.Proofs.Book.Entries
import SignalCalculus.Proofs.Term.Grammar

set_option autoImplicit false

namespace SignalCalculus.Book

open Table (ofEntries)

variable {book : Book} {equation : Equation} {equations : List Equation}

/-- What a book is after each equation was tried to be added, in order. -/
def addEach (book : Book) : List Equation → Book
  | [] => book
  | equation :: rest => (book.enter equation).1.addEach rest

def added (book : Book) : List Equation → List Equation
  | [] => []
  | equation :: rest =>
    match book.enter equation with
    | (next, .error _) => next.added rest
    | (next, .ok ()) => equation :: next.added rest

/-- The left side is one variable, or the entry word for it. -/
def Names (id : Int) (lhs : List Symbol) : Prop :=
  lhs = [.var id] ∨ lhs = [.fn .galaxy] ∧ id = Symbol.entryId

instance (id : Int) (lhs : List Symbol) : Decidable (Names id lhs) :=
  inferInstanceAs (Decidable (_ ∨ _))

/-- The equation says what a variable is bound to. -/
def Defines (id : Int) (equation : Equation) : Prop := Names id equation.1 ∧ equation.2 ≠ []

instance (id : Int) (equation : Equation) : Decidable (Defines id equation) :=
  inferInstanceAs (Decidable (_ ∧ _))

theorem boundId?_eq_some_iff {lhs : List Symbol} {id : Int} :
    boundId? lhs = some id ↔ Names id lhs := by
  unfold boundId? Names
  split
  · simp
  · simp [eq_comm]
  · rename_i hvar hgalaxy
    refine iff_of_false nofun ?_
    rintro (rfl | ⟨rfl, -⟩)
    · exact hvar id rfl
    · exact hgalaxy rfl

def bound? (equation : Equation) : Option (Int × Term) :=
  match binding equation.1 equation.2 with
  | .error _ => none
  | .ok made => made

def fits (equation : Equation) : Bool := (binding equation.1 equation.2).isOk

theorem binding_of_fits (h : fits equation) :
    binding equation.1 equation.2 = .ok (bound? equation) := by
  unfold fits at h
  unfold bound?
  cases hbinding : binding equation.1 equation.2 with
  | error e =>
    rw [hbinding] at h
    cases h
  | ok made => rfl

theorem binding_eq_error_iff {lhs rhs : List Symbol} {e : BuildError} :
    binding lhs rhs = .error e ↔ (∃ id, Names id lhs) ∧ Term.build rhs = .error e := by
  simp only [← boundId?_eq_some_iff, binding]
  cases boundId? lhs with
  | none => simp
  | some id => cases Term.build rhs <;> simp [Except.map]

theorem enter_eq_error_iff {e : BuildError} :
    (book.enter equation).2 = .error e ↔
      (∃ id, Names id equation.1) ∧ Term.build equation.2 = .error e := by
  rw [← binding_eq_error_iff, enter]
  cases binding equation.1 equation.2 <;> simp

theorem enter_unchanged {e : BuildError} (h : (book.enter equation).2 = .error e) :
    (book.enter equation).1 = book := by
  rw [enter] at h ⊢
  cases hbinding : binding equation.1 equation.2 with
  | error reason => rfl
  | ok made =>
    rw [hbinding] at h
    cases h

/-- The book of equations that can all be added. -/
def ofFitting (equations : List Equation) : Book where
  forward := ofEntries equations
  backward := ofEntries (equations.map Prod.swap)
  bindings := ofEntries (equations.filterMap bound?)
  order := (equations.map (·.1)).eraseDups

theorem empty_eq_ofFitting : ({} : Book) = ofFitting [] := rfl

theorem contains_ofFitting {lhs : List Symbol} :
    (ofFitting equations).contains lhs ↔ lhs ∈ equations.map (·.1) := by
  have hnone : Table.get? lhs (ofEntries equations) = none ↔ lhs ∉ equations.map (·.1) := by
    rw [Table.get?_ofEntries_eq_none_iff, List.mem_map]
    exact ⟨fun hnone ⟨entry, hmem, hleft⟩ => hnone entry hmem hleft,
      fun hnone entry hmem hleft => hnone ⟨entry, hmem, hleft⟩⟩
  change (Table.get? lhs (ofEntries equations)).isSome ↔ _
  rw [Option.isSome_iff_ne_none, ne_eq, hnone, not_not]

theorem enter_ofFitting (before : List Equation) (h : fits equation) :
    (ofFitting before).enter equation = (ofFitting (before ++ [equation]), .ok ()) := by
  rw [enter, binding_of_fits h]
  change ((ofFitting before).record equation.1 equation.2 (bound? equation), _) = _
  congr 1
  have horder : (if (ofFitting before).contains equation.1 then (ofFitting before).order
      else (ofFitting before).order ++ [equation.1]) =
        ((before ++ [equation]).map (·.1)).eraseDups := by
    simp only [contains_ofFitting]
    rw [List.map_append, List.map_singleton, eraseDups_concat]
    rfl
  unfold record
  rw [horder]
  simp only [ofFitting, List.map_append, List.filterMap_append, List.map_cons, List.map_nil,
    Table.ofEntries_concat, Prod.fst_swap, Prod.snd_swap, mk.injEq, true_and, and_true]
  cases hbound : bound? equation with
  | none => simp [hbound]
  | some entry => simp [hbound, Table.ofEntries_concat]

theorem enter_ofFitting_cases (before : List Equation) (equation : Equation) :
    fits equation ∧
        (ofFitting before).enter equation = (ofFitting (before ++ [equation]), .ok ()) ∨
      fits equation = false ∧
        ∃ e, (ofFitting before).enter equation = (ofFitting before, .error e) := by
  cases hfits : fits equation with
  | true => exact .inl ⟨rfl, enter_ofFitting before hfits⟩
  | false =>
    refine .inr ⟨rfl, ?_⟩
    unfold fits at hfits
    cases hbinding : binding equation.1 equation.2 with
    | error e => exact ⟨e, by rw [enter, hbinding]⟩
    | ok made =>
      rw [hbinding] at hfits
      cases hfits

theorem addEach_ofFitting (before calls : List Equation) :
    (ofFitting before).addEach calls = ofFitting (before ++ calls.filter fits) ∧
      (ofFitting before).added calls = calls.filter fits := by
  induction calls generalizing before with
  | nil => simp [addEach, added]
  | cons equation rest ih =>
    unfold addEach added
    obtain ⟨hfits, henter⟩ | ⟨hfits, e, henter⟩ := enter_ofFitting_cases before equation <;>
      simp [henter, hfits, ih]

theorem extend_ofFitting (before calls : List Equation) :
    (ofFitting before).extend calls = (ofFitting (before ++ calls), .ok ()) ∧
        (∀ equation ∈ calls, fits equation) ∨
      (∃ e, ((ofFitting before).extend calls).2 = .error e) ∧
        ¬∀ equation ∈ calls, fits equation := by
  induction calls generalizing before with
  | nil => simp [extend]
  | cons equation rest ih =>
    unfold extend
    obtain ⟨hfits, henter⟩ | ⟨hfits, e, henter⟩ := enter_ofFitting_cases before equation
    · simpa [henter, hfits] using ih (before ++ [equation])
    · simp [henter, hfits]

theorem addEach_eq (calls : List Equation) : addEach {} calls = ofFitting (added {} calls) := by
  obtain ⟨hbook, hadded⟩ := addEach_ofFitting [] calls
  rw [empty_eq_ofFitting, hbook, hadded, List.nil_append]

theorem fits_of_mem_added {calls : List Equation} (h : equation ∈ added {} calls) :
    fits equation := by
  rw [empty_eq_ofFitting, (addEach_ofFitting [] calls).2] at h
  exact (List.mem_filter.1 h).2

theorem ofEquations_eq_ok_iff :
    ofEquations equations = .ok book ↔
      (∀ equation ∈ equations, fits equation) ∧ book = ofFitting equations := by
  rw [ofEquations, empty_eq_ofFitting]
  obtain ⟨hextend, hfits⟩ | ⟨⟨e, hextend⟩, hfits⟩ := extend_ofFitting [] equations
  · rw [hextend, List.nil_append]
    exact ⟨fun h => by cases h; exact ⟨hfits, rfl⟩, fun h => by rw [h.2]⟩
  · cases hmade : (ofFitting []).extend equations with
    | mk made outcome =>
      rw [hmade] at hextend
      cases hextend
      exact iff_of_false nofun fun h => hfits h.1

theorem snapshot_ofFitting (equations : List Equation) :
    (ofFitting equations).snapshot = ofEntries equations := by
  have hread := Table.filterMap_keys (Table.nodup_keys_ofEntries equations)
  rwa [Table.keys_ofEntries] at hread

theorem lefts_snapshot (equations : List Equation) :
    (ofFitting equations).snapshot.map (·.1) = (equations.map (·.1)).eraseDups := by
  rw [snapshot_ofFitting]
  exact Table.keys_ofEntries equations

theorem length_snapshot (equations : List Equation) :
    (ofFitting equations).snapshot.length = (ofFitting equations).size := by
  rw [snapshot_ofFitting]
  rfl

theorem forward_ofFitting {lhs rhs : List Symbol} :
    (ofFitting equations).forward.get? lhs = some rhs ↔
      (equations.filter (·.1 = lhs)).getLast? = some (lhs, rhs) :=
  Table.get?_ofEntries_eq_some_iff_getLast?

theorem backward_ofFitting {lhs rhs : List Symbol} :
    (ofFitting equations).backward.get? rhs = some lhs ↔
      (equations.filter (·.2 = rhs)).getLast? = some (lhs, rhs) := by
  refine Table.get?_ofEntries_eq_some_iff_getLast?.trans ?_
  rw [List.filter_map, List.getLast?_map, Option.map_eq_some_iff]
  exact ⟨fun ⟨_, hlast, hswap⟩ => by cases hswap; exact hlast, fun hlast => ⟨_, hlast, rfl⟩⟩

theorem mem_snapshot_iff {lhs rhs : List Symbol} :
    (lhs, rhs) ∈ (ofFitting equations).snapshot ↔
      (equations.filter (·.1 = lhs)).getLast? = some (lhs, rhs) := by
  rw [snapshot_ofFitting, Table.mem_iff_get? (Table.nodup_keys_ofEntries _)]
  exact forward_ofFitting

theorem bound?_eq_some_iff {id : Int} {term : Term} :
    bound? equation = some (id, term) ↔
      Names id equation.1 ∧ Term.build equation.2 = .ok (some term) := by
  rw [← boundId?_eq_some_iff, bound?, binding]
  cases boundId? equation.1 with
  | none => simp
  | some other =>
    cases Term.build equation.2 with
    | error e => simp [Except.map]
    | ok made => cases made <;> simp [Except.map]

theorem build_of_defines {id : Int} (hfits : fits equation) (h : Defines id equation) :
    ∃ term, Term.build equation.2 = .ok (some term) := by
  cases hbuild : Term.build equation.2 with
  | error e =>
    have herror := binding_eq_error_iff.2 ⟨⟨id, h.1⟩, hbuild⟩
    rw [binding_of_fits hfits] at herror
    cases herror
  | ok made =>
    cases made with
    | none => exact absurd (Term.build_eq_none_iff.1 hbuild) h.2
    | some term => exact ⟨term, rfl⟩

theorem bound?_fst_eq_some_iff {id : Int} (hfits : fits equation) :
    (bound? equation).map (·.1) = some id ↔ Defines id equation := by
  rw [Option.map_eq_some_iff]
  constructor
  · rintro ⟨⟨other, term⟩, hbound, rfl⟩
    obtain ⟨hnames, hbuild⟩ := bound?_eq_some_iff.1 hbound
    refine ⟨hnames, fun hnil => ?_⟩
    rw [Term.build_eq_none_iff.2 hnil] at hbuild
    cases hbuild
  · intro h
    obtain ⟨term, hbuild⟩ := build_of_defines hfits h
    exact ⟨(id, term), bound?_eq_some_iff.2 ⟨h.1, hbuild⟩, rfl⟩

theorem resolve_eq_some_iff (hfits : ∀ equation ∈ equations, fits equation) {id : Int}
    {term : Term} :
    (ofFitting equations).resolve id = some term ↔
      ∃ equation, (equations.filter (Defines id)).getLast? = some equation ∧
        Term.build equation.2 = .ok (some term) := by
  have hfilter : equations.filter (fun equation => (bound? equation).map (·.1) = some id) =
      equations.filter (Defines id) := by
    refine List.filter_congr fun equation hmem => ?_
    rw [decide_eq_decide]
    exact bound?_fst_eq_some_iff (hfits equation hmem)
  change Table.get? id (ofEntries (equations.filterMap bound?)) = some term ↔ _
  rw [Table.get?_ofEntries_filterMap, hfilter, Option.bind_eq_some_iff]
  refine exists_congr fun equation => and_congr_right fun hlast => ?_
  obtain ⟨hdefines, -⟩ := getLast?_filter_eq_some_iff.1 hlast
  have hdefines : Defines id equation := by simpa using hdefines
  rw [Option.map_eq_some_iff]
  constructor
  · rintro ⟨⟨other, made⟩, hbound, rfl⟩
    exact (bound?_eq_some_iff.1 hbound).2
  · exact fun hbuild => ⟨(id, term), bound?_eq_some_iff.2 ⟨hdefines.1, hbuild⟩, rfl⟩

theorem resolve_eq_none_iff (hfits : ∀ equation ∈ equations, fits equation) {id : Int} :
    (ofFitting equations).resolve id = none ↔ ∀ equation ∈ equations, ¬Defines id equation := by
  have hlast : (equations.filter (Defines id)).getLast? = none ↔
      ∀ equation ∈ equations, ¬Defines id equation := by
    simp
  rw [← hlast, Option.eq_none_iff_forall_ne_some]
  constructor
  · intro hnone
    cases hfound : (equations.filter (Defines id)).getLast? with
    | none => rfl
    | some equation =>
      have hmem := List.mem_filter.1 (List.mem_of_getLast? hfound)
      obtain ⟨term, hbuild⟩ := build_of_defines (hfits equation hmem.1) (by simpa using hmem.2)
      exact absurd ((resolve_eq_some_iff hfits).2 ⟨equation, hfound, hbuild⟩) (hnone term)
  · intro hfound term hresolve
    obtain ⟨equation, hlast, -⟩ := (resolve_eq_some_iff hfits).1 hresolve
    rw [hfound] at hlast
    cases hlast

/-- Whatever is tried to be added to an empty book: an equation is refused if and only if its left
    side is a variable and its right side is no term, and then the book is as it was. The book is
    that of the equations that were added. Its tables have for a left side the right side that came
    last, and for a right side the left side that came last. It lists each left side once, in the
    order in which they first came, and binds a variable to the term of the last right side for it
    that is not empty. -/
theorem loading_is_exact (calls : List Equation) :
    (∀ (book : Book) (equation : Equation) (e : BuildError),
      ((book.enter equation).2 = .error e ↔
        ((∃ id, equation.1 = [.var id]) ∨ equation.1 = [.fn .galaxy]) ∧
          Term.build equation.2 = .error e) ∧
      ((book.enter equation).2 = .error e → (book.enter equation).1 = book)) ∧
    ofEquations (added {} calls) = .ok (addEach {} calls) ∧
    (∀ lhs rhs, (addEach {} calls).forward.get? lhs = some rhs ↔
      ((added {} calls).filter (·.1 = lhs)).getLast? = some (lhs, rhs)) ∧
    (∀ lhs rhs, (addEach {} calls).backward.get? rhs = some lhs ↔
      ((added {} calls).filter (·.2 = rhs)).getLast? = some (lhs, rhs)) ∧
    (addEach {} calls).snapshot.map (·.1) = ((added {} calls).map (·.1)).eraseDups ∧
    (∀ lhs rhs, (lhs, rhs) ∈ (addEach {} calls).snapshot ↔
      ((added {} calls).filter (·.1 = lhs)).getLast? = some (lhs, rhs)) ∧
    (addEach {} calls).size = ((added {} calls).map (·.1)).eraseDups.length ∧
    ∀ id,
      (∀ term, (addEach {} calls).resolve id = some term ↔
        ∃ equation, ((added {} calls).filter (Defines id)).getLast? = some equation ∧
          Term.build equation.2 = .ok (some term)) ∧
      ((addEach {} calls).resolve id = none ↔
        ∀ equation ∈ added {} calls, ¬Defines id equation) := by
  have hfits : ∀ equation ∈ added {} calls, fits equation := fun equation => fits_of_mem_added
  rw [addEach_eq]
  refine ⟨?_, ofEquations_eq_ok_iff.2 ⟨hfits, rfl⟩, fun lhs rhs => forward_ofFitting,
    fun lhs rhs => backward_ofFitting, lefts_snapshot _, fun lhs rhs => mem_snapshot_iff, ?_,
    fun id => ⟨fun term => resolve_eq_some_iff hfits, resolve_eq_none_iff hfits⟩⟩
  · intro book equation e
    have hnames : (∃ id, Names id equation.1) ↔
        (∃ id, equation.1 = [.var id]) ∨ equation.1 = [.fn .galaxy] := by
      simp [Names, exists_or]
    exact ⟨by rw [enter_eq_error_iff, hnames], enter_unchanged⟩
  · rw [← length_snapshot, ← lefts_snapshot, List.length_map]

/-- An application without operands is refused, an empty right side binds nothing, and a variable
    that comes again keeps its place. -/
example :
    let book := addEach {} [([.var 1], [.plain 1]), ([.fn .galaxy], [.plain 2]), ([.var 1], [.ap]),
      ([.var (-1)], []), ([.var 1], [.plain 3])]
    book.snapshot = [([.var 1], [.plain 3]), ([.fn .galaxy], [.plain 2]), ([.var (-1)], [])] ∧
      book.resolve (-1) = some (.num 2) := by
  decide

end SignalCalculus.Book
