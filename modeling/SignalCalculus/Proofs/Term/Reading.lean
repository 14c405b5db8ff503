import SignalCalculus.Session

set_option autoImplicit false

namespace SignalCalculus.Term

/-- Goes on where other obligations are left behind the ones at hand. -/
def Progress.onto (owed : List Owed) : Progress → Except BuildError Progress
  | .owing first => .ok (.owing (first ++ owed))
  | .complete term => feed owed term

theorem feed_append (first owed : List Owed) (term : Term) :
    feed (first ++ owed) term = (feed first term).bind (Progress.onto owed) := by
  fun_induction feed first term with
  | case1 term => rfl
  | case2 first term => rfl
  | case3 f first term ih => exact ih
  | case4 items first term => rfl
  | case5 items slot first term hslot =>
    cases slot with
    | element => exact absurd rfl hslot
    | start => rfl
    | comma => rfl

theorem read_append {first : List Owed} {symbol : Symbol} {progress : Progress}
    (h : read first symbol = .ok progress) (owed : List Owed) :
    read (first ++ owed) symbol = progress.onto owed := by
  have hfeed : ∀ rest term, feed rest term = .ok progress →
      feed (rest ++ owed) term = progress.onto owed := by
    intro rest term hterm
    rw [feed_append, hterm]
    rfl
  cases symbol with
  | mark m =>
    cases m with
    | ap =>
      cases h
      rfl
    | leftParen =>
      cases h
      rfl
    | comma =>
      rcases first with _ | ⟨_ | _ | ⟨items, _ | _ | _⟩, first⟩ <;> cases h
      rfl
    | rightParen =>
      rcases first with _ | ⟨_ | _ | ⟨items, _ | _ | _⟩, first⟩
      case cons.list.start => exact hfeed first _ h
      case cons.list.element => exact hfeed first _ h
      all_goals cases h
  | number n => exact hfeed first _ h
  | fn g => exact hfeed first _ h
  | var id => exact hfeed first _ h
  | bits text => exact hfeed first _ h
  | picture points => exact hfeed first _ h

theorem readAll_append {first : List Owed} {program : List Symbol} {index : Nat} {term : Term}
    (h : readAll (.owing first) program index = .ok (.complete term)) (owed : List Owed)
    (rest : List Symbol) (index' : Nat) :
    readAll (.owing (first ++ owed)) (program ++ rest) index' =
      (feed owed term).bind fun progress => readAll progress rest (index' + program.length) := by
  induction program generalizing first index index' with
  | nil => cases h
  | cons symbol program ih =>
    have hlength : index' + (symbol :: program).length = index' + 1 + program.length := by
      rw [List.length_cons]
      omega
    rw [List.cons_append, readAll, hlength]
    rw [readAll] at h
    cases hread : read first symbol with
    | error e =>
      rw [hread] at h
      cases h
    | ok progress =>
      rw [hread] at h
      rw [read_append hread owed]
      cases progress with
      | owing next => exact ih h (index' + 1)
      | complete made =>
        cases program with
        | nil =>
          cases h
          rfl
        | cons => cases h

theorem build_eq_some_iff {program : List Symbol} {term : Term} :
    build program = .ok (some term) ↔ readAll (.owing []) program 0 = .ok (.complete term) := by
  unfold build
  cases readAll (.owing []) program 0 with
  | error e => constructor <;> intro h <;> cases h
  | ok progress =>
    cases progress with
    | complete made =>
      constructor
      · intro h
        cases h
        rfl
      · intro h
        cases h
        rfl
    | owing owed =>
      constructor
      · intro h
        rcases owed with _ | ⟨_ | _ | _, owed⟩ <;> cases h
      · intro h
        cases h

theorem build_round {protocol state : List Symbol} {p s : Term}
    (hp : build protocol = .ok (some p)) (hs : build state = .ok (some s)) (x y : Int) :
    build (Round.program protocol state x y) = .ok (some ((Term.fn .interact).apply
      [p, s, (Term.fn .vec).apply [.num x, .num y]])) := by
  have hprogram : Round.program protocol state x y = .ap :: .ap :: .ap :: .fn .interact ::
      (protocol ++ (state ++ [.ap, .ap, .fn .vec, .plain x, .plain y])) := by
    simp only [Round.program, List.append_assoc, List.cons_append, List.nil_append]
  have hprotocol := readAll_append (build_eq_some_iff.1 hp)
    [.argument (.fn .interact), .function, .function]
    (state ++ [.ap, .ap, .fn .vec, .plain x, .plain y]) 4
  have hstate := readAll_append (build_eq_some_iff.1 hs)
    [.argument (.app (.fn .interact) p), .function] [.ap, .ap, .fn .vec, .plain x, .plain y]
    (4 + protocol.length)
  rw [build_eq_some_iff, hprogram]
  exact hprotocol.trans hstate

end SignalCalculus.Term
