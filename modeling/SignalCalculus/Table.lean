set_option autoImplicit false

namespace SignalCalculus

/-- Keys and values, in the order in which the keys first came. -/
abbrev Table (α β : Type) := List (α × β)

namespace Table

variable {α β : Type}

def keys (table : Table α β) : List α := table.map (·.1)

variable [DecidableEq α]

def get? (key : α) : Table α β → Option β
  | [] => none
  | (k, v) :: rest => if k = key then some v else get? key rest

def put (key : α) (value : β) : Table α β → Table α β
  | [] => [(key, value)]
  | (k, v) :: rest => if k = key then (k, value) :: rest else (k, v) :: put key value rest

theorem get?_put (key key' : α) (value : β) (table : Table α β) :
    get? key' (put key value table) = if key = key' then some value else get? key' table := by
  induction table with
  | nil => simp [put, get?]
  | cons entry rest ih =>
    obtain ⟨k, v⟩ := entry
    by_cases h : k = key
    · subst h
      by_cases hk : k = key' <;> simp [put, get?, hk]
    · by_cases hk : k = key'
      · subst hk
        simp [put, get?, h, Ne.symm h]
      · simp [put, get?, h, hk, ih]

theorem keys_put (key : α) (value : β) (table : Table α β) :
    keys (put key value table) = if key ∈ keys table then keys table else keys table ++ [key] := by
  induction table with
  | nil => simp [put, keys]
  | cons entry rest ih =>
    obtain ⟨k, v⟩ := entry
    by_cases h : k = key
    · subst h
      simp [put, keys]
    · have hne : ¬key = k := fun same => h same.symm
      by_cases hm : key ∈ keys rest
      · simp only [keys] at ih hm
        simp [put, keys, h, hm, ih]
      · simp only [keys] at ih hm
        simp [put, keys, h, hne, hm, ih]

end Table

end SignalCalculus
