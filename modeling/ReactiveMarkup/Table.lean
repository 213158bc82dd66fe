/-
Tables: values by name, in the order in which the names came.

A name that gets a new value keeps its place.
-/

namespace ReactiveMarkup

abbrev Table (α : Type) := List (String × α)

namespace Table

variable {α : Type}

def get? : Table α → String → Option α
  | [], _ => none
  | (k, v) :: rest, name => if k = name then some v else get? rest name

def has (t : Table α) (name : String) : Bool := (t.get? name).isSome

/-- Gives a name a value.  A new name comes last. -/
def put : Table α → String → α → Table α
  | [], name, value => [(name, value)]
  | (k, v) :: rest, name, value =>
    if k = name then (k, value) :: rest else (k, v) :: put rest name value

def erase (t : Table α) (name : String) : Table α := t.filter fun entry => entry.1 != name

def keys (t : Table α) : List String := t.map Prod.fst

def ofPairs (pairs : List (String × α)) : Table α :=
  pairs.foldl (fun t (name, value) => put t name value) []

@[simp] theorem get?_put_self (t : Table α) (name : String) (value : α) :
    (t.put name value).get? name = some value := by
  induction t with
  | nil => simp [put, get?]
  | cons entry rest ih => by_cases h : entry.1 = name <;> simp_all [put, get?]

@[simp] theorem get?_put_ne (t : Table α) {name other : String} (value : α) (h : name ≠ other) :
    (t.put name value).get? other = t.get? other := by
  induction t with
  | nil => simp [put, get?, h]
  | cons entry rest ih => by_cases hk : entry.1 = name <;> simp_all [put, get?]

theorem get?_erase (t : Table α) (name other : String) :
    (t.erase name).get? other = if other = name then none else t.get? other := by
  induction t with
  | nil => simp [erase, get?]
  | cons entry rest ih =>
    unfold erase at ih ⊢
    by_cases he : entry.1 = name
    · rw [List.filter_cons_of_neg (by simp [he]), ih]
      by_cases ho : other = name
      · rw [if_pos ho, if_pos ho]
      · rw [if_neg ho, if_neg ho, get?, if_neg fun h => ho (h.symm.trans he)]
    · rw [List.filter_cons_of_pos (by simp [he]), get?, get?, ih]
      by_cases ho : other = name
      · rw [if_pos ho, if_pos ho, if_neg fun h => he (h.trans ho)]
      · rw [if_neg ho, if_neg ho]

end Table

end ReactiveMarkup
