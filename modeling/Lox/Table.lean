/-!
# Tables of names

A `Table` gives values to names.  It is a list of entries with at most one entry for a name when it
is built by `set`, which overwrites the entry of a name or adds one.  Entries are never removed.
-/

namespace Lox

abbrev Table (α : Type) := List (String × α)

namespace Table

def get? (t : Table α) (name : String) : Option α :=
  match t with
  | [] => none
  | (key, a) :: rest => if key = name then some a else get? rest name

def has (t : Table α) (name : String) : Bool := (get? t name).isSome

def set (t : Table α) (name : String) (value : α) : Table α :=
  match t with
  | [] => [(name, value)]
  | (key, a) :: rest =>
    if key = name then (key, value) :: rest else (key, a) :: set rest name value

@[simp] theorem get?_nil (name : String) : get? ([] : Table α) name = none := rfl

@[simp] theorem get?_set_self (t : Table α) (name : String) (value : α) :
    get? (set t name value) name = some value := by
  induction t with
  | nil => simp [set, get?]
  | cons entry rest ih => by_cases h : entry.1 = name <;> simp [set, get?, h, ih]

theorem get?_set_of_ne (t : Table α) {name other : String} (value : α) (h : other ≠ name) :
    get? (set t name value) other = get? t other := by
  induction t with
  | nil => simp [set, get?, Ne.symm h]
  | cons entry rest ih =>
    by_cases hn : entry.1 = name
    · simp [set, get?, hn, Ne.symm h]
    · by_cases ho : entry.1 = other
      · simp [set, get?, ho, h]
      · simp [set, get?, hn, ho, ih]

end Table

end Lox
