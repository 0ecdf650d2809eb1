import PolicyRules.Text.Basic

/-!
# Tables

A table is a list of entries found by name. Where a name occurs twice, the later entry counts.
-/

namespace PolicyRules.Table

variable {α : Type}

/-- The last entry with a given name. -/
def find? (name : α → Text) (key : Text) (entries : List α) : Option α :=
  entries.reverse.find? (name · == key)

/-- The value stored last under a key. -/
def value? (key : Text) (entries : List (Text × α)) : Option α :=
  (find? (·.1) key entries).map (·.2)

/-- Adds an entry at the end. -/
def insert (key : Text) (a : α) (entries : List (Text × α)) : List (Text × α) :=
  entries ++ [(key, a)]

theorem name_of_find? {name : α → Text} {key : Text} {entries : List α} {a : α}
    (h : find? name key entries = some a) : name a = key := by
  simpa using List.find?_some h

theorem mem_of_find? {name : α → Text} {key : Text} {entries : List α} {a : α}
    (h : find? name key entries = some a) : a ∈ entries := by
  simpa using List.mem_of_find?_eq_some h

theorem find?_isSome_iff {name : α → Text} {key : Text} {entries : List α} :
    (find? name key entries).isSome ↔ ∃ a ∈ entries, name a = key := by
  simp [find?]

@[simp] theorem value?_insert_self (key : Text) (a : α) (entries : List (Text × α)) :
    value? key (insert key a entries) = some a := by
  simp [value?, find?, insert]

theorem value?_insert_of_ne {key other : Text} (h : key ≠ other) (a : α)
    (entries : List (Text × α)) : value? other (insert key a entries) = value? other entries := by
  simp [value?, find?, insert, h]

end PolicyRules.Table
