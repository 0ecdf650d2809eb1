import PolicyRules.Error

/-!
# Entries of a list

Numbered tokens and instructions are looked up in lists. An index is a signed word of 64 bits; an
index that does not fit into one is told apart from an index that is only too large for its list.
-/

namespace PolicyRules

/-- The first number that is too large for an index. -/
def indexLimit : Nat := Nat.pow 2 63

/-- Why a list has no entry at an index. -/
def Error.missingEntry (n : Nat) : Error := if n < indexLimit then .outOfRange else .oversizedIndex

/-- The entry of a list at a number. -/
def nthEntry {α : Type} (entries : List α) (n : Nat) : Except Error α :=
  match entries[n]? with
  | some entry => .ok entry
  | none => .error (.missingEntry n)

/-- The entry of a list at an index; a negative index counts from the end. -/
def entryAt {α : Type} (entries : List α) : Int → Except Error α
  | .ofNat n => nthEntry entries n
  | .negSucc n =>
    if n < entries.length then nthEntry entries (entries.length - (n + 1))
    else .error (.missingEntry n)

theorem nthEntry_eq_ok_iff {α : Type} {entries : List α} {n : Nat} {a : α} :
    nthEntry entries n = .ok a ↔ entries[n]? = some a := by
  unfold nthEntry
  cases entries[n]? with
  | none => simp
  | some entry => simp

theorem nthEntry_eq_error_iff {α : Type} {entries : List α} {n : Nat} {e : Error} :
    nthEntry entries n = .error e ↔ entries.length ≤ n ∧ e = .missingEntry n := by
  unfold nthEntry
  cases h : entries[n]? with
  | none =>
    have hlen : entries.length ≤ n := by simpa using h
    simp [hlen, eq_comm]
  | some entry =>
    have hlen : ¬ entries.length ≤ n := by
      intro hle
      simp [List.getElem?_eq_none hle] at h
    simp [hlen]

end PolicyRules
