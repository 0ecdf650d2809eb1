import PolicyRules.Text.Basic
import PolicyRules.Text.Digit

/-!
# Reading integers

The text of an integer is an optional sign and a run of digits of any script. In base sixteen the
digits may be introduced by a zero and an `x`, and the letters from `a` to `f` are digits too.
Single underscores may stand between digits, and one may follow the introduction. A decimal text may
have at most 4300 digits; a hexadecimal text has no such limit.
-/

namespace PolicyRules

/-- The bases in which integers are written. -/
inductive Radix where
  | decimal
  | hexadecimal
  deriving DecidableEq, Repr

/-- The number of digits of a base. -/
def Radix.base : Radix → Nat
  | .decimal => 10
  | .hexadecimal => 16

/-- Why a text is not read as an integer. -/
inductive IntegerFault where
  /-- The text has not the form of an integer. -/
  | malformed (radix : Radix) (text : Text)
  /-- The text has more decimal digits than are read. -/
  | tooManyDigits (count : Nat)
  deriving DecidableEq, Repr

/-- The most digits that a decimal text may have. -/
def maxDecimalDigits : Nat := 4300

namespace Radix

/-- The value of a digit in a base. -/
def digit? (radix : Radix) (c : Char) : Option Nat :=
  match radix, decimalDigit? c with
  | _, some d => some d
  | .decimal, none => none
  | .hexadecimal, none =>
    if 'a' ≤ c ∧ c ≤ 'f' then some (c.toNat - 'a'.toNat + 10)
    else if 'A' ≤ c ∧ c ≤ 'F' then some (c.toNat - 'A'.toNat + 10)
    else none

/-- The digits at the beginning of a text and what follows them. Each underscore must stand between
two digits. The first argument says whether a digit has to come next; it is true before the first
digit, so that an empty run is refused. -/
def digitRun? (radix : Radix) : Bool → Text → Option (List Nat × Text)
  | digitDue, [] => if digitDue then none else some ([], [])
  | digitDue, c :: cs =>
    if c = '_' then
      if digitDue then none else radix.digitRun? true cs
    else
      match radix.digit? c with
      | some d => (radix.digitRun? false cs).map fun run => (d :: run.1, run.2)
      | none => if digitDue then none else some ([], c :: cs)

/-- The number that a sequence of digits stands for. -/
def value (radix : Radix) (digits : List Nat) : Nat :=
  digits.foldl (fun n d => radix.base * n + d) 0

/-- Whether a base limits the number of digits, and they exceed the limit. -/
def exceedsLimit (radix : Radix) (digits : List Nat) : Bool :=
  match radix with
  | .decimal => decide (maxDecimalDigits < digits.length)
  | .hexadecimal => false

/-- What follows the sign of a number, with the sign as a factor. -/
def signed : Text → Int × Text
  | '+' :: cs => (1, cs)
  | '-' :: cs => (-1, cs)
  | cs => (1, cs)

/-- The digits of a number without the letters that may introduce them. -/
def withoutIntroduction (radix : Radix) (t : Text) : Text :=
  match radix, t with
  | .hexadecimal, '0' :: x :: cs =>
    if x = 'x' ∨ x = 'X' then
      match cs with
      | '_' :: rest => rest
      | rest => rest
    else '0' :: x :: cs
  | _, t => t

/-- Reads a text without blanks at its ends as an integer. -/
def read (radix : Radix) (t : Text) : Except IntegerFault Int :=
  let (sign, unsigned) := signed t
  match radix.digitRun? true (radix.withoutIntroduction unsigned) with
  | none => .error (.malformed radix t)
  | some (digits, rest) =>
    if radix.exceedsLimit digits then .error (.tooManyDigits digits.length)
    else if rest.isEmpty then .ok (sign * radix.value digits)
    else .error (.malformed radix t)

end Radix

/-- Reads a run of decimal digits of any script. -/
def readOrdinal (digits : Text) : Except IntegerFault Nat :=
  let values := digits.filterMap decimalDigit?
  if Radix.decimal.exceedsLimit values then .error (.tooManyDigits values.length)
  else .ok (Radix.decimal.value values)

theorem decimalDigit?_digitChar {n : Nat} (h : n < 10) :
    decimalDigit? (Nat.digitChar n) = some n := by
  have all : ∀ k < 10, decimalDigit? (Nat.digitChar k) = some k := by decide
  exact all n h

theorem Radix.value_append (radix : Radix) (digits : List Nat) (d : Nat) :
    radix.value (digits ++ [d]) = radix.base * radix.value digits + d := by
  simp [Radix.value]

/-- The decimal text of a number is read as that number. -/
theorem value_digits_ofNat (n : Nat) :
    Radix.decimal.value ((Text.ofNat n).filterMap decimalDigit?) = n := by
  induction n using Nat.strongRecOn with
  | ind n ih =>
    by_cases h : n < 10
    · rw [Text.ofNat, Nat.toDigits_of_lt_base h]
      simp [decimalDigit?_digitChar h, Radix.value]
    · have hsplit : Nat.toDigits 10 n = Nat.toDigits 10 (n / 10) ++ [Nat.digitChar (n % 10)] :=
        Nat.toDigits_of_base_le (by decide) (by omega)
      have hdigit : decimalDigit? (Nat.digitChar (n % 10)) = some (n % 10) :=
        decimalDigit?_digitChar (Nat.mod_lt _ (by decide))
      have hfirst := ih (n / 10) (by omega)
      rw [Text.ofNat] at hfirst ⊢
      rw [hsplit, List.filterMap_append]
      simp only [List.filterMap_cons, hdigit, List.filterMap_nil]
      rw [Radix.value_append, hfirst]
      simp only [Radix.base]
      omega

end PolicyRules
