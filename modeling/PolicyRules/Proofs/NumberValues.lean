import Mathlib.Data.Nat.Digits.Defs
import PolicyRules.Proofs.LeafMeaning

/-!
# The values of numbers

A number of a leaf expression has the value that its digits have by their places, in base ten, or in
base sixteen behind `0x`. Leading zeros count for nothing, so a long number can be small. Whether a
number is an address is decided by how many digits it has, not by its value.

Main statement: a number is refused exactly if its value does not fit into a word, and else it is
the literal of that value (`Literal.ofNumber_exact`).
-/

namespace PolicyRules

/-- The value of a digit: its place among the digits, a capital letter counting as a small one. -/
def digitValue (c : Char) : Nat := "0123456789abcdef".toList.idxOf c.toLower

/-- The number that digits stand for in a base, the last of them counting ones. -/
def positionalValue (base : Nat) (digits : Text) : Nat :=
  Nat.ofDigits base (digits.reverse.map digitValue)

/-- The number that a numeral stands for. -/
def writtenValue : Text → Nat
  | '0' :: 'x' :: digits => positionalValue 16 digits
  | digits => positionalValue 10 digits

/-- Reading digits from the left gives each of them the weight of its place. -/
theorem Radix.value_eq_ofDigits (radix : Radix) (digits : List Nat) :
    radix.value digits = Nat.ofDigits radix.base digits.reverse := by
  induction digits using List.reverseRecOn with
  | nil => rfl
  | append_singleton digits d ih =>
    rw [Radix.value_append, ih, List.reverse_append, List.reverse_singleton, List.singleton_append,
      Nat.ofDigits_cons, Nat.add_comm]

section Digits

/-- The digits of base sixteen. -/
def hexDigits : Text := "0123456789abcdefABCDEF".toList

theorem mem_hexDigits {c : Char} (h : isHexDigit c) : c ∈ hexDigits := by
  have codes : c.toNat ∈ hexDigits.map Char.toNat := by
    have listed : hexDigits.map Char.toNat =
        List.range' 48 10 ++ List.range' 97 6 ++ List.range' 65 6 := by decide
    simp only [isHexDigit, Bool.or_eq_true, isDigit_iff, Bool.and_eq_true, decide_eq_true_eq] at h
    simp only [listed, List.mem_append, List.mem_range'_1]
    have order {a b : Char} (le : a ≤ b) : a.toNat ≤ b.toNat := le
    rcases h with (digit | small) | capital
    · omega
    · have lower : 97 ≤ c.toNat := order small.1
      have upper : c.toNat ≤ 102 := order small.2
      omega
    · have lower : 65 ≤ c.toNat := order capital.1
      have upper : c.toNat ≤ 70 := order capital.2
      omega
  obtain ⟨d, member, same⟩ := List.mem_map.mp codes
  rwa [← Char.toNat_inj.mp same]

/-- The digits that are read have the values of their places among the digits. -/
theorem Radix.digit?_eq_digitValue {c : Char} (h : isHexDigit c) :
    Radix.hexadecimal.digit? c = some (digitValue c) := by
  have all : hexDigits.all (fun d => Radix.hexadecimal.digit? d == some (digitValue d)) := by
    decide
  simpa using List.all_eq_true.mp all c (mem_hexDigits h)

/-- A decimal digit has the same value in both bases. -/
theorem Radix.digit?_decimal {c : Char} (h : c.isDigit) :
    Radix.decimal.digit? c = some (digitValue c) := by
  rw [← digit?_eq_digitValue (by simp [isHexDigit, h]), digit?_of_isDigit h, digit?_of_isDigit h]

/-- Digits that are read have the value of their places. -/
theorem Radix.value_filterMap {radix : Radix} {digits : Text}
    (read : ∀ c ∈ digits, radix.digit? c = some (digitValue c)) :
    radix.value (digits.filterMap radix.digit?) = positionalValue radix.base digits := by
  have values : digits.filterMap radix.digit? = digits.map digitValue := by
    rw [List.filterMap_congr read, List.filterMap_eq_map']
  rw [values, value_eq_ofDigits, positionalValue, List.map_reverse]

end Digits

/-- The value that is given to a numeral is that of its digits. -/
theorem IsNumber.numeralValue_eq {t : Text} (h : IsNumber t) : numeralValue t = writtenValue t := by
  cases h with
  | decimal nonempty digits =>
    have plain : writtenValue t = positionalValue 10 t := by
      unfold writtenValue
      split
      · next digits' => exact absurd (digits 'x' (by simp)) (by decide)
      · rfl
    have start : Text.dropStart? "0x".toList t = none :=
      Literal.dropStart?_of_isDigit digits (by decide)
    rw [numeralValue, start, plain]
    exact Radix.value_filterMap fun c member => Radix.digit?_decimal (digits c member)
  | hexadecimal nonempty digits =>
    exact Radix.value_filterMap fun c member => Radix.digit?_eq_digitValue (digits c member)

/-- A numeral is an address exactly if it is `0x` and forty digits. -/
theorem IsNumber.isAddress_iff {t : Text} (h : IsNumber t) :
    isAddress t ↔
      ∃ digits : Text, t = '0' :: 'x' :: digits ∧ digits.length = 40 ∧
        ∀ c ∈ digits, isHexDigit c := by
  rw [isAddress, strip_eq_of_not_blank (isBlank_eq_false_of_isNumber h)]
  cases dropped : Text.dropStart? "0x".toList t with
  | none =>
    refine iff_of_false (by simp) ?_
    rintro ⟨digits, rfl, -⟩
    cases dropped
  | some digits =>
    obtain rfl : t = '0' :: 'x' :: digits := Text.dropStart?_eq_some_iff.mp dropped
    simp

/-- A number is refused exactly if the value of its digits does not fit into a word. Else it is the
literal of that value, an address if it is `0x` and forty digits. -/
theorem Literal.ofNumber_exact {t : Text} (number : IsNumber t)
    (short : (∀ c ∈ t, c.isDigit = true) → t.length ≤ maxDecimalDigits) :
    (ofNumber t = .error (.numberRange t maxWord) ↔ maxWord < writtenValue t) ∧
    ((writtenValue t : Int) ≤ maxWord →
      ∃ type, ofNumber t = .ok ⟨.int (writtenValue t), type, t⟩ ∧
      (type = .address ∨ type = .uint256) ∧
        (type = .address ↔
          ∃ digits : Text, t = '0' :: 'x' :: digits ∧ digits.length = 40 ∧
            ∀ c ∈ digits, isHexDigit c = true)) := by
  have readable : ¬ IsOverlong t := by
    rintro ⟨noStart, long⟩
    cases number with
    | decimal nonempty digits => exact absurd (short digits) (Nat.not_le.mpr long)
    | hexadecimal nonempty digits => cases noStart
  rw [ofNumber_of_isNumber number, if_neg readable, number.numeralValue_eq]
  by_cases exceeds : maxWord < writtenValue t
  · rw [if_pos exceeds]
    exact ⟨iff_of_true rfl exceeds, fun fits => absurd exceeds (Int.not_lt.mpr fits)⟩
  · rw [if_neg exceeds]
    refine ⟨iff_of_false (by simp) exceeds, fun _ => ⟨if isAddress t then .address else .uint256,
      ?_, ?_, ?_⟩⟩
    · rw [ofNumeral, number.numeralValue_eq]
    · split <;> simp
    · rw [← number.isAddress_iff]
      simp

/-- The largest number that fits into a word, with more leading zeros than it has digits. -/
def paddedMaxWord : Text :=
  List.replicate 100 '0' ++
    "115792089237316195423570985008687907853269984665640564039457584007913129639935".toList

/-- The number after the largest that fits into a word. -/
def pastMaxWord : Text := '0' :: 'x' :: '1' :: List.replicate 64 '0'

/-- The largest address. -/
def maxAddress : Text := '0' :: 'x' :: List.replicate 40 'f'

theorem Literal.ofNumber_exact_limits :
    ofNumber paddedMaxWord = .ok ⟨.int maxWord, .uint256, paddedMaxWord⟩ ∧
    ofNumber pastMaxWord = .error (.numberRange pastMaxWord maxWord) ∧
    ofNumber maxAddress = .ok ⟨.int (Nat.pow 2 160 - 1), .address, maxAddress⟩ := by
  have padded : IsNumber paddedMaxWord :=
    .decimal (by decide) (List.all_eq_true.mp (by decide +kernel))
  have past : IsNumber pastMaxWord := .hexadecimal (by decide) (List.all_eq_true.mp (by decide))
  have address : IsNumber maxAddress := .hexadecimal (by decide) (List.all_eq_true.mp (by decide))
  have letter {t : Text} (member : 'x' ∈ t) : ¬ ∀ c ∈ t, c.isDigit := fun digits => by
    cases digits 'x' member
  refine ⟨?_, ?_, ?_⟩
  · obtain ⟨type, read, either, isAddress⟩ :=
      (ofNumber_exact padded fun _ => by decide +kernel).2 (by decide +kernel)
    have value : (writtenValue paddedMaxWord : Int) = maxWord := by decide +kernel
    obtain rfl : type = .uint256 := either.resolve_left fun same => by
      obtain ⟨digits, begins, -⟩ := isAddress.mp same
      cases begins
    rw [read, value]
  · exact (ofNumber_exact past fun digits => absurd digits (letter (by decide))).1.mpr
      (by decide +kernel)
  · obtain ⟨type, read, -, isAddress⟩ :=
      (ofNumber_exact address fun digits => absurd digits (letter (by decide))).2
        (by decide +kernel)
    have value : (writtenValue maxAddress : Int) = Nat.pow 2 160 - 1 := by decide +kernel
    obtain rfl : type = .address :=
      isAddress.mpr ⟨_, rfl, by decide, List.all_eq_true.mp (by decide)⟩
    rw [read, value]

end PolicyRules
