import Mathlib.Data.Nat.Digits.Defs
import PolicyRules.Proofs.Scanning

/-!
# Keywords, strings and tokens as words

What the recognisers of tree building do at the words of a text: the recogniser of keywords takes a
keyword, that of strings a quoted string, and those of tokens a token of their kind. A token whose
number has no more digits than are read stands for the entry at its number.

The recogniser of keyword tokens takes the blanks around a token with it. It finds a token behind
blanks just as it finds it at the end of the blanks (`keywordTokenAt_blank`).
-/

namespace PolicyRules

variable {c : Char} {previous : Option Char} {n : Nat} {t : Text}

theorem isWordChar_of_isDecimalDigit (h : isDecimalDigit c) : isWordChar c := by
  have blocks : (zeroDigits.all fun first => wordRanges.any fun range =>
      Nat.ble range.1 first && Nat.ble (first + 9) range.2) := by decide +kernel
  simp only [List.all_eq_true, List.any_eq_true, Bool.and_eq_true, Nat.ble_eq] at blocks
  have high : ∀ first ∈ zeroDigits, 0x80 ≤ first := by decide
  unfold isDecimalDigit decimalDigit? at h
  split at h
  · next digit => simp [isWordChar, Char.isAlphanum, digit]
  · split at h
    · cases h
    · simp only [Option.isSome_map, Option.isSome_iff_exists] at h
      obtain ⟨first, found⟩ := h
      have member := List.mem_of_find?_eq_some found
      have inside := List.find?_some found
      simp only [Bool.and_eq_true, decide_eq_true_eq] at inside
      obtain ⟨range, listed, low, up⟩ := blocks first member
      have large := high first member
      have ranged : inRanges wordRanges c.toNat :=
        inRanges_eq_true_iff.mpr ⟨range, listed, by omega, by omega⟩
      have large' : 0x80 ≤ c.toNat := by omega
      simp [isWordChar, ranged, large']

theorem isWordChar_eq_false_of_isBlank (h : isBlank c) : isWordChar c = false := by
  have apart : (blankRanges.all fun blank => wordRanges.all fun word =>
      Nat.blt blank.2 word.1 || Nat.blt word.2 blank.1) := by decide +kernel
  simp only [List.all_eq_true, Bool.or_eq_true, Nat.blt_eq] at apart
  obtain ⟨blank, listed, low, up⟩ := inRanges_eq_true_iff.mp h
  have bounds : ∀ blank ∈ blankRanges, blank.2 ≤ 0x20 ∨ 0x80 ≤ blank.1 := by decide
  have ascii := bounds blank listed
  have notAlphanum : ¬ c.isAlphanum := by
    rw [Char.isAlphanum, Bool.or_eq_true, isAlpha_iff, isDigit_iff]
    omega
  have notUnderscore : c ≠ '_' := by
    rintro rfl
    cases h
  have notRanged : inRanges wordRanges c.toNat = false := by
    cases ranged : inRanges wordRanges c.toNat with
    | false => rfl
    | true =>
      obtain ⟨word, listed', low', up'⟩ := inRanges_eq_true_iff.mp ranged
      have := apart blank listed word listed'
      omega
  simp [isWordChar, notAlphanum, notUnderscore, notRanged]

/-- The keywords are whole words. -/
theorem wordBound_keywordAt :
    WordBound keywordAt fun w => ∃ keyword : Keyword, w = keyword.text := by
  intro previous t found h
  unfold keywordAt at h
  split at h
  · next begins =>
    refine ⟨begins, ?_⟩
    obtain ⟨keyword, -, h⟩ := List.exists_of_findSome?_eq_some h
    obtain ⟨rest, start, h⟩ := Option.bind_eq_some_iff.mp h
    rw [Text.dropStart?_eq_some_iff] at start
    split at h
    · next edge =>
      refine ⟨keyword, ?_⟩
      rw [start]
      refine takeWhile_append_of_head ?_ fun c head => by simpa [isWordEdge, head] using edge
      exact List.all_eq_true.mp (by cases keyword <;> decide)
    · cases h
  · cases h

theorem isWordEdge_of_beginsWord (begins : BeginsWord previous) : isWordEdge previous := by
  cases previous with
  | none => rfl
  | some c => rcases begins c rfl with rfl | rfl | rfl <;> decide

theorem isClear_of_beginsWord (begins : BeginsWord previous) : isClear previous := by
  cases previous with
  | none => rfl
  | some c => rcases begins c rfl with rfl | rfl | rfl <;> decide

theorem taken_keyword (keyword : Keyword) : Taken keywordAt keyword.text keyword := by
  refine ⟨by cases keyword <;> decide, fun previous t begins ends => ?_⟩
  have edge := isWordEdge_of_endsWord ends
  cases keyword <;>
    simp [keywordAt, isWordEdge_of_beginsWord begins, Keyword.all, Keyword.text, Text.dropStart?,
      edge]

theorem skipsSeparators_keywordAt : SkipsSeparators keywordAt := by
  intro c member previous t
  unfold keywordAt
  split
  · simp only [List.mem_cons, List.not_mem_nil, or_false] at member
    rcases member with rfl | rfl | rfl | rfl | rfl <;> rfl
  · rfl

/-- The decimal text of a number, as a text of digits. -/
theorem isDigit_of_mem_ofNat (h : c ∈ Text.ofNat n) : c.isDigit :=
  Nat.isDigit_of_mem_toDigits (by decide) (by decide) h

theorem ofNat_ne_nil (n : Nat) : Text.ofNat n ≠ [] := Nat.toDigits_ne_nil

theorem isDecimalDigit_of_isDigit (h : c.isDigit) : isDecimalDigit c := by
  simp [isDecimalDigit, decimalDigit?_of_isDigit h]

theorem digitsAt?_ofNat (n : Nat) (head : ∀ c, t.head? = some c → isDecimalDigit c = false) :
    digitsAt? (Text.ofNat n ++ t) = some (Text.ofNat n) := by
  have run : (Text.ofNat n ++ t).takeWhile isDecimalDigit = Text.ofNat n :=
    takeWhile_append_of_head
      (fun c member => isDecimalDigit_of_isDigit (isDigit_of_mem_ofNat member)) head
  simp [digitsAt?, run, ofNat_ne_nil n]

/-- A token whose number has no more digits than are read stands for the entry at its number. -/
theorem tokenNumber_ofNat (small : n < 10 ^ maxDecimalDigits) :
    tokenNumber (Text.ofNat n) = .ok n := by
  have short : ((Text.ofNat n).filterMap decimalDigit?).length ≤ maxDecimalDigits :=
    Nat.le_trans (List.length_filterMap_le _ _) (Nat.toDigits_length 10 n _ (by decide) small)
  have fits : Radix.decimal.exceedsLimit ((Text.ofNat n).filterMap decimalDigit?) = false := by
    simpa [Radix.exceedsLimit] using short
  simp [tokenNumber, readOrdinal, fits, value_digits_ofNat]

/-- A written number names the entry at its place. -/
theorem tokenEntry_ofNat {α : Type} {entries : List α} {a : α}
    (small : n < 10 ^ maxDecimalDigits) (found : entries[n]? = some a) :
    tokenEntry entries (Text.ofNat n) = .ok a := by
  rw [tokenEntry, tokenNumber_ofNat small]
  exact nthEntry_eq_ok_iff.mpr found

theorem taken_numberedAt (letter : Char) (n : Nat) :
    Taken (numberedAt letter) (letter :: ':' :: Text.ofNat n) (Text.ofNat n) := by
  refine ⟨by simp, fun previous t begins ends => ?_⟩
  have digits := digitsAt?_ofNat n (ends.head (by decide) (by decide) (by decide))
  simp [numberedAt, isClear_of_beginsWord begins, Text.dropStart?, digits]

theorem skipsSeparators_numberedAt {letter : Char} (h : letter ∉ [' ', '(', ')', '[', ']']) :
    SkipsSeparators (numberedAt letter) := by
  intro c member previous t
  have other : letter ≠ c := by
    rintro rfl
    exact h member
  simp [numberedAt, Text.dropStart?, other]

/-- A quotation is taken as one segment. -/
theorem taken_quotation {mark : Char} {body : Text} (isMark : isQuoteMark mark)
    (closed : mark ∉ body) : Taken quotationAt (Quotation.text ⟨mark, body⟩) ⟨mark, body⟩ := by
  refine ⟨by simp [Quotation.text], fun previous t _ _ => ?_⟩
  have run : (body ++ mark :: t).takeWhile (· != mark) = body := by
    refine takeWhile_append_of_head (fun c member => ?_) (by simp)
    simpa using fun same : c = mark => closed (same ▸ member)
  simp [quotationAt, Quotation.text, run, isMark]

theorem quotationAt_cons_eq_none (h : isQuoteMark c = false) (previous : Option Char)
    (t : Text) : quotationAt previous (c :: t) = none := by
  simp [quotationAt, h]

theorem skipsSeparators_quotationAt : SkipsSeparators quotationAt := by
  intro c member previous t
  refine quotationAt_cons_eq_none ?_ previous t
  simp only [List.mem_cons, List.not_mem_nil, or_false] at member
  rcases member with rfl | rfl | rfl | rfl | rfl <;> rfl

/-- The token of a keyword without the blanks around it. -/
def keywordWord (n : Nat) : Text := "PLA".toList ++ Text.ofNat n

/-- Recognises the token of a keyword without the blanks around it. -/
def keywordWordAt : Recogniser Text := fun previous t =>
  if isWordEdge previous then do
    let rest ← Text.dropStart? "PLA".toList t
    let digits ← digitsAt? rest
    if isWordEdge (rest.drop digits.length).head? then some (digits, digits.length + 3) else none
  else none

/-- Whether a word is the token of a keyword, with digits of any script. -/
def IsKeywordWord (w : Text) : Prop :=
  ∃ digits, digits ≠ [] ∧ (∀ d ∈ digits, isDecimalDigit d) ∧ w = "PLA".toList ++ digits

theorem wordBound_keywordWordAt : WordBound keywordWordAt IsKeywordWord := by
  intro previous t found h
  unfold keywordWordAt at h
  split at h
  · next begins =>
    refine ⟨begins, ?_⟩
    obtain ⟨rest, start, h⟩ := Option.bind_eq_some_iff.mp h
    obtain ⟨digits, hdigits, h⟩ := Option.bind_eq_some_iff.mp h
    rw [Text.dropStart?_eq_some_iff] at start
    simp only [digitsAt?, Option.ite_none_left_eq_some, List.isEmpty_iff, Option.some.injEq]
      at hdigits
    obtain ⟨nonempty, rfl⟩ := hdigits
    split at h
    · next edge =>
      refine ⟨rest.takeWhile isDecimalDigit, nonempty, fun d => List.mem_takeWhile_imp, ?_⟩
      have letters : ∀ c ∈ "PLA".toList, isWordChar c := List.all_eq_true.mp (by decide)
      have cut := List.prefix_iff_eq_append.mp (List.takeWhile_prefix isDecimalDigit (l := rest))
      rw [start]
      conv_lhs => rw [← cut, ← List.append_assoc]
      refine takeWhile_append_of_head (fun c member => ?_)
        fun c head => by simpa [isWordEdge, head] using edge
      rcases List.mem_append.mp member with letter | digit
      · exact letters c letter
      · exact isWordChar_of_isDecimalDigit (List.mem_takeWhile_imp digit)
    · cases h
  · cases h

/-- The token of a keyword is found where it is a word of its own. -/
theorem keywordWordAt_keywordWord (n : Nat) (begins : isWordEdge previous)
    (ends : isWordEdge t.head?) :
    keywordWordAt previous (keywordWord n ++ t) = some (Text.ofNat n, (keywordWord n).length) := by
  have digits : digitsAt? (Text.ofNat n ++ t) = some (Text.ofNat n) := by
    refine digitsAt?_ofNat n fun c head => ?_
    cases digit : isDecimalDigit c with
    | false => rfl
    | true =>
      rw [head, isWordEdge, Option.any_some, isWordChar_of_isDecimalDigit digit] at ends
      cases ends
  have start : Text.dropStart? "PLA".toList (keywordWord n ++ t) = some (Text.ofNat n ++ t) := by
    rw [keywordWord, List.append_assoc, Text.dropStart?_eq_some_iff]
  simp only [keywordWordAt, begins, if_true, start, Option.bind_eq_bind, Option.bind_some, digits,
    List.drop_left, ends]
  simp [keywordWord]

theorem taken_keywordWord (n : Nat) : Taken keywordWordAt (keywordWord n) (Text.ofNat n) :=
  ⟨by simp [keywordWord], fun _ _ begins ends =>
    keywordWordAt_keywordWord n (isWordEdge_of_beginsWord begins) (isWordEdge_of_endsWord ends)⟩

theorem skipsSeparators_keywordWordAt : SkipsSeparators keywordWordAt := by
  intro c member previous t
  simp only [List.mem_cons, List.not_mem_nil, or_false] at member
  rcases member with rfl | rfl | rfl | rfl | rfl <;> simp [keywordWordAt, Text.dropStart?]

/-- A token is found behind blanks just as at their end. -/
theorem keywordTokenAt_blank (blank : isBlank c) (previous : Option Char) (t : Text) :
    keywordTokenAt previous (c :: t) =
      (keywordTokenAt (some c) t).map fun found => (found.1, found.2 + 1) := by
  have edge : isWordEdge (some c) := by
    simp [isWordEdge, isWordChar_eq_false_of_isBlank blank]
  simp only [keywordTokenAt, List.takeWhile_cons, blank, if_true, List.length_cons,
    List.drop_succ_cons, List.isEmpty_cons, Bool.not_false, Bool.true_or, edge, Bool.or_true]
  cases Text.dropStart? "PLA".toList (t.drop (t.takeWhile isBlank).length) with
  | none => rfl
  | some rest =>
    simp only [Option.bind_eq_bind, Option.bind_some]
    cases digitsAt? rest with
    | none => rfl
    | some digits =>
      simp only [Option.bind_some]
      split
      · simp only [Option.map_some, Option.some.injEq, Prod.mk.injEq, true_and]
        omega
      · rfl

/-- Where no blank stands, a token is found with the blanks behind it. -/
theorem keywordTokenAt_of_not_blank (h : isBlank c = false) (previous : Option Char) (t : Text) :
    keywordTokenAt previous (c :: t) = (keywordWordAt previous (c :: t)).map fun found =>
      (found.1, found.2 + (((c :: t).drop found.2).takeWhile isBlank).length) := by
  simp only [keywordTokenAt, keywordWordAt, List.takeWhile_cons, h, Bool.false_eq_true, if_false,
    List.length_nil, List.drop_zero, List.isEmpty_nil, Bool.not_true, Bool.false_or]
  split
  · cases start : Text.dropStart? "PLA".toList (c :: t) with
    | none => rfl
    | some rest =>
      rw [Text.dropStart?_eq_some_iff] at start
      simp only [Option.bind_eq_bind, Option.bind_some]
      cases digitsAt? rest with
      | none => rfl
      | some digits =>
        have behind : (c :: t).drop (digits.length + 3) = rest.drop digits.length := by
          rw [start, Nat.add_comm, ← List.drop_drop]
          rfl
        simp only [Option.bind_some]
        split
        · simp only [Option.map_some, behind, Option.some.injEq, Prod.mk.injEq, true_and]
          omega
        · rfl
  · rfl

/-- A text without words that are tokens of keywords has no such token with blanks around it. -/
theorem quiet_keywordTokenAt (h : Quiet keywordWordAt previous t []) :
    Quiet keywordTokenAt previous t [] := by
  induction t generalizing previous with
  | nil => trivial
  | cons c cs ih =>
    obtain ⟨here, later⟩ := h
    have rest := ih later
    refine ⟨?_, rest⟩
    rw [List.append_nil] at here ⊢
    cases blank : isBlank c with
    | false => rw [keywordTokenAt_of_not_blank blank, here, Option.map_none]
    | true =>
      rw [keywordTokenAt_blank blank]
      cases cs with
      | nil => simp [keywordTokenAt, Text.dropStart?]
      | cons d ds =>
        have next := rest.1
        rw [List.append_nil] at next
        rw [next, Option.map_none]

end PolicyRules
