import Mathlib.Data.List.Infix
import PolicyRules.Proofs.Printing
import PolicyRules.Proofs.TokenWords
import PolicyRules.Proofs.Unnesting

/-!
# Plain words

The words of a text other than its strings are made of name characters and a few signs. So they have
neither blanks nor brackets nor quote marks in them, and the recognisers of tree building pass over
them: over names because no part of a name is reserved, over numbers because they begin with a
digit, and over signs because these have no word characters at all.
-/

namespace PolicyRules

/-- The characters of words other than strings. -/
def isPlainChar (c : Char) : Bool := isNameChar c || ":#=!<>+-*/|".toList.contains c

variable {c letter : Char} {w start t : Text}

theorem isWordChar_of_isNameChar (h : isNameChar c) : isWordChar c := by
  simp only [isNameChar, Bool.or_eq_true] at h
  rcases h with h | h <;> simp [isWordChar, h]

theorem isBlank_eq_false_of_isPlainChar (h : isPlainChar c) : isBlank c = false := by
  have signs : ":#=!<>+-*/|".toList.all fun c => ! isBlank c := by decide
  simp only [isPlainChar, Bool.or_eq_true, List.contains_iff_mem] at h
  rcases h with name | sign
  · cases blank : isBlank c with
    | false => rfl
    | true =>
      exact absurd (isWordChar_of_isNameChar name) (by simp [isWordChar_eq_false_of_isBlank blank])
  · simpa using List.all_eq_true.mp signs c sign

theorem not_mem_bracketChars_of_isPlainChar (h : isPlainChar c) : c ∉ bracketChars := by
  have brackets : bracketChars.all fun c => ! isPlainChar c := by decide
  intro member
  have other := List.all_eq_true.mp brackets c member
  rw [h] at other
  cases other

theorem isQuoteMark_eq_false_of_isPlainChar (h : isPlainChar c) : isQuoteMark c = false := by
  cases quote : isQuoteMark c with
  | false => rfl
  | true =>
    simp only [isQuoteMark, Bool.or_eq_true, beq_iff_eq] at quote
    rcases quote with rfl | rfl <;> cases h

/-- Whether a word is made of plain characters. -/
def IsPlain (w : Text) : Prop := w ≠ [] ∧ ∀ c ∈ w, isPlainChar c

instance (w : Text) : Decidable (IsPlain w) :=
  decidable_of_iff (w ≠ [] ∧ w.all isPlainChar) (and_congr_right' List.all_eq_true)

/-- A plain word neither begins nor ends in a blank. -/
theorem IsPlain.firm (h : IsPlain w) : IsFirm w := by
  obtain ⟨nonempty, all⟩ := h
  obtain ⟨c, cs, first⟩ := List.exists_cons_of_ne_nil nonempty
  obtain ⟨ds, d, last⟩ := (List.eq_nil_or_concat' w).resolve_left nonempty
  refine ⟨c, cs, d, ds, first, ?_, last, ?_⟩
  · exact isBlank_eq_false_of_isPlainChar (all c (by simp [first]))
  · exact isBlank_eq_false_of_isPlainChar (all d (by simp [last]))

/-- No quoted segment is found in a plain word. -/
theorem IsPlain.passes_quotationAt (h : IsPlain w) : Passes quotationAt w := by
  intro previous t _ _
  refine quiet_of_forall (fun c member => ?_) previous t
  exact quotationAt_cons_eq_none (isQuoteMark_eq_false_of_isPlainChar (h.2 c member))

/-- A text without a numbered token passes the search for one. -/
theorem passes_numberedAt
    (none : ∀ d, isDecimalDigit d → ¬ [letter, ':', d] <:+: w) : Passes (numberedAt letter) w :=
  fun previous _ _ ends => quiet_numberedAt none ends previous

theorem passes_numberedAt_of_not_mem (h : ':' ∉ w) : Passes (numberedAt letter) w :=
  passes_numberedAt fun _ _ inside => h (inside.subset (by simp))

theorem isDigit_of_isDecimalDigit (digit : isDecimalDigit c) (name : isNameChar c) : c.isDigit := by
  unfold isDecimalDigit decimalDigit? at digit
  split at digit
  · assumption
  · next notDigit =>
    split at digit
    · cases digit
    · next large =>
      exfalso
      simp only [isNameChar, Char.isAlphanum, Bool.or_eq_true, notDigit, Bool.false_eq_true,
        or_false, beq_iff_eq, isAlpha_iff] at name
      rcases name with letter | rfl
      · omega
      · exact large (by decide)

section Fields

variable {separates : Char → Bool}

theorem fields_of_forall (h : ∀ c ∈ w, separates c = false) : Text.fields separates w = [w] := by
  induction w with
  | nil => rfl
  | cons c cs ih =>
    obtain ⟨here, later⟩ := List.forall_mem_cons.mp h
    simp [Text.fields, here, ih later]

/-- A text is divided at its first separator. -/
theorem fields_append_cons (h : ∀ d ∈ w, separates d = false) (sep : separates c) (w' : Text) :
    Text.fields separates (w ++ c :: w') = w :: Text.fields separates w' := by
  induction w with
  | nil => simp [Text.fields, sep]
  | cons d ds ih =>
    obtain ⟨here, later⟩ := List.forall_mem_cons.mp h
    simp [Text.fields, here, ih later]

end Fields

/-- Whether a recogniser of whole words has to be feared in a word: one of its parts is reserved. -/
def IsUnreserved (w : Text) : Prop :=
  ∀ part ∈ Text.fields (fun c => ! isWordChar c) w, isReserved part = false ∧
    ∀ c ∈ part, isNameChar c

instance (w : Text) : Decidable (IsUnreserved w) :=
  decidable_of_iff (∀ part ∈ Text.fields (fun c => ! isWordChar c) w, isReserved part = false ∧
    part.all isNameChar) (forall₂_congr fun _ _ => and_congr_right' List.all_eq_true)

/-- No keyword is found in an unreserved word. -/
theorem IsUnreserved.passes_keywordAt (h : IsUnreserved w) : Passes keywordAt w := by
  refine wordBound_keywordAt.passes fun part member => ?_
  rintro ⟨keyword, rfl⟩
  have reserved := (h _ member).1
  simp [isReserved, Keyword.ofText?_text] at reserved

theorem IsUnreserved.passes_keywordWordAt (h : IsUnreserved w) : Passes keywordWordAt w := by
  refine wordBound_keywordWordAt.passes fun part member => ?_
  rintro ⟨digits, nonempty, all, rfl⟩
  obtain ⟨reserved, names⟩ := h _ member
  have numbered : isNumberedWord "PLA".toList ("PLA".toList ++ digits) := by
    have start : Text.dropStart? "PLA".toList ("PLA".toList ++ digits) = some digits :=
      Text.dropStart?_eq_some_iff.mpr rfl
    simp only [isNumberedWord, start, Bool.and_eq_true, Bool.not_eq_true',
      List.isEmpty_eq_false_iff, List.all_eq_true]
    exact ⟨nonempty, fun c digit => isDigit_of_isDecimalDigit (all c digit)
      (names c (List.mem_append_right _ digit))⟩
  rw [isReserved, numbered, Bool.or_true, Bool.true_or] at reserved
  cases reserved

theorem isNameChar_of_isHexDigit (h : isHexDigit c) : isNameChar c := by
  have order : ∀ {a b : Char}, a ≤ b ↔ a.toNat ≤ b.toNat := Iff.rfl
  simp only [isHexDigit, Bool.or_eq_true, Bool.and_eq_true, decide_eq_true_eq, order] at h
  simp only [isNameChar, Char.isAlphanum, Bool.or_eq_true, isAlpha_iff]
  rcases h with (digit | lower) | upper
  · exact .inl (.inr digit)
  · exact .inl (.inl (.inr ⟨lower.1, le_trans lower.2 (by decide)⟩))
  · exact .inl (.inl (.inl ⟨upper.1, le_trans upper.2 (by decide)⟩))

/-- A number is written with characters of names. -/
theorem IsNumber.isNameChar (h : IsNumber w) : ∀ c ∈ w, isNameChar c := by
  cases h with
  | decimal nonempty all => exact fun c member => isNameChar_of_isDigit (all c member)
  | hexadecimal nonempty all =>
    simp only [List.mem_cons, forall_eq_or_imp]
    exact ⟨by decide, by decide, fun c member => isNameChar_of_isHexDigit (all c member)⟩

theorem isPlainChar_of_isNameChar (h : isNameChar c) : isPlainChar c := by
  simp [isPlainChar, h]

/-- A word of name characters is a single part. -/
theorem isUnreserved_of_isNameChar (names : ∀ c ∈ w, isNameChar c)
    (free : isReserved w = false) : IsUnreserved w := by
  intro part member
  rw [fields_of_forall fun c member => by simp [isWordChar_of_isNameChar (names c member)]]
    at member
  rw [List.mem_singleton.mp member]
  exact ⟨free, names⟩

/-- A word that begins with a digit is not reserved. -/
theorem isReserved_cons_digit (digit : c.isDigit) (cs : Text) : isReserved (c :: cs) = false := by
  have other : ∀ k : Keyword, k.text ≠ c :: cs := by
    rintro k same
    cases k <;> (rw [← (List.cons.inj same).1] at digit; cases digit)
  have notKeyword : Keyword.ofText? (c :: cs) = none := by
    simp [Keyword.ofText?, other]
  have notP : 'P' ≠ c := by
    rintro rfl
    cases digit
  simp [isReserved, notKeyword, isNumberedWord, Text.dropStart?, notP]

namespace IsName

theorem isPlain (h : IsName w) : IsPlain w := by
  cases h with
  | call nonempty all =>
    refine ⟨by simp, ?_⟩
    simp only [List.mem_cons, forall_eq_or_imp]
    exact ⟨by decide, by decide, by decide,
      fun c member => isPlainChar_of_isNameChar (isNameChar_of_isDigit (all c member))⟩
  | plain h =>
    refine ⟨?_, fun c member => isPlainChar_of_isNameChar (h.all c member)⟩
    obtain ⟨c, cs, rfl, -⟩ := h
    simp
  | pair h h' =>
    refine ⟨by simp, fun c member => ?_⟩
    simp only [List.mem_append, List.mem_cons] at member
    rcases member with first | rfl | second
    · exact isPlainChar_of_isNameChar (h.all c first)
    · decide
    · exact isPlainChar_of_isNameChar (h'.all c second)

/-- A name is unreserved if none of its parts is a keyword. -/
theorem isUnreserved (h : IsName w)
    (free : ∀ part ∈ w.fields (· == ':'), isReserved part = false) : IsUnreserved w := by
  have noColon : ∀ {w : Text}, IsPlainName w → ∀ c ∈ w, (c == ':') = false := by
    intro w plain c member
    have name := plain.all c member
    cases same : c == ':' with
    | false => rfl
    | true => rw [beq_iff_eq.mp same] at name; cases name
  cases h with
  | @call digits nonempty all =>
    have names : ∀ c ∈ digits, isNameChar c :=
      fun c member => isNameChar_of_isDigit (all c member)
    have parts : Text.fields (fun c => ! isWordChar c) ('F' :: 'C' :: '#' :: digits) =
        [['F', 'C'], digits] := by
      have single : Text.fields (fun c => ! isWordChar c) digits = [digits] :=
        fields_of_forall fun c member => by simp [isWordChar_of_isNameChar (names c member)]
      rw [← single]
      have letters : isWordChar 'F' ∧ isWordChar 'C' := by decide
      exact fields_append_cons (w := ['F', 'C']) (by simp [letters]) (by decide) digits
    intro part member
    rw [parts] at member
    rcases List.mem_pair.mp member with rfl | rfl
    · exact ⟨by decide, List.all_eq_true.mp (by decide)⟩
    · obtain ⟨c, cs, rfl⟩ := List.exists_cons_of_ne_nil nonempty
      exact ⟨isReserved_cons_digit (all c (by simp)) cs, names⟩
  | plain h =>
    refine isUnreserved_of_isNameChar h.all (free w ?_)
    rw [fields_of_forall (noColon h)]
    simp
  | @pair w w' h h' =>
    intro part member
    rw [fields_append_cons (fun c member => by simp [isWordChar_of_isNameChar (h.all c member)])
      (by decide), fields_of_forall fun c member => by
        simp [isWordChar_of_isNameChar (h'.all c member)]] at member
    rw [fields_append_cons (noColon h) (by decide), fields_of_forall (noColon h')] at free
    refine ⟨free part member, ?_⟩
    rcases List.mem_pair.mp member with rfl | rfl
    · exact h.all
    · exact h'.all

/-- Behind the colon of a name stands no digit. -/
theorem not_isInfix (h : IsName w) (letter : Char) {d : Char} (digit : isDecimalDigit d) :
    ¬ [letter, ':', d] <:+: w := by
  intro inside
  have noColon : ∀ {u : Text}, (∀ c ∈ u, isNameChar c) → ':' ∉ u := by
    intro u names member
    cases names ':' member
  have colon : ':' ∈ w := inside.subset (by simp)
  cases h with
  | @call digits nonempty all =>
    have name : ':' ∈ digits := by simpa using colon
    cases all ':' name
  | plain h => exact noColon h.all colon
  | @pair w w' h h' =>
    obtain ⟨before, behind, same⟩ := inside
    have split : (before ++ [letter]) ++ ':' :: (d :: behind) = w ++ ':' :: w' := by
      simpa using same
    rw [eq_comm, List.append_cons_inj_of_notMem (noColon h.all) (noColon h'.all)] at split
    obtain ⟨-, -, rfl⟩ := split
    obtain ⟨c, cs, same, start, -⟩ := h'
    obtain ⟨rfl, -⟩ := List.cons.inj same
    have isDigit := isDigit_of_isDecimalDigit digit (isNameChar_of_isNameStart start)
    rw [isNameStart_eq_false_of_isDigit isDigit] at start
    cases start

end IsName

namespace Lexeme.Proper

variable {x : Lexeme}

theorem isPlain (h : x.Proper) (plain : ∀ text, x ≠ .string text) : IsPlain x.text := by
  cases x with
  | name text => exact h.1.isPlain
  | number text =>
    refine ⟨?_, fun c member => isPlainChar_of_isNameChar (IsNumber.isNameChar h c member)⟩
    obtain ⟨c, cs, rfl, -⟩ := IsNumber.head h
    simp [Lexeme.text]
  | string text => exact absurd rfl (plain text)
  | operator op | update op => cases op <;> decide
  | bar => decide
  | leftParen | rightParen => exact h.elim

theorem isUnreserved (h : x.Proper) (plain : ∀ text, x ≠ .string text) : IsUnreserved x.text := by
  cases x with
  | name text => exact h.1.isUnreserved h.2
  | number text =>
    refine isUnreserved_of_isNameChar (IsNumber.isNameChar h) ?_
    obtain ⟨c, cs, rfl, digit⟩ := IsNumber.head h
    exact isReserved_cons_digit digit cs
  | string text => exact absurd rfl (plain text)
  | operator op | update op => cases op <;> decide
  | bar => decide
  | leftParen | rightParen => exact h.elim

theorem passes_numberedAt (h : x.Proper) (plain : ∀ text, x ≠ .string text) (letter : Char) :
    Passes (numberedAt letter) x.text := by
  cases x with
  | name text => exact PolicyRules.passes_numberedAt fun d digit => h.1.not_isInfix letter digit
  | number text =>
    refine passes_numberedAt_of_not_mem fun colon => ?_
    cases IsNumber.isNameChar h ':' colon
  | string text => exact absurd rfl (plain text)
  | operator op | update op => cases op <;> exact passes_numberedAt_of_not_mem (by decide)
  | bar => exact passes_numberedAt_of_not_mem (by decide)
  | leftParen | rightParen => exact h.elim

end Lexeme.Proper

/-- A text has no numbered word if the characters of one stand nowhere before a digit. -/
theorem hasNumbered_eq_false_iff :
    hasNumbered start t = false ↔ ∀ d, isDecimalDigit d → ¬ start ++ [d] <:+: t := by
  constructor
  · rintro h d digit ⟨before, behind, same⟩
    have tail : start ++ d :: behind ∈ t.tails := by
      rw [List.mem_tails]
      exact ⟨before, by simpa using same⟩
    have found : Text.dropStart? start (start ++ d :: behind) = some (d :: behind) :=
      Text.dropStart?_eq_some_iff.mpr rfl
    have here := List.any_eq_false.mp h _ tail
    simp [found, digit] at here
  · intro nowhere
    rw [hasNumbered, List.any_eq_false]
    intro v isTail found
    obtain ⟨rest, start_eq, digit⟩ := (Option.any_eq_true ..).mp found
    obtain ⟨d, head, isDigit⟩ := (Option.any_eq_true ..).mp digit
    obtain ⟨ds, rfl⟩ := List.head?_eq_some_iff.mp head
    obtain rfl := Text.dropStart?_eq_some_iff.mp start_eq
    have inside : start ++ [d] <:+: start ++ d :: ds := ⟨[], ds, by simp⟩
    rw [List.mem_tails] at isTail
    exact nowhere d isDigit (inside.trans isTail.isInfix)

theorem not_infix_of_hasNumbered (h : hasNumbered start t = false) {d : Char}
    (digit : isDecimalDigit d) : ¬ start ++ [d] <:+: t :=
  hasNumbered_eq_false_iff.mp h d digit

/-- A part of a text has no numbered word that the text has not. -/
theorem hasNumbered_of_isInfix {u : Text} (h : hasNumbered start t = false) (inside : u <:+: t) :
    hasNumbered start u = false :=
  hasNumbered_eq_false_iff.mpr fun _ digit found => not_infix_of_hasNumbered h digit
    (found.trans inside)

theorem infix_of_fields {separates : Char → Bool} {field : Text} {fields : List Text}
    (h : Text.fields separates w = field :: fields) :
    field <+: w ∧ ∀ part ∈ fields, part <:+: w := by
  induction w generalizing field fields with
  | nil =>
    obtain ⟨rfl, rfl⟩ := List.cons.inj h
    simp
  | cons c cs ih =>
    obtain ⟨first, rest, split⟩ := List.exists_cons_of_ne_nil (Text.fields_ne_nil separates cs)
    obtain ⟨start, inside⟩ := ih split
    rw [Text.fields, split] at h
    split at h <;> obtain ⟨rfl, rfl⟩ := List.cons.inj h
    · refine ⟨List.nil_prefix, fun part member => List.infix_cons ?_⟩
      rcases List.mem_cons.mp member with rfl | later
      · exact start.isInfix
      · exact inside part later
    · exact ⟨List.cons_prefix_cons.mpr ⟨rfl, start⟩,
        fun part member => List.infix_cons (inside part member)⟩

/-- The fields of a text are parts of it. -/
theorem infix_of_mem_fields {separates : Char → Bool} {part : Text}
    (h : part ∈ Text.fields separates w) : part <:+: w := by
  obtain ⟨first, rest, split⟩ := List.exists_cons_of_ne_nil (Text.fields_ne_nil separates w)
  obtain ⟨start, inside⟩ := infix_of_fields split
  rw [split] at h
  rcases List.mem_cons.mp h with rfl | later
  · exact start.isInfix
  · exact inside part later

namespace IsQuoted

variable {text : Text}

theorem isFirm (h : IsQuoted text) : IsFirm text := by
  obtain @⟨mark, body, isMark, -⟩ := h
  have solid : isBlank mark = false := by rcases isMark with rfl | rfl <;> decide
  exact ⟨mark, body ++ [mark], mark, mark :: body, rfl, solid, rfl, solid⟩

/-- No keyword is found in a string without the token of one. -/
theorem passes_keywordWordAt (free : hasNumbered "PLA".toList text = false) :
    Passes keywordWordAt text := by
  refine wordBound_keywordWordAt.passes fun part member => ?_
  rintro ⟨digits, nonempty, all, rfl⟩
  obtain ⟨d, ds, rfl⟩ := List.exists_cons_of_ne_nil nonempty
  refine not_infix_of_hasNumbered free (all d (by simp)) (.trans ?_ (infix_of_mem_fields member))
  exact ⟨[], ds, by simp⟩

theorem passes_stringTokenAt (free : hasNumbered "q:".toList text = false) :
    Passes (numberedAt 'q') text :=
  passes_numberedAt fun _ digit => not_infix_of_hasNumbered free digit

end IsQuoted

/-- The quotation that a quoted string is. -/
def quotationOf (text : Text) : Quotation := ⟨text.headD ' ', (text.drop 1).dropLast⟩

theorem IsQuoted.text_quotationOf {text : Text} (h : IsQuoted text) :
    (quotationOf text).text = text := by
  obtain @⟨mark, body, -, -⟩ := h
  simp [quotationOf, Quotation.text]

/-- A quoted text is taken as one segment. -/
theorem IsQuoted.taken {text : Text} (h : IsQuoted text) :
    Taken quotationAt text (quotationOf text) := by
  obtain @⟨mark, body, isMark, closed⟩ := h
  have quotation_eq : quotationOf (mark :: body ++ [mark]) = ⟨mark, body⟩ := by simp [quotationOf]
  rw [quotation_eq]
  exact taken_quotation (by rcases isMark with rfl | rfl <;> decide) closed

section Tokens

theorem isNameChar_of_mem_ofNat {n : Nat} (h : c ∈ Text.ofNat n) : isNameChar c :=
  isNameChar_of_isDigit (isDigit_of_mem_ofNat h)

theorem isPlain_append_ofNat (start : Text) (plain : start.all isPlainChar) (n : Nat) :
    IsPlain (start ++ Text.ofNat n) := by
  refine ⟨by simp [ofNat_ne_nil n], fun c member => ?_⟩
  rcases List.mem_append.mp member with first | digit
  · exact List.all_eq_true.mp plain c first
  · exact isPlainChar_of_isNameChar (isNameChar_of_mem_ofNat digit)

/-- A numbered token is unreserved if its letter is. -/
theorem isUnreserved_numbered (name : isNameChar letter)
    (free : isReserved [letter] = false) (n : Nat) :
    IsUnreserved (letter :: ':' :: Text.ofNat n) := by
  have single : Text.fields (fun c => ! isWordChar c) (Text.ofNat n) = [Text.ofNat n] :=
    fields_of_forall fun c member => by
      simp [isWordChar_of_isNameChar (isNameChar_of_mem_ofNat member)]
  have parts : Text.fields (fun c => ! isWordChar c) (letter :: ':' :: Text.ofNat n) =
      [[letter], Text.ofNat n] := by
    rw [← single]
    exact fields_append_cons (w := [letter]) (by simp [isWordChar_of_isNameChar name]) (by decide) _
  intro part member
  rw [parts] at member
  rcases List.mem_pair.mp member with rfl | rfl
  · exact ⟨free, by simpa using name⟩
  · obtain ⟨c, cs, same⟩ := List.exists_cons_of_ne_nil (ofNat_ne_nil n)
    refine ⟨?_, fun c => isNameChar_of_mem_ofNat⟩
    rw [same]
    exact isReserved_cons_digit (isDigit_of_mem_ofNat (n := n) (by simp [same])) cs

theorem not_mem_append_ofNat (start : Text) (h : c ∉ start) (notDigit : c.isDigit = false)
    (n : Nat) : c ∉ start ++ Text.ofNat n := by
  intro member
  rcases List.mem_append.mp member with first | digit
  · exact h first
  · rw [isDigit_of_mem_ofNat digit] at notDigit
    cases notDigit

theorem passes_groupTokenAt_stringToken (n : Nat) : Passes groupTokenAt (stringToken n) := by
  refine passes_numberedAt fun d digit => ?_
  rintro ⟨before, behind, same⟩
  have split : (before ++ ['i']) ++ ':' :: (d :: behind) = ['q'] ++ ':' :: Text.ofNat n := by
    simpa [stringToken] using same
  have noColon : ':' ∉ Text.ofNat n := not_mem_append_ofNat [] (by simp) (by decide) n
  rw [eq_comm, List.append_cons_inj_of_notMem (by decide) noColon] at split
  have last := congrArg List.getLast? split.1
  simp at last

theorem passes_keywordWordAt_subexpressionToken (n : Nat) :
    Passes keywordWordAt (subexpressionToken n) := by
  have names : ∀ c ∈ subexpressionToken n, isNameChar c := by
    intro c member
    have letters : ∀ c ∈ "PLH".toList, isNameChar c := List.all_eq_true.mp (by decide)
    rcases List.mem_append.mp member with first | digit
    · exact letters c first
    · exact isNameChar_of_mem_ofNat digit
  refine wordBound_keywordWordAt.passes fun part member => ?_
  rw [fields_of_forall fun c member => by simp [isWordChar_of_isNameChar (names c member)]]
    at member
  rw [List.mem_singleton.mp member]
  rintro ⟨digits, -, -, same⟩
  simp [subexpressionToken] at same

end Tokens

end PolicyRules
