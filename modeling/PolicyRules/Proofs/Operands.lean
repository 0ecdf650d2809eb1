import PolicyRules.Proofs.BuiltTree
import PolicyRules.Proofs.LeafGrammar
import PolicyRules.Proofs.Quotations
import PolicyRules.Proofs.Standing

/-!
# The operands of a leaf expression

The names that a leaf expression reads are operands of its text: they stand outside quotes, and what
stands around them cannot be part of a name, a string or a group. So such a name was there before
strings and groups were put back, in the text or in a group.

Main statements: `isOperand_of_ofText`, `Filled.isOperand` for strings that are put back,
`SetAside.opened_of_expandWithin` for strings and groups.
-/

namespace PolicyRules

variable {α : Type}

/-- Whether an operand can follow a character directly. -/
def opensOperand (c : Char) : Bool := isLayout c || "=<>+-*/|(".toList.contains c

/-- Whether a character can follow an operand directly. -/
def closesOperand (c : Char) : Bool := isLayout c || "=!<>+-*/|)".toList.contains c

/-- Whether a name is an operand of a leaf expression: it stands outside quotes, between characters
that can stand around an operand. -/
def IsOperand (n : Text) (previous : Option Char) (t : Text) : Prop :=
  ∃ a b, t = a ++ (n ++ b) ∧ openQuote none a = none ∧
    (∀ c, lastChar previous a = some c → opensOperand c) ∧
    ∀ c, b.head? = some c → closesOperand c

variable {c : Char} {w t n t' : Text} {expecting : Expecting} {x : Lexeme} {xs : List Lexeme}
  {previous : Option Char}

section Lexemes

theorem isQuoteMark_eq_false_of_isLayout (h : isLayout c) : isQuoteMark c = false := by
  cases mark : isQuoteMark c with
  | false => rfl
  | true => rcases isQuoteMark_iff.mp mark with rfl | rfl <;> cases h

theorem quoteFree_of_isNameChar (h : ∀ c ∈ w, isNameChar c) : QuoteFree w :=
  fun c member => isQuoteMark_eq_false_of_isPlainChar (isPlainChar_of_isNameChar (h c member))

/-- A quoted text leaves no mark open. -/
theorem IsQuoted.openQuote_eq (h : IsQuoted w) : openQuote none w = none := by
  obtain @⟨mark, body, isMark, closed⟩ := h
  exact openQuote_text (q := ⟨mark, body⟩) ⟨isQuoteMark_iff.mpr isMark, closed⟩

/-- No quotation mark is open behind a lexeme. -/
theorem Lexeme.FitsAt.openQuote_eq (fits : x.FitsAt expecting) : openQuote none x.text = none := by
  have plain : ∀ {w : Text}, IsPlain w → openQuote none w = none := fun h =>
    openQuote_of_quoteFree (fun c member => isQuoteMark_eq_false_of_isPlainChar (h.2 c member)) none
  cases x with
  | name text =>
    have isName : IsName text := by cases expecting <;> first | exact fits | cases fits
    exact plain isName.isPlain
  | number text =>
    have isNumber : IsNumber text := by cases expecting <;> first | exact fits | cases fits
    exact openQuote_of_quoteFree (quoteFree_of_isNameChar isNumber.isNameChar) none
  | string text =>
    have isQuoted : IsQuoted text := by cases expecting <;> first | exact fits | cases fits
    exact isQuoted.openQuote_eq
  | operator op | update op => cases op <;> rfl
  | bar | leftParen | rightParen => rfl

/-- What is looked for behind a lexeme that an operand cannot follow is not an operand. -/
theorem opensOperand_lastChar
    (after : ∀ updatable, expecting.after x ≠ .operator updatable) (previous : Option Char)
    (c : Char) (last : lastChar previous x.text = some c) : opensOperand c := by
  cases x with
  | name text | number text | string text | rightParen => exact absurd rfl (after _)
  | operator op | update op => cases op <;> cases last <;> rfl
  | bar | leftParen => cases last; rfl

/-- A lexeme that can follow an operand begins with a character that closes it. -/
theorem closesOperand_head {updatable : Bool} (fits : x.FitsAt (.operator updatable)) (rest : Text)
    (c : Char) (head : (x.text ++ rest).head? = some c) : closesOperand c := by
  cases x with
  | name text | number text | string text | leftParen => exact absurd fits id
  | operator op | update op => cases op <;> cases head <;> rfl
  | bar | rightParen => cases head; rfl

theorem Spread.closesOperand {updatable : Bool} (h : Spread t xs)
    (lexable : Lexable (.operator updatable) xs) (c : Char) (head : t.head? = some c) :
    closesOperand c := by
  have layout : ∀ {gap : Text}, (∀ c ∈ gap, isLayout c) → c ∈ gap →
      PolicyRules.closesOperand c := fun layout member => by
    simp [PolicyRules.closesOperand, layout c member]
  cases h with
  | nil all => exact layout all (List.mem_of_mem_head? head)
  | @cons gap rest x xs all h =>
    cases gap with
    | nil => exact closesOperand_head lexable.1 rest c head
    | cons d ds =>
      obtain rfl : d = c := by simpa using head
      exact layout all (by simp)

/-- A name among the lexemes of a text is an operand of the text. -/
theorem Spread.isOperand {before : Text} (h : Spread t xs) (lexable : Lexable expecting xs)
    (member : .name n ∈ xs) (closed : openQuote none before = none)
    (opens : (∀ updatable, expecting ≠ .operator updatable) →
      ∀ c, lastChar none before = some c → opensOperand c) : IsOperand n none (before ++ t) := by
  induction h generalizing expecting before with
  | nil => cases member
  | @cons gap rest x xs layout h ih =>
    have gapClosed : openQuote none (before ++ gap) = none := by
      rw [openQuote_append, closed]
      exact openQuote_of_quoteFree
        (fun c member => isQuoteMark_eq_false_of_isLayout (layout c member)) none
    rcases List.mem_cons.mp member with rfl | later
    · have notOperator : ∀ updatable, expecting ≠ .operator updatable := by
        rintro updatable rfl
        exact lexable.1
      refine ⟨before ++ gap, rest, by simp [Lexeme.text], gapClosed, fun c last => ?_, ?_⟩
      · by_cases empty : gap = []
        · subst empty
          exact opens notOperator c (by simpa using last)
        · obtain ⟨d, inGap, same⟩ := exists_lastChar_eq empty (lastChar none before)
          rw [lastChar_append, same] at last
          obtain rfl := Option.some.inj last
          simp [opensOperand, layout d inGap]
      · exact h.closesOperand lexable.2
    · have whole : IsOperand n none ((before ++ gap ++ x.text) ++ rest) := by
        refine ih lexable.2 later ?_ fun notOperator c last => ?_
        · rw [openQuote_append, gapClosed, lexable.1.openQuote_eq]
        · rw [lastChar_append] at last
          exact opensOperand_lastChar notOperator _ c last
      simpa using whole

/-- The names of a phrase are lexemes of its sentence. -/
theorem Derives.mem_of_mem_names {c : Category} {p : Phrase} (h : Derives c xs p)
    (member : n ∈ p.names) : .name n ∈ xs := by
  induction h with
  | ofSum h ih | ofProduct h ih | ofAtom h ih | ofPrimary h ih => exact ih member
  | compare fits h h' ih ih' | updateMapped op h name h' ih ih' | add fits h h' ih ih'
  | multiply fits h h' ih ih' =>
    rcases List.mem_append.mp member with left | right
    · simp [ih left]
    · simp [ih' right]
  | update op name h ih =>
    rcases List.mem_cons.mp member with rfl | value
    · simp
    · simp [ih value]
  | mapped h name ih | paren h ih => simp [ih member]
  | name h => simpa [Phrase.names, eq_comm] using member
  | number h | string h => cases member

/-- The names that a leaf expression reads are operands of its text. -/
theorem isOperand_of_ofText {p : Phrase} (h : Phrase.ofText t = .ok p)
    (member : n ∈ p.names) : IsName n ∧ IsOperand n none t := by
  obtain ⟨xs, spread, lexable, sentence⟩ := sentence_of_ofText h
  have listed := sentence.mem_of_mem_names member
  have operand : IsOperand n none ([] ++ t) :=
    spread.isOperand lexable listed rfl (by simp [lastChar])
  exact ⟨lexable.isWord _ listed, operand⟩

end Lexemes

/-- Opens a split that has been written out: the first mark is written, and so is the rest. -/
theorem Split.renderM_cons_eq_ok {ε : Type} {write : α → Except ε Text} {head next : Text} {a : α}
    {tail : List (α × Text)} (h : Split.renderM write ⟨head, (a, next) :: tail⟩ = .ok t) :
    ∃ w rest, write a = .ok w ∧ Split.renderM write ⟨next, tail⟩ = .ok rest ∧
      t = head ++ (w ++ rest) := by
  simp only [Split.renderM, List.mapM_cons, bind_eq_ok_iff, pure_eq_ok_iff] at h ⊢
  obtain ⟨pieces, ⟨piece, ⟨w, written, rfl⟩, pieces', rest, rfl⟩, rfl⟩ := h
  exact ⟨w, _, written, ⟨pieces', rest, rfl⟩, by simp⟩

theorem Split.renderM_nil_eq_ok {ε : Type} {write : α → Except ε Text} {head : Text}
    (h : Split.renderM write ⟨head, []⟩ = .ok t) : t = head := by
  simp only [Split.renderM, List.mapM_nil, bind_eq_ok_iff, pure_eq_ok_iff] at h
  obtain ⟨_, rfl, rfl⟩ := h
  simp

/-- The token of a group or string, as it is recognised. -/
theorem numberedAt_append_eq_some {letter : Char} {digits : Text}
    (h : numberedAt letter previous (w ++ t) = some (digits, w.length)) :
    w = letter :: ':' :: digits ∧ digits ≠ [] ∧ (∀ d ∈ digits, isDecimalDigit d) ∧
      isClear previous := by
  unfold numberedAt at h
  split at h
  · next clear =>
    simp only [Option.bind_eq_bind, Option.bind_eq_some_iff, Option.pure_def, Option.some.injEq,
      Prod.mk.injEq, Text.dropStart?_eq_some_iff, digitsAt?, Option.ite_none_left_eq_some,
      List.isEmpty_iff] at h
    obtain ⟨rest, whole, _, ⟨nonempty, rfl⟩, rfl, width⟩ := h
    have taken : w ++ t = (letter :: ':' :: rest.takeWhile isDecimalDigit) ++
        rest.dropWhile isDecimalDigit := by
      simpa using whole
    refine ⟨(List.append_inj taken (by simp [← width])).1, nonempty,
      fun d => List.mem_takeWhile_imp, clear⟩
  · cases h

theorem measured_numberedAt (letter : Char) : Measured (numberedAt letter) := by
  intro previous t digits width h
  unfold numberedAt at h
  split at h
  · simp only [Option.bind_eq_bind, Option.bind_eq_some_iff, Option.pure_def, Option.some.injEq,
      Prod.mk.injEq, Text.dropStart?_eq_some_iff, digitsAt?, Option.ite_none_left_eq_some] at h
    obtain ⟨rest, rfl, _, ⟨-, rfl⟩, rfl, rfl⟩ := h
    have fits := (List.takeWhile_prefix isDecimalDigit (l := rest)).length_le
    simp only [List.length_append, List.length_cons, List.length_nil]
    omega
  · cases h

section Strings

/-- Whether a text is a quoted string that can be put back: there is no token of a string in it. -/
def IsFiller (w : Text) : Prop := IsQuoted w ∧ hasNumbered "q:".toList w = false

/-- Whether the quotation marks of a text are those of strings that have been put back. -/
inductive Strung : Text → Prop
  | nil : Strung []
  | char {c : Char} {t : Text} (plain : isQuoteMark c = false) (h : Strung t) : Strung (c :: t)
  | filler {w t : Text} (filler : IsFiller w) (h : Strung t) : Strung (w ++ t)

/-- Whether a text becomes another one when parts of it are replaced by strings. No quotation mark
is open behind such a part. -/
inductive Filled : Text → Text → Prop
  | nil : Filled [] []
  | char {c : Char} {t t' : Text} (plain : isQuoteMark c = false) (h : Filled t t') :
    Filled (c :: t) (c :: t')
  | filler {v w t t' : Text} (filler : IsFiller w) (closed : openQuote none v = none)
    (h : Filled t t') :
    Filled (v ++ t) (w ++ t')

theorem IsFiller.head (h : IsFiller w) : ∃ mark rest, w = mark :: rest ∧ isQuoteMark mark := by
  obtain ⟨@⟨mark, body, isMark, -⟩, -⟩ := h
  exact ⟨mark, _, rfl, isQuoteMark_iff.mpr isMark⟩

theorem IsFiller.last {u v : Text} (h : IsFiller w) (same : w = u ++ v) (nonempty : v ≠ []) :
    ∃ rest mark, v = rest ++ [mark] ∧ isQuoteMark mark := by
  obtain ⟨@⟨mark, body, isMark, -⟩, -⟩ := h
  obtain ⟨rest, last, rfl⟩ := (List.eq_nil_or_concat' v).resolve_left nonempty
  rw [← List.append_assoc] at same
  obtain ⟨-, one⟩ := List.append_inj' same rfl
  exact ⟨rest, last, rfl, isQuoteMark_iff.mpr (List.singleton_inj.mp one ▸ isMark)⟩

theorem isQuoteMark_eq_false_of_isDecimalDigit (digit : isDecimalDigit c) :
    isQuoteMark c = false := by
  have other : isDecimalDigit '"' = false ∧ isDecimalDigit '\x27' = false := by decide
  cases mark : isQuoteMark c with
  | false => rfl
  | true =>
    rcases isQuoteMark_iff.mp mark with rfl | rfl
    · rw [other.1] at digit
      cases digit
    · rw [other.2] at digit
      cases digit

/-- No token of a string begins inside a string that is put back. -/
theorem IsFiller.eq_nil_of_token {u v rest : Text} {d : Char} (filler : IsFiller w)
    (digit : isDecimalDigit d) (same : w = u ++ v)
    (token : 'q' :: ':' :: d :: rest = v ++ t) : v = [] := by
  by_contra nonempty
  -- The mark at the end of the string is no part of a token.
  obtain ⟨_, mark, v_eq, isMark⟩ := filler.last same nonempty
  have split : ['q', ':', d] ++ rest = v ++ t := token
  rcases List.append_eq_append_iff.mp split with ⟨z, rfl, -⟩ | ⟨z, token_eq, -⟩
  · exact not_infix_of_hasNumbered filler.2 digit ⟨u, z, by simp [same]⟩
  · have member : mark ∈ ['q', ':', d] := by simp [token_eq, v_eq]
    have other : ∀ c ∈ ['q', ':', d], isQuoteMark c = false := by
      simp only [List.mem_cons, List.not_mem_nil, or_false, forall_eq_or_imp, forall_eq]
      exact ⟨by decide, by decide, isQuoteMark_eq_false_of_isDecimalDigit digit⟩
    rw [other mark member] at isMark
    cases isMark

namespace Strung

variable {t u : Text}

theorem of_quoteFree (h : QuoteFree t) : Strung t := by
  induction t with
  | nil => exact .nil
  | cons c cs ih => exact .char (h c (by simp)) (ih fun d member => h d (by simp [member]))

/-- Strung texts are strung one behind the other. -/
theorem append (h : Strung t) (h' : Strung u) : Strung (t ++ u) := by
  induction h with
  | nil => exact h'
  | char plain h ih => exact .char plain ih
  | filler filler h ih =>
    rw [List.append_assoc]
    exact .filler filler ih

/-- A strung text leaves no mark open. -/
theorem openQuote_eq (h : Strung t) : openQuote none t = none := by
  induction h with
  | nil => rfl
  | char plain h ih => rw [openQuote_cons, quoteStep_of_plain plain, ih]
  | filler filler h ih => rw [openQuote_append, filler.1.openQuote_eq, ih]

theorem of_cons (plain : isQuoteMark c = false) (h : Strung (c :: t)) : Strung t := by
  generalize same : c :: t = v at h
  cases h with
  | nil => cases same
  | char plain' h =>
    obtain ⟨rfl, rfl⟩ := List.cons.inj same
    exact h
  | filler filler h =>
    obtain ⟨mark, rest, rfl, isMark⟩ := filler.head
    obtain ⟨rfl, -⟩ := List.cons.inj same
    rw [isMark] at plain
    cases plain

theorem of_append (free : QuoteFree u) (h : Strung (u ++ t)) : Strung t := by
  induction u with
  | nil => exact h
  | cons c cs ih =>
    exact ih (fun d member => free d (by simp [member])) (h.of_cons (free c (by simp)))

/-- A token of a string stands outside quotes. -/
theorem cut {d : Char} {rest : Text} (digit : isDecimalDigit d) (h : Strung t)
    (same : t = u ++ 'q' :: ':' :: d :: rest) : Strung u ∧ Strung ('q' :: ':' :: d :: rest) := by
  induction h generalizing u with
  | nil => simp at same
  | @char c t plain h ih =>
    cases u with
    | nil =>
      rw [List.nil_append] at same
      exact ⟨.nil, same ▸ .char plain h⟩
    | cons x u =>
      obtain ⟨rfl, rest_eq⟩ := List.cons.inj same
      obtain ⟨first, second⟩ := ih rest_eq
      exact ⟨.char plain first, second⟩
  | @filler w t filler h ih =>
    rcases List.append_eq_append_iff.mp same with ⟨v, rfl, rest_eq⟩ | ⟨v, w_eq, rest_eq⟩
    · obtain ⟨first, second⟩ := ih rest_eq
      exact ⟨.filler filler first, second⟩
    · obtain rfl : v = [] := filler.eq_nil_of_token digit w_eq rest_eq
      rw [List.append_nil] at w_eq
      exact ⟨by simpa [w_eq] using Strung.filler filler .nil, by simpa [rest_eq] using h⟩

end Strung

namespace Filled

variable {t t' u u' n : Text}

theorem refl (h : Strung t) : Filled t t := by
  induction h with
  | nil => exact .nil
  | char plain h ih => exact .char plain ih
  | filler filler h ih => exact .filler filler filler.1.openQuote_eq ih

/-- A text whose strings are filled in is strung. -/
theorem strung (h : Filled t t') : Strung t' := by
  induction h with
  | nil => exact .nil
  | char plain h ih => exact .char plain ih
  | filler filler closed h ih => exact .filler filler ih

/-- Filled texts are filled one behind the other. -/
theorem append (h : Filled t t') (h' : Filled u u') : Filled (t ++ u) (t' ++ u') := by
  induction h with
  | nil => exact h'
  | char plain h ih => exact .char plain ih
  | filler filler closed h ih =>
    rw [List.append_assoc, List.append_assoc]
    exact .filler filler closed ih

/-- Characters other than quotation marks have not been put there. -/
theorem of_append {b : Text} (free : QuoteFree u) (h : Filled t (u ++ b)) :
    ∃ b₀, t = u ++ b₀ ∧ Filled b₀ b := by
  induction u generalizing t with
  | nil => exact ⟨t, rfl, h⟩
  | cons c cs ih =>
    have plain := free c (by simp)
    have notFiller : ∀ {w v : Text}, IsFiller w → c :: (cs ++ b) ≠ w ++ v := by
      rintro w v filler same
      obtain ⟨mark, rest, rfl, isMark⟩ := filler.head
      obtain ⟨rfl, -⟩ := List.cons.inj same
      rw [isMark] at plain
      cases plain
    generalize same : c :: cs ++ b = v at h
    cases h with
    | nil => cases same
    | char plain' h =>
      obtain ⟨rfl, rfl⟩ := List.cons.inj same
      obtain ⟨b₀, rfl, filled⟩ := ih (fun d member => free d (by simp [member])) h
      exact ⟨b₀, rfl, filled⟩
    | filler filler closed h => exact absurd same (notFiller filler)

end Filled

/-- A beginning of a string leaves its mark open, unless it is the whole string. -/
theorem IsFiller.of_append {a v b : Text} (filler : IsFiller w) (nonempty : a ≠ [])
    (closed : openQuote none a = none) (same : w ++ v = a ++ b) :
    ∃ a', a = w ++ a' ∧ v = a' ++ b := by
  rcases List.append_eq_append_iff.mp same with ⟨z, rfl, rfl⟩ | ⟨z, w_eq, rfl⟩
  · exact ⟨z, rfl, rfl⟩
  · by_cases whole : z = []
    · subst whole
      exact ⟨[], by simpa using w_eq.symm, rfl⟩
    · obtain ⟨z₀, last, rfl⟩ := (List.eq_nil_or_concat' z).resolve_left whole
      obtain ⟨first, a₁, rfl⟩ := List.exists_cons_of_ne_nil nonempty
      obtain ⟨@⟨mark, body, isMark, outside⟩, -⟩ := filler
      obtain ⟨rfl, inner⟩ : mark = first ∧ body ++ [mark] = a₁ ++ z₀ ++ [last] := by
        simpa using w_eq
      obtain ⟨rfl, -⟩ := List.append_inj' inner rfl
      have opened : quoteStep none mark = some mark := by
        simp [quoteStep, isQuoteMark_iff.mpr isMark]
      rw [openQuote_cons, opened, openQuote_of_not_mem fun member => outside (by simp [member])]
        at closed
      cases closed

theorem IsName.quoteFree (h : IsName n) : QuoteFree n :=
  fun c member => isQuoteMark_eq_false_of_isPlainChar (h.isPlain.2 c member)

/-- What is filled in ends with a quotation mark. -/
theorem IsFiller.lastChar_eq (filler : IsFiller w) (previous : Option Char) :
    ∃ mark, lastChar previous w = some mark ∧ isQuoteMark mark := by
  obtain ⟨@⟨mark, body, isMark, -⟩, -⟩ := filler
  exact ⟨mark, by simp [lastChar], isQuoteMark_iff.mpr isMark⟩

theorem opensOperand_of_isQuoteMark (mark : isQuoteMark c) : opensOperand c = false := by
  rcases isQuoteMark_iff.mp mark with rfl | rfl <;> decide

theorem closesOperand_of_isQuoteMark (mark : isQuoteMark c) : closesOperand c = false := by
  rcases isQuoteMark_iff.mp mark with rfl | rfl <;> decide

/-- A name that is an operand when strings have been put back was one before. -/
theorem Filled.isOperand (isName : IsName n) (h : Filled t t') {previous' : Option Char}
    (opens : (∀ c, previous' = some c → opensOperand c) →
      ∀ c, previous = some c → opensOperand c)
    (operand : IsOperand n previous' t') : IsOperand n previous t := by
  obtain ⟨a, b, same, closed, opened, closes⟩ := operand
  have notStart : ∀ {w v a : Text}, IsFiller w → w ++ v = a ++ (n ++ b) → a ≠ [] := by
    rintro w v _ filler same rfl
    obtain ⟨mark, rest, rfl, isMark⟩ := filler.head
    obtain ⟨c, cs, rfl, -⟩ := isName.head
    obtain ⟨rfl, -⟩ := List.cons.inj same
    rw [isName.quoteFree mark (by simp)] at isMark
    cases isMark
  have behindFiller : ∀ {w : Text}, IsFiller w →
      ∀ {previous previous' : Option Char}, (∀ c, lastChar previous' w = some c → opensOperand c) →
      ∀ c, previous = some c → opensOperand c := by
    intro w filler previous previous' opens
    obtain ⟨mark, last, isMark⟩ := filler.lastChar_eq previous'
    have opening := opens mark last
    rw [opensOperand_of_isQuoteMark isMark] at opening
    cases opening
  induction h generalizing a previous previous' with
  | nil =>
    obtain ⟨c, cs, rfl, -⟩ := isName.head
    simp at same
  | @char c t t' plain h ih =>
    cases a with
    | nil =>
      -- The name begins here, so its characters have not been put there.
      have whole : Filled (c :: t) (n ++ b) := by
        rw [List.nil_append] at same
        exact same ▸ .char plain h
      obtain ⟨b₀, t_eq, filled⟩ := whole.of_append isName.quoteFree
      refine ⟨[], b₀, t_eq, rfl, opens opened, fun d head => ?_⟩
      have notFiller : ∀ {w v : Text}, IsFiller w → b ≠ w ++ v := by
        rintro w v filler rfl
        obtain ⟨mark, rest, rfl, isMark⟩ := filler.head
        have closing := closes mark rfl
        rw [closesOperand_of_isQuoteMark isMark] at closing
        cases closing
      cases filled with
      | nil => cases head
      | char plain h => exact closes d head
      | filler filler closed h => exact absurd rfl (notFiller filler)
    | cons x a =>
      obtain ⟨rfl, rest⟩ := List.cons.inj same
      rw [openQuote_cons, quoteStep_of_plain plain] at closed
      obtain ⟨a', b', rfl, closed', opened', closes'⟩ : IsOperand n (some c) t :=
        ih id a rest closed opened
      exact ⟨c :: a', b', rfl, by rw [openQuote_cons, quoteStep_of_plain plain, closed'],
        opened', closes'⟩
  | @filler v w t t' filler inert h ih =>
    obtain ⟨a', rfl, rest⟩ := filler.of_append (notStart filler same) closed same
    rw [openQuote_append, filler.1.openQuote_eq] at closed
    rw [lastChar_append] at opened
    obtain ⟨a, b, rfl, closed', opened', closes'⟩ : IsOperand n (lastChar previous v) t :=
      ih (behindFiller filler) a' rest closed opened
    exact ⟨v ++ a, b, by simp, by rw [openQuote_append, inert, closed'], by rwa [lastChar_append],
      closes'⟩

/-- Strings are put back in the place of their tokens. -/
theorem filled_of_renderM {s : Split Text} (strung : Strung t)
    (scanned : Scans stringTokenAt previous t s) {write : Text → Except Error Text}
    (fillers : ∀ digits w, write digits = .ok w → IsFiller w) (h : s.renderM write = .ok t') :
    Filled t t' := by
  induction scanned generalizing t' with
  | text quiet =>
    rw [Split.renderM_nil_eq_ok h]
    exact .refl strung
  | @mark previous u w t next digits tail quiet nonempty found rest ih =>
    obtain ⟨filler, rest', written, rendered, rfl⟩ := Split.renderM_cons_eq_ok h
    obtain ⟨rfl, some, all, -⟩ := numberedAt_append_eq_some found
    obtain ⟨d, ds, rfl⟩ := List.exists_cons_of_ne_nil some
    obtain ⟨before, behind⟩ := strung.cut (all d (by simp)) rfl
    have free : QuoteFree ('q' :: ':' :: d :: ds) := by
      simp only [QuoteFree, List.mem_cons, forall_eq_or_imp]
      exact ⟨by decide, by decide, isQuoteMark_eq_false_of_isDecimalDigit (all d (by simp)),
        fun c member => isQuoteMark_eq_false_of_isDecimalDigit (all c (by simp [member]))⟩
    have later : Strung t := Strung.of_append free behind
    exact (Filled.refl before).append
      (.filler (fillers _ _ written) (openQuote_of_quoteFree free none) (ih later rendered))

end Strings

section Groups

variable {n : Text}

/-- What holds of layout and of some signs holds of every character that is one of them. -/
theorem of_layout_or_sign {p : Char → Bool} {signs : Text} (each : " \t\x0c\r\n".toList.all p)
    (each' : signs.all p) (h : isLayout c || signs.contains c) : p c := by
  rcases Bool.or_eq_true_iff.mp h with layout | sign
  · exact of_isLayout each layout
  · exact List.all_eq_true.mp each' c (List.contains_iff_mem.mp sign)

/-- A token can stand where an operand can begin. -/
theorem isClearOfTokens_of_opensOperand
    (h : ∀ c, previous = some c → opensOperand c) : isClearOfTokens previous := by
  cases previous with
  | none => rfl
  | some c =>
    exact of_layout_or_sign (p := fun c => isClearOfTokens (some c)) (by decide) (by decide)
      (h c rfl)

theorem isClearOfTokens_of_closesOperand {next : Option Char}
    (h : ∀ c, next = some c → closesOperand c) : isClearOfTokens next := by
  cases next with
  | none => rfl
  | some c =>
    exact of_layout_or_sign (p := fun c => isClearOfTokens (some c)) (by decide) (by decide)
      (h c rfl)

/-- A character that belongs to no name divides the places of an operand. -/
theorem IsOperand.separator {x y : Text} (isName : IsName n)
    (outside : c ∉ n) (plain : isQuoteMark c = false) (closed : openQuote none x = none)
    (h : IsOperand n previous (x ++ c :: y)) :
    (∃ a b, x = a ++ (n ++ b) ∧ openQuote none a = none ∧
      (∀ d, lastChar previous a = some d → opensOperand d) ∧
      ∀ d, (b ++ [c]).head? = some d → closesOperand d) ∨ IsOperand n (some c) y := by
  obtain ⟨a, b, same, closed', opens, closes⟩ := h
  rcases List.append_eq_append_iff.mp same with ⟨rest, rfl, inner⟩ | ⟨rest, rfl, inner⟩
  · right
    cases rest with
    | nil =>
      obtain ⟨first, others, rfl, -⟩ := isName.head
      obtain ⟨rfl, -⟩ := List.cons.inj inner
      exact absurd (by simp) outside
    | cons d rest =>
      obtain ⟨rfl, behind⟩ := List.cons.inj inner
      refine ⟨rest, b, behind, ?_, by simpa [lastChar] using opens, closes⟩
      rwa [openQuote_append, closed, openQuote_cons, quoteStep_of_plain plain] at closed'
  · rcases List.append_eq_append_iff.mp inner with ⟨b₀, rfl, rfl⟩ | ⟨v, rfl, across⟩
    · left
      refine ⟨a, b₀, rfl, closed', opens, fun d head => closes d ?_⟩
      cases b₀ <;> simpa using head
    · cases v with
      | nil =>
        left
        refine ⟨a, [], by simp, closed', opens, fun d head => closes d ?_⟩
        rw [List.nil_append] at across
        simpa [← across] using head
      | cons d v =>
        obtain ⟨rfl, -⟩ := List.cons.inj across
        exact absurd (by simp) outside

/-- What is known of a text that groups and strings have been put back into: its quotation marks are
those of strings, and a name that is an operand of it stands in the text before or in a group. -/
structure Opened (groups : List Text) (before after : Text) : Prop where
  strung : Strung after
  stands : ∀ n, IsName n → IsOperand n none after →
    Stands n none before ∨ ∃ group ∈ groups, Stands n none group

/-- Groups that are opened leave every operand in the text or in a group. -/
theorem opened_of_renderM {groups : List Text} {write : Text → Except Error Text}
    (written : ∀ digits w, write digits = .ok w →
      ∃ group ∈ groups, ∃ inner, w = '(' :: inner ++ [')'] ∧ Opened groups group inner)
    {s : Split Text} (free : QuoteFree t)
    (scanned : Scans groupTokenAt previous t s) (h : s.renderM write = .ok t') :
    Strung t' ∧ ∀ n, IsName n →
      ∀ previous', ((∀ c, previous' = some c → opensOperand c) → isClearOfTokens previous) →
      IsOperand n previous' t' → Stands n previous t ∨ ∃ group ∈ groups, Stands n none group := by
  induction scanned generalizing t' with
  | @text previous t quiet =>
    rw [Split.renderM_nil_eq_ok h]
    refine ⟨.of_quoteFree free, fun n isName previous' clear operand => .inl ?_⟩
    obtain ⟨a, b, rfl, -, opens, closes⟩ := operand
    refine ⟨a, b, rfl, ?_, isClearOfTokens_of_closesOperand closes⟩
    cases a with
    | nil => exact clear opens
    | cons c cs => exact isClearOfTokens_of_opensOperand opens
  | @mark previous u w t next digits tail quiet nonempty found rest ih =>
    obtain ⟨_, rest', writes, rendered, rfl⟩ := Split.renderM_cons_eq_ok h
    obtain ⟨group, listed, inner, rfl, opened⟩ := written _ _ writes
    have freeHead : QuoteFree u := fun c member => free c (by simp [member])
    obtain ⟨strung, stands⟩ := ih (fun c member => free c (by simp [member])) rendered
    have text_eq : u ++ ('(' :: inner ++ [')'] ++ rest') = u ++ '(' :: (inner ++ ')' :: rest') := by
      simp
    rw [text_eq]
    refine ⟨(Strung.of_quoteFree freeHead).append
      (.char rfl (opened.strung.append (.char rfl strung))), fun n isName previous' clear operand =>
        ?_⟩
    have noParen : ∀ c ∈ ['(', ')'], c ∉ n := by
      intro c isParen member
      have run := isName.isRunChar member
      rcases List.mem_pair.mp isParen with rfl | rfl <;> cases run
    rcases operand.separator isName (noParen '(' (by simp)) rfl
      (openQuote_of_quoteFree freeHead none) with
      ⟨a, b, rfl, -, opens, closes⟩ | behind
    · left
      cases b with
      | nil => cases closes '(' rfl
      | cons d b =>
        refine ⟨a, d :: b ++ (w ++ t), by simp, ?_, isClearOfTokens_of_closesOperand closes⟩
        cases a with
        | nil => exact clear opens
        | cons c cs => exact isClearOfTokens_of_opensOperand opens
    · rcases behind.separator isName (noParen ')' (by simp)) rfl opened.strung.openQuote_eq with
        ⟨a, b, rfl, closed, opens, closes⟩ | later
      · have inside : IsOperand n none (a ++ (n ++ b)) := by
          refine ⟨a, b, rfl, closed, ?_, ?_⟩
          · cases a with
            | nil => simp [lastChar]
            | cons c cs => exact opens
          · cases b with
            | nil => simp
            | cons d b => exact closes
        rcases opened.stands n isName inside with here | deeper
        · exact .inr ⟨group, listed, here⟩
        · exact .inr deeper
      · rcases stands n isName (some ')') (fun opens => by cases opens ')' rfl)
          later with here | deeper
        · left
          rw [← List.append_assoc]
          exact here.append_right
        · exact .inr deeper

theorem mem_of_tokenEntry {entries : List α} {digits : Text} {a : α}
    (h : tokenEntry entries digits = .ok a) : a ∈ entries := by
  obtain ⟨n, -, entry⟩ := bind_eq_ok_iff.mp h
  exact List.mem_of_getElem? (nthEntry_eq_ok_iff.mp entry)

/-- Groups and strings that are put back leave every operand in the text or in a group. -/
theorem SetAside.opened_of_expandWithin {s : SetAside} {depth : Nat}
    (groups : ∀ group ∈ s.groups, QuoteFree group) (strings : ∀ w ∈ s.strings, IsFiller w)
    (free : QuoteFree t) (h : s.expandWithin depth t = .ok t') : Opened s.groups t t' := by
  induction depth generalizing t t' with
  | zero => cases h
  | succ depth ih =>
    obtain ⟨opened, openedEq, filledEq⟩ := bind_eq_ok_iff.mp h
    have written : ∀ digits w, (do
        let group ← tokenEntry s.groups digits
        return '(' :: (← s.expandWithin depth group) ++ [')']) = .ok w →
        ∃ group ∈ s.groups, ∃ inner, w = '(' :: inner ++ [')'] ∧ Opened s.groups group inner := by
      intro digits w writes
      obtain ⟨group, entry, writes⟩ := bind_eq_ok_iff.mp writes
      obtain ⟨inner, expanded, same⟩ := bind_eq_ok_iff.mp writes
      have listed := mem_of_tokenEntry entry
      exact ⟨group, listed, inner, (pure_eq_ok_iff.mp same).symm, ih (groups group listed) expanded⟩
    obtain ⟨strung, stands⟩ :=
      opened_of_renderM written free (Split.scans (measured_numberedAt 'i') none t) openedEq
    have filled := filled_of_renderM strung (Split.scans (measured_numberedAt 'q') none opened)
      (fun digits w entry => strings w (mem_of_tokenEntry entry)) filledEq
    exact ⟨filled.strung, fun n isName operand =>
      stands n isName none (fun _ => rfl) (filled.isOperand isName id operand)⟩

end Groups

end PolicyRules
