import PolicyRules.Proofs.Regrouping

/-!
# Quotation marks of leaf expressions

A leaf expression has its quotation marks around its strings, and outside of them a colon stands
only in a name. So what is read as a leaf names no string any more, if the landmarks of its text
have been in order: a quotation mark in the text would not be closed by what is put back behind it,
and the token of a string outside quotes has a digit behind its colon.

Main statement: `SetAside.Sorted.expand_of_parseOperand`.
-/

namespace PolicyRules

/-- Where an entry of two lists put together stands. -/
theorem append_eq_append_cons {α : Type} {x y a b : List α} {c : α} (h : x ++ y = a ++ c :: b) :
    (∃ v, x = a ++ c :: v ∧ b = v ++ y) ∨ ∃ v, a = x ++ v ∧ y = v ++ c :: b := by
  rcases List.append_eq_append_iff.mp h with ⟨v, a_eq, y_eq⟩ | ⟨v, x_eq, b_eq⟩
  · exact .inr ⟨v, a_eq, y_eq⟩
  · cases v with
    | nil => exact .inr ⟨[], by simpa using x_eq.symm, b_eq.symm⟩
    | cons d v =>
      obtain ⟨rfl, rfl⟩ := List.cons.inj b_eq
      exact .inl ⟨v, x_eq, rfl⟩

section Lexemes

/-- A beginning of a quoted string leaves its mark open, unless it is the whole string. -/
theorem IsQuoted.openQuote_ne {x v : Text} (h : IsQuoted (x ++ v)) (begun : x ≠ [])
    (more : v ≠ []) : openQuote none x ≠ none := by
  generalize same : x ++ v = w at h
  obtain @⟨mark, body, isMark, outside⟩ := h
  obtain ⟨first, x, rfl⟩ := List.exists_cons_of_ne_nil begun
  obtain ⟨v, last, rfl⟩ := (List.eq_nil_or_concat' v).resolve_left more
  obtain ⟨rfl, inner⟩ : first = mark ∧ x ++ v ++ [last] = body ++ [mark] := by simpa using same
  obtain ⟨rfl, -⟩ := List.append_inj' inner rfl
  have opened : quoteStep none first = some first := by simp [quoteStep, isQuoteMark_iff.mpr isMark]
  rw [openQuote_cons, opened, openQuote_of_not_mem fun member => outside (by simp [member])]
  simp

theorem IsName.behind_colon {x v : Text} (h : IsName (x ++ ':' :: v)) :
    ∃ c cs, v = c :: cs ∧ isNameStart c := by
  have noColon : ∀ {u : Text}, (∀ c ∈ u, isNameChar c) → ':' ∉ u := by
    intro u names member
    cases names ':' member
  generalize same : x ++ ':' :: v = w at h
  have colon : ':' ∈ w := by simp [← same]
  cases h with
  | @call digits nonempty all =>
    have name : ':' ∈ digits := by simpa using colon
    cases all ':' name
  | plain h => exact absurd colon (noColon h.all)
  | @pair w w' h h' =>
    rw [eq_comm, List.append_cons_inj_of_notMem (noColon h.all) (noColon h'.all)] at same
    obtain ⟨-, -, rfl⟩ := same
    obtain ⟨c, cs, same, start, -⟩ := h'
    exact ⟨c, cs, same, start⟩

theorem Lexeme.FitsAt.behind_colon {expecting : Expecting} {l : Lexeme} (fits : l.FitsAt expecting)
    {x v : Text} (same : l.text = x ++ ':' :: v) (closed : openQuote none x = none) :
    ∃ c cs, v = c :: cs ∧ isNameStart c := by
  have colon : ':' ∈ l.text := by simp [same]
  have word := fits.isWord
  cases l with
  | name n =>
    obtain rfl : n = x ++ ':' :: v := same
    exact IsName.behind_colon word
  | number n => cases IsNumber.isNameChar word ':' colon
  | string w =>
    obtain rfl : w = x ++ ':' :: v := same
    have begun : x ≠ [] := by
      rintro rfl
      obtain ⟨isMark, -⟩ : IsQuoted ([] ++ ':' :: v) := word
      rcases isMark with isMark | isMark <;> cases isMark
    exact absurd closed (IsQuoted.openQuote_ne word begun (List.cons_ne_nil _ _))
  | operator op | update op => cases op <;> exact absurd colon (by decide)
  | _ => exact absurd colon (by decide)

namespace Spread

variable {expecting : Expecting} {t : Text} {xs : List Lexeme}

/-- No quotation mark is open behind the lexemes of a leaf. -/
theorem openQuote_eq (h : Spread t xs) (lexable : Lexable expecting xs) :
    openQuote none t = none := by
  have closed : ∀ {gap : Text}, (∀ c ∈ gap, isLayout c) → openQuote none gap = none :=
    fun layout =>
      openQuote_of_quoteFree (fun c member => isQuoteMark_eq_false_of_isLayout (layout c member))
        none
  induction h generalizing expecting with
  | nil layout => exact closed layout
  | cons layout h ih =>
    rw [openQuote_append, closed layout, openQuote_append, lexable.1.openQuote_eq, ih lexable.2]

/-- Behind a colon outside quotes a name goes on. -/
theorem behind_colon (h : Spread t xs) (lexable : Lexable expecting xs) {x y : Text}
    (same : t = x ++ ':' :: y) (closed : openQuote none x = none) :
    ∃ c cs, y = c :: cs ∧ isNameStart c := by
  induction h generalizing expecting x with
  | @nil t layout => cases layout ':' (by simp [same])
  | @cons gap rest l xs layout h ih =>
    rcases append_eq_append_cons same with ⟨v, gap_eq, -⟩ | ⟨x₁, rfl, place⟩
    · cases layout ':' (by simp [gap_eq])
    · rw [openQuote_append, openQuote_of_quoteFree fun c member =>
        isQuoteMark_eq_false_of_isLayout (layout c member)] at closed
      rcases append_eq_append_cons place with ⟨v, text_eq, rfl⟩ | ⟨x₂, rfl, later⟩
      · obtain ⟨c, cs, rfl, start⟩ := lexable.1.behind_colon text_eq closed
        exact ⟨c, cs ++ rest, rfl, start⟩
      · rw [openQuote_append, lexable.1.openQuote_eq] at closed
        exact ih lexable.2 later closed

end Spread

end Lexemes

namespace Fills

variable {strings : List Text} {a b m u : Text} {c : Char}

/-- A quotation mark stays in its place when strings are put back. -/
theorem split_at (mark : isQuoteMark c) (h : Fills strings (a ++ c :: b) u) :
    ∃ x y, u = x ++ c :: y ∧ Fills strings a x ∧ Fills strings b y := by
  generalize same : a ++ c :: b = m at h
  induction h generalizing a with
  | nil => simp at same
  | @char d m u rest ih =>
    cases a with
    | nil =>
      obtain ⟨rfl, rfl⟩ := List.cons.inj same
      exact ⟨[], u, rfl, .nil, rest⟩
    | cons e a =>
      obtain ⟨rfl, later⟩ := List.cons.inj same
      obtain ⟨x, y, rfl, first, second⟩ := ih later
      exact ⟨e :: x, y, rfl, first.char e, second⟩
  | @string digits w m u nonempty all found filler ends rest ih =>
    have token : QuoteFree (TokenKind.string.start ++ digits) :=
      QuoteFree.append (by decide) fun d member =>
        isQuoteMark_eq_false_of_isDecimalDigit (all d member)
    rcases append_eq_append_cons same.symm with ⟨v, token_eq, -⟩ | ⟨a, rfl, later⟩
    · rw [token c (by simp [token_eq])] at mark
      cases mark
    · obtain ⟨x, y, rfl, first, second⟩ := ih later.symm
      refine ⟨w ++ x, y, by simp, .string nonempty all found filler ?_ first, second⟩
      intro d head
      exact ends d (by simp [later, head])

/-- What is put back between landmarks that a quotation mark stands clear of does not have the
mark. -/
theorem not_mem (mark : isQuoteMark c) (h : Fills strings m u)
    (clear : ∀ landmark ∈ m.landmarks, Landmark.Clears strings (.quote c) landmark) : c ∉ u := by
  induction h with
  | nil => simp
  | @char d m u rest ih =>
    rw [Text.landmarks, List.forall_mem_append] at clear
    rw [List.mem_cons, not_or]
    refine ⟨?_, ih clear.2⟩
    rintro rfl
    exact (clear.1 (.quote c) (by simp [Landmark.at?_quote mark]) c rfl).1 rfl
  | @string digits w m u nonempty all found filler ends rest ih =>
    rw [List.append_assoc, Text.landmarks_token nonempty all ends, List.forall_mem_cons] at clear
    rw [List.mem_append, not_or]
    exact ⟨(clear.1 c rfl).2 digits w rfl found, ih clear.2⟩

theorem strung (h : Fills strings m u) (free : QuoteFree m) : Strung u := by
  induction h with
  | nil => exact .nil
  | char c rest ih => exact .char (free c (by simp)) (ih fun d member => free d (by simp [member]))
  | string nonempty all found filler ends rest ih =>
    exact .filler filler (ih fun d member => free d (by simp [member]))

/-- A quotation mark of a text whose landmarks are in order stays open when strings are put back. -/
theorem quoteFree (h : Fills strings m u)
    (clear : m.landmarks.Pairwise (Landmark.Clears strings)) (closed : openQuote none u = none) :
    QuoteFree m := by
  by_contra marked
  -- The first quotation mark.
  obtain ⟨a, c, b, rfl, free, mark⟩ : ∃ a c b, m = a ++ c :: b ∧ QuoteFree a ∧
    isQuoteMark c := by
    obtain ⟨c, found⟩ := Option.isSome_iff_exists.mp (List.find?_isSome (p := isQuoteMark).mpr (by
      simpa [QuoteFree] using marked))
    obtain ⟨mark, a, b, same, before⟩ := List.find?_eq_some_iff_append.mp found
    exact ⟨a, c, b, same, fun d member => by simpa using before d member, mark⟩
  obtain ⟨x, y, rfl, first, second⟩ := h.split_at mark
  have apart : continuesToken c = false := by
    rcases isQuoteMark_iff.mp mark with rfl | rfl <;> decide
  rw [Text.landmarks_append (by simpa using apart), Text.landmarks_quote mark, List.pairwise_append,
    List.pairwise_cons] at clear
  have outside := second.not_mem mark clear.2.1.1
  have opened : quoteStep none c = some c := by simp [quoteStep, mark]
  rw [openQuote_append, (first.strung free).openQuote_eq, openQuote_cons, opened,
    openQuote_of_not_mem outside] at closed
  cases closed

/-- A leaf whose strings have all been put back names none. -/
theorem hasNumbered_eq_false (h : Fills strings m u) (free : QuoteFree m)
    {expecting : Expecting} {xs : List Lexeme} (spread : Spread u xs)
    (lexable : Lexable expecting xs) : hasNumbered "q:".toList u = false := by
  rw [hasNumbered_eq_false_iff]
  rintro d digit ⟨x, y, same⟩
  have place : u = x ++ 'q' :: ':' :: d :: y := by simp [← same]
  subst place
  obtain ⟨a, b, rfl, first, -⟩ := h.cut digit
  have strung := first.strung fun c member => free c (by simp [member])
  have closed : openQuote none (x ++ ['q']) = none := by
    rw [openQuote_append, strung.openQuote_eq]
    rfl
  obtain ⟨c, cs, behind, start⟩ :=
    spread.behind_colon lexable (x := x ++ ['q']) (y := d :: y) (by simp) closed
  obtain ⟨rfl, -⟩ := List.cons.inj behind
  rw [isNameStart_eq_false_of_isDigit
    (isDigit_of_isDecimalDigit digit (isNameChar_of_isNameStart start))] at start
  cases start

end Fills

/-- What is read as a leaf names no string any more. -/
theorem SetAside.Sorted.expand_of_parseOperand {s : SetAside} {t : Text} {e : Expr}
    (sorted : s.Sorted t) (h : s.parseOperand t = .ok e) :
    ∃ u, s.expand t = .ok u ∧ hasNumbered "q:".toList u = false := by
  obtain ⟨u, p, expanded, read, -⟩ := parseOperand_eq_ok h
  obtain ⟨m, regroups, fills⟩ := sorted.exists_regrouped expanded
  obtain ⟨xs, spread, lexable, -⟩ := sentence_of_ofText read
  have free := fills.quoteFree (sorted m regroups).clear (spread.openQuote_eq lexable)
  exact ⟨u, expanded, fills.hasNumbered_eq_false free spread lexable⟩

end PolicyRules
