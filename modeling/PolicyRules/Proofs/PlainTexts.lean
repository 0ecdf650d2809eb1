import PolicyRules.Proofs.UnclosedQuotes

/-!
# Plain texts

A plain text has none of the tokens by which parts of a text are set aside, and its square brackets
stand apart from names and strings. Masking strings keeps the brackets apart
(`Text.IsPlain.isChain_masked`), and a plain text with an unclosed quotation mark has no tree
(`Text.IsPlain.quoteFree_masked`).
-/

namespace PolicyRules

/-- The characters of operators. -/
def isOperatorChar (c : Char) : Bool := "=!<>+-*/|".toList.contains c

/-- Whether an opening square bracket may stand behind a character. -/
def mayOpenBehind (c : Char) : Bool := isBlank c || isOperatorChar c || c == '(' || c == '['

/-- Whether a closing square bracket may stand before a character. -/
def mayCloseBefore (c : Char) : Bool := isBlank c || isOperatorChar c || c == ')' || c == ']'

/-- Whether a square bracket of two neighbours has the other one on its outer side, if that one is
allowed there. -/
def BracketsFree (a b : Char) : Prop :=
  (b = '[' → mayOpenBehind a) ∧ (a = ']' → mayCloseBefore b)

instance (a b : Char) : Decidable (BracketsFree a b) := inferInstanceAs (Decidable (_ ∧ _))

/-- Whether a text has no numbered tokens, and blanks, operators or brackets around its square
brackets. -/
structure Text.IsPlain (t : Text) : Prop where
  unnumbered : t.Unnumbered
  brackets : t.IsChain BracketsFree

instance (t : Text) : Decidable t.IsPlain :=
  decidable_of_iff
      (([TokenKind.keyword, .string, .group].all fun kind => ! hasNumbered kind.start t) ∧
      hasNumbered "PLH".toList t = false ∧ t.IsChain BracketsFree) <| by
    constructor
    · rintro ⟨tokens, parts, brackets⟩
      refine ⟨⟨fun kind => ?_, parts⟩, brackets⟩
      simpa using List.all_eq_true.mp tokens kind (by cases kind <;> simp)
    · intro plain
      exact ⟨by simp [plain.unnumbered.tokens], plain.unnumbered.parts, plain.brackets⟩

section Masking

variable {a b c : Char}

theorem isReferenceChar_eq_false_of_isOperatorChar (h : isOperatorChar c) :
    isReferenceChar c = false := by
  have signs : "=!<>+-*/|".toList.all fun c => ! isReferenceChar c := by decide
  simpa using List.all_eq_true.mp signs c (List.contains_iff_mem.mp h)

theorem isReferenceChar_eq_false_of_isBlank (h : isBlank c) : isReferenceChar c = false := by
  cases reference : isReferenceChar c with
  | false => rfl
  | true =>
    rw [isBlank_eq_false_of_isReferenceChar reference] at h
    cases h

/-- Blanks and operators are neither in names nor brackets. -/
theorem apart_of_isBlank_or (h : isBlank c ∨ isOperatorChar c) :
    isReferenceChar c = false ∧ c ≠ '[' ∧ c ≠ ']' := by
  refine ⟨?_, ?_, ?_⟩
  · rcases h with blank | sign
    · exact isReferenceChar_eq_false_of_isBlank blank
    · exact isReferenceChar_eq_false_of_isOperatorChar sign
  · rintro rfl
    exact absurd h (by decide)
  · rintro rfl
    exact absurd h (by decide)

theorem apart_of_mayOpenBehind (h : mayOpenBehind c) : isReferenceChar c = false ∧ c ≠ ']' := by
  simp only [mayOpenBehind, Bool.or_eq_true, beq_iff_eq] at h
  rcases h with (outside | rfl) | rfl
  · exact ⟨(apart_of_isBlank_or outside).1, (apart_of_isBlank_or outside).2.2⟩
  · decide
  · decide

theorem apart_of_mayCloseBefore (h : mayCloseBefore c) : isReferenceChar c = false ∧ c ≠ '[' := by
  simp only [mayCloseBefore, Bool.or_eq_true, beq_iff_eq] at h
  rcases h with (outside | rfl) | rfl
  · exact ⟨(apart_of_isBlank_or outside).1, (apart_of_isBlank_or outside).2.1⟩
  · decide
  · decide

theorem BracketsFree.bracketApart (h : BracketsFree a b) : bracketApart a b := by
  have opening : (b == '[' && (isReferenceChar a || a == ']')) = false := by
    by_cases here : b = '['
    · obtain ⟨noReference, other⟩ := apart_of_mayOpenBehind (h.1 here)
      simp [noReference, other]
    · simp [here]
  have closing : (a == ']' && (isReferenceChar b || b == '[')) = false := by
    by_cases here : a = ']'
    · obtain ⟨noReference, other⟩ := apart_of_mayCloseBefore (h.2 here)
      simp [noReference, other]
    · simp [here]
  simp [PolicyRules.bracketApart, opening, closing]

/-- Brackets are apart where there are none. -/
theorem isChain_of_no_bracket {w : Text} (h : ∀ c ∈ w, c ≠ '[' ∧ c ≠ ']') :
    w.IsChain BracketsFree := by
  induction w with
  | nil => exact .nil
  | cons c cs ih =>
    obtain ⟨here, later⟩ := List.forall_mem_cons.mp h
    refine List.isChain_cons.mpr ⟨fun d head => ⟨fun same => ?_, fun same => absurd same here.2⟩,
      ih later⟩
    exact absurd same (later d (List.mem_of_mem_head? head)).1

theorem no_bracket_stringToken (n : Nat) : ∀ c ∈ stringToken n, c ≠ '[' ∧ c ≠ ']' := by
  intro c member
  rcases List.mem_append.mp member with letter | digit
  · have letters : "q:".toList.all fun c => c != '[' && c != ']' := by decide
    simpa using List.all_eq_true.mp letters c letter
  · have isDigit := isDigit_of_mem_ofNat digit
    constructor <;> (rintro rfl; cases isDigit)

/-- The token of a string may stand wherever a quoted string does. -/
theorem isChain_masked_from {s : Split Quotation} (proper : ∀ q ∈ s.marks, q.Proper) (start : Nat)
    (h : (s.render Quotation.text).IsChain BracketsFree) :
    (s.head ++ (s.tail.zipIdx start).flatMap fun entry => stringToken entry.2 ++ entry.1.2).IsChain
      BracketsFree := by
  obtain ⟨head, tail⟩ := s
  induction tail generalizing head start with
  | nil => simpa [Split.render] using h
  | cons piece tail ih =>
    obtain ⟨q, next⟩ := piece
    obtain ⟨⟨isMark, -⟩, proper⟩ := List.forall_mem_cons.mp proper
    have outside : mayOpenBehind q.mark = false ∧ mayCloseBefore q.mark = false := by
      rcases isQuoteMark_iff.mp isMark with same | same <;> rw [same] <;> decide
    have whole : (head ++ (q.mark :: q.body ++ [q.mark]) ++ Split.render Quotation.text ⟨next,
      tail⟩).IsChain BracketsFree := by
      simpa [Split.render, Quotation.text] using h
    obtain ⟨first, rest, behind⟩ := List.isChain_append.mp whole
    obtain ⟨first, -, before⟩ := List.isChain_append.mp first
    have later := ih (start + 1) next proper rest
    rw [List.zipIdx_cons, List.flatMap_cons, List.append_assoc]
    refine List.isChain_append.mpr
      ⟨first, List.isChain_append.mpr ⟨isChain_of_no_bracket (no_bracket_stringToken start), later,
        fun x last y head => ?_⟩, fun x last y head => ?_⟩
    · -- A bracket that opens behind the token would open behind the string.
      refine ⟨fun same => ?_,
        fun same => absurd same (no_bracket_stringToken start x (List.mem_of_getLast? last)).2⟩
      subst same
      cases next with
      | cons c cs =>
        obtain rfl : c = '[' := Option.some.inj head
        have free := behind q.mark (by rw [← List.append_assoc, List.getLast?_concat]; rfl) '[' rfl
        exact absurd (free.1 rfl) (by simp [outside.1])
      | nil =>
        cases tail <;> cases head
    · obtain rfl : 'q' = y := Option.some.inj head
      refine ⟨fun same => absurd same (by decide), fun same => ?_⟩
      have free := before x last q.mark rfl
      exact absurd (free.2 same) (by simp [outside.2])

end Masking

namespace Text.IsPlain

variable {t : Text}

/-- Masking strings keeps square brackets apart. -/
theorem isChain_masked (h : t.IsPlain) : (SetAside.maskStrings {} t).1.IsChain BracketsFree := by
  have proper : ∀ q ∈ t.segments.marks, q.Proper := fun q => proper_of_mem_segments
  have masked := isChain_masked_from proper 0 (by rw [render_segments]; exact h.brackets)
  simpa [SetAside.maskStrings, Split.renderNumbered] using masked

theorem bracketsApart (h : t.IsPlain) :
    ∀ piece ∈ ((SetAside.maskStrings {} t).1.split keywordAt).plain, BracketsApart piece := by
  intro piece member
  have inside := (Split.scans measured_keywordAt none (SetAside.maskStrings {} t).1).isInfix member
  have chain := h.isChain_masked.infix inside
  exact chain.imp fun _ _ => BracketsFree.bracketApart

/-- A plain text with an unclosed quotation mark has no tree. -/
theorem quoteFree_masked (h : t.IsPlain) {s s' : SetAside} {e : Expr} (noStrings : s.strings = [])
    (keyed : Keyed s.subexpressions) (earlier : ∀ entry ∈ s.subexpressions, entry.2.Tokenised)
    (built : SetAside.build t s = .ok e s') : QuoteFree (SetAside.maskStrings {} t).1 :=
  SetAside.quoteFree_masked_of_build noStrings keyed earlier h.unnumbered h.bracketsApart built

end Text.IsPlain

end PolicyRules
