import PolicyRules.Proofs.Writings

/-!
# Leaf expressions with open places

A leaf expression that is written in two ways has like lexemes (`Written.readAlike`): tokens of
subexpressions are names in both, strings are strings in both, and all else is the same. So operands
that are written from one list of glyphs are read in step (`inStep_parseOperand`).
-/

namespace PolicyRules

variable {x : Lexeme} {c : Char} {expecting : Expecting} {t t' : Text}

section Lexemes

variable {expecting : Expecting} {t : Text}

theorem readLexemes_lexeme (fits : x.FitsAt expecting)
    (found : expecting.lexeme? (x.text ++ t) = some x) (position : Nat) :
    readLexemes 0 position expecting (x.text ++ t) =
      ⟨(position, x) :: (readLexemes 0 (position + x.text.length) (expecting.after x) t).found,
        (readLexemes 0 (position + x.text.length) (expecting.after x) t).stopped⟩ := by
  obtain ⟨c, cs, text_eq, notLayout⟩ := fits.head
  rw [text_eq, List.cons_append] at found ⊢
  rw [readLexemes, if_neg (by simp [notLayout]), found]
  simp only [text_eq, List.length_cons, Nat.add_sub_cancel, readLexemes_skip, Nat.add_assoc,
    Nat.add_comm 1]

theorem readLexemes_stopped (notLayout : isLayout c = false)
    (none : expecting.lexeme? (c :: t) = none) (position : Nat) :
    readLexemes 0 position expecting (c :: t) = ⟨[], some position⟩ := by
  rw [readLexemes, if_neg (by simp [notLayout]), none]

/-- Behind an operand nothing begins with a character that is no sign. -/
theorem lexeme?_operator_eq_none (other : c ∉ "=!<>+-*/|)".toList) (updatable : Bool) (t : Text) :
    Expecting.lexeme? (.operator updatable) (c :: t) = none := by
  have begins : (updateSigns.all fun sign => "=!<>+-*/|)".toList.any fun d => sign.text.head? ==
      some d) := by decide
  have nothing : ∀ list ⊆ updateSigns, (list.find? fun sign => Text.startsWith sign.text (c :: t)) =
      none := by
    intro list listed
    refine List.find?_eq_none.mpr fun sign member starts => ?_
    obtain ⟨d, isSign, head⟩ :=
      List.any_eq_true.mp (List.all_eq_true.mp begins sign (listed member))
    obtain ⟨ds, text_eq⟩ : ∃ ds, sign.text = d :: ds :=
      ⟨sign.text.tail, List.eq_cons_of_mem_head? (eq_of_beq head)⟩
    rw [text_eq, Text.startsWith_iff_isPrefix, List.cons_prefix_cons] at starts
    exact other (starts.1 ▸ isSign)
  cases updatable with
  | false => exact nothing signs (List.subset_append_right _ _)
  | true => exact nothing updateSigns (List.Subset.refl _)

theorem isLayout_eq_false_of_isQuoteMark (h : isQuoteMark c) : isLayout c = false := by
  rcases isQuoteMark_iff.mp h with rfl | rfl <;> decide

end Lexemes

/-- Whether two readings have like lexemes and both stop short or neither does. -/
structure LikeLexemes (names strings : Text → Text → Prop) (a b : Lexemes) : Prop where
  found : List.Forall₂ (fun x y => x.2.Like names strings y.2) a.found b.found
  stopped : a.stopped.isSome = b.stopped.isSome

/-- Whether two names are the same and without words to be avoided, or stand for one
subexpression. -/
inductive LikeNames (bound : Nat) (avoided : Text → Prop) (ω ω' : Writing) : Text → Text → Prop
  | same {w : Text} (avoids : ∀ u, avoided u → ¬ u <:+: w) : LikeNames bound avoided ω ω' w w
  | part {n : Nat} (lt : n < bound) :
    LikeNames bound avoided ω ω' (ω.glyph (.part n)) (ω'.glyph (.part n))

/-- Whether two strings stand for one place. -/
inductive LikeStrings (count : Nat) (ω ω' : Writing) : Text → Text → Prop
  | string {n : Nat} (lt : n < count) :
    LikeStrings count ω ω' (ω.glyph (.string n)) (ω'.glyph (.string n))

namespace LikeLexemes

variable {names strings : Text → Text → Prop}

theorem lexeme {x' : Lexeme} (like : x.Like names strings x')
    (fits : x.FitsAt expecting) (fits' : x'.FitsAt expecting)
    (found : expecting.lexeme? (x.text ++ t) = some x)
    (found' : expecting.lexeme? (x'.text ++ t') = some x') (next : ∀ expecting position position',
      LikeLexemes names strings (readLexemes 0 position expecting t)
      (readLexemes 0 position' expecting t')) (position position' : Nat) :
    LikeLexemes names strings (readLexemes 0 position expecting (x.text ++ t))
      (readLexemes 0 position' expecting (x'.text ++ t')) := by
  have after : expecting.after x = expecting.after x' := by cases like <;> rfl
  rw [readLexemes_lexeme fits found, readLexemes_lexeme fits' found', after]
  obtain ⟨found, stopped⟩ :=
    next (expecting.after x') (position + x.text.length) (position' + x'.text.length)
  exact ⟨.cons like found, stopped⟩

theorem refused {c' : Char} (notLayout : isLayout c = false)
    (notLayout' : isLayout c' = false) (nothing : expecting.lexeme? (c :: t) = none)
    (nothing' : expecting.lexeme? (c' :: t') = none) (position position' : Nat) :
    LikeLexemes names strings (readLexemes 0 position expecting (c :: t))
      (readLexemes 0 position' expecting (c' :: t')) := by
  rw [readLexemes_stopped notLayout nothing, readLexemes_stopped notLayout' nothing']
  exact ⟨.nil, rfl⟩

end LikeLexemes

namespace Written

variable {count bound : Nat} {avoided : Text → Prop} {gs : List Glyph} {ω ω' : Writing}

/-- Whether a list of glyphs has like lexemes in two writings, wherever it is read. -/
def ReadAlike (count bound : Nat) (avoided : Text → Prop) (ω ω' : Writing) (gs : List Glyph) :
    Prop :=
  ∀ expecting position position', LikeLexemes (LikeNames bound avoided ω ω')
    (LikeStrings count ω ω') (readLexemes 0 position expecting (ω.text gs))
    (readLexemes 0 position' expecting (ω'.text gs))

theorem readAlike_part {n : Nat} (h : Written count bound avoided (.part n :: gs))
    (inert : ω.Inert count) (inert' : ω'.Inert count)
    (next : ReadAlike count bound avoided ω ω' gs) :
    ReadAlike count bound avoided ω ω' (.part n :: gs) := by
  intro expecting position position'
  have name : ∀ ω : Writing, ω.Inert count → Lexeme.FitsAt expecting (.name (ω.glyph (.part n))) →
      expecting.lexeme? (ω.glyph (.part n) ++ ω.text gs) = some (.name (ω.glyph (.part n))) := by
    intro ω inert fits
    have cut := subexpressionToken_cut (ω.parts + n) (h.isReferenceChar_head inert rfl)
    have alone := lexeme?_append (t := []) fits (.inr fun c head => by cases head)
    rw [List.append_nil] at alone
    exact (cut.lexeme?_append (c := 'P') rfl (by decide) expecting).trans alone
  by_cases fits : ∀ w, IsName w → Lexeme.FitsAt expecting (.name w)
  · have here := fits _ (isName_subexpressionToken (ω.parts + n))
    have here' := fits _ (isName_subexpressionToken (ω'.parts + n))
    exact .lexeme (.name (.part (h.part_lt n (by simp)))) here here' (name ω inert here)
      (name ω' inert' here') next _ _
  · cases expecting with
    | operand first | tracker => exact absurd (fun _ isName => isName) fits
    | operator updatable =>
      have nothing : ∀ t, Expecting.lexeme? (.operator updatable) ('P' :: t) = none :=
        lexeme?_operator_eq_none (by decide) updatable
      exact .refused (by decide) (by decide) (nothing _) (nothing _) _ _

theorem readAlike_string {n : Nat} (lt : n < count) (inert : ω.Inert count)
    (inert' : ω'.Inert count) (next : ReadAlike count bound avoided ω ω' gs) :
    ReadAlike count bound avoided ω ω' (.string n :: gs) := by
  intro expecting position position'
  have quoted := inert.quoted _ (exists_string inert lt)
  have quoted' := inert'.quoted _ (exists_string inert' lt)
  have refused : (∀ c t, isQuoteMark c → expecting.lexeme? (c :: t) = none) →
      LikeLexemes (LikeNames bound avoided ω ω') (LikeStrings count ω ω')
        (readLexemes 0 position expecting (ω.glyph (.string n) ++ ω.text gs))
        (readLexemes 0 position' expecting (ω'.glyph (.string n) ++ ω'.text gs)) := by
    intro nothing
    obtain ⟨mark, body, same, isMark⟩ := exists_marks quoted
    obtain ⟨mark', body', same', isMark'⟩ := exists_marks quoted'
    rw [same, same']
    exact .refused (isLayout_eq_false_of_isQuoteMark isMark)
      (isLayout_eq_false_of_isQuoteMark isMark') (nothing _ _ isMark) (nothing _ _ isMark') _ _
  cases expecting with
  | operand first =>
    have fits : Lexeme.FitsAt (.operand first) (.string (ω.glyph (.string n))) := quoted
    have fits' : Lexeme.FitsAt (.operand first) (.string (ω'.glyph (.string n))) := quoted'
    exact .lexeme (.string (.string lt)) fits fits' (lexeme?_string quoted first _)
      (lexeme?_string quoted' first _) next _ _
  | tracker =>
    refine refused fun c t isMark => ?_
    have noName : isNameStart c = false := by
      rcases isQuoteMark_iff.mp isMark with rfl | rfl <;> decide
    simp [Expecting.lexeme?, nameLexeme?_cons_eq_none noName]
  | operator updatable =>
    refine refused fun c t isMark => lexeme?_operator_eq_none ?_ _ _
    rcases isQuoteMark_iff.mp isMark with rfl | rfl <;> decide

/-- A lexeme that is written in characters is the same in every writing. -/
theorem like_of_lexeme? {u : Text} {place : List Glyph}
    (h : Written count bound avoided (u.map .char ++ place))
    (found : expecting.lexeme? u = some x) :
    x.Like (LikeNames bound avoided ω ω') (LikeStrings count ω ω') x := by
  obtain ⟨fits, us, rfl⟩ := lexeme?_sound found
  cases x with
  | name w =>
    refine .name (.same fun v listed inside => h.avoids v listed ?_)
    have within : w <:+: w ++ us := (List.prefix_append _ _).isInfix
    exact ((inside.trans within).map Glyph.char).trans (List.prefix_append _ _).isInfix
  | number w => exact .number w
  | string w =>
    obtain ⟨mark, body, rfl, isMark⟩ := exists_marks (w := w) fits.isWord
    exact absurd (h.quoteFree mark (by simp [Lexeme.text])) (by simp [isMark])
  | operator op => exact .operator op
  | update op => exact .update op
  | bar => exact .bar
  | leftParen => exact .leftParen
  | rightParen => exact .rightParen

/-- A leaf expression has like lexemes whatever the writing is. -/
theorem readAlike (h : Written count bound avoided gs) (noKeyword : ∀ n, .keyword n ∉ gs)
    (inert : ω.Inert count) (inert' : ω'.Inert count) : ReadAlike count bound avoided ω ω' gs := by
  induction length : gs.length using Nat.strongRecOn generalizing gs with
  | ind size ih =>
    have later : ∀ rest, rest <:+: gs → rest.length < gs.length →
        ReadAlike count bound avoided ω ω' rest := by
      intro rest inside shorter
      exact ih rest.length (length ▸ shorter) (h.of_isInfix inside)
        (fun n member => noKeyword n (inside.subset member)) rfl
    cases gs with
    | nil => exact fun _ _ _ => ⟨.nil, rfl⟩
    | cons g rest =>
      have next := later rest (List.suffix_cons _ _).isInfix (by simp)
      cases g with
      | keyword n => exact absurd (by simp) (noKeyword n)
      | part n => exact h.readAlike_part inert inert' next
      | string n => exact readAlike_string (h.string_lt n (by simp)) inert inert' next
      | char c =>
        intro expecting position position'
        by_cases layout : isLayout c
        · simp only [Writing.text_cons, Writing.glyph_char, List.singleton_append, readLexemes,
            if_pos layout]
          exact next _ _ _
        · obtain ⟨u, place, begins, whole, stop⟩ := exists_lead_cons c rest
          have plain : isQuoteMark c = false := h.quoteFree c (by simp)
          rw [whole] at h later ⊢
          have reads : ∀ ω : Writing,
              ω.Inert count → expecting.lexeme? (u ++ ω.text place) = expecting.lexeme? u :=
            fun ω inert => (h.cut inert stop).lexeme?_append begins plain expecting
          simp only [Writing.text_append, Writing.text_map_char]
          cases found : expecting.lexeme? u with
          | none =>
            obtain ⟨us, rfl⟩ : ∃ us, u = c :: us := ⟨u.tail, List.eq_cons_of_mem_head? begins⟩
            have other : isLayout c = false := by simpa using layout
            exact .refused other other ((reads ω inert).trans found)
              ((reads ω' inert').trans found) _ _
          | some x =>
            have like : x.Like (LikeNames bound avoided ω ω') (LikeStrings count ω ω') x :=
              h.like_of_lexeme? found
            obtain ⟨fits, us, rfl⟩ := lexeme?_sound found
            obtain ⟨d, ds, text_eq, -⟩ := fits.head
            have later := later (us.map .char ++ place) ⟨x.text.map .char, [], by simp⟩ (by
              simp only [text_eq, List.length_append, List.length_map, List.length_cons]
              omega)
            simp only [ReadAlike, Writing.text_append, Writing.text_map_char] at later
            rw [found] at reads
            simp only [List.append_assoc] at reads ⊢
            exact .lexeme like fits fits (reads ω inert) (reads ω' inert') later _ _

end Written

theorem quiet_keywordWordAt_of_tokenAt {previous : Option Char}
    (h : Quiet keywordTokenAt previous t []) : Quiet keywordWordAt previous t [] := by
  induction t generalizing previous with
  | nil => trivial
  | cons c cs ih =>
    obtain ⟨here, later⟩ := h
    refine ⟨?_, ih later⟩
    rw [List.append_nil] at here ⊢
    cases blank : isBlank c with
    | true =>
      have other : 'P' ≠ c := by
        rintro rfl
        cases blank
      simp [keywordWordAt, Text.dropStart?, other]
    | false =>
      rw [keywordTokenAt_of_not_blank blank] at here
      exact Option.map_eq_none_iff.mp here

/-- A text is not cut at tokens of keywords, if and only if none stands in it as a word. -/
theorem isEmpty_tail_keywordTokenAt_iff :
    (t.split keywordTokenAt).tail.isEmpty ↔ Quiet keywordWordAt none t [] := by
  rw [List.isEmpty_iff]
  constructor
  · exact fun none => quiet_keywordWordAt_of_tokenAt (Split.quiet_of_scan none)
  · intro quiet
    rw [Text.split, Split.scan_of_quiet (quiet_keywordTokenAt quiet)]

section Operands

variable {count bound : Nat} {avoided : Text → Prop} {ω ω' : Writing} {ordinals : Int → Int → Prop}
  {literals : Literal → Literal → Prop} {s s' : SetAside}

/-- Operands that are written from one list of glyphs are read in step. -/
theorem inStep_parseOperand (plain : ∀ u, avoided u → u ≠ [] ∧ '(' ∉ u ∧ ')' ∉ u)
    (inert : ω.Inert count) (inert' : ω'.Inert count) (strings : s.strings = ω.strings)
    (strings' : s'.strings = ω'.strings) (groups : List.Forall₂
      (Rewritten ω ω' fun gs => Written count bound avoided gs ∧ ∀ n, .string n ∉ gs) s.groups
        s'.groups) (meanings : LikeMeanings (LikeNames bound avoided ω ω') (LikeStrings count ω ω')
      ordinals literals s.subexpressions s'.subexpressions)
    (related : Rewritten ω ω' (fun gs => Written count bound avoided gs ∧ ∀ n, .string n ∉ gs) t
      t') : InStep (Expr.Alike ordinals literals) (s.parseOperand t) (s'.parseOperand t') := by
  have expanded := inStep_expandWithin plain inert inert' strings strings' groups s.depth related
  have depth_eq : s'.depth = s.depth := by rw [SetAside.depth, SetAside.depth, groups.length_eq]
  unfold SetAside.parseOperand
  rw [SetAside.expand, SetAside.expand, depth_eq]
  apply expanded.bind
  rintro leaf leaf' ⟨gs, written, rfl, rfl⟩
  by_cases quiet : Quiet keywordWordAt none (ω.text gs) []
  · obtain ⟨quiet', noKeyword⟩ :=
      written.quiet_keywordWordAt inert inert' rfl (fun _ _ _ => rfl) quiet
    rw [if_pos (isEmpty_tail_keywordTokenAt_iff.mpr quiet),
      if_pos (isEmpty_tail_keywordTokenAt_iff.mpr quiet')]
    obtain ⟨found, stopped⟩ := written.readAlike noKeyword inert inert' (.operand true) 0 0
    have phrases := inStep_ofText found stopped
    unfold parseLeaf
    generalize Phrase.ofText (ω.text gs) = phrase at phrases
    generalize Phrase.ofText (ω'.text gs) = phrase' at phrases
    cases phrases with
    | ok like => exact like.inStep_toExpr meanings
    | error _ _ => exact .error _ _
  · have quiet' : ¬ Quiet keywordWordAt none (ω'.text gs) [] := fun quiet' =>
      quiet (written.quiet_keywordWordAt inert' inert rfl (fun _ _ _ => rfl) quiet').1
    rw [if_neg (mt isEmpty_tail_keywordTokenAt_iff.mp quiet),
      if_neg (mt isEmpty_tail_keywordTokenAt_iff.mp quiet')]
    exact .error _ _

end Operands

end PolicyRules
