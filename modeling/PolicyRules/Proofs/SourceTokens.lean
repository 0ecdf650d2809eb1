import PolicyRules.Proofs.Atoms
import PolicyRules.Proofs.TreeFailures

/-!
# The tokens of a text

The tokens of a text are its quoted segments, names, numbers, signs and logical keywords, from left
to right and each as long as it can be. Brackets, bars and blanks are dropped, and any other
character is a token of its own. A logical keyword is never a part of a name.

Main statements: `Text.atoms_eq_plainTokens` for a text without numbered tokens,
`Text.staysOpen_tokens` for the quotation marks of a text that are not closed.
-/

namespace PolicyRules

section Tokens

/-- The word characters at the beginning of a text. -/
def plainRun (t : Text) : Text := t.takeWhile isWordChar

/-- Recognises the tokens of a text without quoted segments. -/
def wordAt : Recogniser Text
  | _, [] => none
  | _, c :: cs =>
    if isDropped c then none
    else some (wordWith plainRun isKeyword (c :: cs),
      (wordWith plainRun isKeyword (c :: cs)).length)

/-- The tokens of a text without quoted segments. -/
def Text.plainTokens (t : Text) : List Text := (t.split wordAt).marks

/-- The tokens of a text that is cut at its quoted segments. -/
def Split.tokens (s : Split Quotation) : List Text :=
  s.head.plainTokens ++ s.tail.flatMap fun piece => piece.1.text :: piece.2.plainTokens

/-- The tokens of a text, from left to right. -/
def Text.tokens (t : Text) : List Text := t.segments.tokens

/-- The tokens of an expression, in the order in which they are written. -/
def Expr.tokens : Expr → List Text
  | .hole => []
  | .literal value => [value.text]
  | .name text => [text]
  | .mapped key tracker => key.tokens ++ [tracker]
  | .binary op left right => left.tokens ++ op.text :: right.tokens
  | .logical op _ left right => left.tokens ++ op.text :: right.tokens
  | .negation _ operand => Keyword.not.text :: operand.tokens
  | .update op tracker value => tracker :: op.text :: value.tokens
  | .updateMapped op key tracker value => key.tokens ++ tracker :: op.text :: value.tokens

end Tokens

section Unnumbered

variable {t u w : Text}

/-- Whether a text has no numbered tokens. -/
structure Text.Unnumbered (t : Text) : Prop where
  tokens : ∀ kind : TokenKind, hasNumbered kind.start t = false
  parts : hasNumbered "PLH".toList t = false

theorem Text.Unnumbered.of_isInfix (h : t.Unnumbered) (inside : u <:+: t) : u.Unnumbered :=
  ⟨fun kind => hasNumbered_of_isInfix (h.tokens kind) inside, hasNumbered_of_isInfix h.parts inside⟩

theorem digitsBehind?_eq_none {start : Text} (h : hasNumbered start w = false) :
    digitsBehind? start w = none := by
  cases found : digitsBehind? start w with
  | none => rfl
  | some digits =>
    obtain ⟨rfl, nonempty, all⟩ := digitsBehind?_eq_some found
    obtain ⟨d, ds, rfl⟩ := List.exists_cons_of_ne_nil nonempty
    exact absurd ⟨[], ds, by simp⟩ (not_infix_of_hasNumbered h (all d (by simp)))

namespace Text.Unnumbered

theorem tokenAt?_eq_none (h : t.Unnumbered) : tokenAt? t = none := by
  cases found : tokenAt? t with
  | none => rfl
  | some entry =>
    obtain ⟨letter, digits, numbered, either⟩ := tokenAt?_eq_some found
    obtain ⟨d, rest, rfl, digit⟩ := numberedAt_eq_some numbered
    rcases either with ⟨rfl, -⟩ | ⟨rfl, -⟩
    · exact absurd ⟨[], rest, rfl⟩ (not_infix_of_hasNumbered (h.tokens .group) digit)
    · exact absurd ⟨[], rest, rfl⟩ (not_infix_of_hasNumbered (h.tokens .string) digit)

theorem wordRun_eq (h : t.Unnumbered) : wordRun t = plainRun t := by
  induction t with
  | nil => rfl
  | cons c cs ih =>
    rw [wordRun, h.tokenAt?_eq_none, ih (h.of_isInfix (List.suffix_cons c cs).isInfix)]
    simp only [plainRun, List.takeWhile_cons]
    cases isWordChar c <;> rfl

theorem isAlone_eq (h : w.Unnumbered) : isAlone w = isKeyword w := by
  have noToken : digitsBehind? "PLA".toList w = none := digitsBehind?_eq_none (h.tokens .keyword)
  simp only [isAlone, noToken, Option.isSome_none, Bool.or_false]

theorem ofWord_eq (h : w.Unnumbered) : Atom.ofWord w = .plain w := by
  have noToken : digitsBehind? "PLA".toList w = none := digitsBehind?_eq_none (h.tokens .keyword)
  rw [Atom.ofWord, noToken, digitsBehind?_eq_none h.parts]

theorem wordWith_eq (h : t.Unnumbered) :
    wordWith wordRun isAlone t = wordWith plainRun isKeyword t := by
  have first : (plainRun t).Unnumbered := h.of_isInfix (List.takeWhile_prefix _).isInfix
  rw [wordWith, wordWith, nameWord, nameWord, h.wordRun_eq]
  cases behind : t.drop (plainRun t).length with
  | nil => rfl
  | cons c rest =>
    have later : Text.Unnumbered rest := by
      refine h.of_isInfix (List.IsSuffix.isInfix ?_)
      exact (List.suffix_cons c rest).trans (behind ▸ List.drop_suffix _ t)
    have second : (plainRun rest).Unnumbered := later.of_isInfix (List.takeWhile_prefix _).isInfix
    simp only [later.wordRun_eq, first.isAlone_eq, second.isAlone_eq]

/-- Without numbered tokens, atoms are words. -/
theorem atomAt_eq (h : t.Unnumbered) (previous : Option Char) :
    atomAt previous t = (wordAt previous t).map fun found => (.plain found.1, found.2) := by
  cases t with
  | nil => rfl
  | cons c cs =>
    have inside : wordWith plainRun isKeyword (c :: cs) <+: c :: cs :=
      wordWith_isPrefix (fun t => List.takeWhile_prefix _) _ _
    rw [atomAt, wordAt, h.tokenAt?_eq_none, h.wordWith_eq, (h.of_isInfix inside.isInfix).ofWord_eq]
    split <;> rfl

end Text.Unnumbered

/-- Two recognisers that find the same marks, up to `f`, give the same marks, up to `f`. -/
theorem marks_scan_map {α β : Type} {recognise : Recogniser α} {recognise' : Recogniser β}
    {f : α → β}
    (same : ∀ previous v, v <:+ t → recognise' previous v = (recognise previous v).map fun found =>
      (f found.1, found.2)) (skip : Nat) (previous : Option Char) :
    (Split.scan recognise' skip previous t).marks =
      (Split.scan recognise skip previous t).marks.map f := by
  induction t generalizing skip previous with
  | nil => cases skip <;> rfl
  | cons c cs ih =>
    have later := ih fun p v suffix => same p v (suffix.trans (List.suffix_cons c cs))
    cases skip with
    | succ skip => exact later skip (some c)
    | zero =>
      rw [Split.scan, Split.scan, same previous (c :: cs) (List.suffix_refl _)]
      cases found : recognise previous (c :: cs) with
      | none => exact later 0 (some c)
      | some entry => exact congrArg (f entry.1 :: ·) (later (entry.2 - 1) (some c))

/-- The atoms of a text without numbered tokens are its tokens. -/
theorem Text.atoms_eq_plainTokens (h : t.Unnumbered) : t.atoms = t.plainTokens.map .plain :=
  marks_scan_map (fun previous _ suffix => (h.of_isInfix suffix.isInfix).atomAt_eq previous) 0 none

end Unnumbered

section Quotes

variable {t u : Text}

theorem Split.flatten_marks_sublist (s : Split Text) : s.marks.flatten.Sublist (s.render id) := by
  obtain ⟨head, tail⟩ := s
  have pieces : (tail.map (·.1)).flatten.Sublist
      (tail.flatMap fun piece => piece.1 ++ piece.2) := by
    induction tail with
    | nil => exact .slnil
    | cons piece tail ih => simpa using (List.sublist_append_left piece.1 piece.2).append ih
  exact pieces.trans (List.sublist_append_right head _)

/-- The tokens of a text without quoted segments are parts of it, in its order. -/
theorem Text.flatten_plainTokens_sublist (t : Text) : t.plainTokens.flatten.Sublist t := by
  have written : ∀ previous t w width, wordAt previous t = some (w, width) →
      0 < width ∧ id w = t.take width := by
    intro previous t w width found
    cases t with
    | nil => cases found
    | cons c cs =>
      rw [wordAt] at found
      split at found
      · cases found
      · obtain ⟨rfl, rfl⟩ := Prod.mk.inj (Option.some.inj found)
        refine ⟨List.length_pos_of_ne_nil (wordWith_ne_nil (by simp)), ?_⟩
        exact List.prefix_iff_eq_take.mp (wordWith_isPrefix (fun t => List.takeWhile_prefix _) _ _)
  have whole := Split.flatten_marks_sublist (t.split wordAt)
  rwa [Split.render_split wordAt id written] at whole

theorem Split.mem_render_of_mem_tokens {s : Split Quotation} {w : Text} {c : Char}
    (listed : w ∈ s.tokens) (member : c ∈ w) : c ∈ s.render Quotation.text := by
  have inside : ∀ {u : Text}, w ∈ u.plainTokens → c ∈ u := fun {u} found =>
    u.flatten_plainTokens_sublist.subset (List.mem_flatten.mpr ⟨w, found, member⟩)
  rw [Split.render]
  rcases List.mem_append.mp listed with first | later
  · exact List.mem_append_left _ (inside first)
  · obtain ⟨piece, isPiece, found⟩ := List.mem_flatMap.mp later
    refine List.mem_append_right _ (List.mem_flatMap.mpr ⟨piece, isPiece, ?_⟩)
    rcases List.mem_cons.mp found with rfl | plain
    · exact List.mem_append_left _ member
    · exact List.mem_append_right _ (inside plain)

/-- Whether a quotation mark that is a token of its own occurs in no later token. -/
def StaysOpen (ws : List Text) : Prop :=
  ws.Pairwise fun a b => ∀ c, isQuoteMark c → a = [c] → c ∉ b

theorem staysOpen_of_nodup {ws : List Text} (h : (ws.flatten.filter isQuoteMark).Nodup) :
    StaysOpen ws := by
  induction ws with
  | nil => exact .nil
  | cons w ws ih =>
    rw [List.flatten_cons, List.filter_append] at h
    refine .cons (fun b listed c mark same member => ?_) (ih (List.nodup_append.mp h).2.1)
    subst same
    refine (List.nodup_append.mp h).2.2 c (by simp [mark]) c ?_ rfl
    exact List.mem_filter.mpr ⟨List.mem_flatten.mpr ⟨b, listed, member⟩, mark⟩

/-- The tokens of a text without quoted segments, if no quotation mark occurs twice. -/
theorem Text.staysOpen_plainTokens (t : Text) (distinct : (t.filter isQuoteMark).Nodup) :
    StaysOpen t.plainTokens :=
  staysOpen_of_nodup (distinct.sublist (t.flatten_plainTokens_sublist.filter _))

/-- A quotation mark that opens no quoted segment occurs in no later token of the text. -/
theorem Text.staysOpen_tokens (t : Text) : StaysOpen t.tokens := by
  have scanned := Split.scans measured_quotationAt none t
  change Scans quotationAt none t t.segments at scanned
  rw [Text.tokens]
  generalize t.segments = s at scanned
  generalize (none : Option Char) = previous at scanned
  induction scanned with
  | @text previous t quiet =>
    simpa [Split.tokens] using t.staysOpen_plainTokens (unclosed_of_quiet quiet).1
  | @mark previous u w t next q tail quiet nonempty found rest ih =>
    obtain ⟨distinct, apart⟩ := unclosed_of_quiet quiet
    have whole : q.text = w := by
      have taken := (quotationAt_width found).2
      rwa [List.take_left] at taken
    have split : (⟨u, (q, next) :: tail⟩ : Split Quotation).tokens = u.plainTokens ++ q.text ::
        (⟨next, tail⟩ : Split Quotation).tokens := by
      simp [Split.tokens]
    rw [split]
    refine List.pairwise_append.mpr
      ⟨u.staysOpen_plainTokens distinct, .cons (fun b _ c _ same => ?_) ih,
        fun a inFirst b later c mark same member => ?_⟩
    · simp [Quotation.text] at same
    · subst same
      have inText : c ∈ u :=
        u.flatten_plainTokens_sublist.subset (List.mem_flatten.mpr ⟨[c], inFirst, by simp⟩)
      refine apart c (List.mem_filter.mpr ⟨inText, mark⟩) ?_
      rcases List.mem_cons.mp later with rfl | later
      · exact List.mem_append_left _ (whole ▸ member)
      · refine List.mem_append_right _ ?_
        rw [← rest.render_eq]
        exact Split.mem_render_of_mem_tokens later member

end Quotes

end PolicyRules
