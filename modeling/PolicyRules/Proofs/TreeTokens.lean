import PolicyRules.Proofs.LeafTokens
import PolicyRules.Proofs.RoundTrip

/-!
# The tokens of a tree

A tree that is built from a text has the tokens of the text, in its order, if the text is separable:
it has no numbered tokens of its own, no string in it is directly followed by a digit, and its
square brackets stand apart from names and strings and from each other.

Main statement: `SetAside.tokens_build`.
-/

namespace PolicyRules

variable {strings : List Text} {keywords : List Keyword} {groups parts : List Text}
  {tokens : List Text}

/-- Whether the tokens that stand for parts of a text do not run together with what stands around
them. -/
structure Text.Separable (t : Text) : Prop where
  free : t.FreeOfTokens
  parts : hasNumbered "PLH".toList t = false
  brackets : ∀ piece ∈ ((SetAside.maskStrings {} t).1.split keywordAt).plain, BracketsApart piece

section Levels

theorem Reads.strip_parts {xs : List Atom} (h : Reads strings keywords groups parts xs tokens) :
    Reads strings keywords groups (parts.map Text.strip) xs tokens := by
  induction h with
  | nil => exact .nil
  | plain _ ih => exact .plain ih
  | string found _ ih => exact .string found ih
  | keyword found _ ih => exact .keyword found ih
  | group found marked _ _ inner ih => exact .group found marked inner ih
  | @part _ parts n p inner _ _ found marked _ _ inside ih =>
    have found' : (parts.map Text.strip)[n]? = some (Text.strip p) := by simp [found]
    refine .part found' (by rwa [keywordsFrom_strip]) ?_ ih
    rwa [Text.atoms_strip, ← List.map_take]

theorem Legible.of_groupToken {digits : Text} (nonempty : digits ≠ [])
    (all : ∀ d ∈ digits, isDecimalDigit d)
    (h : Legible strings keywords groups parts ('i' :: ':' :: digits) tokens) :
    ∃ n g, digits = Text.ofNat n ∧ groups[n]? = some g ∧
      Legible strings keywords groups parts g tokens := by
  have atoms :=
    Text.atoms_append_token (t := []) .group (by simp) nonempty all (by simp [EndsNumber]) []
  have reads := h.reads
  rw [List.nil_append, List.append_nil] at atoms
  rw [show 'i' :: ':' :: digits = TokenKind.group.start ++ digits from rfl, atoms] at reads
  cases reads with
  | @group _ _ n g inner _ _ found marked inside rest =>
    obtain rfl := rest.eq_nil
    exact ⟨n, g, rfl, found, by rwa [List.append_nil], marked⟩

namespace SetAside

variable {s s' : SetAside} {t : Text} {e : Expr}

/-- A level that is accepted has the tokens that it stands for. -/
theorem tokens_parseWithin (fillers : ∀ w ∈ s.strings, IsFiller w)
    (tabled : Tabled s.strings s.keywords parts s.subexpressions) {depth : Nat}
    (legible : Legible s.strings s.keywords s.groups parts t tokens) (opened : StaysOpen tokens)
    (h : s.parseWithin depth t = .ok e) : e.tokens = tokens := by
  induction depth generalizing t tokens e with
  | zero => cases h
  | succ depth ih =>
    rw [parseWithin_succ] at h
    obtain ⟨pieces, cutUp, read⟩ := bind_eq_ok_iff.mp h
    have each : ∀ text d e, Legible s.strings s.keywords s.groups parts text d ∧ StaysOpen d →
        s.operandWithin depth text = .ok e → e.tokens = d := by
      rintro text d e ⟨reads, stays⟩ parsed
      unfold operandWithin at parsed
      split at parsed
      · next digits token =>
        obtain ⟨rfl, nonempty, all⟩ := groupToken?_eq_some token
        obtain ⟨n, g, rfl, found, inside⟩ := reads.of_groupToken nonempty all
        obtain ⟨g', entry, parsed⟩ := bind_eq_ok_iff.mp parsed
        obtain rfl := Option.some.inj (found.symm.trans (getElem?_of_tokenEntry entry))
        exact ih inside stays parsed
      · exact tokens_parseOperand fillers tabled reads stays parsed
    have piecesRead := (piecesRead_of_legible legible cutUp).staysOpen opened
    cases pieces with
    | nil =>
      obtain ⟨_, _, thrown⟩ := bind_eq_ok_iff.mp read
      cases thrown
    | cons piece pieces => exact (tokens_readOperand each).1 none [] e tokens piecesRead read

theorem collapseGroups_fields (s : SetAside) (t : Text) :
    (s.collapseGroups t).2.strings = s.strings ∧
    (s.collapseGroups t).2.keywords = s.keywords ∧
      (s.collapseGroups t).2.subexpressions = s.subexpressions := by
  unfold collapseGroups
  split <;> exact ⟨rfl, rfl, rfl⟩

theorem legible_collapseGroups (legible : Legible s.strings s.keywords s.groups parts t tokens) :
    Legible s.strings s.keywords (s.collapseGroups t).2.groups parts (s.collapseGroups t).1
      tokens := by
  unfold collapseGroups
  split
  · next collapsed => exact legible_collapsed collapsed legible
  · exact legible

theorem tokens_buildLevel (fillers : ∀ w ∈ s.strings, IsFiller w)
    (tabled : Tabled s.strings s.keywords parts s.subexpressions)
    (legible : Legible s.strings s.keywords [] parts t tokens) (opened : StaysOpen tokens)
    (h : buildLevel t s = .ok e s') : e.tokens = tokens := by
  obtain ⟨rfl, parsed⟩ := buildLevel_eq_ok_iff.mp h
  obtain ⟨strings_eq, keywords_eq, table_eq⟩ := s.collapseGroups_fields t
  have collapsed := legible_collapseGroups (legible.more_groups s.groups)
  rw [← strings_eq, ← keywords_eq] at collapsed tabled
  rw [← table_eq] at tabled
  exact tokens_parseWithin (by rwa [strings_eq]) tabled collapsed opened parsed

/-- Building a subexpression adds it to the table. -/
theorem buildSubexpression_eq_ok {n : Nat} (h : buildSubexpression t n s = .ok () s') :
    ∃ e u, buildLevel t s = .ok e u ∧ s'.strings = s.strings ∧ s'.keywords = s.keywords ∧
      s'.subexpressions = Table.insert (subexpressionToken n) e s.subexpressions := by
  obtain ⟨e, u, level, rfl⟩ := buildSubexpression_eq_ok_iff.mp h
  obtain ⟨rfl, -⟩ := buildLevel_eq_ok_iff.mp level
  obtain ⟨strings_eq, keywords_eq, table_eq⟩ := s.collapseGroups_fields t
  exact ⟨e, _, level, strings_eq, keywords_eq, congrArg (Table.insert _ e) table_eq⟩

/-- The parts of a text are kept under their names, with the tokens that they stand for. -/
theorem tabled_of_forM (fillers : ∀ w ∈ s.strings, IsFiller w) {before later : List Text}
    (tabled : Tabled s.strings s.keywords before s.subexpressions) {n : Nat}
    (number : n = before.length)
    (h : (later.zipIdx n).forM (fun part : Text × Nat => buildSubexpression part.1 part.2)
      s = .ok () s') :
    s'.strings = s.strings ∧ s'.keywords = s.keywords ∧
      Tabled s.strings s.keywords (before ++ later) s'.subexpressions := by
  induction later generalizing s before n with
  | nil =>
    obtain ⟨-, rfl⟩ := Attempt.pure_eq_ok_iff.mp h
    simpa using tabled
  | cons part later ih =>
    subst number
    obtain ⟨_, u, built, rest⟩ := Attempt.bind_eq_ok_iff.mp h
    obtain ⟨e, v, level, strings_eq, keywords_eq, table_eq⟩ := buildSubexpression_eq_ok built
    have inserted : Tabled s.strings s.keywords (before ++ [part])
        (Table.insert (subexpressionToken before.length) e s.subexpressions) := by
      refine ⟨fun entry listed => ?_, fun n p inner listed legible opened => ?_⟩
      · rcases List.mem_append.mp listed with old | new
        · exact tabled.keyed entry old
        · exact ⟨before.length, by simpa using congrArg Prod.fst (List.mem_singleton.mp new)⟩
      · rw [List.getElem?_append] at listed
        split at listed
        · next lt =>
          rw [List.take_append_of_le_length lt.le] at legible
          rw [Table.value?_insert_of_ne (subexpressionToken_ne (by omega))]
          exact tabled.each n p inner listed legible opened
        · next outside =>
          obtain ⟨rfl, rfl⟩ : n = before.length ∧ p = part := by
            rw [List.getElem?_singleton, Option.ite_none_right_eq_some] at listed
            exact ⟨by omega, (Option.some.inj listed.2).symm⟩
          rw [List.take_left] at legible
          exact ⟨e, Table.value?_insert_self _ _ _,
            tokens_buildLevel fillers tabled legible opened level⟩
    rw [← table_eq, ← strings_eq, ← keywords_eq] at inserted
    obtain ⟨same, same', done⟩ :=
      ih (fun w member => fillers w (strings_eq ▸ member)) inserted (by simp) rest
    refine ⟨same.trans strings_eq, same'.trans keywords_eq, ?_⟩
    rw [← strings_eq, ← keywords_eq]
    simpa using done

end SetAside

end Levels

section Trees

theorem bracketsApart_renderNumbered {s : Split Keyword}
    (apart : ∀ piece ∈ s.plain, BracketsApart piece) (start : Nat) :
    BracketsApart (s.renderNumbered fun n => keywordToken (start + n)) := by
  have space : ∀ c, bracketApart c ' ' ∧ bracketApart ' ' c := fun c => by
    simp [bracketApart, show isReferenceChar ' ' = false by decide]
  have token : ∀ n, BracketsApart (keywordToken n) :=
    fun n => bracketsApart_of_forall fun c member => by
      rcases List.mem_append.mp member with start | last
      · rcases List.mem_append.mp start with letter | digit
        · have letters : " PLA".toList.all fun c => c != '[' && c != ']' := by decide
          simpa using List.all_eq_true.mp letters c letter
        · refine ⟨?_, ?_⟩ <;> rintro rfl <;> exact absurd (isDecimalDigit_of_mem_ofNat digit)
            (by decide)
      · obtain rfl := List.mem_singleton.mp last
        decide
  have join : ∀ {x y : Text} (n : Nat), BracketsApart x → BracketsApart y →
      BracketsApart (x ++ (keywordToken n ++ y)) := by
    intro x y n apartX apartY
    refine bracketsApart_append.mpr
      ⟨apartX, bracketsApart_append.mpr ⟨token n, apartY, fun a b last _ => ?_⟩,
        fun a b _ head => ?_⟩
    · obtain rfl : ' ' = a := by simpa [keywordToken, lastChar] using last
      exact (space b).2
    · obtain rfl : ' ' = b := Option.some.inj head
      exact (space a).1
  obtain ⟨head, tail⟩ := s
  suffices ∀ n, BracketsApart
      (head ++ (tail.zipIdx n).flatMap fun entry => keywordToken (start + entry.2) ++ entry.1.2) by
    simpa [Split.renderNumbered] using this 0
  intro n
  induction tail generalizing head n with
  | nil => simpa using apart head (by simp [Split.plain])
  | cons piece tail ih =>
    obtain ⟨first, later⟩ := List.forall_mem_cons.mp apart
    simpa using join (start + n) first (ih piece.2 later (n + 1))

namespace SetAside

variable {t : Text} {e : Expr} {s s' : SetAside}

/-- A tree has the tokens that its text stands for, whatever keywords and subexpressions have been
set aside before. -/
theorem tokens_build_of_reads (noStrings : s.strings = []) (keyed : Keyed s.subexpressions)
    (unnumbered : hasNumbered "q:".toList t = false)
    (apart : ∀ piece ∈ ((maskStrings {} t).1.split keywordAt).plain, BracketsApart piece)
    (reads : ∀ keywords, Reads (maskStrings {} t).2.strings keywords [] []
      (maskStrings {} t).1.atoms tokens)
    (opened : StaysOpen tokens) (h : build t s = .ok e s') : e.tokens = tokens := by
  obtain ⟨masked, s₁, marked, s₂, rest, parts, u, mask, -, mark, extract, built, level⟩ :=
    build_eq_ok_iff.mp h
  have start : s.maskStrings t =
      ((maskStrings {} t).1, { s with strings := (maskStrings {} t).2.strings }) := by
    simp [maskStrings, noStrings]
  rw [start] at mask
  obtain ⟨rfl, rfl⟩ := Prod.mk.inj mask
  have legible :=
    legible_marked
      (reads (markKeywords { s with strings := (maskStrings {} t).2.strings } _).2.keywords)
  have apart : BracketsApart marked := by
    rw [← (Prod.mk.inj mark).1]
    exact bracketsApart_renderNumbered apart _
  rw [mark] at legible
  obtain ⟨strings_eq, table_eq⟩ : s₂.strings = (maskStrings {} t).2.strings ∧
    s₂.subexpressions = s.subexpressions := by
    rw [← (Prod.mk.inj mark).2]
    exact ⟨rfl, rfl⟩
  have fillers : ∀ w ∈ s₂.strings, IsFiller w := by
    have noToken : ∀ q ∈ t.segments.marks, hasNumbered "q:".toList q.text = false := fun q listed =>
      hasNumbered_of_isInfix unnumbered (isInfix_of_mem_segments listed)
    simpa [strings_eq, maskStrings] using fillers_of_segments noToken
  rw [← strings_eq] at legible
  -- Nothing can stand for the subexpressions of earlier texts.
  let before : List Text :=
    List.replicate s₂.subexpressions.length (TokenKind.group.start ++ Text.ofNat 0)
  have earlier : Tabled s₂.strings s₂.keywords before s₂.subexpressions := by
    refine ⟨table_eq ▸ keyed, fun n p inner listed legible => ?_⟩
    obtain rfl := List.eq_of_mem_replicate (List.mem_of_getElem? listed)
    obtain ⟨_, _, -, found, -⟩ :=
      legible.of_groupToken (ofNat_ne_nil 0) fun d => isDecimalDigit_of_mem_ofNat
    cases found
  have length_eq : before.length = s₂.subexpressions.length := List.length_replicate
  unfold extractSubexpressions at extract
  rw [← length_eq] at extract built
  split at extract
  · next rest' parts' taken =>
    obtain ⟨rfl, rfl⟩ := Prod.mk.inj (Except.ok.inj extract)
    have legible := legible_extracted taken (legible.more_parts before) apart
    obtain ⟨strings_eq', keywords_eq', tabled⟩ := tabled_of_forM fillers earlier rfl built
    rw [← strings_eq', ← keywords_eq'] at legible tabled
    have solid : Text.strip (TokenKind.group.start ++ Text.ofNat 0) =
        TokenKind.group.start ++ Text.ofNat 0 := by decide +kernel
    have stripped : (before ++ parts').map Text.strip = before ++ parts'.map Text.strip := by
      simp [before, solid]
    have reads := legible.reads.strip_parts
    rw [stripped] at reads
    exact tokens_buildLevel (by rwa [strings_eq']) tabled ⟨reads, legible.marked⟩ opened level
  · cases extract

/-- So has the tree of a separable text the tokens of the text. -/
theorem tokens_of_separable (separable : t.Separable) (noStrings : s.strings = [])
    (keyed : Keyed s.subexpressions) (h : build t s = .ok e s') : e.tokens = t.tokens :=
  tokens_build_of_reads noStrings keyed (separable.free.unnumbered .string) separable.brackets
    (fun _ => reads_masked ⟨separable.free.unnumbered, separable.parts⟩ separable.free.segments)
      t.staysOpen_tokens h

/-- A tree that is built from a separable text has the tokens of the text. -/
theorem tokens_build (separable : t.Separable) (h : build t {} = .ok e s) : e.tokens = t.tokens :=
  tokens_of_separable separable rfl (by simp [Keyed]) h

/-- A text with nested groups and subexpressions, with keywords directly beside parentheses and
brackets, and with a keyword and a parenthesis inside a string. -/
def layeredText : Text :=
  "NOT((value > [1 + [n * 2]])AND[ok] OR \"x (y AND\" == 'z')OR k|TR:m >= 0x1F".toList

theorem tokens_build_layered : layeredText.Separable ∧ ∃ e s, build layeredText {} = .ok e s ∧
    e.tokens = ["NOT".toList, "value".toList, ">".toList, "1".toList, "+".toList, "n".toList,
      "*".toList, "2".toList, "AND".toList, "ok".toList, "OR".toList, "\"x (y AND\"".toList,
      "==".toList, "'z'".toList, "OR".toList, "k".toList, "TR:m".toList, ">=".toList,
      "0x1F".toList] := by
  have separable : layeredText.Separable := by
    refine ⟨⟨fun kind => ?_, by decide +kernel⟩, by decide +kernel, by decide +kernel⟩
    cases kind <;> decide +kernel
  obtain ⟨e, s, built⟩ :=
    Attempt.succeeds_iff.mp (show (build layeredText).succeeds {} = true by decide +kernel)
  refine ⟨separable, e, s, built, (tokens_build separable built).trans ?_⟩
  decide +kernel

end SetAside

end Trees

end PolicyRules
