import PolicyRules.Proofs.LevelExpansion

/-!
# The levels that arise while a tree is built

The levels of a text are read as chains of operands, and a level that is not a chain is a fault. To
show the fault, the level is put back as it was written. That is possible if its operands can be
read: the level then resolves, and the tokens of keywords in it are those that have been marked.

Main statement: `SetAside.parseLevel_accepts_chains`, for the levels that arise while a tree is
built (`SetAside.Arises`); the level that the tree of the whole text is read from is one of them
(`SetAside.exists_arises_of_build`).
-/

namespace PolicyRules

section Keywords

variable {strings : List Text} {t m u digits : Text}

/-- The token of a keyword at which a level is cut is a landmark. -/
theorem keyword_mem_landmarks (member : digits ∈ (t.split keywordTokenAt).marks) :
    .token .keyword digits ∈ t.landmarks := by
  obtain ⟨x, y, width, rfl, found⟩ := Split.exists_of_mem_marks member
  obtain ⟨before, behind, rest, rfl, -, nonempty, all, -, blank, -, ended⟩ :=
    keywordTokenAt_eq_some found
  have ends : EndsNumber (behind ++ rest) := by
    cases behind with
    | nil =>
      intro c head
      have edge := ended rfl
      rw [List.nil_append] at head
      rw [head] at edge
      cases digit : isDecimalDigit c with
      | false => rfl
      | true => simp [isWordEdge, isWordChar_of_isDecimalDigit digit] at edge
    | cons c cs => exact endsNumber_cons (isDecimalDigit_eq_false_of_isBlank (blank c (by simp))) _
  have named := Text.token_mem_landmarks .keyword nonempty all ends (x ++ before)
  simpa [TokenKind.start] using named

/-- No keyword is named by a string in which nothing is named. -/
theorem IsInert.keyword_mem {w : Text} (inert : IsInert w)
    (member : .token .keyword digits ∈ Text.landmarks (w ++ t)) :
    .token .keyword digits ∈ t.landmarks := by
  obtain ⟨@⟨mark, body, isMark, -⟩, unnumbered⟩ := inert
  have isMark := isQuoteMark_iff.mpr isMark
  have apart : continuesToken mark = false := by
    rcases isQuoteMark_iff.mp isMark with rfl | rfl <;> decide
  have split : mark :: body ++ [mark] ++ t = (mark :: body) ++ mark :: t := by simp
  have free : Text.Unnumbered (mark :: body) := unnumbered.of_isInfix ⟨[], [mark], by simp⟩
  rw [split, Text.landmarks_append (by simpa using apart), Text.landmarks_of_unnumbered free,
    Text.landmarks_quote isMark] at member
  simpa using member

/-- Putting strings back brings no keywords into a text. -/
theorem Fills.keyword_mem (h : Fills strings m u)
    (inert : ∀ digits w, .token .string digits ∈ m.landmarks → tokenEntry strings digits = .ok w →
      IsInert w)
    (member : .token .keyword digits ∈ u.landmarks) : .token .keyword digits ∈ m.landmarks := by
  induction h with
  | nil => exact member
  | @char c m u rest ih =>
    have later : (Text.landmarks m).Sublist (Text.landmarks (c :: m)) :=
      Text.landmarks_sublist [c] m
    rw [Text.landmarks, List.mem_append, Option.mem_toList] at member
    rcases member with here | behind
    · -- A token has no quotation marks, so that all of it is there before.
      rw [Landmark.at?_eq_token_iff, TokenKind.digitsOf?_eq_some_iff] at here
      obtain ⟨nonempty, all, more, same, ends⟩ := here
      have token : QuoteFree (TokenKind.keyword.start ++ digits) :=
        QuoteFree.append (by decide) fun d member =>
          isQuoteMark_eq_false_of_isDecimalDigit (all d member)
      have whole := rest.char c
      rw [same, ← List.append_assoc] at whole
      obtain ⟨m', same', fills⟩ := whole.of_append token
      rw [same', List.append_assoc]
      exact Text.token_mem_landmarks _ nonempty all (fills.endsNumber ends) []
    · exact later.subset (ih (fun digits w member => inert digits w (later.subset member)) behind)
  | @string digits' w m u nonempty all found filler ends rest ih =>
    rw [List.append_assoc, Text.landmarks_token nonempty all ends] at inert ⊢
    obtain ⟨first, later⟩ : IsInert w ∧ ∀ digits w, .token .string digits ∈ m.landmarks →
        tokenEntry strings digits = .ok w → IsInert w :=
      ⟨inert digits' w (by simp) found,
        fun digits w member => inert digits w (List.mem_cons_of_mem _ member)⟩
    exact List.mem_cons_of_mem _ (ih later (first.keyword_mem member))

end Keywords

theorem Split.exists_renderM {α : Type} {write : α → Except Error Text} {s : Split α}
    (each : ∀ a ∈ s.marks, ∃ w, write a = .ok w) : ∃ t, s.renderM write = .ok t := by
  have pieces : ∀ piece ∈ s.tail, ∃ w, (do return (← write piece.1) ++ piece.2) = Except.ok w := by
    intro piece member
    obtain ⟨w, written⟩ := each piece.1 (List.mem_map_of_mem member)
    exact ⟨w ++ piece.2, bind_eq_ok_iff.mpr ⟨w, written, rfl⟩⟩
  obtain ⟨texts, mapped⟩ := exists_mapM_eq_ok_iff.mpr pieces
  exact ⟨_, bind_eq_ok_iff.mpr ⟨texts, mapped, rfl⟩⟩

namespace SetAside

namespace Levelled

variable {s : SetAside} {t : Text} {pieces : List Piece} {e : Expr}

/-- The keywords at which a level is cut are among those that have been set aside. -/
theorem exists_pieces (h : s.Levelled t) :
    ∃ pieces, Piece.ofText t = .ok pieces ∧ ∀ n, .keyword n ∈ pieces → n < s.keywords.length :=
  Piece.exists_ofText fun digits member => h.sorted.orderly.keywords digits
    (keyword_mem_landmarks member)

/-- A fault in a level that resolves is shown with the level put back. -/
theorem exists_faultIn (h : s.Levelled t) (resolves : s.Resolves t) (fault : Fault) :
    ∃ source, s.faultIn t fault = .malformed fault source none := by
  obtain ⟨u, expanded, -⟩ := resolves
  obtain ⟨m, regroups, fills⟩ := h.sorted.exists_regrouped expanded
  have orderly := h.sorted m regroups
  obtain ⟨restored, rendered⟩ : ∃ restored, (u.split keywordTokenAt).renderM (fun digits => do
      return ' ' :: (← tokenEntry s.keywords digits).text ++ [' ']) = .ok restored := by
    refine Split.exists_renderM fun digits member => ?_
    obtain ⟨n, lt, read⟩ :=
      orderly.keywords digits (fills.keyword_mem orderly.strings (keyword_mem_landmarks member))
    obtain ⟨keyword, -, entry⟩ := exists_entry s.keywords lt read
    exact ⟨_, bind_eq_ok_iff.mpr ⟨keyword, entry, rfl⟩⟩
  have whole : s.restore t = .ok (Text.strip restored) :=
    bind_eq_ok_iff.mpr ⟨u, expanded, bind_eq_ok_iff.mpr ⟨restored, rendered, rfl⟩⟩
  exact ⟨Text.strip restored, by rw [faultIn, whole]⟩

/-- The operands of a level are read as its groups are followed to their depth. -/
theorem operandWithin_eq_ok_iff (h : s.Levelled t) (read : Piece.ofText t = .ok pieces) {u : Text}
    (member : .operand u ∈ pieces) :
    s.operandWithin s.groups.length u = .ok e ↔ s.operandWithin s.depth u = .ok e := by
  constructor
  · refine h.descends.carries_operandWithin read member (fun k g lt descends => ?_) e
    exact descends.carries_parseWithin (lt.trans (Nat.lt_succ_self _))
  · exact h.descends.carries_operandWithin read member
      (fun k g lt descends => descends.carries_parseWithin lt) e

theorem parseLevel_of_blank (read : Piece.ofText t = .ok []) :
    s.parseLevel t = (s.expand t >>= fun source => .error (.malformed .empty source none)) := by
  change s.parseWithin (s.groups.length + 1) t = _
  rw [parseWithin_succ, read]
  rfl

theorem parseLevel_eq (read : Piece.ofText t = .ok pieces) (nonempty : pieces ≠ []) :
    s.parseLevel t = readOperand s.keywords (s.faultIn t)
      (s.operandWithin s.groups.length) none [] pieces := by
  obtain ⟨piece, rest, rfl⟩ := List.exists_cons_of_ne_nil nonempty
  change s.parseWithin (s.groups.length + 1) t = _
  rw [parseWithin_succ, read]
  rfl

/-- A level is accepted if its pieces are those of a chain whose operands are read, and gives the
tree of the chain. -/
theorem parseLevel_eq_ok_iff (h : s.Levelled t) (read : Piece.ofText t = .ok pieces) :
    s.parseLevel t = .ok e ↔ ∃ (c : Chain) (value : Text → Expr), c.Proper s.keywords ∧
      c.pieces = pieces ∧
      (∀ u, .operand u ∈ pieces → s.operandWithin s.depth u = .ok (value u)) ∧
      e = c.tree value := by
  have accepted : s.parseLevel t = .ok e ↔
      readOperand s.keywords (s.faultIn t) (s.operandWithin s.groups.length)
        none [] pieces = .ok e := by
    by_cases empty : pieces = []
    · subst empty
      rw [parseLevel_of_blank read, bind_eq_ok_iff, readOperand]
      simp
    · rw [parseLevel_eq read empty]
  rw [accepted, readOperand_eq_ok_iff]
  refine exists_congr fun c => exists_congr fun value => and_congr_right fun _ => and_congr_right
    fun _ => ?_
  refine and_congr_left fun _ => forall_congr' fun u => forall_congr' fun member => ?_
  exact h.operandWithin_eq_ok_iff read member

/-- If the operands of a level are read, and its pieces are not those of a chain, the level is
malformed. -/
theorem exists_malformed (h : s.Levelled t) (read : Piece.ofText t = .ok pieces)
    (numbers : ∀ n, .keyword n ∈ pieces → n < s.keywords.length)
    (built : ∀ u, .operand u ∈ pieces → ∃ e, s.operandWithin s.depth u = .ok e)
    (noChain : ¬ ∃ c : Chain, c.Proper s.keywords ∧ c.pieces = pieces) :
    ∃ fault source, s.parseLevel t = .error (.malformed fault source none) := by
  have resolves := h.resolves_of_operands read built
  by_cases empty : pieces = []
  · subst empty
    obtain ⟨u, expanded, -⟩ := resolves
    refine ⟨.empty, u, ?_⟩
    rw [parseLevel_of_blank read, expanded]
    rfl
  · rw [parseLevel_eq read empty]
    have built' : ∀ u, .operand u ∈ pieces → ∃ e, s.operandWithin s.groups.length u = .ok e := by
      intro u member
      obtain ⟨e, given⟩ := built u member
      exact ⟨e, (h.operandWithin_eq_ok_iff read member).mpr given⟩
    obtain ⟨fault, failed⟩ : ∃ fault, readOperand s.keywords (s.faultIn t)
        (s.operandWithin s.groups.length) none [] pieces =
        .error (s.faultIn t fault) := exists_fault_of_not_chain numbers built' noChain
    obtain ⟨source, shown⟩ := h.exists_faultIn resolves fault
    exact ⟨fault, source, failed.trans (congrArg _ shown)⟩

end Levelled

/-- Whether building the tree of `t` comes to the part `whole`, with `v` set aside: strings have
been masked, brackets checked, keywords marked and subexpressions taken out; `whole` is one of them,
or what is left of the text, and those before it have been built. -/
def ComesTo (s : SetAside) (t : Text) (v : SetAside) (whole : Text) : Prop :=
  ∃ masked s₁ marked s₂ rest parts done more, s.maskStrings t = (masked, s₁) ∧
    checkBalanced masked = .ok () ∧
    s₁.markKeywords masked = (marked, s₂) ∧
    extractSubexpressions s₂.subexpressions.length marked = .ok (rest, parts) ∧
    parts ++ [rest] = done ++ whole :: more ∧
    (done.zipIdx s₂.subexpressions.length).forM
      (fun part : Text × Nat => buildSubexpression part.1 part.2) s₂ = .ok () v

/-- Whether `level` is a level that arises while the tree of `t` is built, with `u` set aside: the
groups of a part have been collapsed, and the level is what the part has become or one of these
groups. -/
def Arises (s : SetAside) (t : Text) (u : SetAside) (level : Text) : Prop :=
  ∃ v whole, s.ComesTo t v whole ∧ (v.collapseGroups whole).2 = u ∧
    (level = (v.collapseGroups whole).1 ∨ level ∈ u.groups.drop v.groups.length)

/-- The tree of a text is read from a level that arises. -/
theorem exists_arises_of_build {s u : SetAside} {t : Text} {e : Expr} (h : build t s = .ok e u) :
    ∃ level, s.Arises t u level ∧ u.parseLevel level = .ok e := by
  obtain ⟨masked, s₁, marked, s₂, rest, parts, v, hmask, balanced, hmark, taken, built, last⟩ :=
    build_eq_ok_iff.mp h
  obtain ⟨after, parsed⟩ := buildLevel_eq_ok_iff.mp last
  have comes : s.ComesTo t v rest :=
    ⟨masked, s₁, marked, s₂, rest, parts, parts, [], hmask, balanced, hmark, taken, rfl, built⟩
  exact ⟨(v.collapseGroups rest).1, ⟨v, rest, comes, after, .inl rfl⟩, parsed⟩

/-- Building subexpressions leaves strings and keywords as they are. -/
theorem strings_keywords_of_forM {s s' : SetAside} {parts : List (Text × Nat)}
    (h : parts.forM (fun part : Text × Nat => buildSubexpression part.1 part.2) s = .ok () s') :
    s'.strings = s.strings ∧ s'.keywords = s.keywords := by
  have step : ∀ part ∈ parts, ∀ v v' : SetAside, v.strings = s.strings ∧ v.keywords = s.keywords →
      buildSubexpression part.1 part.2 v = .ok () v' → v'.strings = s.strings ∧
      v'.keywords = s.keywords := by
    intro part _ v v' kept built
    obtain ⟨e, u, level, rfl⟩ := buildSubexpression_eq_ok_iff.mp built
    obtain ⟨rfl, -⟩ := buildLevel_eq_ok_iff.mp level
    simpa using kept
  exact buildParts_induction step ⟨rfl, rfl⟩ h

theorem Arises.levelled {s u : SetAside} {t level : Text} (unnumbered : t.Unnumbered)
    (h : s.Arises t u level) (room : u.keywords.length ≤ 10 ^ maxDecimalDigits) :
    u.Levelled level := by
  obtain ⟨v, whole, comes, rfl, place⟩ := h
  obtain ⟨masked, s₁, marked, s₂, rest, parts, done, more, hmask, -, hmark, taken, split, built⟩ :=
    comes
  obtain ⟨strings_eq, keywords_eq⟩ := strings_keywords_of_forM built
  rw [collapseGroups_keywords, keywords_eq] at room
  have arranged : s₂.Arranged whole := by
    refine (arranged_marked unnumbered hmask hmark room).extractSubexpressions taken whole ?_
    simp [split]
  have arranged' : v.Arranged whole := by
    obtain ⟨⟨clear, strings, keywords⟩, ungrouped⟩ := arranged
    exact ⟨⟨strings_eq ▸ clear, strings_eq ▸ strings, keywords_eq ▸ keywords⟩, ungrouped⟩
  obtain ⟨level', groups⟩ := arranged'.levelled_collapseGroups rfl
  rcases place with rfl | member
  · exact level'
  · exact groups level member

/-- The levels that arise while the tree of a text is built, in which the text itself names nothing.
A level is cut into operands and keywords. It is accepted if these are a chain and all operands can
be read, and then gives the tree of the chain. If all operands can be read, but there is no chain,
the level is malformed. The ordinals of keywords must not have more digits than are read. -/
theorem parseLevel_accepts_chains {s u : SetAside} {t level : Text} (unnumbered : t.Unnumbered)
    (arises : s.Arises t u level) (room : u.keywords.length ≤ 10 ^ maxDecimalDigits) :
    ∃ pieces, Piece.ofText level = .ok pieces ∧
      (∀ e, u.parseLevel level = .ok e ↔
        ∃ (c : Chain) (value : Text → Expr), c.Proper u.keywords ∧ c.pieces = pieces ∧
          (∀ text, .operand text ∈ pieces → u.operandWithin u.depth text = .ok (value text)) ∧
          e = c.tree value) ∧
      ((∀ text, .operand text ∈ pieces → ∃ e, u.operandWithin u.depth text = .ok e) →
        (¬ ∃ c : Chain, c.Proper u.keywords ∧ c.pieces = pieces) →
        ∃ fault source, u.parseLevel level = .error (.malformed fault source none)) := by
  have levelled := arises.levelled unnumbered room
  obtain ⟨pieces, read, numbers⟩ := levelled.exists_pieces
  exact ⟨pieces, read, fun e => levelled.parseLevel_eq_ok_iff read, fun built noChain =>
    levelled.exists_malformed read numbers built noChain⟩

/-- What an earlier text may have left: a group that names itself, and a string that names a
string. -/
def selfNaming : SetAside :=
  { groups := [" i:0 ".toList], strings := ["'q:0'".toList], keywords := [.and] }

/-- A text with a subexpression and two groups, of which the second has a connective too many. -/
def mixedText : Text := "[n + 1] > 2 AND NOT (a == 'x y' OR NOT NOT b AND c) OR (d AND OR e)".toList

def orderedLevel : Text := "a == q:1  PLA3   PLA4   PLA5  b  PLA6  c".toList

def disorderedLevel : Text := "d  PLA8   PLA9  e".toList

/-- The state in which the levels of `mixedText` are read. -/
def mixedAside : SetAside where
  groups := [" i:0 ".toList, disorderedLevel, orderedLevel]
  strings := ["'q:0'".toList, "'x y'".toList]
  keywords := [.and, .and, .not, .or, .not, .not, .and, .or, .and, .or]
  subexpressions :=
    [("PLH0".toList, .binary .add (.name "n".toList) (.literal ⟨.int 1, .uint256, "1".toList⟩))]

theorem arises_mixedAside {level : Text} (member : level ∈ [disorderedLevel, orderedLevel]) :
    selfNaming.Arises mixedText mixedAside level := by
  refine ⟨{ mixedAside with groups := selfNaming.groups },
    "PLH0 > 2  PLA1   PLA2  (a == q:1  PLA3   PLA4   PLA5  b  PLA6  c)  ".toList ++
      "PLA7  (d  PLA8   PLA9  e)".toList,
    ⟨_, _, _, _, _, ["n + 1".toList], ["n + 1".toList], [], rfl, by decide +kernel, rfl,
      by decide +kernel, rfl, ?_⟩,
    by decide +kernel, .inr member⟩
  refine Attempt.bind_eq_ok_iff.mpr ⟨(), { mixedAside with groups := selfNaming.groups }, ?_, rfl⟩
  refine buildSubexpression_eq_ok_iff.mpr
    ⟨.binary .add (.name "n".toList) (.literal ⟨.int 1, .uint256, "1".toList⟩), _,
      buildLevel_eq_ok_iff.mpr ⟨rfl, ?_⟩, ?_⟩ <;> decide +kernel

theorem parseLevel_accepts_chains_mixed :
    mixedText.Unnumbered ∧ selfNaming.Arises mixedText mixedAside orderedLevel ∧
      selfNaming.Arises mixedText mixedAside disorderedLevel ∧
      mixedAside.keywords.length ≤ 10 ^ maxDecimalDigits ∧
      (∃ (c : Chain) (value : Text → Expr), c.Proper mixedAside.keywords ∧
        Piece.ofText orderedLevel = .ok c.pieces ∧
        c.tree value = .logical .and 6 (.logical .or 3
          (.binary .eq (.name "a".toList) (.literal ⟨.text "x y".toList, .string, "'x y'".toList⟩))
          (.negation 4 (.negation 5 (.name "b".toList)))) (.name "c".toList)) ∧
      ∃ fault source, mixedAside.parseLevel disorderedLevel =
        .error (.malformed fault source none) := by
  have unnumbered : mixedText.Unnumbered := by
    refine ⟨fun kind => ?_, by decide +kernel⟩
    cases kind <;> decide +kernel
  have room : mixedAside.keywords.length ≤ 10 ^ maxDecimalDigits := by
    apply Nat.le_trans (m := 10 ^ 1)
    · decide
    · exact Nat.pow_le_pow_right (by decide) (by decide)
  have ordered : selfNaming.Arises mixedText mixedAside orderedLevel := arises_mixedAside (by simp)
  have disordered : selfNaming.Arises mixedText mixedAside disorderedLevel :=
    arises_mixedAside (by simp)
  refine ⟨unnumbered, ordered, disordered, room, ?_, ?_⟩
  · obtain ⟨pieces, read, accepted, -⟩ := parseLevel_accepts_chains unnumbered ordered room
    obtain ⟨c, value, proper, rfl, -, tree⟩ := (accepted (.logical .and 6 (.logical .or 3
      (.binary .eq (.name "a".toList) (.literal ⟨.text "x y".toList, .string, "'x y'".toList⟩))
      (.negation 4 (.negation 5 (.name "b".toList)))) (.name "c".toList))).mp (by decide +kernel)
    exact ⟨c, value, proper, read, tree.symm⟩
  · obtain ⟨pieces, read, accepted, malformed⟩ :=
      parseLevel_accepts_chains unnumbered disordered room
    obtain rfl : pieces = [.operand "d".toList, .keyword 8, .keyword 9, .operand "e".toList] :=
      Except.ok.inj (read.symm.trans (by decide +kernel))
    have operands : ∀ text,
        Piece.operand text ∈ [.operand "d".toList, .keyword 8, .keyword 9, .operand "e".toList] →
        mixedAside.operandWithin mixedAside.depth text = .ok (.name text) := by
      intro text member
      obtain rfl | rfl : text = "d".toList ∨ text = "e".toList := by simpa using member
      · decide +kernel
      · decide +kernel
    refine malformed (fun text member => ⟨_, operands text member⟩) ?_
    -- A chain would be accepted.
    rintro ⟨c, proper, same⟩
    have given := (accepted (c.tree .name)).mpr ⟨c, .name, proper, same, operands, rfl⟩
    have refused : (mixedAside.parseLevel disorderedLevel).isOk = false := by decide +kernel
    rw [given] at refused
    cases refused

end SetAside

end PolicyRules
