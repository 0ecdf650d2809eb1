import PolicyRules.Proofs.LevelReading

/-!
# Reading printed expressions back

Building the tree of a printed expression gives the expression back, its keywords numbered after
those that were set aside before. The only numbers that cannot be read back are those with more
decimal digits than the reader takes.

The state in which a text is read may hold what earlier texts have left there (`SetAside.Regular`).
Tokens are numbered, and a number is read back only if it has not too many digits either, so the
lists of the state must not grow too long (`SetAside.HasRoom`).

Main statement: `SetAside.build_print_iff`.
-/

namespace PolicyRules

variable {n : Nat} {e : Expr}

section Marks

variable {α : Type} {mark : Item → Option α}

@[simp] theorem Layout.marks_bracketed (b : Option Bracket) (l : Layout) :
    (bracketed b l).marks mark = l.marks mark := by
  cases b with
  | none => rfl
  | some b => simp [bracketed, marks]

theorem Layout.numbered_bracketed {Good : Nat → Item → Prop} {b : Option Bracket} {l : Layout} :
    (bracketed b l).Numbered mark Good n ↔ l.Numbered mark Good n := by
  cases b with
  | none => rfl
  | some b => simp [bracketed, Numbered]

variable (mark) in
/-- Marks are words of the text. -/
theorem Layout.length_marks_le (l : Layout) : (l.marks mark).length ≤ l.words.length := by
  induction l with
  | nil => simp [marks]
  | item i rest ih =>
    have one : (mark i).toList.length ≤ 1 := by cases mark i <;> simp
    simp only [marks, words, List.length_append, List.length_cons]
    omega
  | nested b inner rest ihi ihr =>
    simp only [marks, words, List.length_append, List.length_cons]
    omega

end Marks

/-- Opening parentheses are words of the text. -/
theorem Shows.count_opening_le {v : View} {l : Layout} {t : Text} (plain : v.Unbracketed)
    (h : Shows v l t) : t.count '(' ≤ l.words.length := by
  induction h using Shows.induction with
  | nil => simp
  | space l t h ih => simpa using ih
  | word l rest w t leads gap h ih =>
    have absent : w.count '(' = 0 :=
      List.count_eq_zero.mpr fun member => plain l rest w leads '(' member (by decide)
    have fewer : rest.words.length ≤ l.words.length := by
      cases leads with
      | item shown => simp [Layout.words]
      | token shown =>
        simp only [Layout.words, List.length_cons, List.length_append]
        omega
    rw [List.count_append]
    omega
  | raw b inner rest g t stands inside gap h ih ih' =>
    have opening : (if b.opening == '(' then 1 else 0) ≤ 1 := by split <;> simp
    have closing : (b.closing == '(') = false := by cases b <;> decide
    simp only [Layout.words, List.length_cons, List.length_append, List.count_cons,
      List.count_append, closing, Bool.false_eq_true, if_false]
    omega

namespace Expr

theorem literals_renumber (n : Nat) (e : Expr) : (e.renumber n).literals = e.literals := by
  induction e generalizing n <;> simp_all [renumber, literals]

/-- Other ordinals leave the keywords as they are. -/
theorem connectives_renumber (n : Nat) (e : Expr) : (e.renumber n).connectives = e.connectives := by
  induction e generalizing n <;> simp_all [renumber, connectives]

/-- The keywords of a text are those of the expression. -/
theorem marks_body (e : Expr) : e.body.marks keywordMark = e.connectives := by
  induction e <;> simp_all [body, connectives, Layout.marks_append, Layout.marks, keywordMark]

/-- The ordinals of an expression that has been renumbered are the places of its keywords in the
text. -/
theorem numbered_body (n : Nat) (e : Expr) :
    (e.renumber n).body.Numbered keywordMark (fun n i => ∃ k, i = .keyword k n) n := by
  induction e generalizing n with
  | hole => trivial
  | literal l | name text => exact ⟨by simp [keywordMark], trivial⟩
  | mapped key tracker ih =>
    simpa [renumber, body, Layout.numbered_append, Layout.numbered_bracketed, Layout.Numbered,
      keywordMark] using ih n
  | binary op left right ihl ihr | logical op ordinal left right ihl ihr =>
    simpa [renumber, body, Layout.numbered_append, Layout.numbered_bracketed, Layout.Numbered,
      keywordMark, marks_body, connectives_renumber] using ⟨ihl n, ihr _⟩
  | negation ordinal operand ih =>
    simpa [renumber, body, Layout.numbered_bracketed, Layout.Numbered, keywordMark] using ih (n + 1)
  | update op tracker value ih =>
    simpa [renumber, body, Layout.numbered_bracketed, Layout.Numbered, keywordMark] using ih n
  | updateMapped op key tracker value ihk ihv =>
    simpa [renumber, body, Layout.numbered_append, Layout.numbered_bracketed, Layout.Numbered,
      keywordMark, marks_body, connectives_renumber] using ⟨ihk n, ihv _⟩

theorem words_body_ne_nil (h : e.Printable) : e.body.words ≠ [] := by
  cases e <;> simp_all [body, Printable, Layout.words, Layout.words_append]

/-- A printed text is its words with spaces between them. -/
theorem spaced_words (h : e.Printable) : spaced e.body.words = ' ' :: e.print := by
  obtain ⟨w, words, words_eq⟩ := List.exists_cons_of_ne_nil (words_body_ne_nil h)
  rw [print, words_eq]
  clear words_eq
  induction words generalizing w with
  | nil => simp [spaced, List.intercalate]
  | cons x words ih =>
    have step : spaced (w :: x :: words) = ' ' :: (w ++ spaced (x :: words)) := rfl
    rw [step, ih]
    simp [List.intercalate, List.intersperse]

/-- The length of a text bounds the number of its words. -/
theorem length_words_le (h : e.Printable) : e.body.words.length ≤ e.print.length + 1 := by
  have each : ∀ words : List Text, words.length ≤ (spaced words).length := fun words => by
    induction words with
    | nil => simp
    | cons w words ih =>
      have step : spaced (w :: words) = ' ' :: (w ++ spaced words) := rfl
      rw [step, List.length_cons, List.length_cons, List.length_append]
      omega
  have bound := each e.body.words
  rwa [spaced_words h, List.length_cons] at bound

/-- A printed text has the layout of the expression. -/
theorem shows_print (h : e.Readable) : Shows .printed e.body e.print := by
  have shown := shows_body h.1 h.2
  rw [spaced_words h.1] at shown
  exact shown.of_space View.firm_printed

theorem readable_renumber (h : e.Readable) : (e.renumber n).Readable :=
  ⟨printable_renumber h.1, by rw [Legible, literals_renumber]; exact h.2⟩

end Expr

namespace SetAside

variable {s u : SetAside} {e : Expr} {t : Text}

/-- Whether all lists of a state can grow by `n` entries and the numbers of their tokens can still
be read. -/
structure HasRoom (s : SetAside) (n : Nat) : Prop where
  groups : s.groups.length + n ≤ 10 ^ maxDecimalDigits
  strings : s.strings.length + n ≤ 10 ^ maxDecimalDigits
  keywords : s.keywords.length + n ≤ 10 ^ maxDecimalDigits

theorem HasRoom.of_le (h : n ≤ maxDecimalDigits) : HasRoom {} n := by
  have le : 0 + n ≤ 10 ^ maxDecimalDigits := by
    rw [Nat.zero_add]
    exact h.trans (Nat.lt_pow_self (by decide)).le
  exact ⟨le, le, le⟩

/-- A text with the layout of an expression is read as the expression. A group is set aside for each
opening parenthesis. -/
theorem buildLevel_of_shows (readable : e.Readable) (keyed : Keyed s.subexpressions)
    (room : s.groups.length + t.count '(' ≤ 10 ^ maxDecimalDigits)
    (smallStrings : s.strings.length ≤ 10 ^ maxDecimalDigits)
    (smallKeywords : s.keywords.length ≤ 10 ^ maxDecimalDigits)
    (h : Shows (.level s.strings s.keywords s.subexpressions) e.body t) :
    ∃ groups, groups.length = t.count '(' ∧
      buildLevel t s = .ok e { s with groups := s.groups ++ groups } := by
  obtain ⟨rest, groups, collapsed, length_eq, shown⟩ := shows_collapseGroups (s := s) h
  refine ⟨groups, length_eq, buildLevel_eq_ok_iff.mpr ⟨by rw [collapsed], ?_⟩⟩
  rw [collapsed, parseLevel]
  refine parseWithin_eq_ok_of_shows (s := { s with groups := s.groups ++ groups })
    (fun n group found => ?_) ?_ smallStrings smallKeywords keyed ?_ le_rfl readable.1
      readable.2 shown
  · rw [List.getElem?_append_right (by omega), Nat.add_sub_cancel_left]
    exact found
  · rw [List.length_append, length_eq]
    exact room
  · simp only [depth, List.length_append]
    omega

/-- What holds while the parts of a text are built, `n` of them so far: they are kept under their
tokens, and there is room for the groups of the others and of the `rest`. -/
structure Building (s : SetAside) (start : Nat) (parts : List Text) (rest : Text) (n : Nat)
    (u : SetAside) : Prop where
  strings_eq : u.strings = s.strings
  keywords_eq : u.keywords = s.keywords
  keyed : Keyed u.subexpressions
  kept : ∀ m < n, ∀ part, parts[m]? = some part → ∀ e : Expr, e.Readable →
    Shows (.extracted s.strings s.keywords start parts m) e.body part →
    Table.value? (subexpressionToken (start + m : Nat)) u.subexpressions = some e
  room : u.groups.length + (parts.drop n).flatten.count '(' + rest.count '(' ≤ 10 ^ maxDecimalDigits

section Building

variable {start n : Nat} {parts : List Text} {rest : Text}

theorem count_strip_le (c : Char) (t : Text) : (Text.strip t).count c ≤ t.count c := by
  rw [Text.strip, List.count_reverse]
  have behind := (List.dropWhile_sublist isBlank (l := (t.dropWhile isBlank).reverse)).count_le c
  have before := (List.dropWhile_sublist isBlank (l := t)).count_le c
  rw [List.count_reverse] at behind
  omega

theorem subexpressionToken_ne {m n : Nat} (h : m ≠ n) :
    subexpressionToken m ≠ subexpressionToken n := by
  intro same
  have digits : Text.ofNat m = Text.ofNat n := List.append_cancel_left same
  have value := value_digits_ofNat m
  rw [digits, value_digits_ofNat] at value
  exact h value.symm

/-- Building the next part. -/
theorem Building.step (smallStrings : s.strings.length ≤ 10 ^ maxDecimalDigits)
    (smallKeywords : s.keywords.length ≤ 10 ^ maxDecimalDigits)
    (h : Building s start parts rest n u) {part : Text} (here : parts[n]? = some part)
    (shown : ∃ e : Expr,
      e.Readable ∧ Shows (.extracted s.strings s.keywords start parts n) e.body part) :
    ∃ u', buildSubexpression (Text.strip part) (start + n) u = .ok () u' ∧
      Building s start parts rest (n + 1) u' := by
  have drop_eq : parts.drop n = part :: parts.drop (n + 1) := by
    obtain ⟨inside, rfl⟩ := List.getElem?_eq_some_iff.mp here
    exact List.drop_eq_getElem_cons inside
  have room := h.room
  rw [drop_eq, List.flatten_cons, List.count_append] at room
  have fewer := count_strip_le '(' part
  -- the part is read as any expression whose layout it has, so there is only one
  have reads : ∀ e : Expr, e.Readable →
      Shows (.extracted s.strings s.keywords start parts n) e.body part →
      ∃ groups, groups.length = (Text.strip part).count '(' ∧
        buildLevel (Text.strip part) u = .ok e { u with groups := u.groups ++ groups } := by
    intro e readable shown
    refine buildLevel_of_shows readable h.keyed (by omega) (h.strings_eq ▸ smallStrings)
      (h.keywords_eq ▸ smallKeywords) ?_
    rw [h.strings_eq, h.keywords_eq]
    exact shows_level_of_extracted h.kept
      (shown.strip fun _ _ _ leads => (isPlain_of_extracted leads).firm)
  obtain ⟨e, readable, shown⟩ := shown
  obtain ⟨groups, length_eq, built⟩ := reads e readable shown
  refine ⟨_, buildSubexpression_eq_ok_iff.mpr ⟨e, _, built, rfl⟩, h.strings_eq, h.keywords_eq,
    ?_, ?_, ?_⟩
  · intro entry member
    rcases List.mem_append.mp member with old | new
    · exact h.keyed entry old
    · exact ⟨start + n, by rw [List.mem_singleton.mp new]⟩
  · intro m lt part' found e' readable' shown'
    rcases Nat.lt_succ_iff_lt_or_eq.mp lt with earlier | rfl
    · rw [Table.value?_insert_of_ne (subexpressionToken_ne (by omega))]
      exact h.kept m earlier part' found e' readable' shown'
    · obtain rfl : part' = part := Option.some.inj (found.symm.trans here)
      obtain ⟨groups', -, built'⟩ := reads e' readable' shown'
      obtain ⟨rfl, -⟩ := EStateM.Result.ok.inj (built.symm.trans built')
      exact Table.value?_insert_self _ _ _
  · simp only [List.length_append]
    omega

/-- Building all parts that are left. -/
theorem Building.run (smallStrings : s.strings.length ≤ 10 ^ maxDecimalDigits)
    (smallKeywords : s.keywords.length ≤ 10 ^ maxDecimalDigits)
    (shown : ∀ m part, parts[m]? = some part →
      ∃ e : Expr, e.Readable ∧ Shows (.extracted s.strings s.keywords start parts m) e.body part)
    {todo : List Text} (left : parts.drop n = todo) (inside : n ≤ parts.length)
    (h : Building s start parts rest n u) :
    ∃ u', ((todo.map Text.strip).zipIdx (start + n)).forM
        (fun part : Text × Nat => buildSubexpression part.1 part.2) u = .ok () u' ∧
      Building s start parts rest parts.length u' := by
  induction todo generalizing n u with
  | nil =>
    obtain rfl : n = parts.length := Nat.le_antisymm inside (List.drop_eq_nil_iff.mp left)
    exact ⟨u, rfl, h⟩
  | cons part todo ih =>
    have here : parts[n]? = some part := by
      rw [← List.head?_drop, left]
      rfl
    have left' : parts.drop (n + 1) = todo := by
      rw [← List.tail_drop, left]
      rfl
    obtain ⟨u', built, h'⟩ := h.step smallStrings smallKeywords here (shown n part here)
    obtain ⟨u'', run, h''⟩ := ih left' (List.getElem?_eq_some_iff.mp here).1 h'
    refine ⟨u'', ?_, h''⟩
    rw [List.map_cons, List.zipIdx_cons, List.forM_eq_forM, List.forM_cons, Attempt.bind_eq_ok_iff]
    exact ⟨(), u', built, run⟩

end Building

/-- Setting the strings and keywords of a printed expression aside. -/
theorem shows_marked (h : e.Readable) :
    ∃ masked s₁ marked s₂, s.maskStrings e.print = (masked, s₁) ∧ checkBalanced masked = .ok () ∧
      s₁.markKeywords masked = (marked, s₂) ∧
      Shows (.marked s₂.strings s₂.keywords) (e.renumber s.keywords.length).body marked ∧
      s₂.strings.length ≤ s.strings.length + e.body.words.length ∧
      s₂.keywords = s.keywords ++ e.connectives ∧ s₂.subexpressions = s.subexpressions ∧
      s₂.groups = s.groups := by
  have printed := Expr.shows_print (Expr.readable_renumber (n := s.keywords.length) h)
  rw [Expr.print_renumber] at printed
  obtain ⟨masked_shown, strings_eq⟩ := shows_maskStrings (s := s) printed
  generalize mask_eq : s.maskStrings e.print = first at masked_shown strings_eq
  obtain ⟨masked, s₁⟩ := first
  have fixed₁ : s₁.keywords = s.keywords ∧ s₁.subexpressions = s.subexpressions ∧
      s₁.groups = s.groups := by
    cases mask_eq
    exact ⟨rfl, rfl, rfl⟩
  obtain ⟨marked_shown, keywords_eq⟩ := shows_markKeywords (s := s₁) masked_shown
    (fixed₁.1 ▸ Expr.numbered_body _ e)
  generalize mark_eq : s₁.markKeywords masked = second at marked_shown keywords_eq
  obtain ⟨marked, s₂⟩ := second
  have fixed₂ : s₂.strings = s₁.strings ∧ s₂.subexpressions = s.subexpressions ∧
      s₂.groups = s.groups := by
    cases mark_eq
    exact ⟨rfl, fixed₁.2⟩
  have balanced :=
    masked_shown.checkBalanced (unbracketed_of_isPlain fun _ _ _ => isPlain_of_masked)
  simp only [← fixed₂.1] at marked_shown strings_eq
  refine ⟨masked, s₁, marked, s₂, rfl, balanced, mark_eq, marked_shown, ?_, ?_, fixed₂.2⟩
  · have marks := Layout.length_marks_le stringMark (e.renumber s.keywords.length).body
    rw [Expr.words_body_renumber] at marks
    rw [strings_eq, List.length_append, List.length_map]
    omega
  · rwa [Expr.marks_body, Expr.connectives_renumber, fixed₁.1] at keywords_eq

/-- A printed expression that can be read is read as the expression, with its keywords numbered
after those that the state holds. -/
theorem build_print (keyed : Keyed s.subexpressions) (room : s.HasRoom (e.print.length + 1))
    (h : e.Readable) :
    ∃ s', build e.print s = .ok (e.renumber s.keywords.length) s' ∧
      s'.keywords = s.keywords ++ e.connectives := by
  have words := Expr.length_words_le h.1
  obtain ⟨masked, s₁, marked, s₂, mask_eq, balanced, mark_eq, marked_shown, strings_le, keywords_eq,
    subexpressions_eq, groups_eq⟩ := shows_marked (s := s) h
  obtain ⟨rest, parts, extracted, count, rest_shown, taken⟩ :=
    shows_extractSubexpressions marked_shown s₂.subexpressions.length
  have opening :=
    marked_shown.count_opening_le (unbracketed_of_isPlain fun _ _ _ => isPlain_of_marked)
  rw [Expr.words_body_renumber] at opening
  have smallStrings : s₂.strings.length ≤ 10 ^ maxDecimalDigits := by
    have := room.strings
    omega
  have smallKeywords : s₂.keywords.length ≤ 10 ^ maxDecimalDigits := by
    have := room.keywords
    have marks := Layout.length_marks_le keywordMark e.body
    rw [Expr.marks_body] at marks
    rw [keywords_eq, List.length_append]
    omega
  have start : Building s₂ s₂.subexpressions.length parts rest 0 s₂ := by
    refine ⟨rfl, rfl, subexpressions_eq ▸ keyed, fun m lt => absurd lt (Nat.not_lt_zero m), ?_⟩
    have := room.groups
    rw [groups_eq, List.drop_zero]
    omega
  obtain ⟨u, run, built⟩ :=
    start.run smallStrings smallKeywords taken (List.drop_zero) (Nat.zero_le _)
  have room' := built.room
  rw [List.drop_length, List.flatten_nil, List.count_nil] at room'
  have level := shows_level_of_extracted built.kept rest_shown
  rw [← built.strings_eq, ← built.keywords_eq] at level
  obtain ⟨groups, -, last⟩ := buildLevel_of_shows (Expr.readable_renumber h) built.keyed (by omega)
    (built.strings_eq ▸ smallStrings) (built.keywords_eq ▸ smallKeywords) level
  refine ⟨_, build_eq_ok_iff.mpr ⟨masked, s₁, marked, s₂, rest, _, u, mask_eq, balanced, mark_eq,
    extracted, run, last⟩, ?_⟩
  exact built.keywords_eq.trans keywords_eq

end SetAside

/-- Whether the numbers of an expression have been read from texts. -/
def Expr.IsRead (e : Expr) : Prop :=
  ∀ l ∈ e.literals, l.type = .uint256 → ∃ t, Literal.ofNumber t = .ok l

theorem Expr.isRead_append {ls ms : List Literal}
    (h : ∀ l ∈ ls, l.type = .uint256 → ∃ t, Literal.ofNumber t = .ok l)
    (h' : ∀ l ∈ ms, l.type = .uint256 → ∃ t, Literal.ofNumber t = .ok l) :
    ∀ l ∈ ls ++ ms, l.type = .uint256 → ∃ t, Literal.ofNumber t = .ok l :=
  fun l member => (List.mem_append.mp member).elim (h l) (h' l)

theorem Expr.levelClosed_isRead (keywords : List Keyword) : LevelClosed keywords IsRead :=
  ⟨fun _ _ left right => isRead_append left right, fun _ operand => operand⟩

theorem Expr.leafClosed_isRead : LeafClosed (fun _ => True) IsRead where
  number {text l} read k member _ := ⟨text, by rw [List.mem_singleton.mp member]; exact read⟩
  quoted text l member type_eq := by
    rw [List.mem_singleton.mp member, Literal.ofQuoted] at type_eq
    split at type_eq <;> cases type_eq
  bool text l member type_eq := by
    rw [List.mem_singleton.mp member] at type_eq
    cases type_eq
  name _ l member := by cases member
  mapped _ key := key
  binary left right := isRead_append left right
  update _ _ value := value
  updateMapped _ key value := isRead_append key value

theorem Expr.Printable.of_mem_literals (h : e.Printable) {l : Literal} (member : l ∈ e.literals) :
    l.Printable := by
  induction e with
  | hole | name text => cases member
  | literal k => exact List.mem_singleton.mp member ▸ h
  | mapped key tracker ih => exact ih h.1 member
  | binary op left right ihl ihr | logical op ordinal left right ihl ihr =>
    exact (List.mem_append.mp member).elim (ihl h.2.1) (ihr h.2.2)
  | negation ordinal operand ih => exact ih h member
  | update op tracker value ih => exact ih h.2 member
  | updateMapped op key tracker value ihk ihv =>
    exact (List.mem_append.mp member).elim (ihk h.1) (ihv h.2.2)

/-- The text of a number that has been read can be read. -/
theorem Literal.read_of_ofNumber {t : Text} {l : Literal} (h : ofNumber t = .ok l) :
    ∃ n, (radixOf l.text).read l.text = .ok n := by
  simp only [ofNumber] at h
  split at h
  · cases h
  · next n read =>
    refine ⟨n, ?_⟩
    split at h
    · cases h
      exact read
    · split at h <;> cases h
      exact read

/-- A number that has been read has no more decimal digits than are read. -/
theorem Expr.legible_of_isRead (printable : e.Printable) (h : e.IsRead) : e.Legible := by
  intro l member decimal
  rw [Literal.isDecimal, Bool.and_eq_true, beq_iff_eq, Bool.not_eq_true'] at decimal
  obtain ⟨type_eq, notHexadecimal⟩ := decimal
  obtain ⟨t, read⟩ := h l member type_eq
  obtain ⟨n, read⟩ := Literal.read_of_ofNumber read
  rcases printable.of_mem_literals member with ⟨number, -⟩ | ⟨-, same, -⟩ | rfl | rfl
  · have isNumber := isNumber_of_numberLexeme? number
    generalize l.text = w at isNumber read notHexadecimal ⊢
    cases isNumber with
    | decimal nonempty digits =>
      rw [Literal.radixOf_of_isDigit digits, read_decimal nonempty digits] at read
      split at read
      · cases read
      · omega
    | hexadecimal nonempty digits => cases notHexadecimal
  · rw [same, Literal.ofQuoted] at type_eq
    split at type_eq <;> cases type_eq
  · cases type_eq
  · cases type_eq

namespace SetAside

variable {s : SetAside} {e : Expr} {t : Text}

/-- Whether the subexpressions that a state keeps are those of earlier texts: they are kept under
their tokens, and their numbers have been read. -/
structure Regular (s : SetAside) : Prop where
  keyed : Keyed s.subexpressions
  numbers : ∀ entry ∈ s.subexpressions, entry.2.IsRead

/-- The numbers of a level are read from texts. -/
theorem parseLevel_isRead (regular : s.Regular) (h : s.parseLevel t = .ok e) : e.IsRead := by
  have groups : ∀ t ∈ s.groups, True := fun _ _ => trivial
  have operands : ∀ t e, True → s.parseOperand t = .ok e → e.IsRead := fun t e _ parsed => by
    obtain ⟨leaf, phrase, -, -, phrase_eq⟩ := parseOperand_eq_ok parsed
    exact Expr.leafClosed_isRead.toExpr regular.numbers (by simp) phrase_eq
  exact parseWithin_induction (Expr.levelClosed_isRead _) (by simp) groups operands trivial h

theorem meets_buildLevel (t : Text) : (buildLevel t).Meets Regular Expr.IsRead := by
  have collapse : (modifyGet (collapseGroups · t) : Attempt SetAside Text).Meets Regular fun _ =>
    True := by
    refine .modifyGet fun s regular => ⟨?_, ?_⟩ <;> rw [collapseGroups_subexpressions]
    · exact regular.keyed
    · exact regular.numbers
  refine collapse.bind fun collapsed _ => .bind .get fun s regular => ?_
  exact .ofExcept fun e parsed => parseLevel_isRead regular parsed

/-- Building the tree of a text keeps the state regular, also where the text cannot be read. -/
theorem meets_build (t : Text) : (build t).Meets Regular Expr.IsRead := by
  have mask : (modifyGet (maskStrings · t) : Attempt SetAside Text).Meets Regular fun _ => True :=
    .modifyGet fun s regular => ⟨regular.keyed, regular.numbers⟩
  refine mask.bind fun masked _ => .bind (.ofExcept (Q := fun _ => True) (by simp)) fun _ _ => ?_
  have mark : (modifyGet (markKeywords · masked) : Attempt SetAside Text).Meets Regular
      fun _ => True :=
    .modifyGet fun s regular => ⟨regular.keyed, regular.numbers⟩
  refine mark.bind fun marked _ => .bind .get fun s _ => ?_
  refine .bind (.ofExcept (Q := fun _ => True) (by simp)) fun (rest, parts) _ => ?_
  refine .bind (.forM fun (part, n) => ?_) fun _ _ => meets_buildLevel rest
  refine (meets_buildLevel part).bind fun e isRead => .modify fun s regular => ⟨?_, ?_⟩
  · exact fun entry member => (List.mem_append.mp member).elim (regular.keyed entry)
      fun new => ⟨n, by rw [List.mem_singleton.mp new]⟩
  · exact fun entry member => (List.mem_append.mp member).elim (regular.numbers entry)
      fun new => by rw [List.mem_singleton.mp new]; exact isRead

/-- A printed expression is read as the expression, with its keywords numbered after those that the
state holds, exactly if no decimal number in it has more digits than are read. -/
theorem build_print_iff (regular : s.Regular) (room : s.HasRoom (e.print.length + 1))
    (printable : e.Printable) :
    (∃ s', build e.print s = .ok (e.renumber s.keywords.length) s' ∧
      s'.keywords = s.keywords ++ e.connectives) ↔ e.Legible := by
  constructor
  · rintro ⟨s', built, -⟩
    have isRead : (e.renumber s.keywords.length).IsRead := by
      have met := meets_build e.print s regular
      rw [built] at met
      exact met.2
    rw [Expr.IsRead, Expr.literals_renumber] at isRead
    exact Expr.legible_of_isRead printable isRead
  · intro legible
    exact build_print regular.keyed room ⟨printable, legible⟩

theorem build_print_iff_grouped :
    ∃ s', build "[ a OR b ] == true AND NOT ( c OR d | TR:e < 5 )".toList {} =
        .ok (.logical .and 1
          (.binary .eq (.logical .or 0 (.name ['a']) (.name ['b']))
            (.literal (.ofBool "true".toList)))
          (.negation 2 (.logical .or 3 (.name ['c'])
            (.binary .lt (.mapped (.name ['d']) "TR:e".toList)
              (.literal ⟨.int 5, .uint256, ['5']⟩))))) s' ∧
      s'.keywords = [.or, .and, .not, .or] :=
  (build_print_iff (s := {})
    (e := .logical .and 0
      (.binary .eq (.logical .or 0 (.name ['a']) (.name ['b'])) (.literal (.ofBool "true".toList)))
      (.negation 0 (.logical .or 0 (.name ['c'])
        (.binary .lt (.mapped (.name ['d']) "TR:e".toList) (.literal ⟨.int 5, .uint256, ['5']⟩)))))
    ⟨by simp [Keyed], by simp⟩ (.of_le (by decide)) (by decide)).mpr (by decide)

end SetAside

end PolicyRules
