import PolicyRules.Proofs.NameResolution
import PolicyRules.Proofs.PlainTexts
import PolicyRules.Proofs.Respacing

/-!
# Keys of trackers

A tracker with a key is put into normal form as text: the key comes before the bar, in parentheses
if it has a space in it. Since the bar binds tighter than every operator, the key stays one operand
exactly if it is in parentheses or has no operator, so an expression that is written without spaces
loses all but its last operand. The tracker is read behind the bar exactly if its name is one of the
grammar.

Main statement: `extract_keyed_iff`.
-/

namespace PolicyRules

/-- Whether a lexeme is an operand of its own. -/
def Lexeme.isOperand : Lexeme → Bool
  | name _ | number _ | string _ => true
  | operator _ | update _ | bar | leftParen | rightParen => false

namespace Derives

variable {c : Category} {xs : List Lexeme} {p : Phrase}

/-- Behind a derived list of lexemes comes what can follow an operand. -/
theorem exists_after (h : Derives c xs p) (first : Bool) :
    ∃ updatable, xs.foldl Expecting.after (.operand first) = .operator updatable := by
  induction h generalizing first with
  | ofSum h ih | ofProduct h ih | ofAtom h ih | ofPrimary h ih => exact ih first
  | compare fits h h' ih ih' | updateMapped op h name h' ih ih' | add fits h h' ih ih'
  | multiply fits h h' ih ih' =>
    rw [List.foldl_append]
    exact ih' false
  | update op name h ih => exact ih false
  | mapped h name ih | paren h ih =>
    rw [List.foldl_append]
    exact ⟨_, rfl⟩
  | name h | number h | string h => exact ⟨_, rfl⟩

theorem ne_nil (h : Derives c xs p) : xs ≠ [] := by
  rintro rfl
  obtain ⟨updatable, same⟩ := h.exists_after true
  cases same

/-- Operands alone are derived as a primary. -/
theorem primary_of_isOperand (h : Derives c xs p) (operands : ∀ x ∈ xs, x.isOperand) :
    Derives .primary xs p := by
  induction h with
  | ofSum h ih | ofProduct h ih | ofAtom h ih | ofPrimary h ih => exact ih operands
  | @compare xs ys left right op | @add xs ys left right op | @multiply xs ys left right op =>
    cases operands (.operator op) (by simp)
  | @update ys value target op => cases operands (.update op) (by simp)
  | updateMapped | mapped => cases operands .bar (by simp)
  | name h => exact .name h
  | number h => exact .number h
  | string h => exact .string h
  | paren => cases operands .leftParen (by simp)

/-- A primary without parentheses is a single operand. -/
theorem isOperand_of_primary (h : Derives .primary xs p) (noParen : .leftParen ∉ xs) :
    ∀ x ∈ xs, x.isOperand := by
  cases h with
  | name | number | string => simp [Lexeme.isOperand]
  | paren => exact absurd (by simp) noParen

/-- A keyed access ends with a bar and its tracker, and what stands before them is its key, if it is
not in parentheses. -/
theorem of_mapped {key : Phrase} {tracker : Text} (h : Derives c xs (.mapped key tracker)) :
    IsName tracker ∧
      (.leftParen ∈ xs ∨ ∃ ys, xs = ys ++ [.bar, .name tracker] ∧ Derives .primary ys key) := by
  generalize same : Phrase.mapped key tracker = p at h
  induction h with
  | ofSum h ih | ofProduct h ih | ofAtom h ih | ofPrimary h ih => exact ih same
  | compare | update | updateMapped | add | multiply | name | number | string => cases same
  | mapped h name =>
    cases same
    exact ⟨name, .inr ⟨_, rfl, h⟩⟩
  | paren h ih => exact ⟨(ih same).1, .inl (by simp)⟩

end Derives

variable {c : Char} {t : Text} {α : Type}

section Operators

variable {e : Expecting} {t w : Text} {x : Lexeme} {xs : List Lexeme}

theorem isOperatorChar_eq_false_of_isNameChar (h : isNameChar c) : isOperatorChar c = false := by
  cases sign : isOperatorChar c with
  | false => rfl
  | true =>
    have other := isReferenceChar_eq_false_of_isOperatorChar sign
    rw [isReferenceChar_of_isNameChar h] at other
    cases other

theorem isOperatorChar_eq_false_of_isName (h : IsName w) : ∀ c ∈ w, isOperatorChar c = false := by
  intro c member
  cases h with
  | call nonempty all =>
    simp only [List.mem_cons] at member
    rcases member with rfl | rfl | rfl | digit
    · rfl
    · rfl
    · rfl
    · exact isOperatorChar_eq_false_of_isNameChar (isNameChar_of_isDigit (all c digit))
  | plain h => exact isOperatorChar_eq_false_of_isNameChar (h.all c member)
  | pair h h' =>
    simp only [List.mem_append, List.mem_cons] at member
    rcases member with first | rfl | second
    · exact isOperatorChar_eq_false_of_isNameChar (h.all c first)
    · rfl
    · exact isOperatorChar_eq_false_of_isNameChar (h'.all c second)

/-- A lexeme is an operand if it has no character of an operator. -/
theorem Lexeme.FitsAt.isOperand_iff (fits : x.FitsAt e) (flat : Flat x.text) :
    x.isOperand ↔ ∀ c ∈ x.text, isOperatorChar c = false := by
  have signed : ∀ {u : Text}, u.all (! isOperatorChar ·) = false → ¬ ∀ c ∈ u, isOperatorChar c =
      false := by
    intro u some none
    rw [List.all_eq_true.mpr fun c member => by simp [none c member]] at some
    cases some
  cases x with
  | name w => exact iff_of_true rfl (isOperatorChar_eq_false_of_isName fits.isWord)
  | number w =>
    have digits := IsNumber.isNameChar fits.isWord
    exact iff_of_true rfl fun c member => isOperatorChar_eq_false_of_isNameChar (digits c member)
  | string w => exact absurd flat (IsQuoted.not_flat fits.isWord)
  | operator op | update op => exact iff_of_false Bool.false_ne_true (signed (by cases op <;> rfl))
  | bar => exact iff_of_false Bool.false_ne_true (signed rfl)
  | leftParen => exact absurd rfl (flat '(' (by simp [Lexeme.text])).2.1
  | rightParen => exact absurd rfl (flat ')' (by simp [Lexeme.text])).2.2

theorem isOperatorChar_eq_false_of_isLayout (h : isLayout c) : isOperatorChar c = false := by
  simpa using of_isLayout (p := fun c => ! isOperatorChar c) (by decide) h

namespace Lexed

/-- A text has an operator exactly if one of its lexemes is not an operand. -/
theorem isOperand_iff (h : Lexed e t xs) (flat : Flat t) :
    (∀ x ∈ xs, x.isOperand) ↔ ∀ c ∈ t, isOperatorChar c = false := by
  induction h with
  | nil layout =>
    exact iff_of_true (by simp) fun c member => isOperatorChar_eq_false_of_isLayout
      (layout c member)
  | cons layout found h ih =>
    obtain ⟨-, flatHere, flatLater⟩ := Flat.append.mp flat |>.imp_right Flat.append.mp
    rw [List.forall_mem_cons, List.forall_mem_append, List.forall_mem_append, ih flatLater,
      (lexeme?_sound found).1.isOperand_iff flatHere]
    exact (and_iff_right fun c member => isOperatorChar_eq_false_of_isLayout (layout c member)).symm

theorem leftParen_not_mem (h : Lexed e t xs) (flat : Flat t) : .leftParen ∉ xs := by
  induction h with
  | nil => simp
  | cons layout found h ih =>
    obtain ⟨-, flatHere, flatLater⟩ := Flat.append.mp flat |>.imp_right Flat.append.mp
    rw [List.mem_cons, not_or]
    refine ⟨?_, ih flatLater⟩
    rintro rfl
    exact (flatHere '(' (by simp [Lexeme.text])).2.1 rfl

end Lexed

end Operators

/-- A text without quotation marks is one plain segment. -/
theorem QuoteFree.segments_eq (free : QuoteFree t) : t.segments = ⟨t, []⟩ := by
  have noMarks := filter_eq_nil_of_quoteFree free
  have quiet : Quiet quotationAt none t [] := quiet_of_unclosed (by simp [noMarks]) (by simp) none
  exact (Scans.text quiet).scan_eq

theorem QuoteFree.unquoted_eq (free : QuoteFree t) : t.unquoted = [t] := by
  rw [Text.unquoted, free.segments_eq]
  rfl

/-- Without quotes, marks are looked for in the whole text. -/
theorem QuoteFree.unquotedMarks_eq (free : QuoteFree t) (recognise : Recogniser α) :
    unquotedMarks recognise t = (t.split recognise).marks := by
  rw [unquotedMarks, free.unquoted_eq, List.flatMap_singleton]

theorem QuoteFree.replaceUnquoted_eq (free : QuoteFree t) (recognise : Recogniser α)
    (write : α → Text) : replaceUnquoted recognise write t = (t.split recognise).render write := by
  rw [replaceUnquoted, Text.mapUnquoted, free.segments_eq]
  simp [Split.mapPlain, Split.render]

/-- A text in which nothing is recognised is one plain piece. -/
theorem split_eq_of_marks_eq_nil {recognise : Recogniser α}
    (h : (t.split recognise).marks = []) : t.split recognise = ⟨t, []⟩ :=
  (Scans.text (Split.quiet_of_scan (List.map_eq_nil_iff.mp h))).scan_eq

namespace TrackerMark

variable {mark : TrackerMark}

/-- The letters before the colon of a reference. -/
def letters (mark : TrackerMark) : Text := if mark.isUpdate then "TRU".toList else "TR".toList

theorem reference_eq (mark : TrackerMark) : mark.reference = mark.letters ++ ':' :: mark.name := by
  obtain ⟨isUpdate, name⟩ := mark
  cases isUpdate <;> rfl

theorem isPlainName_letters (mark : TrackerMark) : IsPlainName mark.letters := by
  obtain ⟨isUpdate, name⟩ := mark
  cases isUpdate with
  | true => exact ⟨'T', ['R', 'U'], rfl, rfl, List.all_eq_true.mp (by decide)⟩
  | false => exact ⟨'T', ['R'], rfl, rfl, List.all_eq_true.mp (by decide)⟩

theorem colon_not_mem_letters (mark : TrackerMark) : ':' ∉ mark.letters :=
  mark.isPlainName_letters.isTableName.colon_not_mem

/-- The reference of a tracker is a name of the grammar exactly if the tracker has a plain name. -/
theorem isName_reference_iff : IsName mark.reference ↔ IsPlainName mark.name := by
  constructor
  · intro h
    rw [reference_eq] at h
    generalize same : mark.letters ++ ':' :: mark.name = w at h
    have colon : ':' ∈ w := by simp [← same]
    cases h with
    | @call digits nonempty all =>
      have digit : ':' ∈ digits := by simpa using colon
      cases all ':' digit
    | plain h => exact absurd colon h.isTableName.colon_not_mem
    | @pair v w h h' =>
      rw [eq_comm, List.append_cons_inj_of_notMem h.isTableName.colon_not_mem
        h'.isTableName.colon_not_mem] at same
      exact same.2.2 ▸ h'
  · intro h
    rw [reference_eq]
    exact .pair mark.isPlainName_letters h

end TrackerMark

/-- Whether a text has the reference of a tracker, and no other colon. -/
structure TrackerMark.OnlyIn (mark : TrackerMark) (t : Text) : Prop where
  table : IsTableName mark.name
  split : ∃ u v, t = u ++ (mark.reference ++ v) ∧ ':' ∉ u ∧ ':' ∉ v ∧ isWordEdge v.head?

namespace TrackerMark.OnlyIn

variable {mark : TrackerMark} {t : Text}

/-- What stands around a colon of such a text. -/
theorem around (h : mark.OnlyIn t) {a b : Text} (same : t = a ++ ':' :: b) :
    (∃ u, a = u ++ mark.letters) ∧ nameAt? b = some mark.name := by
  obtain ⟨table, u, v, split, noColonLeft, noColonRight, edge⟩ := h
  have left : ':' ∉ u ++ mark.letters := by simp [noColonLeft, mark.colon_not_mem_letters]
  have right : ':' ∉ mark.name ++ v := by simp [table.colon_not_mem, noColonRight]
  have cut : (u ++ mark.letters) ++ ':' :: (mark.name ++ v) = a ++ ':' :: b := by
    rw [← same, split, mark.reference_eq]
    simp
  rw [List.append_cons_inj_of_notMem left right] at cut
  obtain ⟨rfl, -, rfl⟩ := cut
  exact ⟨⟨u, rfl⟩, nameAt?_eq_some_iff.mpr ⟨v, rfl, table, edge⟩⟩

/-- No other kind of reference is in such a text. -/
theorem not_isInfix (h : mark.OnlyIn t) (start : Text) (other : c ≠ 'R' ∧ c ≠ 'U') :
    ¬ start ++ [c, ':'] <:+: t := by
  rintro ⟨a, b, same⟩
  have cut : t = (a ++ start ++ [c]) ++ ':' :: b := by simpa using same.symm
  obtain ⟨⟨u, ends⟩, -⟩ := h.around cut
  have last := congrArg List.getLast? ends
  obtain ⟨isUpdate, name⟩ := mark
  cases isUpdate with
  | true =>
    have letter : c = 'U' := by simpa [letters] using last
    exact other.2 letter
  | false =>
    have letter : c = 'R' := by simpa [letters] using last
    exact other.1 letter

/-- Every tracker that the text names is the one. -/
theorem name_eq_of_mem_marks (h : mark.OnlyIn t) {mark' : TrackerMark}
    (member : mark' ∈ (t.split trackerAt).marks) : mark'.name = mark.name := by
  obtain ⟨a, b, width, rfl, found⟩ := Split.exists_of_mem_marks member
  obtain ⟨-, ⟨b, rfl, table, edge⟩, -⟩ := trackerAt_eq_some_iff.mp found
  have cut : a ++ (mark'.reference ++ b) = (a ++ mark'.letters) ++ ':' :: (mark'.name ++ b) := by
    rw [mark'.reference_eq]
    simp
  have name := (h.around cut).2
  rw [nameAt?_eq_some_iff.mpr ⟨b, rfl, table, edge⟩] at name
  exact Option.some.inj name

/-- No call stands in a text that names a tracker only. -/
theorem marks_callAt_eq_nil (h : mark.OnlyIn t) : (t.split callAt).marks = [] := by
  apply List.eq_nil_iff_forall_not_mem.mpr
  intro name member
  obtain ⟨a, b, width, rfl, found⟩ := Split.exists_of_mem_marks member
  obtain ⟨-, -, list, b, rfl, -⟩ := callAt_eq_some found
  have absent := h.not_isInfix ['F'] (c := 'C') (by decide)
  exact absent ⟨a, name ++ list ++ b, by simp [callPrefix]⟩

theorem marks_globalAt_eq_nil (h : mark.OnlyIn t) : (t.split globalAt).marks = [] := by
  apply List.eq_nil_iff_forall_not_mem.mpr
  intro reference member
  obtain ⟨a, b, width, rfl, found⟩ := Split.exists_of_mem_marks member
  obtain ⟨-, ⟨name, b, rfl, rfl, -⟩, -⟩ := globalAt_eq_some_iff.mp found
  have absent := h.not_isInfix ['G'] (c := 'V') (by decide)
  exact absent ⟨a, name ++ b, by simp [globalPrefix]⟩

end TrackerMark.OnlyIn

/-- A tracker with a key, as a text has it. -/
def TrackerMark.keyed (mark : TrackerMark) (key : Text) : Text :=
  mark.reference ++ '(' :: (key ++ [')'])

section Keyed

variable {mark : TrackerMark} {k : Text}

/-- Cleaning squeezes the blanks of the key. -/
theorem clean_keyed (table : IsTableName mark.name) (k : Text) :
    Text.clean (mark.keyed k) = mark.keyed (Text.squeeze k) := by
  have solid : ∀ c ∈ mark.reference ++ ['('], isBlank c = false := by
    refine List.forall_mem_append.mpr ⟨fun c member => ?_, List.forall_mem_singleton.mpr rfl⟩
    exact isBlank_eq_false_of_isReferenceChar (TrackerMark.isReferenceChar table c member)
  have closing : ∀ c ∈ [')'], isBlank c = false := List.forall_mem_singleton.mpr rfl
  calc
    Text.clean (mark.keyed k)
      = Text.clean ([] ++ ((mark.reference ++ ['(']) ++ (k ++ ([')'] ++ [])))) := by
      simp [TrackerMark.keyed]
    _ = (mark.reference ++ ['(']) ++ squeezeEnd (k ++ ([')'] ++ [])) :=
      clean_of_solid (by simp) solid (by simp) _
    _ = (mark.reference ++ ['(']) ++ (Text.squeeze k ++ ([')'] ++ squeezeEnd [])) := by
      rw [squeezeEnd_of_solid closing (by simp)]
    _ = mark.keyed (Text.squeeze k) := by
      rw [squeezeEnd_of_blank (by simp)]
      simp [TrackerMark.keyed]

theorem Flat.squeeze (flat : Flat k) : Flat (Text.squeeze k) := by
  intro c member
  by_cases blank : isBlank c
  · refine ⟨isQuoteMark_eq_false_of_isBlank blank, ?_, ?_⟩
    · rintro rfl
      cases blank
    · rintro rfl
      cases blank
  · exact flat c (mem_of_mem_squeeze (by simpa using blank) member)

theorem squeeze_ne_nil (nonempty : k ≠ []) : Text.squeeze k ≠ [] := by
  obtain ⟨c, cs, rfl⟩ := List.exists_cons_of_ne_nil nonempty
  by_cases blank : isBlank c
  · obtain ⟨rest, spaced⟩ := squeeze_cons_of_isBlank blank cs
    simp [spaced]
  · simp [Text.squeeze, blank]

/-- The tracker is recognised with its key. -/
theorem mappedTrackerAt_keyed (table : IsTableName mark.name) (flat : Flat k) (nonempty : k ≠ []) :
    mappedTrackerAt none (mark.keyed k) = some ((mark, k), (mark.keyed k).length) := by
  have found : trackerAt none (mark.keyed k) = some (mark, mark.reference.length) :=
    trackerAt_eq_some_iff.mpr ⟨rfl, ⟨_, rfl, table, rfl⟩, rfl⟩
  have inside : (k ++ [')']).takeWhile (fun c => c != '(' && c != ')') = k :=
    takeWhile_append_of_head (fun c member => by simp [(flat c member).2]) (by simp)
  have list : parenthesized? ('(' :: (k ++ [')'])) = some k := by simp [parenthesized?, inside]
  have behind : (mark.keyed k).drop mark.reference.length = '(' :: (k ++ [')']) := List.drop_left
  have empty : k.isEmpty = false := by simpa using nonempty
  simp only [mappedTrackerAt, found, Option.bind_eq_bind, Option.bind_some, behind, list, empty]
  simp [TrackerMark.keyed, Nat.add_assoc]

theorem quoteFree_keyed (table : IsTableName mark.name) (flat : Flat k) :
    QuoteFree (mark.keyed k) := by
  have key : QuoteFree ('(' :: (k ++ [')'])) := by
    refine List.forall_mem_cons.mpr
      ⟨rfl, List.forall_mem_append.mpr ⟨fun c member => (flat c member).1, ?_⟩⟩
    exact List.forall_mem_singleton.mpr rfl
  exact (TrackerMark.quoteFree table).append key

theorem colon_not_mem_squeeze (noColon : ':' ∉ k) : ':' ∉ Text.squeeze k :=
  fun member => noColon (mem_of_mem_squeeze rfl member)

theorem onlyIn_keyed (table : IsTableName mark.name) (noColon : ':' ∉ k) :
    mark.OnlyIn (mark.keyed k) :=
  ⟨table, [], '(' :: (k ++ [')']), rfl, by simp, by simp [noColon], rfl⟩

theorem onlyIn_mappedText (table : IsTableName mark.name) (noColon : ':' ∉ k) :
    mark.OnlyIn (mappedText (mark, k)) := by
  have inside : ':' ∉ Text.strip k := fun member => noColon ((Text.isInfix_strip k).subset member)
  refine ⟨table, _, [], by rw [List.append_nil]; rfl, ?_, by simp, rfl⟩
  split
  · simp [inside]
  · simp [inside]

theorem render_keyed (table : IsTableName mark.name) (flat : Flat k) (nonempty : k ≠ []) :
    ((mark.keyed k).split mappedTrackerAt).render mappedText = mappedText (mark, k) := by
  have found := mappedTrackerAt_keyed table flat nonempty
  rw [← List.append_nil (mark.keyed k)] at found ⊢
  rw [Text.split, Split.scan_append_of_mark (by simp [TrackerMark.keyed])
    (by rwa [List.append_nil] at found ⊢)]
  simp [Split.scan]

/-- The normal form has the key in front of the tracker. -/
theorem normalize_keyed (tables : Tables) (table : IsTableName mark.name) (flat : Flat k)
    (noColon : ':' ∉ k) (nonempty : k ≠ []) :
    tables.normalize (mark.keyed k) = mappedText (mark, Text.squeeze k) := by
  have free := quoteFree_keyed table flat.squeeze
  have noCalls := (onlyIn_keyed table (colon_not_mem_squeeze noColon)).marks_callAt_eq_nil
  have tokens : tables.withTokens (mark.keyed (Text.squeeze k)) = mark.keyed (Text.squeeze k) := by
    rw [Tables.withTokens, free.replaceUnquoted_eq, split_eq_of_marks_eq_nil noCalls]
    simp [Split.render]
  rw [Tables.normalize, clean_keyed table, tokens, free.replaceUnquoted_eq]
  exact render_keyed table flat.squeeze (squeeze_ne_nil nonempty)

end Keyed

/-- A text that names no foreign calls depends on nothing. -/
theorem Tables.extract_of_no_calls {tables : Tables} {source : Text}
    (named : tables.namedCalls source (Text.clean source) = .ok []) :
    tables.extract source = tables.extract source (some []) := by
  simp only [extract, named, bind, Except.bind, List.map_nil, List.eraseDups_nil, Option.getD_none,
    Option.getD_some]

/-- A tracker with a key is brought into normal form, if the tracker is known. -/
theorem exists_extract_keyed {tables : Tables} {mark : TrackerMark} {k : Text}
    (listed : mark.name ∈ tables.trackers.map Tracker.name) (table : IsTableName mark.name)
    (flat : Flat k) (noColon : ':' ∉ k) (nonempty : k ≠ []) :
    ∃ x, tables.extract (mark.keyed k) = .ok x ∧ x.text = mappedText (mark, Text.squeeze k) := by
  have normal := normalize_keyed tables table flat noColon nonempty
  have freeBefore := quoteFree_keyed table flat.squeeze
  have free := keepsQuotes_mappedText.quoteFree freeBefore
  rw [render_keyed table flat.squeeze (squeeze_ne_nil nonempty)] at free
  have before := onlyIn_keyed table (colon_not_mem_squeeze noColon)
  have behind := onlyIn_mappedText table (colon_not_mem_squeeze noColon)
  have calls : tables.namedCalls (mark.keyed k) (Text.clean (mark.keyed k)) = .ok [] := by
    rw [Tables.namedCalls, clean_keyed table, freeBefore.unquotedMarks_eq,
      before.marks_callAt_eq_nil]
    rfl
  have globals : namedGlobals (mark.keyed k) (tables.normalize (mark.keyed k)) = .ok [] := by
    rw [namedGlobals, normal, free.unquotedMarks_eq, behind.marks_globalAt_eq_nil]
    rfl
  obtain ⟨trackers, known⟩ :
      ∃ found,
        tables.namedTrackers (mark.keyed k) (tables.normalize (mark.keyed k)) = .ok found := by
    apply exists_mapM_eq_ok_iff.mpr
    intro mark' member
    rw [normal, free.unquotedMarks_eq] at member
    obtain ⟨entry, entered, name⟩ := List.mem_map.mp listed
    obtain ⟨tracker, found⟩ :=
      Option.isSome_iff_exists.mp (Table.find?_isSome_iff.mpr ⟨entry, entered, name⟩)
    refine ⟨(mark'.isUpdate, tracker), ?_⟩
    rw [behind.name_eq_of_mem_marks member, Tables.tracker?, found]
    rfl
  have findings : Tables.Findings tables (mark.keyed k) [] :=
    ⟨[], [], trackers, [], [], calls, rfl, known, rfl, globals⟩
  refine ⟨⟨tables.normalize (mark.keyed k), findings.components.foldl addComponent []⟩, ?_, normal⟩
  rw [Tables.extract_of_no_calls calls]
  exact Tables.extract_eq_ok_iff.mpr ⟨findings, rfl⟩

section Reading

variable {mark : TrackerMark} {k : Text} {xs : List Lexeme} {p : Phrase}

/-- The lexemes of a key in normal form. -/
def keyLexemes (key : Text) (xs : List Lexeme) : List Lexeme :=
  if ' ' ∈ Text.clean key then .leftParen :: xs ++ [.rightParen] else xs

/-- The bar and the tracker are read behind a key. -/
theorem lexed_bar (name : IsName mark.reference) (updatable : Bool) :
    Lexed (.operator updatable) (" | ".toList ++ mark.reference) [.bar, .name mark.reference] := by
  have tracker : Lexed .tracker mark.reference [.name mark.reference] := by
    have whole : Lexed .tracker ((Lexeme.name mark.reference).text ++ []) [.name mark.reference] :=
      .lexeme name (.inr endsWord_nil) (.nil (by simp))
    rwa [List.append_nil] at whole
  have bar : Lexed (.operator updatable) (Lexeme.bar.text ++ ' ' :: mark.reference)
      [.bar, .name mark.reference] :=
    .lexeme trivial (.inr (endsWord_space _)) (tracker.layout_cons rfl)
  exact bar.layout_cons rfl

/-- The lexemes of a tracker with a key in normal form are those of the key, a bar and the
tracker. -/
theorem lexed_mappedText (lexed : Lexed (.operand true) k xs) (sentence : Sentence xs p)
    (flat : Flat k) (name : IsName mark.reference) :
    Lexed (.operand true) (mappedText (mark, Text.squeeze k))
      (keyLexemes k xs ++ [.bar, .name mark.reference]) := by
  obtain ⟨x, xs, rfl⟩ := List.exists_cons_of_ne_nil (Derives.ne_nil sentence)
  obtain ⟨updatable, after⟩ := Derives.exists_after sentence true
  have written : mappedText (mark, Text.squeeze k) =
      (if ' ' ∈ Text.clean k then '(' :: Text.clean k ++ [')'] else Text.clean k) ++
        (" | ".toList ++ mark.reference) := by
    rw [mappedText, List.append_assoc]
    simp only [List.contains_iff_mem]
    rfl
  rw [written, keyLexemes]
  split
  · have closing : Lexed (.operator updatable)
        (Lexeme.rightParen.text ++ (" | ".toList ++ mark.reference))
        [.rightParen, .bar, .name mark.reference] :=
      .lexeme trivial (.inr (endsWord_space _)) (lexed_bar name false)
    rw [← after] at closing
    have inside := lexed.clean_append flat (by simp [Lexeme.text, separates]) closing
    have whole : Lexed (.operand true) (Lexeme.leftParen.text ++ _) (.leftParen :: _) :=
      .lexeme trivial (.inl rfl) inside
    simpa [Lexeme.text] using whole
  · have bar := lexed_bar name updatable
    rw [← after] at bar
    exact lexed.clean_append flat (by simp [separates, isBlank_space]) bar

/-- A key stays one operand, if it is put into parentheses or has no operator. -/
theorem sentence_keyed (lexed : Lexed (.operand true) k xs) (sentence : Sentence xs p)
    (flat : Flat k) (name : IsName mark.reference)
    (kept : ' ' ∈ Text.clean k ∨ ∀ c ∈ k, isOperatorChar c = false) :
    Sentence (keyLexemes k xs ++ [.bar, .name mark.reference]) (.mapped p mark.reference) := by
  have key : Derives .primary (keyLexemes k xs) p := by
    rw [keyLexemes]
    by_cases spaced : ' ' ∈ Text.clean k
    · rw [if_pos spaced]
      exact .paren sentence
    · rw [if_neg spaced]
      exact Derives.primary_of_isOperand sentence
        ((lexed.isOperand_iff flat).mpr (kept.resolve_left spaced))
  exact .ofSum (.ofProduct (.ofAtom (.mapped key name)))

/-- Only such a key stays one operand. -/
theorem kept_of_sentence {key : Phrase} (lexed : Lexed (.operand true) k xs) (flat : Flat k)
    (sentence : Sentence (keyLexemes k xs ++ [.bar, .name mark.reference])
      (.mapped key mark.reference)) : ' ' ∈ Text.clean k ∨ ∀ c ∈ k, isOperatorChar c = false := by
  by_cases spaced : ' ' ∈ Text.clean k
  · exact .inl spaced
  · rw [keyLexemes, if_neg spaced] at sentence
    have noParen := lexed.leftParen_not_mem flat
    -- Nothing is in parentheses, so the key is all that stands before the bar, and the grammar
    -- takes only a primary there.
    rcases (Derives.of_mapped sentence).2 with paren | ⟨ys, same, primary⟩
    · exact absurd paren (by simpa using noParen)
    · obtain rfl := List.append_cancel_right same
      exact .inr ((lexed.isOperand_iff flat).mp (primary.isOperand_of_primary noParen))

/-- A leaf that is accepted has a phrase, which gives the expression. -/
theorem exists_phrase_of_parseLeaf {table : List (Text × Expr)} {e : Expr}
    (h : parseLeaf table t = .ok e) : ∃ p, Phrase.ofText t = .ok p ∧ p.toExpr table = .ok e := by
  unfold parseLeaf at h
  split at h
  · next p read => exact ⟨p, read, h⟩
  · cases h

/-- Without subexpressions, only a keyed access is read as one. -/
theorem eq_mapped_of_toExpr {K : Expr} {tracker : Text}
    (h : p.toExpr [] = .ok (.mapped K tracker)) : ∃ key, p = .mapped key tracker := by
  cases p with
  | name text =>
    simp only [Phrase.toExpr, Expr.ofName, Table.value?, Table.find?, List.reverse_nil,
      List.find?_nil, Option.map_none, Except.ok.injEq] at h
    split at h
    · cases h
    · cases h
  | number text =>
    rw [Phrase.toExpr] at h
    split at h
    · cases h
    · cases h
    · cases h
  | string text => cases h
  | mapped key tracker' =>
    simp only [Phrase.toExpr, bind_eq_ok_iff, pure_eq_ok_iff] at h
    obtain ⟨_, -, -, -, same⟩ := h
    exact ⟨key, by rw [(Expr.mapped.inj same).2]⟩
  | binary op left right =>
    simp only [Phrase.toExpr, bind_eq_ok_iff, pure_eq_ok_iff] at h
    obtain ⟨_, -, _, -, same⟩ := h
    cases same
  | update op target value =>
    simp only [Phrase.toExpr, bind_eq_ok_iff] at h
    obtain ⟨_, -, result⟩ := h
    split at result
    · cases result
    · cases result
  | updateMapped op key tracker' value =>
    simp only [Phrase.toExpr, bind_eq_ok_iff, pure_eq_ok_iff] at h
    obtain ⟨_, -, -, -, _, -, same⟩ := h
    cases same

end Reading

/-- A tracker with a key is read as an access of the tracker at that key exactly if the tracker has
a plain name, and the key is put into parentheses or has no operator. -/
theorem extract_keyed_iff {tables : Tables} {mark : TrackerMark}
    (listed : mark.name ∈ tables.trackers.map Tracker.name) {k : Text} (flat : Flat k)
    (noColon : ':' ∉ k) {K : Expr} (accepted : parseLeaf [] k = .ok K) :
    (∃ x, tables.extract (mark.keyed k) = .ok x ∧
      parseLeaf [] x.text = .ok (.mapped K mark.reference)) ↔
      IsPlainName mark.name ∧ (' ' ∈ Text.clean k ∨ ∀ c ∈ k, isOperatorChar c = false) := by
  obtain ⟨p, read, meaning⟩ := exists_phrase_of_parseLeaf accepted
  obtain ⟨xs, lexed, sentence⟩ := exists_lexed_iff.mp read
  have nonempty : k ≠ [] := by
    rintro rfl
    cases accepted
  constructor
  · rintro ⟨x, extracted, parsed⟩
    obtain ⟨q, read', meaning'⟩ := exists_phrase_of_parseLeaf parsed
    obtain ⟨key, rfl⟩ := eq_mapped_of_toExpr meaning'
    obtain ⟨zs, lexed', sentence'⟩ := exists_lexed_iff.mp read'
    -- The form of the tracker's name is known from the phrase alone, and with it the text that was
    -- read.
    have name := (Derives.of_mapped sentence').1
    have isPlain := TrackerMark.isName_reference_iff.mp name
    obtain ⟨x', extracted', text⟩ :=
      exists_extract_keyed listed isPlain.isTableName flat noColon nonempty
    obtain rfl : x = x' := Except.ok.inj (extracted.symm.trans extracted')
    rw [text] at lexed'
    obtain rfl := lexed'.eq (lexed_mappedText lexed sentence flat name)
    exact ⟨isPlain, kept_of_sentence lexed flat sentence'⟩
  · rintro ⟨isPlain, kept⟩
    have name := TrackerMark.isName_reference_iff.mpr isPlain
    obtain ⟨x, extracted, text⟩ :=
      exists_extract_keyed listed isPlain.isTableName flat noColon nonempty
    refine ⟨x, extracted, ?_⟩
    have lexed' := lexed_mappedText lexed sentence flat name
    rw [text, parseLeaf,
      exists_lexed_iff.mpr ⟨_, lexed', sentence_keyed lexed sentence flat name kept⟩]
    have tracker : requireTracker mark.reference = .ok () := by
      rw [requireTracker, trackerReference?_eq_some_iff.mpr ⟨mark, rfl, rfl⟩]
      rfl
    simp only [Phrase.toExpr, meaning, tracker]
    rfl

/-- The tables of a policy with one tracker. -/
def tablesWithTracker : Tables := { trackers := [⟨['t'], 1, .uint256⟩] }

/-- A sum as a key. -/
def sumKey : Expr := .binary .add (.name ['a']) (.name ['b'])

/-- A sum stays one key if it is written with spaces. Without them only its last operand is the
key. -/
theorem extract_keyed_iff_sum :
    (∃ x, tablesWithTracker.extract "TRU:t(a +  b)".toList = .ok x ∧
      parseLeaf [] x.text = .ok (.mapped sumKey "TRU:t".toList)) ∧
    ¬ ∃ x, tablesWithTracker.extract "TR:t(a+b)".toList = .ok x ∧
      parseLeaf [] x.text = .ok (.mapped sumKey "TR:t".toList) := by
  have listed : ∀ isUpdate, (TrackerMark.mk isUpdate ['t']).name ∈
      tablesWithTracker.trackers.map Tracker.name :=
    fun _ => .head _
  have spaced :=
    extract_keyed_iff (K := sumKey) (listed true) (k := "a +  b".toList) (by decide) (by decide) rfl
  have joined :=
    extract_keyed_iff (K := sumKey) (listed false) (k := "a+b".toList) (by decide) (by decide) rfl
  constructor
  · exact spaced.mpr ⟨⟨'t', [], rfl, rfl, by simp⟩, .inl (by decide)⟩
  · intro h
    rcases (joined.mp h).2 with space | none
    · exact absurd space (by decide)
    · cases none '+' (by decide)

end PolicyRules
