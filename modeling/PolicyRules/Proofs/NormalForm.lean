import PolicyRules.Proofs.Extraction
import PolicyRules.Proofs.TreeNames

/-!
# Names in normalized texts

A text in normal form has the tokens of foreign calls in the place of the calls, and keys before
their trackers. A name that stands in it outside quotes is one that extraction has seen: the
reference of a tracker or global variable is marked there, and any other name without a number sign
has stood in the text before. No reference of a foreign call is left.

Main statements: `mem_unquotedMarks_trackerAt`, `mem_unquotedMarks_globalAt`, `mentions_of_stands`,
`not_stands_callReference`.
-/

namespace PolicyRules

variable {mark : TrackerMark} {name part u : Text}

section Marks

variable {previous : Option Char} {t : Text} {width : Nat}

/-- A tracker stands where its reference is a word of its own. -/
theorem trackerAt_eq_some_iff : trackerAt previous t = some (mark, width) ↔
      isClear previous ∧ (∃ b, t = mark.reference ++ b ∧ IsTableName mark.name ∧
        isWordEdge b.head?) ∧ width = mark.reference.length := by
  have apart : ∀ rest, Text.dropStart? updatePrefix (trackerPrefix ++ rest) = none :=
    fun rest => rfl
  unfold trackerAt
  split
  · next clear =>
    simp only [clear, true_and]
    constructor
    · intro h
      split at h
      · next _ _ rest update =>
        obtain rfl := Text.dropStart?_eq_some_iff.mp update
        obtain ⟨name, found, same⟩ := Option.map_eq_some_iff.mp h
        obtain ⟨rfl, rfl⟩ := Prod.mk.inj same
        obtain ⟨b, rfl, table, edge⟩ := nameAt?_eq_some_iff.mp found
        exact ⟨⟨b, by simp [TrackerMark.reference], table, edge⟩, by simp [TrackerMark.reference]⟩
      · next rest _ read =>
        obtain rfl := Text.dropStart?_eq_some_iff.mp read
        obtain ⟨name, found, same⟩ := Option.map_eq_some_iff.mp h
        obtain ⟨rfl, rfl⟩ := Prod.mk.inj same
        obtain ⟨b, rfl, table, edge⟩ := nameAt?_eq_some_iff.mp found
        exact ⟨⟨b, by simp [TrackerMark.reference], table, edge⟩, by simp [TrackerMark.reference]⟩
      · cases h
    · rintro ⟨⟨b, rfl, table, edge⟩, rfl⟩
      obtain ⟨isUpdate, name⟩ := mark
      have found : nameAt? (name ++ b) = some name := nameAt?_eq_some_iff.mpr ⟨b, rfl, table, edge⟩
      cases isUpdate with
      | true =>
        have update : TrackerMark.reference ⟨true, name⟩ ++ b = updatePrefix ++ (name ++ b) := by
          simp [TrackerMark.reference]
        have start : Text.dropStart? updatePrefix (updatePrefix ++ (name ++ b)) =
            some (name ++ b) :=
          Text.dropStart?_eq_some_iff.mpr rfl
        rw [update, start]
        simp [found, TrackerMark.reference]
      | false =>
        have read : TrackerMark.reference ⟨false, name⟩ ++ b = trackerPrefix ++ (name ++ b) := by
          simp [TrackerMark.reference]
        have start : Text.dropStart? trackerPrefix (trackerPrefix ++ (name ++ b)) =
            some (name ++ b) :=
          Text.dropStart?_eq_some_iff.mpr rfl
        rw [read, apart, start]
        simp [found, TrackerMark.reference]
  · next blocked => simp [blocked]

/-- So does a global variable. -/
theorem globalAt_eq_some_iff {reference : Text} :
    globalAt previous t = some (reference, width) ↔
      isClear previous ∧ (∃ name b, reference = globalPrefix ++ name ∧ t = reference ++ b ∧
        IsTableName name ∧ isWordEdge b.head?) ∧ width = reference.length := by
  unfold globalAt
  split
  · next clear =>
    simp only [Option.bind_eq_bind, Option.bind_eq_some_iff, Text.dropStart?_eq_some_iff,
      clear, true_and]
    constructor
    · rintro ⟨rest, rfl, name, found, same⟩
      obtain ⟨rfl, rfl⟩ := Prod.mk.inj (Option.some.inj same)
      obtain ⟨b, rfl, table, edge⟩ := nameAt?_eq_some_iff.mp found
      exact ⟨⟨name, b, rfl, by simp, table, edge⟩, by simp⟩
    · rintro ⟨⟨name, b, rfl, rfl, table, edge⟩, rfl⟩
      exact ⟨_, by simp, name, nameAt?_eq_some_iff.mpr ⟨b, rfl, table, edge⟩, by simp⟩
  · next blocked => simp [blocked]

theorem parenthesized?_eq_some {body : Text} (h : parenthesized? t = some body) :
    ∃ b, t = '(' :: body ++ ')' :: b := by
  unfold parenthesized? at h
  split at h
  · next cs =>
    obtain ⟨closing, same⟩ := Option.ite_none_right_eq_some.mp h
    obtain rfl := Option.some.inj same
    have cut :=
      List.prefix_append_drop (List.takeWhile_prefix (fun c => c != '(' && c != ')') (l := cs))
    obtain ⟨b, rest⟩ := List.head?_eq_some_iff.mp closing
    rw [rest] at cut
    exact ⟨b, by rw [List.cons_append, ← cut]⟩
  · cases h

/-- A foreign call takes its argument list with it. -/
theorem callAt_eq_some (h : callAt previous t = some (name, width)) :
    isClearOfTokens previous ∧ IsTableName name ∧
      ∃ list b, t = (callPrefix ++ name ++ list) ++ b ∧
      width = (callPrefix ++ name ++ list).length ∧
      (list = [] ∧ isWordEdge b.head? ∨ ∃ body, list = '(' :: body ++ [')']) := by
  obtain ⟨⟨name', width'⟩, found, h⟩ := Option.bind_eq_some_iff.mp h
  obtain ⟨clear, ⟨b, rfl, table, edge⟩, rfl⟩ := callNameAt_eq_some_iff.mp found
  have behind : (callPrefix ++ (name' ++ b)).drop (callPrefix.length + name'.length) = b := by
    simp [← List.append_assoc, ← List.length_append]
  simp only [behind] at h
  split at h
  · next body arguments =>
    obtain ⟨rfl, rfl⟩ := Prod.mk.inj (Option.some.inj h)
    obtain ⟨b', rfl⟩ := parenthesized?_eq_some arguments
    exact ⟨clear, table, '(' :: body ++ [')'], b', by simp, by simp; omega, .inr ⟨body, rfl⟩⟩
  · obtain ⟨rfl, rfl⟩ := Prod.mk.inj (Option.some.inj h)
    exact ⟨clear, table, [], b, by simp, by simp, .inl ⟨rfl, edge⟩⟩

/-- A tracker with a key is its reference, and the key in parentheses. -/
theorem mappedTrackerAt_eq_some {mark : TrackerMark × Text}
    (h : mappedTrackerAt previous t = some (mark, width)) :
    isClear previous ∧ IsTableName mark.1.name ∧ mark.2 ≠ [] ∧
      ∃ b, t = (mark.1.reference ++ '(' :: mark.2 ++ [')']) ++ b ∧
        width = (mark.1.reference ++ '(' :: mark.2 ++ [')']).length := by
  obtain ⟨⟨tracker, width'⟩, found, h⟩ := Option.bind_eq_some_iff.mp h
  obtain ⟨key, arguments, made⟩ := Option.bind_eq_some_iff.mp h
  obtain ⟨clear, ⟨b, rfl, table, -⟩, rfl⟩ := trackerAt_eq_some_iff.mp found
  obtain ⟨nonempty, same⟩ := Option.ite_none_left_eq_some.mp made
  obtain ⟨rfl, rfl⟩ := Prod.mk.inj (Option.some.inj same)
  rw [List.drop_left] at arguments
  obtain ⟨b', rfl⟩ := parenthesized?_eq_some arguments
  exact ⟨clear, table, by simpa using nonempty, b', by simp, by simp; omega⟩

/-- The reference of a tracker is a run of reference characters. -/
theorem TrackerMark.isReferenceChar (table : IsTableName mark.name) :
    ∀ c ∈ mark.reference, isReferenceChar c := by
  refine table.isReferenceChar ?_
  cases mark.isUpdate <;> decide

theorem runBound_trackerAt : RunBound trackerAt where
  clear h := (trackerAt_eq_some_iff.mp h).1
  run h := by
    obtain ⟨-, ⟨b, rfl, table, -⟩, rfl⟩ := trackerAt_eq_some_iff.mp h
    rw [List.take_left]
    exact TrackerMark.isReferenceChar table

theorem runBound_globalAt : RunBound globalAt where
  clear h := (globalAt_eq_some_iff.mp h).1
  run h := by
    obtain ⟨-, ⟨name, b, rfl, rfl, table, -⟩, rfl⟩ := globalAt_eq_some_iff.mp h
    rw [List.take_left]
    exact table.isReferenceChar (by decide)

/-- What is recognised at a place outside quotes is among the marks. -/
theorem RunBound.mem_unquotedMarks {α : Type} {recognise : Recogniser α}
    (bound : RunBound recognise) {a : α} {v : Text} (listed : part ∈ t.unquoted)
    (same : part = u ++ v) (nonempty : v ≠ [])
    (found : recognise (lastChar none u) v = some (a, width)) : a ∈ unquotedMarks recognise t := by
  refine List.mem_flatMap.mpr ⟨part, listed, ?_⟩
  rw [same]
  exact bound.mem_marks (by simp) (by simp) found nonempty

/-- A tracker whose reference stands outside quotes is found. -/
theorem mem_unquotedMarks_trackerAt (table : IsTableName mark.name)
    (listed : part ∈ t.unquoted) (h : Stands mark.reference none part) :
    mark ∈ unquotedMarks trackerAt t := by
  obtain ⟨a, b, rfl, before, behind⟩ := h
  refine runBound_trackerAt.mem_unquotedMarks listed rfl ?_ (trackerAt_eq_some_iff.mpr
    ⟨isClear_of_isClearOfTokens before, ⟨b, rfl, table, isWordEdge_of_isClearOfTokens behind⟩, rfl⟩)
  obtain ⟨isUpdate, name⟩ := mark
  cases isUpdate <;> simp [TrackerMark.reference, trackerPrefix, updatePrefix]

/-- A global variable whose reference stands outside quotes is found. -/
theorem mem_unquotedMarks_globalAt (table : IsTableName name)
    (listed : part ∈ t.unquoted) (h : Stands (globalPrefix ++ name) none part) :
    globalPrefix ++ name ∈ unquotedMarks globalAt t := by
  obtain ⟨a, b, rfl, before, behind⟩ := h
  exact runBound_globalAt.mem_unquotedMarks listed rfl (by simp [globalPrefix])
    (globalAt_eq_some_iff.mpr ⟨isClear_of_isClearOfTokens before,
      ⟨name, b, rfl, by simp, table, isWordEdge_of_isClearOfTokens behind⟩, rfl⟩)

end Marks

section Places

variable {n : Text} {previous : Option Char} {t u : Text}

/-- A name stands before a mark that does not begin behind a word. -/
theorem Stands.before_edge (solid : IsSolid n) (h : Stands n previous u)
    (edge : isWordEdge (lastChar previous u)) (t : Text) : Stands n previous (u ++ t) := by
  obtain ⟨a, b, rfl, before, behind⟩ := h
  refine ⟨a, b ++ t, by simp, before, ?_⟩
  cases b with
  | cons c cs => exact behind
  | nil =>
    rw [List.append_nil, lastChar_append, solid.isWordEdge_lastChar] at edge
    cases edge

theorem not_stands_nil (solid : IsSolid n) : ¬ Stands n previous [] := by
  rintro ⟨a, b, same, -⟩
  obtain ⟨c, cs, rfl, -⟩ := solid.head
  simp at same

/-- A name that stands in a text is mentioned by it. -/
theorem standsIn_of_stands (h : Stands n previous t) : standsIn n previous t := by
  obtain ⟨a, b, rfl, before, behind⟩ := h
  have start : Text.dropStart? n (n ++ b) = some b := Text.dropStart?_eq_some_iff.mpr rfl
  induction a generalizing previous with
  | nil =>
    have here : standsAt n previous (n ++ b) := by
      simp only [standsAt, start, Bool.and_eq_true]
      exact ⟨before, isClear_of_isClearOfTokens behind⟩
    rw [List.nil_append]
    cases whole : n ++ b with
    | nil => rw [standsIn, ← whole, here]
    | cons c cs => rw [standsIn, ← whole, here, Bool.true_or]
  | cons c cs ih =>
    rw [List.cons_append, standsIn, ih before, Bool.or_true]

theorem mentions_of_stands (listed : part ∈ t.unquoted) (h : Stands n none part) : mentions n t :=
  List.any_eq_true.mpr ⟨part, listed, standsIn_of_stands h⟩

end Places

section Keys

variable {n : Text} {previous : Option Char} {t : Text}

theorem measured_mappedTrackerAt : Measured mappedTrackerAt := by
  intro previous t mark width h
  obtain ⟨-, -, -, b, rfl, rfl⟩ := mappedTrackerAt_eq_some h
  simp

theorem isRunChar_of_isReferenceChar {c : Char} (h : isReferenceChar c) : isRunChar c := by
  simp only [isReferenceChar, isRunChar] at h ⊢
  simp [h]

theorem TrackerMark.isRunChar (table : IsTableName mark.name) : ∀ c ∈ mark.reference, isRunChar c :=
  fun c member => isRunChar_of_isReferenceChar (isReferenceChar table c member)

/-- Whether a name begins like the reference of a tracker. -/
def BeginsWithTracker (n : Text) : Prop := trackerPrefix <+: n ∨ updatePrefix <+: n

theorem BeginsWithTracker.of_reference : BeginsWithTracker mark.reference := by
  obtain ⟨isUpdate, name⟩ := mark
  cases isUpdate
  · exact .inl ⟨name, rfl⟩
  · exact .inr ⟨name, rfl⟩

theorem BeginsWithTracker.append {v : Text} (h : BeginsWithTracker u) :
    BeginsWithTracker (u ++ v) :=
  h.imp (·.trans (List.prefix_append u v)) (·.trans (List.prefix_append u v))

/-- Only names that begin like a tracker stand where the reference of a tracker begins. -/
theorem Stands.of_reference (table : IsTableName mark.name)
    (other : ¬ BeginsWithTracker n) (h : Stands n previous (mark.reference ++ t)) :
    Stands n none t := by
  have run := TrackerMark.isRunChar table
  rcases h.append_cases with ⟨a, b, same, before, behind⟩ | later | ⟨a, u, v, b, same, -, rfl, -, -,
    before, -⟩
  · have noStart : a = [] :=
      eq_nil_of_clear_lastChar (fun c member => run c (by simp [same, member])) before
    have noEnd : b = [] :=
      eq_nil_of_clear_head (fun c member => run c (by simp [same, member])) behind
    subst noStart noEnd
    rw [List.nil_append, List.append_nil] at same
    exact absurd (same ▸ .of_reference) other
  · exact later.of_clear rfl
  · have noStart : a = [] :=
      eq_nil_of_clear_lastChar (fun c member => run c (by simp [same, member])) before
    subst noStart
    rw [List.nil_append] at same
    exact absurd (.append (same ▸ .of_reference)) other

/-- Whether no tracker begins inside a name, wherever the name has begun in a text. -/
def Unbroken (n t : Text) : Prop :=
  ∀ u v, n = u ++ v → u ≠ [] → isClear (lastChar none u) → ¬ u ++ ['T'] <:+: t

/-- A tracker begins inside no name that has only characters of references. -/
theorem unbroken_of_isReferenceChar (reference : ∀ c ∈ n, isReferenceChar c) : Unbroken n t := by
  intro u v same nonempty clear _
  obtain ⟨c, member, last⟩ := exists_lastChar_eq nonempty none
  rw [last, isClear_some, reference c (by simp [same, member])] at clear
  cases clear

/-- A name that is unbroken in a text is so in every part of it. -/
theorem Unbroken.of_isInfix {t' : Text} (h : Unbroken n t) (inside : t' <:+: t) : Unbroken n t' :=
  fun u v same nonempty clear found => h u v same nonempty clear (found.trans inside)

theorem TrackerMark.exists_cons (mark : TrackerMark) : ∃ rest, mark.reference = 'T' :: rest := by
  obtain ⟨isUpdate, name⟩ := mark
  cases isUpdate
  · exact ⟨_, rfl⟩
  · exact ⟨_, rfl⟩

/-- A name that stands in the text before a tracker, with a key behind, stands there or in the
key. -/
theorem Stands.of_key (solid : IsSolid n) {key : Text} (unbroken : Unbroken n (u ++ ['T']))
    (clear : isClear (lastChar previous u))
    (h : Stands n previous (u ++ if (Text.strip key).contains ' ' then '(' :: Text.strip key ++
      [')'] else Text.strip key)) : Stands n previous u ∨ Stands n none key := by
  split at h
  · have opened : Stands n previous (u ++ '(' :: (Text.strip key ++ ')' :: [])) := by simpa using h
    rcases opened.separator solid (by decide) with before | inside
    · exact .inl before
    · rcases inside.separator solid (by decide) with inKey | behind
      · exact .inr (inKey.of_clear rfl).of_strip
      · exact absurd behind (not_stands_nil solid)
  · rcases h.append_cases with ⟨a, b, same, before, behind⟩ | inKey |
      ⟨a, u', v, b, rfl, -, same, nonempty, -⟩
    · exact .inl (.of_within same before behind)
    · exact .inr (inKey.of_clear rfl).of_strip
    · rw [lastChar_append, lastChar_of_ne_nil nonempty _ none] at clear
      exact absurd ⟨a, [], by simp⟩ (unbroken u' v same nonempty clear)

/-- A name other than that of a tracker stands in a text in which keys have been put before their
trackers only if it stood in the text before. -/
theorem stands_of_mappedText (solid : IsSolid n) (unbroken : Unbroken n t)
    (other : ¬ BeginsWithTracker n) {s : Split (TrackerMark × Text)}
    (scanned : Scans mappedTrackerAt previous t s) (h : Stands n previous (s.render mappedText)) :
    Stands n previous t := by
  induction scanned with
  | text quiet => simpa [Split.render] using h
  | @mark previous u w t next mark tail quiet nonempty found rest ih =>
    obtain ⟨clear, table, -, b, same, width⟩ := mappedTrackerAt_eq_some found
    obtain ⟨rfl, rfl⟩ := List.append_inj same width
    have edge := isWordEdge_of_isClear clear
    obtain ⟨tracker, key⟩ := mark
    obtain ⟨name, reference⟩ := tracker.exists_cons
    have keyed : Stands n none key → Stands n (lastChar previous u)
        ((tracker.reference ++ '(' :: key ++ [')']) ++ t) := by
      intro inKey
      have opened : Stands n (lastChar previous u)
          (tracker.reference ++ '(' :: (key ++ ')' :: t)) :=
        .of_separator (by decide) (.inr (.of_separator (by decide) (.inl inKey)))
      simpa using opened
    have written : Stands n previous
        ((u ++ if (Text.strip key).contains ' ' then '(' :: Text.strip key ++
          [')'] else Text.strip key) ++ ' ' :: ([] ++ '|' ::
            ([] ++ ' ' :: (tracker.reference ++ Split.render mappedText ⟨next, tail⟩)))) := by
      simpa [Split.render, mappedText] using h
    rcases written.separator solid (by decide) with first | behind
    · have before : Unbroken n (u ++ ['T']) :=
        unbroken.of_isInfix ⟨[], name ++ '(' :: key ++ ')' :: t, by simp [reference]⟩
      rcases Stands.of_key solid before clear first with before | inKey
      · exact before.before_edge solid edge _
      · exact (keyed inKey).append_right
    · rcases behind.separator solid (by decide) with empty | behind
      · exact absurd empty (not_stands_nil solid)
      rcases behind.separator solid (by decide) with empty | behind
      · exact absurd empty (not_stands_nil solid)
      have closing : isClearOfTokens
          (lastChar previous (u ++ (tracker.reference ++ '(' :: key ++ [')']))) := by
        simp [lastChar, isRunChar]
        decide
      have inRest : Unbroken n t :=
        unbroken.of_isInfix ⟨u ++ (tracker.reference ++ '(' :: key ++ [')']), [], by simp⟩
      have later := ih inRest ((Stands.of_reference table other behind).of_clear closing)
      rw [← List.append_assoc]
      exact later.append_right

end Keys

section Calls

variable {n : Text}

theorem measured_callAt : Measured callAt := by
  intro previous t name width h
  obtain ⟨-, -, list, b, rfl, rfl, -⟩ := callAt_eq_some h
  simp [callPrefix]

/-- A call divides words. -/
theorem divides_callAt : Divides callAt where
  left h := .inl (isWordEdge_of_isClearOfTokens (callAt_eq_some h).1)
  right h := by
    obtain ⟨-, -, list, b, same, width, behind⟩ := callAt_eq_some h
    obtain ⟨rfl, rfl⟩ := List.append_inj same width
    rcases behind with ⟨rfl, edge⟩ | ⟨body, rfl⟩
    · exact .inl edge
    · right
      rw [lastChar_append, lastChar_append]
      rfl

theorem IsPlainName.isTableName (h : IsPlainName name) : IsTableName name := by
  obtain ⟨c, cs, rfl, start, rest⟩ := h
  exact ⟨c, cs, rfl, start, fun d member => isWordChar_of_isNameChar (rest d member)⟩

theorem IsTableName.isSolid (h : IsTableName name) : IsSolid name where
  head := by
    obtain ⟨c, cs, rfl, start, -⟩ := h
    exact ⟨c, cs, rfl, start⟩
  inside c member := isSeparator_eq_false_of_isRunChar (by simp [isRunChar, h.isWordChar c member])
  isWordEdge_lastChar previous := by
    have nonempty : name ≠ [] := by
      obtain ⟨c, cs, rfl, -⟩ := h
      simp
    obtain ⟨c, member, last⟩ := exists_lastChar_eq nonempty previous
    simp [last, isWordEdge, h.isWordChar c member]

/-- A reference is a name. -/
theorem IsTableName.isSolid_append {start : Text} (h : IsTableName name)
    (run : start.all PolicyRules.isReferenceChar) (head : ∃ c cs, start = c :: cs ∧ isNameStart c) :
    IsSolid (start ++ name) where
  head := by
    obtain ⟨c, cs, rfl, first⟩ := head
    exact ⟨c, cs ++ name, rfl, first⟩
  inside c member :=
    isSeparator_eq_false_of_isRunChar
      (isRunChar_of_isReferenceChar (h.isReferenceChar run c member))
  isWordEdge_lastChar previous := by
    rw [lastChar_append]
    exact h.isSolid.isWordEdge_lastChar _

/-- A foreign call is found wherever its reference stands. -/
theorem callAt_isSome {b : Text} {previous : Option Char} (table : IsTableName name)
    (clear : isClearOfTokens previous) (behind : isWordEdge b.head?) :
    (callAt previous (callPrefix ++ name ++ b)).isSome := by
  have found : callNameAt previous (callPrefix ++ name ++ b) =
      some (name, callPrefix.length + name.length) :=
    callNameAt_eq_some_iff.mpr ⟨clear, ⟨b, by simp, table, behind⟩, rfl⟩
  rw [callAt, found]
  simp only [Option.bind_eq_bind, Option.bind_some]
  split <;> rfl

end Calls

section Quotes

theorem Text.isInfix_strip (t : Text) : Text.strip t <:+: t := by
  obtain ⟨before, behind, same, -⟩ := Text.exists_append_strip t
  exact ⟨before, behind, by simpa using same.symm⟩

/-- What keeps quotes brings no quotation mark in. -/
theorem KeepsQuotes.quoteFree {f : Text → Text} (keeps : KeepsQuotes f) (free : QuoteFree part) :
    QuoteFree (f part) := by
  intro c member
  cases mark : isQuoteMark c with
  | false => rfl
  | true =>
    have before := (keeps part).subset (List.mem_filter.mpr ⟨member, mark⟩)
    rw [free c (List.mem_filter.mp before).1] at mark
    cases mark

/-- Replacing marks makes no quotation marks, if what is written for a mark has no more of them than
the mark. -/
theorem keepsQuotes_render {α : Type} {recognise : Recogniser α} (measured : Measured recognise)
    {write : α → Text}
    (fewer : ∀ {previous w t a}, recognise previous (w ++ t) = some (a, w.length) →
      ((write a).filter isQuoteMark).Sublist (w.filter isQuoteMark)) :
    KeepsQuotes fun part => (part.split recognise).render write := by
  have render : ∀ {previous t s}, Scans recognise previous t s →
      ((s.render write).filter isQuoteMark).Sublist (t.filter isQuoteMark) := by
    intro previous t s scanned
    induction scanned with
    | text quiet => simp [Split.render]
    | @mark previous u w t next a tail quiet nonempty found rest ih =>
      have split : Split.render write ⟨u, (a, next) :: tail⟩ =
          u ++ (write a ++ Split.render write ⟨next, tail⟩) := by
        simp [Split.render]
      rw [split, List.filter_append, List.filter_append, List.filter_append, List.filter_append]
      exact (List.Sublist.refl _).append ((fewer found).append ih)
  exact fun part => render (Split.scans measured none part)

theorem quoteFree_token (call : ForeignCall) : QuoteFree call.token := by
  have letters : QuoteFree "FC#".toList := by decide
  have digits : ∀ k, QuoteFree (Text.ofNat k) := fun k =>
    quoteFree_of_isNameChar fun _ => isNameChar_of_mem_ofNat
  refine letters.append ?_
  cases call.id with
  | ofNat k => exact digits k
  | negSucc k => exact List.forall_mem_cons.mpr ⟨by decide, digits (k + 1)⟩

theorem IsTableName.quoteFree (h : IsTableName name) : QuoteFree name := by
  intro c member
  cases mark : isQuoteMark c with
  | false => rfl
  | true =>
    have word := h.isWordChar c member
    rcases isQuoteMark_iff.mp mark with rfl | rfl <;> exact absurd word (by decide)

theorem TrackerMark.quoteFree (table : IsTableName mark.name) : QuoteFree mark.reference := by
  have starts : ∀ isUpdate : Bool, QuoteFree
      (if isUpdate then updatePrefix else trackerPrefix) := by decide
  exact (starts mark.isUpdate).append table.quoteFree

/-- Putting keys before their trackers makes no quotation marks. -/
theorem keepsQuotes_mappedText :
    KeepsQuotes fun part => (part.split mappedTrackerAt).render mappedText := by
  refine keepsQuotes_render measured_mappedTrackerAt ?_
  intro previous w t mark found
  obtain ⟨-, table, -, b, same, width⟩ := mappedTrackerAt_eq_some found
  obtain ⟨rfl, rfl⟩ := List.append_inj same width
  have reference : mark.1.reference.filter isQuoteMark = [] :=
    filter_eq_nil_of_quoteFree (TrackerMark.quoteFree table)
  have key : ((Text.strip mark.2).filter isQuoteMark).Sublist (mark.2.filter isQuoteMark) :=
    (Text.isInfix_strip mark.2).sublist.filter _
  have marks : (mappedText mark).filter isQuoteMark = (Text.strip mark.2).filter isQuoteMark := by
    unfold mappedText
    simp only [List.filter_append, reference, List.append_nil]
    split
    · simp [isQuoteMark]
    · simp [isQuoteMark]
  rw [marks]
  simpa [List.filter_append, reference, List.filter_cons, isQuoteMark] using key

/-- What has no blanks in it stands in a squeezed text only if it stood in the text before. -/
theorem isInfix_of_squeeze {t w : Text} (solid : ∀ c ∈ w, isBlank c = false) (nonempty : w ≠ [])
    (h : w <:+: Text.squeeze t) : w <:+: t := by
  obtain ⟨a, b, same⟩ := h
  rw [List.append_assoc] at same
  induction t generalizing a with
  | nil =>
    rw [Text.squeeze] at same
    simp [nonempty] at same
  | cons c cs ih =>
    cases a with
    | nil =>
      obtain ⟨b', whole, -⟩ := exists_append_of_squeeze solid same.symm
      exact ⟨[], b', whole.symm⟩
    | cons d a =>
      rw [Text.squeeze] at same
      split at same
      · split at same
        · exact (ih _ same).trans (List.suffix_cons c cs).isInfix
        · exact (ih a (List.cons.inj same).2).trans (List.suffix_cons c cs).isInfix
      · exact (ih a (List.cons.inj same).2).trans (List.suffix_cons c cs).isInfix

/-- A numbered word of a cleaned text was in the text before. -/
theorem hasNumbered_clean {start source : Text} (solid : ∀ c ∈ start, isBlank c = false)
    (h : hasNumbered start source = false) : hasNumbered start (Text.clean source) = false := by
  refine hasNumbered_eq_false_iff.mpr fun d digit found => ?_
  have solidDigit : isBlank d = false :=
    isBlank_eq_false_of_isReferenceChar
      (by simp [isReferenceChar, isWordChar_of_isDecimalDigit digit])
  refine not_infix_of_hasNumbered h digit
    (isInfix_of_squeeze ?_ (by simp) (found.trans (Text.isInfix_strip _)))
  exact List.forall_mem_append.mpr ⟨solid, List.forall_mem_singleton.mpr solidDigit⟩

theorem isInfix_of_mem_segments {t : Text} {q : Quotation} (h : q ∈ t.segments.marks) :
    q.text <:+: t := by
  obtain ⟨u, v, width, rfl, found⟩ := Split.exists_of_mem_marks h
  rw [(quotationAt_width found).2]
  exact (List.take_prefix width v).isInfix.trans (List.suffix_append u v).isInfix

end Quotes

namespace Tables

variable {tables : Tables} {source n : Text}

/-- The normal form of a part outside quotes. -/
def normalizePart (tables : Tables) (part : Text) : Text :=
  (((part.split callAt).render tables.callToken).split mappedTrackerAt).render mappedText

/-- Replacing foreign calls by tokens makes no quotation marks. -/
theorem keepsQuotes_callToken (tables : Tables) :
    KeepsQuotes fun part => (part.split callAt).render tables.callToken := by
  refine keepsQuotes_render measured_callAt ?_
  intro previous w t name found
  have free : QuoteFree (tables.callToken name) := by
    unfold callToken
    cases tables.call? name with
    | none => simp [QuoteFree]
    | some call => exact quoteFree_token call
  rw [filter_eq_nil_of_quoteFree free]
  exact List.nil_sublist _

/-- The text has no quotation mark that is not closed, once foreign calls with their argument lists
have been replaced by tokens. -/
def QuotesClosed (tables : Tables) (source : Text) : Prop :=
  (tables.withTokens (Text.clean source)).QuotesClosed

instance (tables : Tables) (source : Text) : Decidable (tables.QuotesClosed source) :=
  inferInstanceAs (Decidable (Text.QuotesClosed _))

/-- Plain segments are normalised one by one, quoted ones stay. -/
theorem segments_normalize (tables : Tables) (source : Text) :
    (tables.normalize source).segments = (Text.clean source).segments.mapPlain
      tables.normalizePart := by
  rw [normalize, replaceUnquoted, segments_mapUnquoted keepsQuotes_mappedText, withTokens,
    replaceUnquoted, segments_mapUnquoted (keepsQuotes_callToken tables)]
  simp [Split.mapPlain, normalizePart]

theorem unquoted_normalize (tables : Tables) (source : Text) :
    (tables.normalize source).unquoted = (Text.clean source).unquoted.map tables.normalizePart := by
  rw [Text.unquoted, segments_normalize]
  simp [Split.mapPlain, Split.plain, Text.unquoted, Function.comp_def]

/-- The normal form leaves no quotation mark open. -/
theorem quotesClosed_normalize (closed : tables.QuotesClosed source) :
    (tables.normalize source).QuotesClosed := by
  intro part member
  rw [normalize, replaceUnquoted, unquoted_mapUnquoted keepsQuotes_mappedText] at member
  obtain ⟨piece, listed, rfl⟩ := List.mem_map.mp member
  exact keepsQuotes_mappedText.quoteFree (closed piece listed)

/-- The quoted segments of a normalized text are those of the text itself. -/
theorem hasNumbered_of_mem_marks (h : hasNumbered "q:".toList source = false)
    {q : Quotation} (member : q ∈ (tables.normalize source).segments.marks) :
    hasNumbered "q:".toList q.text = false := by
  have listed : q ∈ (Text.clean source).segments.marks := by
    simpa [segments_normalize, Split.mapPlain, Split.marks, Function.comp_def] using member
  have solid : ∀ c ∈ "q:".toList, isBlank c = false := by
    have all : "q:".toList.all (! isBlank ·) := by decide
    simpa using all
  exact hasNumbered_of_isInfix (hasNumbered_clean solid h) (isInfix_of_mem_segments listed)

/-- Whether every foreign call that a text names is known. -/
def KnowsCalls (tables : Tables) (source : Text) : Prop :=
  ∀ name ∈ unquotedMarks callAt (Text.clean source), (tables.call? name).isSome

/-- Where all references are found, all calls are known. -/
theorem Findings.knowsCalls {dependencies : List Text} (f : Findings tables source dependencies) :
    tables.KnowsCalls source := by
  intro name member
  obtain ⟨call, -, found⟩ := exists_of_mapM_eq_ok f.named_eq member
  rw [require_eq_ok_iff.mp found]
  rfl

section Stands

variable (known : tables.KnowsCalls source) (solid : IsSolid n)
  (reference : ∀ c ∈ n, isReferenceChar c) (other : ¬ BeginsWithTracker n)
  (listed : part ∈ (tables.normalize source).unquoted) (h : Stands n none part)
include known solid reference other listed h

/-- A name that stands in a normalized text has stood between the foreign calls of the text. -/
theorem exists_piece_of_stands :
    ∃ part ∈ (Text.clean source).unquoted, ∃ piece ∈ (part.split callAt).plain,
      Stands n none piece := by
  rw [unquoted_normalize] at listed
  obtain ⟨part, member, rfl⟩ := List.mem_map.mp listed
  have tokens := stands_of_mappedText solid (unbroken_of_isReferenceChar reference) other
    (Split.scans measured_mappedTrackerAt none _) h
  refine ⟨part, member, Split.stands_of_render (fun name marked => ?_) tokens⟩
  obtain ⟨call, found⟩ :=
    Option.isSome_iff_exists.mp (known name (List.mem_flatMap.mpr ⟨part, member, marked⟩))
  rw [callToken, found]
  exact severs_callToken solid (fun hash => absurd (reference '#' hash) (by decide)) call

/-- A name that stands in a normalized text is mentioned by the text. -/
theorem mentions_of_stands_normalize : mentions n (Text.clean source) := by
  obtain ⟨part, member, piece, isPiece, stands⟩ :=
    exists_piece_of_stands known solid reference other listed h
  have scanned := Split.scans measured_callAt none part
  exact mentions_of_stands member (scanned.stands divides_callAt solid (.inr rfl) isPiece stands)

end Stands

/-- No reference of a foreign call stands in a normalized text. -/
theorem not_stands_callReference (known : tables.KnowsCalls source) (table : IsTableName name)
    (listed : part ∈ (tables.normalize source).unquoted) :
    ¬ Stands (callPrefix ++ name) none part := by
  intro h
  have solid : IsSolid (callPrefix ++ name) :=
    table.isSolid_append (by decide) ⟨'F', ['C', ':'], rfl, by decide⟩
  have other : ¬ BeginsWithTracker (callPrefix ++ name) := by
    rintro (⟨rest, same⟩ | ⟨rest, same⟩) <;> cases same
  obtain ⟨part, -, piece, isPiece, stands⟩ :=
    exists_piece_of_stands known solid (table.isReferenceChar (by decide)) other listed h
  obtain ⟨a, b, -, before, behind, nothing⟩ :=
    (Split.scans measured_callAt none part).exists_place divides_callAt solid (.inr rfl)
      isPiece stands
  have found := callAt_isSome table before (isWordEdge_of_isClearOfTokens behind)
  rw [nothing] at found
  cases found

end Tables

end PolicyRules
