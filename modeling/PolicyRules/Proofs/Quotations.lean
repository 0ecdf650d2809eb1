import PolicyRules.Proofs.ReferenceMarks

/-!
# Quoted segments of a text

A quotation mark that is not closed is the last of its kind. So a text keeps its quoted segments
when its plain segments are changed without making marks, whether or not all marks are closed.

`Scans` is the view of a split that says what is recognised at each place of the text.

Main statements: `Split.scans`, `Scans.scan_eq`, `segments_mapUnquoted`.
-/

namespace PolicyRules

variable {α : Type}

/-- How a text is cut at the marks of a recogniser, from the character before the text on: nothing
is recognised up to the first mark, and what follows a mark is cut in the same way. -/
inductive Scans (recognise : Recogniser α) : Option Char → Text → Split α → Prop
  | text {previous : Option Char} {t : Text} (quiet : Quiet recognise previous t []) :
    Scans recognise previous t ⟨t, []⟩
  | mark {previous : Option Char} {u w t next : Text} {a : α} {tail : List (α × Text)}
    (quiet : Quiet recognise previous u (w ++ t)) (nonempty : w ≠ [])
    (found : recognise (lastChar previous u) (w ++ t) = some (a, w.length))
    (rest : Scans recognise (lastChar previous (u ++ w)) t ⟨next, tail⟩) :
    Scans recognise previous (u ++ (w ++ t)) ⟨u, (a, next) :: tail⟩

/-- Whether a recogniser takes at least one character, and no more than there are. -/
def Measured (recognise : Recogniser α) : Prop :=
  ∀ previous t a width, recognise previous t = some (a, width) → 0 < width ∧ width ≤ t.length

/-- A scan gives the plain segments and marks of a text. -/
theorem Split.scans {recognise : Recogniser α} (measured : Measured recognise)
    (previous : Option Char) (t : Text) :
    Scans recognise previous t (Split.scan recognise 0 previous t) := by
  induction length : t.length using Nat.strongRecOn generalizing previous t with
  | ind n ih =>
    cases t with
    | nil => exact .text trivial
    | cons c cs =>
      rw [List.length_cons] at length
      cases found : recognise previous (c :: cs) with
      | none =>
        have rest := ih cs.length (by omega) (some c) cs rfl
        rw [Split.scan, found]
        simp only
        generalize Split.scan recognise 0 (some c) cs = s at rest
        cases rest with
        | text quiet => exact .text ⟨by simpa using found, quiet⟩
        | @mark _ u w t next a tail quiet nonempty here rest =>
          exact Scans.mark (u := c :: u) ⟨by simpa using found, quiet⟩ nonempty here rest
      | some entry =>
        obtain ⟨a, width⟩ := entry
        obtain ⟨positive, fits⟩ := measured _ _ _ _ found
        obtain ⟨w, t, same, width_eq⟩ : ∃ w t, c :: cs = w ++ t ∧ w.length = width :=
          ⟨(c :: cs).take width, (c :: cs).drop width, (List.take_append_drop ..).symm,
            by simpa using Nat.min_eq_left fits⟩
        have nonempty : w ≠ [] := by
          rintro rfl
          exact absurd width_eq (by simp; omega)
        have shorter : t.length < n := by
          have total := congrArg List.length same
          simp only [List.length_cons, List.length_append] at total
          omega
        have rest := ih t.length shorter (lastChar previous w) t rfl
        rw [same] at found ⊢
        subst width_eq
        rw [Split.scan_append_of_mark nonempty found]
        exact Scans.mark (u := []) trivial nonempty found rest

/-- Whether a text has no quotation mark. -/
def QuoteFree (t : Text) : Prop := ∀ c ∈ t, isQuoteMark c = false

variable {t u v : Text} {previous : Option Char} {q : Quotation} {f : Text → Text}
  {s : Split Quotation}

theorem QuoteFree.append (h : QuoteFree t) (h' : QuoteFree u) : QuoteFree (t ++ u) :=
  List.forall_mem_append.mpr ⟨h, h'⟩

theorem QuoteFree.of_isInfix (h : QuoteFree t) (inside : u <:+: t) : QuoteFree u :=
  fun c member => h c (inside.subset member)

/-- Whether every quotation mark outside quoted segments is closed, so that no plain segment has
one. -/
def Text.QuotesClosed (t : Text) : Prop := ∀ part ∈ t.unquoted, QuoteFree part

instance (t : Text) : Decidable (QuoteFree t) :=
  decidable_of_iff (t.all (! isQuoteMark ·)) (by simp [QuoteFree])

instance (t : Text) : Decidable t.QuotesClosed :=
  inferInstanceAs (Decidable (∀ part ∈ t.unquoted, QuoteFree part))

/-- Whether a quoted segment ends at the first mark of its kind. -/
def Quotation.Proper (q : Quotation) : Prop := isQuoteMark q.mark = true ∧ q.mark ∉ q.body

theorem measured_quotationAt : Measured quotationAt := by
  intro previous t q width h
  obtain ⟨positive, text_eq⟩ := quotationAt_width h
  refine ⟨positive, ?_⟩
  cases t with
  | nil => cases h
  | cons c cs =>
    simp only [quotationAt, Option.ite_none_right_eq_some, Bool.and_eq_true, decide_eq_true_eq,
      Option.some.injEq, Prod.mk.injEq] at h
    obtain ⟨⟨-, shorter⟩, -, rfl⟩ := h
    rw [List.length_cons]
    omega

theorem proper_of_quotationAt {width : Nat} (h : quotationAt previous t = some (q, width)) :
    q.Proper := by
  cases t with
  | nil => cases h
  | cons c cs =>
    simp only [quotationAt, Option.ite_none_right_eq_some, Bool.and_eq_true, Option.some.injEq,
      Prod.mk.injEq] at h
    obtain ⟨⟨isMark, -⟩, rfl, -⟩ := h
    exact ⟨isMark, fun member => by simpa using List.mem_takeWhile_imp member⟩

/-- The quoted segments of a text are proper. -/
theorem proper_of_mem_segments (h : q ∈ t.segments.marks) : q.Proper := by
  obtain ⟨u, v, width, rfl, found⟩ := Split.exists_of_mem_marks h
  exact proper_of_quotationAt found

/-- A proper segment is recognised where it is written. -/
theorem quotationAt_text (proper : q.Proper) (previous : Option Char) (t : Text) :
    quotationAt previous (q.text ++ t) = some (q, q.text.length) := by
  obtain ⟨mark, body⟩ := q
  have run : (body ++ mark :: t).takeWhile (· != mark) = body :=
    takeWhile_append_of_head
      (fun c member => by simpa using fun same : c = mark => proper.2 (same ▸ member)) (by simp)
  simp [Quotation.text, quotationAt, run, proper.1]

/-- Splitting is the only way to cut a text. -/
theorem Scans.scan_eq {recognise : Recogniser α} {s : Split α}
    (h : Scans recognise previous t s) : Split.scan recognise 0 previous t = s := by
  induction h with
  | @text previous t quiet =>
    exact Split.scan_of_quiet quiet
  | @mark previous u w t next a tail quiet nonempty found rest ih =>
    rw [lastChar_append] at ih
    rw [Split.scan_append_of_quiet quiet, Split.scan_append_of_mark nonempty found, ih]
    simp [Split.consMark, Split.consText]

/-- A quotation mark that opens no quoted segment does not occur again. -/
theorem unclosed_of_quiet (quiet : Quiet quotationAt previous u v) :
    (u.filter isQuoteMark).Nodup ∧ ∀ c ∈ u.filter isQuoteMark, c ∉ v := by
  induction u generalizing previous with
  | nil => simp
  | cons c cs ih =>
    obtain ⟨none_here, later⟩ := quiet
    obtain ⟨distinct, apart⟩ := ih later
    cases mark : isQuoteMark c with
    | false => simpa [mark] using ⟨distinct, by simpa using apart⟩
    | true =>
      have outside : c ∉ cs ++ v := by
        intro member
        obtain ⟨body, rest, split, proper⟩ := List.eq_append_cons_of_mem member
        have found := quotationAt_text (q := ⟨c, body⟩) ⟨mark, proper⟩ previous rest
        rw [List.cons_append, split] at none_here
        simp [Quotation.text, none_here] at found
      rw [List.mem_append, not_or] at outside
      rw [List.filter_cons_of_pos mark]
      refine ⟨List.nodup_cons.mpr ⟨fun member => outside.1 (List.mem_filter.mp member).1, distinct⟩,
        ?_⟩
      exact List.forall_mem_cons.mpr ⟨outside.2, apart⟩

/-- A quotation mark that does not occur again opens no quoted segment. -/
theorem quiet_of_unclosed (distinct : (u.filter isQuoteMark).Nodup)
    (apart : ∀ c ∈ u.filter isQuoteMark, c ∉ v) (previous : Option Char) :
    Quiet quotationAt previous u v := by
  induction u generalizing previous with
  | nil => trivial
  | cons c cs ih =>
    cases mark : isQuoteMark c with
    | false =>
      rw [List.filter_cons_of_neg (by simp [mark])] at distinct apart
      exact ⟨quotationAt_cons_eq_none mark _ _, ih distinct apart _⟩
    | true =>
      rw [List.filter_cons_of_pos mark] at distinct apart
      obtain ⟨once, distinct⟩ := List.nodup_cons.mp distinct
      obtain ⟨here, later⟩ := List.forall_mem_cons.mp apart
      have outside : c ∉ cs ++ v := by
        rw [List.mem_append, not_or]
        exact ⟨fun member => once (List.mem_filter.mpr ⟨member, mark⟩), here⟩
      have whole : (cs ++ v).takeWhile (· != c) = cs ++ v := by
        rw [List.takeWhile_eq_self_iff]
        intro d member
        simpa using fun same : d = c => outside (same ▸ member)
      refine ⟨?_, ih distinct later _⟩
      rw [List.cons_append, quotationAt, whole]
      simp

/-- Whether a change of texts makes no quotation marks. -/
def KeepsQuotes (f : Text → Text) : Prop :=
  ∀ part, ((f part).filter isQuoteMark).Sublist (part.filter isQuoteMark)

theorem KeepsQuotes.render_sublist (keeps : KeepsQuotes f) (s : Split Quotation) :
    (((s.mapPlain f).render Quotation.text).filter isQuoteMark).Sublist
      ((s.render Quotation.text).filter isQuoteMark) := by
  obtain ⟨head, tail⟩ := s
  simp only [Split.mapPlain, Split.render, List.filter_append]
  refine (keeps head).append ?_
  induction tail with
  | nil => simp
  | cons piece rest ih =>
    simp only [List.map_cons, List.flatMap_cons, List.filter_append]
    exact ((List.Sublist.refl _).append (keeps piece.2)).append ih

/-- Where no quoted segment is recognised, none is recognised with fewer quotation marks. -/
theorem quiet_of_sublist {u' v' : Text} (h : Quiet quotationAt previous u v)
    (fewer : (u'.filter isQuoteMark).Sublist (u.filter isQuoteMark))
    (later : (v'.filter isQuoteMark).Sublist (v.filter isQuoteMark)) (previous' : Option Char) :
    Quiet quotationAt previous' u' v' := by
  obtain ⟨distinct, apart⟩ := unclosed_of_quiet h
  refine quiet_of_unclosed (distinct.sublist fewer) (fun c member behind => ?_) previous'
  have inside := fewer.subset member
  have marked := later.subset (List.mem_filter.mpr ⟨behind, (List.mem_filter.mp inside).2⟩)
  exact apart c inside (List.mem_filter.mp marked).1

theorem filter_eq_nil_of_quoteFree (free : QuoteFree t) : t.filter isQuoteMark = [] :=
  List.filter_eq_nil_iff.mpr fun c member => by simp [free c member]

/-- Segments, put together, are the text. -/
theorem Scans.render_eq (h : Scans quotationAt previous t s) : s.render Quotation.text = t := by
  induction h with
  | text quiet => simp [Split.render]
  | @mark previous u w t next q tail quiet nonempty found rest ih =>
    have text_eq : q.text = w := by simpa using (quotationAt_width found).2
    rw [Split.render] at ih
    simp [Split.render, text_eq, ih]

theorem Scans.mapPlain (keeps : KeepsQuotes f) (h : Scans quotationAt previous t s)
    (previous' : Option Char) :
    Scans quotationAt previous' ((s.mapPlain f).render Quotation.text) (s.mapPlain f) := by
  induction h generalizing previous' with
  | @text previous t quiet =>
    have still : Quiet quotationAt previous' (f t) [] :=
      quiet_of_sublist quiet (keeps t) (by simp) previous'
    simpa [Split.mapPlain, Split.render] using Scans.text still
  | @mark previous u w t next q tail quiet nonempty found rest ih =>
    have text_eq : q.text = w := by simpa using (quotationAt_width found).2
    have split : (Split.mapPlain f ⟨u, (q, next) :: tail⟩).render Quotation.text =
        f u ++ (w ++ (Split.mapPlain f ⟨next, tail⟩).render Quotation.text) := by
      simp [Split.mapPlain, Split.render, text_eq]
    have later := keeps.render_sublist ⟨next, tail⟩
    rw [rest.render_eq] at later
    rw [split]
    refine .mark (quiet_of_sublist quiet (keeps u) ?_ previous') nonempty ?_ (ih _)
    · rw [List.filter_append, List.filter_append]
      exact (List.Sublist.refl _).append later
    · rw [← text_eq]
      exact quotationAt_text (proper_of_quotationAt found) _ _

/-- The quoted segments stay when the plain segments are changed without making quotation marks. A
mark that is not closed may go, but it closes nothing. -/
theorem segments_mapUnquoted (keeps : KeepsQuotes f) (t : Text) :
    (t.mapUnquoted f).segments = t.segments.mapPlain f :=
  ((Split.scans measured_quotationAt none t).mapPlain keeps none).scan_eq

/-- Only plain segments are mapped. -/
theorem unquoted_mapUnquoted (keeps : KeepsQuotes f) (t : Text) :
    (t.mapUnquoted f).unquoted = t.unquoted.map f := by
  rw [Text.unquoted, segments_mapUnquoted keeps]
  simp [Split.mapPlain, Split.plain, Text.unquoted, Function.comp_def]

/-- Texts without quotation marks before and behind a text are put to its first and last plain
segments. -/
theorem Scans.surround (h : Scans quotationAt previous t s)
    {x y : Text} (freeX : QuoteFree x) (freeY : QuoteFree y) (previous' : Option Char) :
    ∃ s', Scans quotationAt previous' (x ++ (t ++ y)) s' ∧ s'.marks = s.marks ∧
      ∀ part ∈ s.plain, ∃ x' y', x' ++ (part ++ y') ∈ s'.plain ∧ (x' = [] ∨ x' = x) ∧
      (y' = [] ∨ y' = y) := by
  have noX := filter_eq_nil_of_quoteFree freeX
  have noY := filter_eq_nil_of_quoteFree freeY
  induction h generalizing x previous' with
  | @text previous t quiet =>
    refine ⟨⟨x ++ (t ++ y), []⟩, .text ?_, rfl,
      List.forall_mem_singleton.mpr ⟨x, y, by simp [Split.plain], by simp⟩⟩
    exact quiet_of_sublist quiet (by simp [noX, noY]) (by simp) previous'
  | @mark previous u w t next q tail quiet nonempty found rest ih =>
    have proper : q.text = w ∧ q.Proper :=
      ⟨by simpa using (quotationAt_width found).2, proper_of_quotationAt found⟩
    obtain ⟨⟨next', tail'⟩, scanned, marks, parts⟩ :=
      ih (x := []) (by simp [QuoteFree]) (lastChar previous' (x ++ u ++ w)) rfl
    have quiet' : Quiet quotationAt previous' (x ++ u) (w ++ (t ++ y)) :=
      quiet_of_sublist quiet (by simp [noX]) (by simp [noY]) previous'
    have here : quotationAt (lastChar previous' (x ++ u)) (w ++ (t ++ y)) = some (q, w.length) := by
      rw [← proper.1]
      exact quotationAt_text proper.2 _ _
    refine ⟨⟨x ++ u, (q, next') :: tail'⟩, ?_, ?_,
      List.forall_mem_cons.mpr ⟨?_, fun part member => ?_⟩⟩
    · simpa using Scans.mark quiet' nonempty here scanned
    · simpa [Split.marks] using marks
    · exact ⟨x, [], by simp [Split.plain], by simp⟩
    · obtain ⟨x', y', listed, startX, endY⟩ := parts part member
      exact ⟨x', y', List.mem_cons_of_mem _ listed, .inl (by simpa using startX), endY⟩

theorem isQuoteMark_eq_false_of_isBlank {c : Char} (h : isBlank c) : isQuoteMark c = false := by
  cases mark : isQuoteMark c with
  | false => rfl
  | true => rcases isQuoteMark_iff.mp mark with rfl | rfl <;> exact absurd h (by decide)

/-- Stripping a text keeps its quoted segments and takes only blanks from its plain ones. -/
theorem segments_strip (t : Text) : (Text.strip t).segments.marks = t.segments.marks ∧
    ∀ part ∈ (Text.strip t).unquoted, ∃ x y, x ++ (part ++ y) ∈ t.unquoted ∧
      (∀ c ∈ x, isBlank c) ∧ ∀ c ∈ y, isBlank c := by
  obtain ⟨before, behind, same, left, right⟩ := Text.exists_append_strip t
  obtain ⟨s, scanned, marks, parts⟩ :=
    (Split.scans measured_quotationAt none (Text.strip t)).surround
      (fun c member => isQuoteMark_eq_false_of_isBlank (left c member))
    (fun c member => isQuoteMark_eq_false_of_isBlank (right c member)) none
  obtain rfl : t.segments = s := by
    rw [← scanned.scan_eq, ← same]
    rfl
  refine ⟨marks.symm, fun part member => ?_⟩
  obtain ⟨x, y, listed, startX, endY⟩ := parts part member
  refine ⟨x, y, listed, ?_, ?_⟩
  · rcases startX with rfl | rfl
    · simp
    · exact left
  · rcases endY with rfl | rfl
    · simp
    · exact right

/-- What stands at the end of a text and has no quotation mark is in its last plain segment. -/
theorem exists_unquoted_of_suffix (free : QuoteFree v) (h : v <:+ t) :
    ∃ part ∈ t.unquoted, v <:+ part := by
  have scanned := Split.scans measured_quotationAt none t
  change ∃ part ∈ (Split.scan quotationAt 0 none t).plain, v <:+ part
  generalize Split.scan quotationAt 0 none t = s at scanned
  generalize (none : Option Char) = previous at scanned
  induction scanned with
  | @text previous t quiet => exact ⟨t, by simp [Split.plain], h⟩
  | @mark previous u w t next q tail quiet nonempty found rest ih =>
    have text_eq : q.text = w := by simpa using (quotationAt_width found).2
    have isMark : isQuoteMark q.mark := (proper_of_quotationAt found).1
    have inRest : v <:+ t := by
      rw [← List.append_assoc] at h
      rcases List.suffix_or_suffix_of_suffix h (List.suffix_append (u ++ w) t) with later |
        ⟨v', rfl⟩
      · exact later
      · -- Otherwise the quoted segment would end in a text without quotation marks.
        obtain ⟨z, same⟩ := h
        have ends : z ++ v' = u ++ w := List.append_cancel_right (by simpa using same)
        by_cases empty : v' = []
        · exact ⟨[], by simp [empty]⟩
        · obtain ⟨c, member, last⟩ := exists_lastChar_eq empty (lastChar none z)
          rw [← lastChar_append, ends, ← text_eq, Quotation.text, ← List.append_assoc,
            lastChar_append] at last
          obtain rfl := Option.some.inj last
          rw [free q.mark (by simp [member])] at isMark
          cases isMark
    obtain ⟨part, listed, inside⟩ := ih inRest
    exact ⟨part, List.mem_cons_of_mem _ listed, inside⟩

section OpenQuote

/-- The quotation mark that is open behind a character, given the one that is open before it. -/
def quoteStep (state : Option Char) (c : Char) : Option Char :=
  if isQuoteMark c then
    match state with
    | none => some c
    | some mark => if c = mark then none else some mark
  else state

/-- The quotation mark that is open behind a text, given the one that is open before it. -/
def openQuote (state : Option Char) (t : Text) : Option Char := t.foldl quoteStep state

@[simp] theorem openQuote_nil (state : Option Char) : openQuote state [] = state := rfl

@[simp] theorem openQuote_cons (state : Option Char) (c : Char) (t : Text) :
    openQuote state (c :: t) = openQuote (quoteStep state c) t := rfl

@[simp] theorem openQuote_append (state : Option Char) (t u : Text) :
    openQuote state (t ++ u) = openQuote (openQuote state t) u := List.foldl_append

theorem quoteStep_of_plain {c : Char} (plain : isQuoteMark c = false) (state : Option Char) :
    quoteStep state c = state := by
  simp [quoteStep, plain]

/-- Without marks, what is open stays open. -/
theorem openQuote_of_quoteFree (free : QuoteFree t) (state : Option Char) :
    openQuote state t = state := by
  induction t with
  | nil => rfl
  | cons c cs ih =>
    rw [openQuote_cons, quoteStep_of_plain (free c (by simp)),
      ih fun d member => free d (by simp [member])]

/-- Inside quotes only the mark that opened them counts. -/
theorem openQuote_of_not_mem {mark : Char} (outside : mark ∉ t) :
    openQuote (some mark) t = some mark := by
  induction t with
  | nil => rfl
  | cons c cs ih =>
    obtain ⟨other, later⟩ : mark ≠ c ∧ mark ∉ cs := by simpa using outside
    have stays : quoteStep (some mark) c = some mark := by
      simp [quoteStep, Ne.symm other]
    rw [openQuote_cons, stays, ih later]

theorem openQuote_text (proper : q.Proper) : openQuote none q.text = none := by
  have opened : quoteStep none q.mark = some q.mark := by simp [quoteStep, proper.1]
  have ended : quoteStep (some q.mark) q.mark = none := by simp [quoteStep, proper.1]
  rw [Quotation.text, List.cons_append, openQuote_cons, opened, openQuote_append,
    openQuote_of_not_mem proper.2, openQuote_cons, ended, openQuote_nil]

end OpenQuote

end PolicyRules
