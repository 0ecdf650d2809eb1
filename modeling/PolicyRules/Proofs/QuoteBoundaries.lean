import PolicyRules.Proofs.ArgumentFilters
import PolicyRules.Proofs.NormalForm

/-!
# Quote boundaries

Extracting references changes the plain segments of a text: argument lists go, and keys are moved. A
quotation mark in a plain segment, which is never closed, may go or move with them, but it is the
last of its kind, so it opens and closes nothing before or after. The quoted segments stay what they
are in the cleaned text.

Main statement: `Tables.quotedSegments_of_extract`.
-/

namespace PolicyRules

/-- The entries at odd places, counted from zero. -/
def oddEntries {α : Type} : List α → List α
  | _ :: second :: rest => second :: oddEntries rest
  | _ => []

/-- The quoted segments of a text, with their marks. -/
def Text.quotedSegments (t : Text) : List Text := oddEntries t.segmentTexts

/-- Whether no quotation mark of a text occurs again, in it or in what follows. -/
def LeavesOpen (part behind : Text) : Prop :=
  ∀ x c y, part = x ++ c :: y → isQuoteMark c → c ∉ y ++ behind

namespace Split

/-- The segments of a split as texts. -/
def segmentTexts (s : Split Quotation) : List Text :=
  s.head :: s.tail.flatMap fun piece => [piece.1.text, piece.2]

theorem segmentTexts_cons (u next : Text) (q : Quotation) (tail : List (Quotation × Text)) :
    segmentTexts ⟨u, (q, next) :: tail⟩ = u :: q.text :: segmentTexts ⟨next, tail⟩ := rfl

theorem oddEntries_segmentTexts (s : Split Quotation) :
    oddEntries s.segmentTexts = s.marks.map Quotation.text := by
  obtain ⟨head, tail⟩ := s
  induction tail generalizing head with
  | nil => rfl
  | cons piece tail ih =>
    rw [segmentTexts_cons, oddEntries, ih]
    rfl

theorem flatten_segmentTexts (s : Split Quotation) :
    s.segmentTexts.flatten = s.render Quotation.text := by
  obtain ⟨head, tail⟩ := s
  induction tail generalizing head with
  | nil => rfl
  | cons piece tail ih =>
    rw [segmentTexts_cons, List.flatten_cons, List.flatten_cons, ih]
    simp [render]

end Split

theorem Text.quotedSegments_eq (t : Text) :
    t.quotedSegments = t.segments.marks.map Quotation.text :=
  t.segments.oddEntries_segmentTexts

/-- Joined, the segments of a text are the text. -/
theorem Text.flatten_segmentTexts (t : Text) : t.segmentTexts.flatten = t :=
  t.segments.flatten_segmentTexts.trans (render_segments t)

/-- A quoted segment runs from a mark to the next one of its kind. -/
theorem Text.exists_of_mem_quotedSegments {t w : Text} (member : w ∈ t.quotedSegments) :
    ∃ mark body, isQuoteMark mark ∧ w = mark :: (body ++ [mark]) ∧ mark ∉ body := by
  rw [quotedSegments_eq] at member
  obtain ⟨q, listed, rfl⟩ := List.mem_map.mp member
  obtain ⟨isMark, outside⟩ := proper_of_mem_segments listed
  exact ⟨q.mark, q.body, isMark, rfl, outside⟩

theorem leavesOpen_of_quiet {u v : Text} {previous : Option Char}
    (quiet : Quiet quotationAt previous u v) : LeavesOpen u v := by
  rintro x c y rfl mark
  obtain ⟨distinct, apart⟩ := unclosed_of_quiet quiet
  rw [List.filter_append, List.filter_cons_of_pos mark] at distinct apart
  have once : c ∉ y.filter isQuoteMark := (List.nodup_cons.mp (List.nodup_append.mp distinct).2.1).1
  rw [List.mem_append, not_or]
  exact ⟨fun member => once (List.mem_filter.mpr ⟨member, mark⟩), apart c (by simp)⟩

/-- A plain segment has only marks that do not occur again. -/
theorem Scans.leavesOpen {previous : Option Char} {t : Text} {s : Split Quotation}
    (h : Scans quotationAt previous t s) {before behind : List Text} {part : Text}
    (cut : s.segmentTexts = before ++ part :: behind) (plain : before.length % 2 = 0) :
    LeavesOpen part behind.flatten := by
  induction h generalizing before with
  | @text previous t quiet =>
    obtain ⟨rfl, rfl, rfl⟩ : before = [] ∧ part = t ∧ behind = [] := by
      simpa [Split.segmentTexts, eq_comm, List.append_eq_singleton_iff] using cut
    exact leavesOpen_of_quiet quiet
  | @mark previous u w t next q tail quiet nonempty found rest ih =>
    have text_eq : q.text = w := by simpa using (quotationAt_width found).2
    rw [Split.segmentTexts_cons, text_eq] at cut
    cases before with
    | nil =>
      obtain ⟨rfl, rfl⟩ := List.cons.inj cut
      rw [List.flatten_cons, Split.flatten_segmentTexts, rest.render_eq]
      exact leavesOpen_of_quiet quiet
    | cons first before =>
      cases before with
      | nil => exact absurd plain (by simp)
      | cons second before =>
        refine ih (List.cons.inj (List.cons.inj cut).2).2 ?_
        rw [List.length_cons, List.length_cons] at plain
        omega

namespace Tables

/-- The quoted segments of a normalized text are those of the cleaned text. -/
theorem quotedSegments_normalize (tables : Tables) (source : Text) :
    (tables.normalize source).quotedSegments = (Text.clean source).quotedSegments := by
  rw [Text.quotedSegments_eq, Text.quotedSegments_eq, segments_normalize]
  simp [Split.mapPlain, Split.marks]

/-- Extracting references moves no quote boundary: the text that is extracted has the quoted
segments of the cleaned text, in order. The segments of every text, joined, are the text; each
quoted segment has one mark at its two ends and none of that mark inside; and a mark in a plain
segment is the last of its kind. -/
theorem quotedSegments_of_extract :
    (∀ (tables : Tables) (source : Text) (dependencies : Option (List Text)) (e : Extract),
      tables.extract source dependencies = .ok e →
      e.text.quotedSegments = (Text.clean source).quotedSegments) ∧
    ∀ t : Text, t.segmentTexts.flatten = t ∧
      (∀ w ∈ t.quotedSegments, ∃ mark body, isQuoteMark mark = true ∧ w = mark :: (body ++ [mark]) ∧
        mark ∉ body) ∧
      ∀ before part behind, t.segmentTexts = before ++ part :: behind → before.length % 2 = 0 →
        LeavesOpen part behind.flatten := by
  refine ⟨fun tables source dependencies e extracted => ?_,
    fun t => ⟨t.flatten_segmentTexts, fun w => ?_, ?_⟩⟩
  · obtain ⟨needed, f, rfl⟩ := exists_findings_of_extract extracted
    exact quotedSegments_normalize tables source
  · exact Text.exists_of_mem_quotedSegments
  · intro before part behind
    exact (Split.scans measured_quotationAt none t).leavesOpen

/-- A policy with one foreign call and one tracker. -/
def tablesWithCall : Tables where
  calls := [{ name := "f".toList, id := 7 }]
  trackers := [{ name := "t".toList, id := 3 }]

/-- A mark that is not closed goes with an argument list, and another one moves with a key. -/
theorem quotedSegments_of_extract_unclosed :
    ∃ e, tablesWithCall.extract "'a \"'  == FC:f(x, ') + TR:t( k  \")".toList = .ok e ∧
      e.text = "'a \"' == FC#7 + (k \") | TR:t".toList ∧
      e.text.quotedSegments = ["'a \"'".toList] := by
  have extracted : tablesWithCall.extract "'a \"'  == FC:f(x, ') + TR:t( k  \")".toList =
      .ok ⟨"'a \"' == FC#7 + (k \") | TR:t".toList,
        [⟨"FC:f".toList, 7, .foreignCall, "uint256".toList, some "FC#7".toList⟩,
          ⟨"TR:t".toList, 3, .tracker, "uint256".toList, none⟩]⟩ := by
    decide +kernel
  exact ⟨_, extracted, rfl,
    (quotedSegments_of_extract.1 _ _ _ _ extracted).trans (by decide +kernel)⟩

end Tables

end PolicyRules
