import Mathlib.Data.List.DropRight
import Mathlib.Data.List.Infix
import PolicyRules.Proofs.NormalForm

/-!
# Quoted segments of cleaned texts

Cleaning a text squeezes the blanks of the whole text, inside quotes too, and trims its ends. It
does not change what is quoted: a text that is cleaned has the same quotation marks, each quoted
segment is squeezed on its own (`marks_segments_clean`), and so is each plain segment
(`unquoted_clean`).
-/

namespace PolicyRules

theorem squeeze_append_cons {c : Char} (solid : isBlank c = false) (u v : Text) :
    Text.squeeze (u ++ c :: v) = Text.squeeze u ++ c :: Text.squeeze v := by
  induction u with
  | nil => simp [Text.squeeze, solid]
  | cons d u ih =>
    have next : (u ++ c :: v).head?.any isBlank = u.head?.any isBlank := by
      cases u with
      | nil => simp [solid]
      | cons e u => rfl
    rw [List.cons_append, Text.squeeze, Text.squeeze, next, ih]
    split
    · split
      · rfl
      · rfl
    · rfl

/-- Squeezing keeps the quotation marks. -/
theorem filter_isQuoteMark_squeeze (t : Text) :
    (Text.squeeze t).filter isQuoteMark = t.filter isQuoteMark := by
  have space : isQuoteMark ' ' = false := by decide
  fun_induction Text.squeeze t with
  | case1 => rfl
  | case2 c cs blank _ ih => simp [isQuoteMark_eq_false_of_isBlank blank, ih]
  | case3 c cs blank _ ih => simp [isQuoteMark_eq_false_of_isBlank blank, space, ih]
  | case4 c cs _ ih => simp [List.filter_cons, ih]

/-- A quoted segment with the blanks inside it squeezed. -/
def Quotation.squeeze (q : Quotation) : Quotation := ⟨q.mark, Text.squeeze q.body⟩

theorem mem_of_mem_squeeze {c : Char} {t : Text} (solid : isBlank c = false)
    (h : c ∈ Text.squeeze t) : c ∈ t := by
  have inside := isInfix_of_squeeze (t := t) (w := [c]) (by simpa using solid) (by simp)
    ((List.singleton_infix_iff _ _).mpr h)
  exact (List.singleton_infix_iff _ _).mp inside

theorem isBlank_eq_false_of_isQuoteMark {c : Char} (h : isQuoteMark c) : isBlank c = false := by
  rcases isQuoteMark_iff.mp h with rfl | rfl <;> decide

theorem Quotation.Proper.squeeze {q : Quotation} (h : q.Proper) : q.squeeze.Proper :=
  ⟨h.1, fun member => h.2 (mem_of_mem_squeeze (isBlank_eq_false_of_isQuoteMark h.1) member)⟩

theorem Quotation.Proper.squeeze_text {q : Quotation} (h : q.Proper) (u v : Text) :
    Text.squeeze (u ++ (q.text ++ v)) = Text.squeeze u ++ (q.squeeze.text ++ Text.squeeze v) := by
  have solid := isBlank_eq_false_of_isQuoteMark h.1
  have parts : u ++ (q.text ++ v) = u ++ q.mark :: (q.body ++ q.mark :: v) := by
    simp [Quotation.text]
  rw [parts, squeeze_append_cons solid, squeeze_append_cons solid]
  simp [Quotation.text, Quotation.squeeze]

namespace Scans

variable {previous : Option Char} {t : Text} {s : Split Quotation}

/-- Squeezing a text squeezes its segments. -/
theorem squeeze (h : Scans quotationAt previous t s) (previous' : Option Char) :
    Scans quotationAt previous' (Text.squeeze t)
      ⟨Text.squeeze s.head, s.tail.map fun piece => (piece.1.squeeze, Text.squeeze piece.2)⟩ := by
  induction h generalizing previous' with
  | @text previous t quiet =>
    exact .text (quiet_of_sublist quiet (by rw [filter_isQuoteMark_squeeze]) (by simp) previous')
  | @mark previous u w t next q tail quiet nonempty found rest ih =>
    have proper := proper_of_quotationAt found
    obtain rfl : q.text = w := by simpa using (quotationAt_width found).2
    rw [proper.squeeze_text]
    refine .mark ?_ (by simp [Quotation.text]) (quotationAt_text proper.squeeze _ _) (ih _)
    refine quiet_of_sublist quiet (by rw [filter_isQuoteMark_squeeze]) ?_ previous'
    have marks : (q.squeeze.text ++ Text.squeeze t).filter isQuoteMark =
        (q.text ++ t).filter isQuoteMark := by
      simp [Quotation.text, Quotation.squeeze, List.filter_cons, filter_isQuoteMark_squeeze]
    rw [marks]

/-- Blanks at the beginning of a text belong to its first plain segment. -/
theorem dropBlanks (h : Scans quotationAt previous t s) (previous' : Option Char) :
    Scans quotationAt previous' (t.dropWhile isBlank) ⟨s.head.dropWhile isBlank, s.tail⟩ := by
  have fewer : ∀ u : Text, ((u.dropWhile isBlank).filter isQuoteMark).Sublist
      (u.filter isQuoteMark) :=
    fun u => (List.dropWhile_sublist _).filter _
  cases h with
  | text quiet => exact .text (quiet_of_sublist quiet (fewer t) (by simp) previous')
  | @mark _ u w t next q tail quiet nonempty found rest =>
    have proper := proper_of_quotationAt found
    obtain rfl : q.text = w := by simpa using (quotationAt_width found).2
    have dropped : (u ++ (q.text ++ t)).dropWhile isBlank =
        u.dropWhile isBlank ++ (q.text ++ t) := by
      have solid := isBlank_eq_false_of_isQuoteMark proper.1
      rw [List.dropWhile_append]
      split
      · next empty => simp [List.isEmpty_iff.mp empty, Quotation.text, solid]
      · rfl
    rw [dropped]
    refine .mark (quiet_of_sublist quiet (fewer u) (.refl _) previous') nonempty
      (quotationAt_text proper _ _) ?_
    rw [lastChar_append] at rest ⊢
    rwa [lastChar_of_ne_nil nonempty _ (lastChar previous u)]

end Scans

/-- Changes the last of several texts. -/
def changeLast (f : Text → Text) : List Text → List Text
  | [] => []
  | [t] => [f t]
  | t :: u :: ts => t :: changeLast f (u :: ts)

/-- Blanks at the end of a text belong to its last plain segment. -/
theorem Scans.dropLastBlanks {previous : Option Char} {t : Text} {s : Split Quotation}
    (h : Scans quotationAt previous t s) (previous' : Option Char) :
    ∃ s', Scans quotationAt previous' (t.rdropWhile isBlank) s' ∧ s'.marks = s.marks ∧
      s'.plain = changeLast (·.rdropWhile isBlank) s.plain := by
  have fewer : ∀ u : Text, ((u.rdropWhile isBlank).filter isQuoteMark).Sublist
      (u.filter isQuoteMark) :=
    fun u => (List.rdropWhile_prefix _ u).sublist.filter _
  induction h generalizing previous' with
  | @text previous t quiet =>
    exact ⟨⟨t.rdropWhile isBlank, []⟩, .text (quiet_of_sublist quiet (fewer t) (by simp) previous'),
      rfl, rfl⟩
  | @mark previous u w t next q tail quiet nonempty found rest ih =>
    have proper := proper_of_quotationAt found
    obtain rfl : q.text = w := by simpa using (quotationAt_width found).2
    obtain ⟨⟨next', tail'⟩, scanned, marks, plain⟩ := ih (lastChar previous' (u ++ q.text))
    have solid := isBlank_eq_false_of_isQuoteMark proper.1
    have dropped : (u ++ (q.text ++ t)).rdropWhile isBlank =
        u ++ (q.text ++ t.rdropWhile isBlank) := by
      simp only [List.rdropWhile, List.reverse_append, List.append_assoc, List.dropWhile_append]
      split
      · next empty => simp [List.isEmpty_iff.mp empty, Quotation.text, solid]
      · simp
    rw [dropped]
    refine ⟨⟨u, (q, next') :: tail'⟩, .mark ?_ nonempty (quotationAt_text proper _ _) scanned, ?_,
      ?_⟩
    · refine quiet_of_sublist quiet (.refl _) ?_ previous'
      rw [List.filter_append, List.filter_append]
      exact (List.Sublist.refl _).append (fewer t)
    · simpa [Split.marks] using marks
    · simpa [Split.plain, changeLast] using plain

/-- The plain segments of a cleaned text, given those of the text. -/
def cleanParts (parts : List Text) : List Text :=
  changeLast (·.rdropWhile isBlank) ((parts.map Text.squeeze).modifyHead (·.dropWhile isBlank))

/-- Cleaning squeezes the quoted segments. -/
theorem segments_clean (t : Text) :
    (Text.clean t).segments.marks = t.segments.marks.map Quotation.squeeze ∧
      (Text.clean t).segments.plain = cleanParts t.segments.plain := by
  obtain ⟨s, scanned, marks, plain⟩ :=
    (((Split.scans measured_quotationAt none t).squeeze none).dropBlanks none).dropLastBlanks none
  have cleaned : (Text.clean t).segments = s := scanned.scan_eq
  rw [cleaned, marks, plain]
  exact ⟨by simp [Split.marks, Text.segments, Text.split, Function.comp_def],
    by simp [Split.plain, cleanParts, Text.segments, Text.split, Function.comp_def]⟩

/-- Each quoted segment of a cleaned text is a quoted segment of the text, squeezed. -/
theorem marks_segments_clean (t : Text) :
    (Text.clean t).segments.marks = t.segments.marks.map Quotation.squeeze := (segments_clean t).1

theorem unquoted_clean (t : Text) : (Text.clean t).unquoted = cleanParts t.unquoted :=
  (segments_clean t).2

end PolicyRules
