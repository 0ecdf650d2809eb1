import PolicyRules.Text.Split

/-!
# Quoted segments

A rule text is cut into plain and quoted segments. A quoted segment runs from a quote mark to the
next mark of the same kind; a mark that is never closed is an ordinary character. What stands inside
quotes is never read as part of the rule.

Main statements: the segments of a text, joined, are the text (`render_segments`).
-/

namespace PolicyRules

/-- A quoted segment: its quote mark and what stands between the two marks. -/
structure Quotation where
  /-- The mark at both ends. -/
  mark : Char
  /-- The text between the marks. -/
  body : Text
  deriving DecidableEq, Repr

/-- The segment as it stands in the text, with its marks. -/
def Quotation.text (q : Quotation) : Text := q.mark :: q.body ++ [q.mark]

/-- Whether a character opens a quoted segment. -/
def isQuoteMark (c : Char) : Bool := c == '"' || c == '\x27'

/-- Recognises a quoted segment. -/
def quotationAt : Recogniser Quotation
  | _, [] => none
  | _, c :: cs =>
    let body := cs.takeWhile (· != c)
    if isQuoteMark c && decide (body.length < cs.length) then some (⟨c, body⟩, body.length + 2)
    else none

/-- The plain and quoted segments of a text. -/
def Text.segments (t : Text) : Split Quotation := t.split quotationAt

/-- The plain segments of a text, from left to right. -/
def Text.unquoted (t : Text) : List Text := t.segments.plain

/-- The text with every plain segment changed by `f`. -/
def Text.mapUnquoted (f : Text → Text) (t : Text) : Text :=
  (t.segments.mapPlain f).render Quotation.text

/-- The segments as texts: plain and quoted ones in turn, beginning and ending with a plain one. -/
def Text.segmentTexts (t : Text) : List Text :=
  t.segments.head :: t.segments.tail.flatMap fun piece => [piece.1.text, piece.2]

theorem quotationAt_width {previous : Option Char} {t : Text} {q : Quotation} {width : Nat}
    (h : quotationAt previous t = some (q, width)) : 0 < width ∧ q.text = t.take width := by
  cases t with
  | nil => simp [quotationAt] at h
  | cons c cs =>
    simp only [quotationAt, Option.ite_none_right_eq_some, Bool.and_eq_true, decide_eq_true_eq,
      Option.some.injEq, Prod.mk.injEq] at h
    obtain ⟨⟨-, hlt⟩, rfl, rfl⟩ := h
    refine ⟨by omega, ?_⟩
    have hsplit := List.takeWhile_append_dropWhile (p := (· != c)) (l := cs)
    cases hd : cs.dropWhile (· != c) with
    | nil =>
      rw [hd, List.append_nil] at hsplit
      simp [hsplit] at hlt
    | cons d ds =>
      have hdc : d = c := by
        have := List.head_dropWhile_not (· != c) (l := cs) (by simp [hd])
        simpa [hd] using this
      subst hdc
      rw [hd] at hsplit
      generalize cs.takeWhile (· != d) = body at hsplit
      subst hsplit
      simp [Quotation.text, List.take_append, List.take_of_length_le]

theorem render_segments (t : Text) : t.segments.render Quotation.text = t :=
  Split.render_split quotationAt Quotation.text (fun _ _ _ _ => quotationAt_width) t

end PolicyRules
