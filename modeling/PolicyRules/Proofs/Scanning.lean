import PolicyRules.Nesting.Balance
import PolicyRules.Proofs.Lexing
import PolicyRules.Proofs.Success
import PolicyRules.Tree.Token

/-!
# Scanning word by word

Texts whose words are set apart by spaces and brackets can be scanned one word at a time. A
recogniser takes a word as a mark, or it passes over it and finds nothing in it. What follows from
that for the whole text is said here for any recogniser, together with the conditions under which
the recognisers of keywords and of numbered tokens pass over a word.

Main statements: `Split.scan_append_of_quiet` and `Split.scan_append_of_mark` for one word,
`WordBound.quiet` for recognisers of whole words, `quiet_numberedAt` for those of numbered tokens.
-/

namespace PolicyRules

variable {α : Type}

/-- The character before a place, after a text has been read. -/
def lastChar : Option Char → Text → Option Char
  | previous, [] => previous
  | _, c :: cs => lastChar (some c) cs

@[simp] theorem lastChar_append (previous : Option Char) (u t : Text) :
    lastChar previous (u ++ t) = lastChar (lastChar previous u) t := by
  induction u generalizing previous with
  | nil => rfl
  | cons c cs ih => exact ih (some c)

/-- Whether nothing is recognised while `u` is read, which `t` follows. -/
def Quiet (recognise : Recogniser α) : Option Char → (u t : Text) → Prop
  | _, [], _ => True
  | previous, c :: cs, t => recognise previous (c :: cs ++ t) = none ∧ Quiet recognise (some c) cs t

variable {u t : Text} {previous : Option Char} {recognise : Recogniser α}

theorem quiet_of_forall
    (h : ∀ c ∈ u, ∀ previous t, recognise previous (c :: t) = none) (previous : Option Char)
    (t : Text) : Quiet recognise previous u t := by
  induction u generalizing previous with
  | nil => trivial
  | cons c cs ih =>
    exact ⟨h c (by simp) previous _, ih (fun d member => h d (List.mem_cons_of_mem _ member)) _⟩

namespace Split

/-- Puts a text in front. -/
def consText (u : Text) (s : Split α) : Split α := ⟨u ++ s.head, s.tail⟩

/-- A scan passes over text in which nothing is recognised. -/
theorem scan_append_of_quiet (h : Quiet recognise previous u t) :
    scan recognise 0 previous (u ++ t) =
      (scan recognise 0 (lastChar previous u) t).consText u := by
  induction u generalizing previous with
  | nil => rfl
  | cons c cs ih =>
    obtain ⟨here, later⟩ := h
    rw [List.cons_append] at here ⊢
    rw [scan, here, ih later]
    rfl

/-- A text in which nothing is recognised is not cut. -/
theorem scan_of_quiet (h : Quiet recognise previous t []) :
    scan recognise 0 previous t = ⟨t, []⟩ := by
  have scanned := scan_append_of_quiet h
  rw [List.append_nil] at scanned
  rw [scanned]
  simp [scan, empty, consText]

theorem scan_skip (recognise : Recogniser α) (previous : Option Char) (u t : Text) (skip : Nat) :
    scan recognise (skip + u.length) previous (u ++ t) =
      scan recognise skip (lastChar previous u) t := by
  induction u generalizing previous with
  | nil => rfl
  | cons c cs ih => exact ih (some c)

/-- A scan takes a mark that is recognised. -/
theorem scan_append_of_mark {w : Text} {a : α}
    (nonempty : w ≠ []) (h : recognise previous (w ++ t) = some (a, w.length)) :
    scan recognise 0 previous (w ++ t) =
      (scan recognise 0 (lastChar previous w) t).consMark a := by
  cases w with
  | nil => exact absurd rfl nonempty
  | cons c cs =>
    rw [List.cons_append] at h ⊢
    rw [scan, h]
    have skipped := scan_skip recognise (some c) cs t 0
    rw [Nat.zero_add] at skipped
    simp only [List.length_cons, Nat.add_sub_cancel, skipped]
    rfl

/-- Where a scan takes no mark, nothing is recognised. -/
theorem quiet_of_scan (h : (scan recognise 0 previous t).tail = []) :
    Quiet recognise previous t [] := by
  induction t generalizing previous with
  | nil => trivial
  | cons c cs ih =>
    rw [scan] at h
    split at h
    · cases h
    · next none => exact ⟨by simpa using none, ih h⟩

/-- Whether a text is a split with its marks written one after the other, each as `write` allows in
the state before it, which gives the state behind it. -/
inductive Renders {σ : Type} (write : σ → α → Text → σ → Prop) : σ → Split α → Text → σ → Prop
  | text (x : σ) (head : Text) : Renders write x ⟨head, []⟩ head x
  | mark {x y z : σ} {a : α} {head next w t : Text} {tail : List (α × Text)}
    (written : write x a w y) (rest : Renders write y ⟨next, tail⟩ t z) :
    Renders write x ⟨head, (a, next) :: tail⟩ (head ++ (w ++ t)) z

namespace Renders

section

variable {σ : Type} {write : σ → α → Text → σ → Prop} {x y z : σ} {s : Split α} {t w : Text} {a : α}

/-- Text is rendered as it is. -/
theorem consText (h : Renders write x s t y) (u : Text) :
    Renders write x (s.consText u) (u ++ t) y := by
  cases h with
  | text => exact .text _ _
  | mark written rest =>
    rw [← List.append_assoc]
    exact .mark written rest

/-- A mark is rendered as it is written. -/
theorem consMark (written : write x a w y) (h : Renders write y s t z) :
    Renders write x (s.consMark a) (w ++ t) z :=
  .mark written h

end

/-- Marks are written as tokens of their numbers, which are counted by the list of marks before
them. -/
def Numbered (token : Nat → Text) (before : List α) (a : α) (w : Text) (behind : List α) : Prop :=
  w = token before.length ∧ behind = before ++ [a]

variable {token : Nat → Text} {s : Split α} {t : Text}

theorem numbered_cons {before behind : List α} (h : Renders (Numbered token) before s t behind) :
    behind = before ++ s.marks ∧
      (s.head ++ (s.tail.zipIdx before.length).flatMap fun entry => token entry.2 ++ entry.1.2) =
        t := by
  induction h with
  | text before head => simp [marks]
  | mark written rest ih =>
    obtain ⟨rfl, rfl⟩ := written
    obtain ⟨rfl, ih⟩ := ih
    simp only [List.length_append, List.length_singleton] at ih
    simp [marks, ← ih]

/-- Marks that are replaced by their numbers. -/
theorem renderNumbered_eq {marks : List α} (h : Renders (Numbered token) [] s t marks) :
    s.renderNumbered token = t ∧ s.marks = marks := by
  obtain ⟨same, rendered⟩ := h.numbered_cons
  exact ⟨rendered, by simpa using same.symm⟩

/-- Marks that are replaced one by one. -/
theorem renderM_eq {ε : Type} {write : α → Except ε Text} {x y : Unit}
    (h : Renders (fun _ a w _ => write a = .ok w) x s t y) : s.renderM write = .ok t := by
  induction h with
  | text => simp [renderM, pure_eq_ok_iff]
  | mark written rest ih =>
    simp only [renderM, bind_eq_ok_iff, pure_eq_ok_iff, List.mapM_cons] at ih ⊢
    obtain ⟨pieces, hpieces, rfl⟩ := ih
    exact ⟨_, ⟨_, ⟨_, written, rfl⟩, pieces, hpieces, rfl⟩, by simp⟩

end Renders

end Split

/-- Whether a word can begin behind a character: at the beginning of a text, behind a space or an
opening bracket. -/
def BeginsWord (previous : Option Char) : Prop :=
  ∀ c, previous = some c → c = ' ' ∨ c = '(' ∨ c = '['

@[simp] theorem beginsWord_none : BeginsWord none := by simp [BeginsWord]

@[simp] theorem beginsWord_space : BeginsWord (some ' ') := by simp [BeginsWord]

@[simp] theorem beginsWord_opening (b : Bracket) : BeginsWord (some b.opening) := by
  cases b <;> simp [BeginsWord, Bracket.opening]

@[simp] theorem endsWord_closing (b : Bracket) (t : Text) : EndsWord (b.closing :: t) := by
  cases b <;> simp [EndsWord, Bracket.closing]

/-- Whether a recogniser passes over a word. -/
def Passes (recognise : Recogniser α) (w : Text) : Prop :=
  ∀ previous t, BeginsWord previous → EndsWord t → Quiet recognise previous w t

/-- Whether a recogniser takes a word for a mark. -/
def Taken (recognise : Recogniser α) (w : Text) (a : α) : Prop :=
  w ≠ [] ∧ ∀ previous t, BeginsWord previous → EndsWord t →
    recognise previous (w ++ t) = some (a, w.length)

/-- Whether no mark of a recogniser begins with a space or a bracket. -/
def SkipsSeparators (recognise : Recogniser α) : Prop :=
  ∀ c ∈ [' ', '(', ')', '[', ']'], ∀ previous t, recognise previous (c :: t) = none

/-- Whether a recogniser finds only whole words that satisfy `P`. -/
def WordBound (recognise : Recogniser α) (P : Text → Prop) : Prop :=
  ∀ previous t found, recognise previous t = some found →
    isWordEdge previous ∧ P (t.takeWhile isWordChar)

theorem takeWhile_isWordChar_of_fields {word : Text} {words : List Text}
    (h : Text.fields (fun c => ! isWordChar c) u = word :: words) (edge : isWordEdge t.head?) :
    (u ++ t).takeWhile isWordChar = word := by
  induction u generalizing word words with
  | nil =>
    obtain ⟨rfl, -⟩ := List.cons.inj h
    cases t with
    | nil => rfl
    | cons c cs => simpa [isWordEdge] using edge
  | cons c cs ih =>
    rw [Text.fields] at h
    by_cases isWord : isWordChar c
    · obtain ⟨field, rest, split⟩ :=
        List.exists_cons_of_ne_nil (Text.fields_ne_nil (! isWordChar ·) cs)
      simp only [isWord, Bool.not_true, Bool.false_eq_true, if_false, split, List.cons.injEq] at h
      obtain ⟨rfl, rfl⟩ := h
      simp [isWord, ih split]
    · simp only [isWord, Bool.not_false, if_true, List.cons.injEq] at h
      simp [isWord, h.1]

/-- A recogniser of whole words passes over a text with none of its words. The first word of the
text counts only if it is not the end of a word that has begun before. -/
theorem WordBound.quiet {P : Text → Prop} (bound : WordBound recognise P) {word : Text}
    {words : List Text} (split : Text.fields (fun c => ! isWordChar c) u = word :: words)
    (edge : isWordEdge t.head?) (first : isWordEdge previous → ¬ P word)
    (later : ∀ w ∈ words, ¬ P w) : Quiet recognise previous u t := by
  induction u generalizing previous word words with
  | nil => trivial
  | cons c cs ih =>
    have whole := takeWhile_isWordChar_of_fields split edge
    refine ⟨?_, ?_⟩
    · cases found : recognise previous (c :: cs ++ t) with
      | none => rfl
      | some result =>
        obtain ⟨begins, holds⟩ := bound previous _ result found
        rw [whole] at holds
        exact absurd holds (first begins)
    · obtain ⟨field, rest, split'⟩ :=
        List.exists_cons_of_ne_nil (Text.fields_ne_nil (! isWordChar ·) cs)
      rw [Text.fields, split'] at split
      by_cases isWord : isWordChar c
      · simp only [isWord, Bool.not_true, Bool.false_eq_true, if_false, List.cons.injEq] at split
        refine ih split' (by simp [isWordEdge, isWord]) ?_
        rwa [split.2]
      · simp only [isWord, Bool.not_false, if_true, List.cons.injEq] at split
        obtain ⟨-, rfl⟩ := split
        exact ih split' (fun _ => later field (by simp))
          fun w member => later w (List.mem_cons_of_mem _ member)

theorem isWordEdge_of_endsWord (ends : EndsWord t) : isWordEdge t.head? := by
  cases t with
  | nil => rfl
  | cons c cs => rcases ends c rfl with rfl | rfl | rfl <;> rw [List.head?_cons] <;> decide

/-- A recogniser of whole words passes over a word, if none of the words in it is one of its own. -/
theorem WordBound.passes {P : Text → Prop} (bound : WordBound recognise P)
    {w : Text} (h : ∀ v ∈ Text.fields (fun c => ! isWordChar c) w, ¬ P v) : Passes recognise w := by
  intro previous t _ ends
  obtain ⟨word, words, split⟩ := List.exists_cons_of_ne_nil (Text.fields_ne_nil (! isWordChar ·) w)
  rw [split] at h
  exact bound.quiet split (isWordEdge_of_endsWord ends) (fun _ => h word (by simp))
    fun v member => h v (List.mem_cons_of_mem _ member)

theorem numberedAt_eq_some {letter : Char} {found : Text × Nat}
    (h : numberedAt letter previous t = some found) :
    ∃ d rest, t = letter :: ':' :: d :: rest ∧ isDecimalDigit d := by
  unfold numberedAt at h
  split at h
  · obtain ⟨rest, start, h⟩ := Option.bind_eq_some_iff.mp h
    obtain ⟨digits, hdigits, -⟩ := Option.bind_eq_some_iff.mp h
    rw [Text.dropStart?_eq_some_iff] at start
    simp only [digitsAt?, Option.ite_none_left_eq_some, List.isEmpty_iff] at hdigits
    cases rest with
    | nil => simp at hdigits
    | cons d ds =>
      by_cases digit : isDecimalDigit d
      · exact ⟨d, ds, start, digit⟩
      · simp [digit] at hdigits
  · cases h

/-- The recogniser of a numbered token passes over a text that has no such token in it, at whatever
place. -/
theorem quiet_numberedAt {letter : Char}
    (none : ∀ d, isDecimalDigit d → ¬ [letter, ':', d] <:+: u) (ends : EndsWord t)
    (previous : Option Char) : Quiet (numberedAt letter) previous u t := by
  induction u generalizing previous with
  | nil => trivial
  | cons c cs ih =>
    refine ⟨?_, ih (fun d digit inside => none d digit (List.infix_cons inside)) _⟩
    cases found : numberedAt letter previous (c :: cs ++ t) with
    | none => rfl
    | some result =>
      exfalso
      obtain ⟨d, rest, same, digit⟩ := numberedAt_eq_some found
      match cs with
      | [] =>
        simp only [List.cons_append, List.nil_append, List.cons.injEq] at same
        simpa [same] using ends ':'
      | [x] =>
        simp only [List.cons_append, List.nil_append, List.cons.injEq] at same
        rw [same.2.2] at ends
        rcases ends d rfl with rfl | rfl | rfl <;> cases digit
      | x :: y :: ys =>
        simp only [List.cons_append, List.cons.injEq] at same
        obtain ⟨rfl, rfl, rfl, -⟩ := same
        exact none y digit ⟨[], ys, rfl⟩

end PolicyRules
