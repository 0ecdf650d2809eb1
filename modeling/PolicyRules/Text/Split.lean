import PolicyRules.Text.Basic

/-!
# Marks in a text

A recogniser says whether a mark begins at a place of a text. Splitting a text takes the marks from
left to right, none overlapping the one before it, and keeps what stands between them. Finding the
marks, replacing them and cutting the text at them are views of the one split.

Main statements: a split whose marks are written back as they stood gives the text again
(`render_split`).
-/

namespace PolicyRules

/-- Looks at the character before a place and at the text from that place on. If a mark begins
there, gives the mark and the number of characters that it takes. -/
abbrev Recogniser (α : Type) := Option Char → Text → Option (α × Nat)

/-- A text cut at marks: the text before the first mark, and each mark with the text after it. -/
structure Split (α : Type) where
  /-- The text before the first mark. -/
  head : Text
  /-- The marks, each with the text up to the next one. -/
  tail : List (α × Text)
  deriving DecidableEq, Repr

namespace Split

variable {α : Type}

/-- The split of the empty text. -/
def empty : Split α := ⟨[], []⟩

/-- Puts a character in front. -/
def consChar (c : Char) (s : Split α) : Split α := ⟨c :: s.head, s.tail⟩

/-- Puts a mark in front. -/
def consMark (a : α) (s : Split α) : Split α := ⟨[], (a, s.head) :: s.tail⟩

/-- The marks, from left to right. -/
def marks (s : Split α) : List α := s.tail.map (·.1)

/-- The texts around the marks, from left to right. -/
def plain (s : Split α) : List Text := s.head :: s.tail.map (·.2)

/-- The text with every mark written as `write` says. -/
def render (write : α → Text) (s : Split α) : Text :=
  s.head ++ s.tail.flatMap fun piece => write piece.1 ++ piece.2

/-- The text with every mark written as `write` says. The first mark that cannot be written decides
the failure. -/
def renderM {ε : Type} (write : α → Except ε Text) (s : Split α) : Except ε Text := do
  let pieces ← s.tail.mapM fun piece => do return (← write piece.1) ++ piece.2
  return s.head ++ pieces.flatten

/-- The text with the marks replaced by what `write` gives for their numbers, counted from zero. -/
def renderNumbered (write : Nat → Text) (s : Split α) : Text :=
  s.head ++ s.tail.zipIdx.flatMap fun (piece, n) => write n ++ piece.2

/-- Changes the texts around the marks and keeps the marks. -/
def mapPlain (f : Text → Text) (s : Split α) : Split α :=
  ⟨f s.head, s.tail.map fun piece => (piece.1, f piece.2)⟩

/-- Cuts a text at the marks of a recogniser. The first argument counts the characters that still
belong to the mark last taken, the second is the character before the text. -/
def scan (recognise : Recogniser α) : Nat → Option Char → Text → Split α
  | _, _, [] => empty
  | skip + 1, _, c :: cs => scan recognise skip (some c) cs
  | 0, previous, c :: cs =>
    match recognise previous (c :: cs) with
    | some (a, width) => (scan recognise (width - 1) (some c) cs).consMark a
    | none => (scan recognise 0 (some c) cs).consChar c

@[simp] theorem render_empty (write : α → Text) : (empty : Split α).render write = [] := rfl

@[simp] theorem render_consChar (write : α → Text) (c : Char) (s : Split α) :
    (s.consChar c).render write = c :: s.render write := rfl

@[simp] theorem render_consMark (write : α → Text) (a : α) (s : Split α) :
    (s.consMark a).render write = write a ++ s.render write := by
  simp [consMark, render]

end Split

/-- Cuts a text at the marks of a recogniser. -/
def Text.split {α : Type} (recognise : Recogniser α) (t : Text) : Split α :=
  Split.scan recognise 0 none t

namespace Split

variable {α : Type}

theorem render_scan (recognise : Recogniser α) (write : α → Text)
    (written : ∀ previous t a width, recognise previous t = some (a, width) →
      0 < width ∧ write a = t.take width) (skip : Nat) (previous : Option Char) (t : Text) :
    (scan recognise skip previous t).render write = t.drop skip := by
  induction t generalizing skip previous with
  | nil => simp [scan]
  | cons c cs ih =>
    cases skip with
    | succ skip => simp [scan, ih]
    | zero =>
      rw [scan]
      split
      · next a width h =>
        obtain ⟨hpos, hwrite⟩ := written _ _ _ _ h
        obtain ⟨width, rfl⟩ : ∃ w, width = w + 1 := ⟨width - 1, by omega⟩
        simp [hwrite, ih]
      · simp [ih]

/-- Nothing is lost by splitting: writing each mark as it stood gives the text again. -/
theorem render_split (recognise : Recogniser α) (write : α → Text)
    (written : ∀ previous t a width, recognise previous t = some (a, width) →
      0 < width ∧ write a = t.take width) (t : Text) :
    (t.split recognise).render write = t := by
  simpa [Text.split] using render_scan recognise write written 0 none t

end Split

end PolicyRules
