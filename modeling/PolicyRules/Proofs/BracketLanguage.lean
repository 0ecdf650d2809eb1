import PolicyRules.Proofs.Bracketings

/-!
# The language of balanced brackets

The check of a text looks at its brackets only, and it passes exactly the well-nested words of
brackets. A text that does not pass has a closing bracket that does not close the innermost open
bracket, or a bracket that is open at the end. Which bracket is open is said without the check: what
follows it up to the place in question is well nested.

Reading a text goes on until the first closing bracket of the wrong kind; up to there the brackets
that are kept are those that are open (`OpenIn`).

Main statement: `checkBalanced_language`.
-/

namespace PolicyRules

/-- Whether a character is a bracket. -/
def isBracketChar (c : Char) : Bool := "()[]".toList.contains c

/-- The brackets of a text. -/
def Text.brackets (t : Text) : Text := t.filter isBracketChar

/-- The well-nested words of brackets. -/
inductive WellNested : Text → Prop
  | nil : WellNested []
  | append {u v : Text} (hu : WellNested u) (hv : WellNested v) : WellNested (u ++ v)
  | pair (b : Bracket) {w : Text} (h : WellNested w) : WellNested (b.opening :: (w ++ [b.closing]))

/-- Whether the innermost open bracket of a text is of a kind and stands at a position. -/
def InnermostOpen (t : Text) (b : Bracket) (position : Nat) : Prop :=
  ∃ x y : Text, t = x ++ b.opening :: y ∧ x.length = position ∧ WellNested y.brackets

/-- Whether a bracket of a kind is closed at a position, although it is not the innermost open
bracket there. -/
def ClosesWrongly (t : Text) (b : Bracket) (position : Nat) : Prop :=
  ∃ x y : Text, t = x ++ b.closing :: y ∧ x.length = position ∧ ∀ place, ¬ InnermostOpen x b place

variable {c : Char} {t : Text} {b : Bracket} {position : Nat} {opened : List (Bracket × Nat)}

section Characters

/-- A character that is no bracket is neither opening nor closing. -/
theorem isBracketChar_eq_false_iff :
    isBracketChar c = false ↔ Bracket.opened? c = none ∧ Bracket.closed? c = none := by
  simp only [isBracketChar, Bracket.opened?, Bracket.closed?]
  grind

@[simp] theorem Text.brackets_nil : Text.brackets [] = [] := rfl

theorem Text.brackets_append (x y : Text) : Text.brackets (x ++ y) = x.brackets ++ y.brackets :=
  List.filter_append ..

theorem Text.brackets_cons (h : isBracketChar c) (t : Text) :
    Text.brackets (c :: t) = c :: t.brackets :=
  List.filter_cons_of_pos h

theorem Text.brackets_cons_plain (h : isBracketChar c = false) (t : Text) :
    Text.brackets (c :: t) = t.brackets :=
  List.filter_cons_of_neg (by simp [h])

end Characters

section Reading

variable {opened : List (Bracket × Nat)} {position : Nat} {t x : Text} {b : Bracket}

theorem findImbalance_opening (b : Bracket) (opened : List (Bracket × Nat)) (position : Nat)
    (t : Text) :
    findImbalance opened position (b.opening :: t) =
      findImbalance ((b, position) :: opened) (position + 1) t := by
  rw [findImbalance, Bracket.opened?_opening]

theorem findImbalance_plain (plain : isBracketChar c = false) (opened : List (Bracket × Nat))
    (position : Nat) (t : Text) :
    findImbalance opened position (c :: t) = findImbalance opened (position + 1) t := by
  obtain ⟨opens, closes⟩ := isBracketChar_eq_false_iff.mp plain
  rw [findImbalance, opens, closes]

/-- A bracket that closes the innermost open one takes it off. -/
theorem findImbalance_closing (b : Bracket) (place : Nat) (opened : List (Bracket × Nat))
    (position : Nat) (t : Text) :
    findImbalance ((b, place) :: opened) position (b.closing :: t) =
      findImbalance opened (position + 1) t := by
  rw [findImbalance, Bracket.opened?_closing, Bracket.closed?_closing]
  simp

/-- A bracket that does not close the innermost open one is reported. -/
theorem findImbalance_wrong (h : ∀ place, opened.head? ≠ some (b, place)) (position : Nat)
    (t : Text) :
    findImbalance opened position (b.closing :: t) = some (.unbalanced b position) := by
  rw [findImbalance, Bracket.opened?_closing, Bracket.closed?_closing]
  cases opened with
  | nil => rfl
  | cons innermost outer =>
    obtain ⟨b', place⟩ := innermost
    have other : b' ≠ b := by
      rintro rfl
      exact h place rfl
    simp [other]

/-- A text without brackets is passed over. -/
theorem findImbalance_of_brackets_nil {y : Text} (none : y.brackets = [])
    (opened : List (Bracket × Nat)) (position : Nat) (t : Text) :
    findImbalance opened position (y ++ t) = findImbalance opened (position + y.length) t := by
  induction y generalizing position with
  | nil => rfl
  | cons c cs ih =>
    have plain : isBracketChar c = false ∧ Text.brackets cs = [] := by
      simpa [Text.brackets, List.filter_eq_nil_iff] using none
    rw [List.cons_append, findImbalance_plain plain.1, ih plain.2, List.length_cons]
    congr 1
    omega

/-- Reading a well-nested text leaves the open brackets as they are. -/
theorem WellNested.findImbalance_append {w : Text} (h : WellNested w) {y : Text}
    (same : y.brackets = w) (opened : List (Bracket × Nat)) (position : Nat) (t : Text) :
    findImbalance opened position (y ++ t) = findImbalance opened (position + y.length) t := by
  induction h generalizing y opened position t with
  | nil => exact findImbalance_of_brackets_nil same opened position t
  | append hu hv ihu ihv =>
    obtain ⟨y₁, y₂, rfl, first, second⟩ := List.filter_eq_append_iff.mp same
    rw [List.append_assoc, ihu first, ihv second, List.length_append, Nat.add_assoc]
  | @pair b w h ih =>
    -- The text is cut before and behind the two brackets.
    obtain ⟨y₀, y₁, rfl, none, -, rest⟩ := List.filter_eq_cons_iff.mp same
    obtain ⟨inner, y₂, rfl, first, second⟩ := List.filter_eq_append_iff.mp rest
    obtain ⟨y₃, y₄, rfl, none', -, last⟩ := List.filter_eq_cons_iff.mp second
    have noBrackets : ∀ {z : Text}, (∀ c ∈ z, ¬ isBracketChar c) → z.brackets = [] :=
      fun h =>
      List.filter_eq_nil_iff.mpr h
    have text_eq : y₀ ++ b.opening :: (inner ++ (y₃ ++ b.closing :: y₄)) ++ t =
        y₀ ++ (b.opening :: (inner ++ (y₃ ++ (b.closing :: (y₄ ++ t))))) := by simp
    rw [text_eq, findImbalance_of_brackets_nil (noBrackets none), findImbalance_opening, ih first,
      findImbalance_of_brackets_nil (noBrackets none'), findImbalance_closing,
      findImbalance_of_brackets_nil last]
    congr 1
    simp only [List.length_append, List.length_cons]
    omega

end Reading

/-- The brackets that are open at the end of a text, innermost first, with their positions. What
stands between them is well nested. -/
inductive OpenIn : Text → List (Bracket × Nat) → Prop
  | closed {t : Text} (h : WellNested t.brackets) : OpenIn t []
  | opened {x y : Text} {outer : List (Bracket × Nat)} (h : OpenIn x outer) (b : Bracket)
    (inner : WellNested y.brackets) :
    OpenIn (x ++ b.opening :: y) ((b, x.length) :: outer)

namespace OpenIn

variable {x y t : Text} {opened : List (Bracket × Nat)} {b : Bracket} {place : Nat}

/-- A well-nested text leaves the open brackets as they are. -/
theorem append (h : OpenIn x opened) (nested : WellNested y.brackets) : OpenIn (x ++ y) opened := by
  cases h with
  | closed h =>
    refine .closed ?_
    rw [Text.brackets_append]
    exact h.append nested
  | @opened x z outer h b inner =>
    rw [List.append_assoc, List.cons_append]
    refine .opened h b ?_
    rw [Text.brackets_append]
    exact inner.append nested

theorem concat_opening (h : OpenIn x opened) (b : Bracket) :
    OpenIn (x ++ [b.opening]) ((b, x.length) :: opened) :=
  .opened h b .nil

theorem concat_closing (h : OpenIn x ((b, place) :: opened)) :
    OpenIn (x ++ [b.closing]) opened := by
  cases h with
  | @opened x y outer h b inner =>
    have pair : WellNested (Text.brackets (b.opening :: (y ++ [b.closing]))) := by
      rw [Text.brackets_cons (by cases b <;> decide), Text.brackets_append,
        Text.brackets_cons (by cases b <;> decide)]
      exact .pair b inner
    simpa using h.append pair

/-- The bracket that was opened last is the innermost. -/
theorem innermostOpen (h : OpenIn x ((b, place) :: opened)) : InnermostOpen x b place := by
  cases h with
  | @opened x y outer h b inner => exact ⟨x, y, rfl, rfl, inner⟩

/-- A text that leaves none open is well nested. -/
theorem wellNested (h : OpenIn x []) : WellNested x.brackets := by
  cases h with
  | closed h => exact h

/-- Reading goes on from where a text ends with the brackets that are open there. -/
theorem findImbalance_append (h : OpenIn x opened) (t : Text) :
    findImbalance [] 0 (x ++ t) = findImbalance opened x.length t := by
  induction h generalizing t with
  | closed h => simpa using h.findImbalance_append rfl [] 0 t
  | @opened x y outer h b inner ih =>
    rw [List.append_assoc, ih, List.cons_append, findImbalance_opening,
      inner.findImbalance_append rfl]
    congr 1
    simp only [List.length_append, List.length_cons]
    omega

/-- At the end of a text the innermost open bracket is found. -/
theorem findImbalance_eq (h : OpenIn t opened) :
    findImbalance [] 0 t = opened.head?.map fun entry => .unclosed entry.1 entry.2 := by
  have whole := h.findImbalance_append []
  rwa [List.append_nil] at whole

end OpenIn

/-- A text with a closing bracket of the wrong kind before which all brackets are closed in
order. -/
structure FirstWrong (t : Text) (b : Bracket) (position : Nat) (opened : List (Bracket × Nat)) :
    Prop where
  text : ∃ x y : Text, t = x ++ b.closing :: y ∧ x.length = position ∧ OpenIn x opened
  wrong : ∀ place, opened.head? ≠ some (b, place)

theorem FirstWrong.findImbalance_append (h : FirstWrong t b position opened) (more : Text) :
    findImbalance [] 0 (t ++ more) = some (.unbalanced b position) := by
  obtain ⟨⟨x, y, rfl, rfl, reads⟩, wrong⟩ := h
  rw [List.append_assoc, reads.findImbalance_append, List.cons_append, findImbalance_wrong wrong]

/-- Reading a text comes to its end or to a closing bracket of the wrong kind. The brackets that are
open are those of the text before with what its next character does to them. -/
theorem openIn_or_firstWrong (t : Text) :
    (∃ opened, OpenIn t opened) ∨ ∃ b position opened, FirstWrong t b position opened := by
  induction t using List.reverseRecOn with
  | nil => exact .inl ⟨[], .closed .nil⟩
  | append_singleton t c ih =>
    rcases ih with ⟨opened, reads⟩ | ⟨b, position, opened, ⟨x, y, rfl, length, reads⟩, wrong⟩
    · cases opens : Bracket.opened? c with
      | some b =>
        obtain rfl := eq_opening_of_opened? opens
        exact .inl ⟨_, reads.concat_opening b⟩
      | none =>
        cases closes : Bracket.closed? c with
        | none =>
          have plain := isBracketChar_eq_false_iff.mpr ⟨opens, closes⟩
          refine .inl ⟨opened, reads.append ?_⟩
          rw [Text.brackets_cons_plain plain]
          exact .nil
        | some b =>
          obtain rfl := eq_closing_of_closed? closes
          by_cases partner : ∃ place, opened.head? = some (b, place)
          · obtain ⟨place, head⟩ := partner
            obtain ⟨outer, rfl⟩ : ∃ outer, opened = (b, place) :: outer :=
              ⟨opened.tail, List.eq_cons_of_mem_head? head⟩
            exact .inl ⟨outer, reads.concat_closing⟩
          · exact .inr ⟨b, t.length, opened, ⟨t, [], rfl, rfl, reads⟩,
              fun place head => partner ⟨place, head⟩⟩
    · exact .inr ⟨b, position, opened, ⟨x, y ++ [c], by simp, length, reads⟩, wrong⟩

/-- The brackets that are open say which one is the innermost. -/
theorem OpenIn.head_of_innermostOpen {place : Nat}
    (h : OpenIn t opened) (innermost : InnermostOpen t b place) :
    opened.head? = some (b, place) := by
  have whole := h.findImbalance_eq
  obtain ⟨x, y, rfl, rfl, nested⟩ := innermost
  rcases openIn_or_firstWrong x with ⟨outer, reads⟩ | ⟨b', position, outer, wrong⟩
  · rw [(reads.opened b nested).findImbalance_eq] at whole
    obtain ⟨⟨b', place'⟩, head, same⟩ := Option.map_eq_some_iff.mp whole.symm
    obtain ⟨rfl, rfl⟩ : b' = b ∧ place' = x.length := by simpa using same
    exact head
  · -- The wrong bracket would be found in the whole text too.
    rw [wrong.findImbalance_append] at whole
    cases opened <;> cases whole

/-- The first wrong bracket closes wrongly. -/
theorem FirstWrong.closesWrongly (h : FirstWrong t b position opened) :
    ClosesWrongly t b position := by
  obtain ⟨⟨x, y, rfl, length, reads⟩, wrong⟩ := h
  exact ⟨x, y, rfl, length,
    fun place innermost => wrong place (reads.head_of_innermostOpen innermost)⟩

/-- A closing bracket of the wrong kind is the first one that reading comes to, if there is none
before it. -/
theorem ClosesWrongly.findImbalance_eq (h : ClosesWrongly t b position)
    (first : ∀ place < position, ∀ b', ¬ ClosesWrongly t b' place) :
    findImbalance [] 0 t = some (.unbalanced b position) := by
  obtain ⟨x, y, rfl, rfl, wrong⟩ := h
  rcases openIn_or_firstWrong x with ⟨opened, reads⟩ | ⟨b', place, opened, earlier⟩
  · rw [reads.findImbalance_append, findImbalance_wrong fun place head => ?_]
    obtain ⟨outer, rfl⟩ : ∃ outer, opened = (b, place) :: outer :=
      ⟨opened.tail, List.eq_cons_of_mem_head? head⟩
    exact wrong place reads.innermostOpen
  · obtain ⟨u, v, rfl, rfl, none⟩ := earlier.closesWrongly
    have here : ClosesWrongly (u ++ b'.closing :: v ++ b.closing :: y) b' u.length :=
      ⟨u, v ++ b.closing :: y, by simp, rfl, none⟩
    exact absurd here (first u.length (by simp) b')

/-- The check passes exactly the texts whose brackets are a well-nested word. Otherwise it reports
the first closing bracket that does not close the innermost open one or, if there is none, the
innermost bracket that is open at the end. -/
theorem checkBalanced_language (t : Text) :
    (checkBalanced t = .ok () ↔ WellNested t.brackets) ∧
      (∀ b position, ClosesWrongly t b position →
        (∀ place < position, ∀ b', ¬ ClosesWrongly t b' place) →
        checkBalanced t = .error (.malformed (.unbalanced b.closing) t (some position))) ∧
      (¬ WellNested t.brackets → (∀ b position, ¬ ClosesWrongly t b position) →
        ∃ b position, InnermostOpen t b position ∧
          checkBalanced t = .error (.malformed (.unclosed b.opening) t (some position))) := by
  refine ⟨⟨fun passed => ?_, fun nested => ?_⟩, fun b position wrong first => ?_,
    fun notNested none => ?_⟩
  · have found : findImbalance [] 0 t = none := by
      unfold checkBalanced at passed
      split at passed
      · cases passed
      · next found => exact found
    rcases openIn_or_firstWrong t with ⟨opened, reads⟩ | ⟨b, position, opened, wrong⟩
    · rw [reads.findImbalance_eq, Option.map_eq_none_iff, List.head?_eq_none_iff] at found
      exact (found ▸ reads).wellNested
    · rw [← List.append_nil t, wrong.findImbalance_append] at found
      cases found
  · rw [checkBalanced, (OpenIn.closed nested).findImbalance_eq]
    rfl
  · rw [checkBalanced, wrong.findImbalance_eq first]
    rfl
  · rcases openIn_or_firstWrong t with ⟨opened, reads⟩ | ⟨b, position, opened, wrong⟩
    · cases opened with
      | nil => exact absurd reads.wellNested notNested
      | cons innermost outer =>
        obtain ⟨b, position⟩ := innermost
        refine ⟨b, position, reads.innermostOpen, ?_⟩
        rw [checkBalanced, reads.findImbalance_eq]
        rfl
    · exact absurd wrong.closesWrongly (none b position)

example : checkBalanced "f(a[0], (b])".toList =
    .error (.malformed (.unbalanced ']') "f(a[0], (b])".toList (some 10)) := by decide

end PolicyRules
