import Mathlib.Data.List.DropRight
import PolicyRules.Proofs.Scanning

/-!
# Layouts

The words of a text with the brackets between them, apart from the text itself. While a tree is
built the text changes: strings, keywords and bracketed parts are replaced by tokens and put back
again. The layout stays the same through all of this. A view says how the words and the bracketed
parts of a layout stand in the text at some stage, and `Shows` says that a text has a layout in a
view.

Main statements: a text whose words are replaced one by one has the same layout in another view
(`Shows.replace`), and so has a text without the blanks at its ends (`Shows.strip`).
-/

namespace PolicyRules

/-- A word of a text: a lexeme of a leaf expression, or a keyword with its ordinal. -/
inductive Item where
  | lexeme (lexeme : Lexeme)
  | keyword (keyword : Keyword) (ordinal : Int)

/-- The words and bracketed parts of a text. -/
inductive Layout where
  | nil
  | item (item : Item) (rest : Layout)
  | nested (bracket : Bracket) (inner rest : Layout)

namespace Layout

/-- One layout behind another. -/
def append : Layout → Layout → Layout
  | nil, m => m
  | item i rest, m => item i (rest.append m)
  | nested b inner rest, m => nested b inner (rest.append m)

instance : Append Layout := ⟨append⟩

@[simp] theorem nil_append (m : Layout) : nil ++ m = m := rfl

@[simp] theorem item_append (i : Item) (l m : Layout) : item i l ++ m = item i (l ++ m) := rfl

@[simp] theorem nested_append (b : Bracket) (inner l m : Layout) :
    nested b inner l ++ m = nested b inner (l ++ m) := rfl

@[simp] theorem append_nil (l : Layout) : l ++ nil = l := by
  induction l with
  | nil => rfl
  | item i rest ih => rw [item_append, ih]
  | nested b inner rest _ ih => rw [nested_append, ih]

end Layout

variable {Good : Nat → Item → Prop} {n : Nat} {l : Layout} {t u : Text}

section Marks

variable {α : Type} (mark : Item → Option α)

/-- The marks that words of a layout are taken for, in the order of the text. -/
def Layout.marks : Layout → List α
  | nil => []
  | item i rest => (mark i).toList ++ rest.marks
  | nested _ inner rest => inner.marks ++ rest.marks

/-- Whether `Good` holds of the numbers of the words that are taken for marks. The first of them has
the number given. -/
def Layout.Numbered (Good : Nat → Item → Prop) : Nat → Layout → Prop
  | _, nil => True
  | n, item i rest => ((mark i).isSome → Good n i) ∧ rest.Numbered Good (n + (mark i).toList.length)
  | n, nested _ inner rest =>
    inner.Numbered Good n ∧ rest.Numbered Good (n + (inner.marks mark).length)

variable {mark}

theorem Layout.marks_append (l m : Layout) :
    (l ++ m).marks mark = l.marks mark ++ m.marks mark := by
  induction l with
  | nil => rfl
  | item i rest ih | nested b inner rest _ ih => simp [marks, ih]

/-- The marks of a second layout are numbered on. -/
theorem Layout.numbered_append {m : Layout} : (l ++ m).Numbered mark Good n ↔
      l.Numbered mark Good n ∧ m.Numbered mark Good (n + (l.marks mark).length) := by
  induction l generalizing n with
  | nil => simp [Numbered, marks]
  | item i rest ih | nested b inner rest _ ih =>
    simp [Numbered, marks, ih, and_assoc, Nat.add_assoc]

/-- Marks that are listed in the order of the text are numbered by their places in the list. -/
theorem Layout.numbered_of_prefix {β : Type} {f : α → β} {list : List β}
    (h : (l.marks mark).map f <+: list.drop n) :
    l.Numbered mark (fun n i => ∃ a, mark i = some a ∧ list[n]? = some (f a)) n := by
  induction l generalizing n with
  | nil => trivial
  | item i rest ih =>
    simp only [marks, Numbered] at h ⊢
    cases marked : mark i with
    | none => exact ⟨by simp, ih (by simpa [marked] using h)⟩
    | some a =>
      simp only [marked, Option.toList_some, List.singleton_append, List.map_cons] at h
      obtain ⟨more, split⟩ := h
      rw [List.cons_append] at split
      refine ⟨fun _ => ⟨a, rfl, ?_⟩, ih ⟨more, ?_⟩⟩
      · simpa [List.head?_drop] using congrArg List.head? split.symm
      · simpa using congrArg List.tail split
  | nested b inner rest ihi ihr =>
    simp only [marks, Numbered, List.map_append] at h ⊢
    obtain ⟨more, split⟩ := h
    rw [List.append_assoc] at split
    refine ⟨ihi ⟨_, split⟩, ihr ⟨more, ?_⟩⟩
    have cut := congrArg (List.drop (inner.marks mark).length) split
    rwa [List.drop_left' (by simp), List.drop_drop] at cut

theorem Layout.Numbered.and {Good' : Nat → Item → Prop} (h : l.Numbered mark Good n)
    (h' : l.Numbered mark Good' n) : l.Numbered mark (fun n i => Good n i ∧ Good' n i) n := by
  induction l generalizing n with
  | nil => trivial
  | item i rest ih => exact ⟨fun marked => ⟨h.1 marked, h'.1 marked⟩, ih h.2 h'.2⟩
  | nested b inner rest ihi ihr => exact ⟨ihi h.1 h'.1, ihr h.2 h'.2⟩

end Marks

/-- How the words and bracketed parts of layouts stand in a text. -/
structure View where
  /-- The texts of words. -/
  item : Item → Text → Prop
  /-- Whether a part in brackets of a kind stands in the text. -/
  raw : Bracket → Layout → Prop
  /-- The tokens that stand for parts in brackets of a kind. -/
  token : Bracket → Layout → Text → Prop

/-- Whether a text is empty or begins with a space. -/
def Gap (t : Text) : Prop := ∀ c, t.head? = some c → c = ' '

@[simp] theorem gap_nil : Gap [] := by simp [Gap]

@[simp] theorem gap_space (t : Text) : Gap (' ' :: t) := by simp [Gap]

theorem Gap.endsWord {after : Text} (gap : Gap t) (ends : EndsWord after) :
    EndsWord (t ++ after) := by
  cases t with
  | nil => exact ends
  | cons c cs => exact fun d head => .inl (by simpa [gap c rfl] using head.symm)

/-- Whether a text has a layout: its words and brackets are set apart by spaces, but for the space
behind an opening and before a closing bracket. -/
inductive Shows (v : View) : Layout → Text → Prop
  | nil : Shows v .nil []
  | space {l : Layout} {t : Text} (h : Shows v l t) : Shows v l (' ' :: t)
  | item {i : Item} {w t : Text} {rest : Layout} (shown : v.item i w) (gap : Gap t)
    (h : Shows v rest t) : Shows v (.item i rest) (w ++ t)
  | token {b : Bracket} {inner rest : Layout} {w t : Text} (shown : v.token b inner w) (gap : Gap t)
    (h : Shows v rest t) : Shows v (.nested b inner rest) (w ++ t)
  | raw {b : Bracket} {inner rest : Layout} {g t : Text} (stands : v.raw b inner)
    (inside : Shows v inner g) (gap : Gap t) (h : Shows v rest t) :
    Shows v (.nested b inner rest) (b.opening :: (g ++ b.closing :: t))

/-- Whether a word begins and ends with a character that is not blank. -/
def IsFirm (w : Text) : Prop :=
  ∃ c cs d ds, w = c :: cs ∧ isBlank c = false ∧ w = ds ++ [d] ∧ isBlank d = false

namespace View

/-- Whether a word of the text is the first word of a layout, or a token for its first part. -/
inductive Leads (v : View) : Layout → Layout → Text → Prop
  | item {i : Item} {w : Text} {rest : Layout} (shown : v.item i w) : Leads v (.item i rest) rest w
  | token {b : Bracket} {inner rest : Layout} {w : Text} (shown : v.token b inner w) :
    Leads v (.nested b inner rest) rest w

/-- Whether a text stands for the first word or part of a layout. -/
inductive Heads (v : View) : Layout → Layout → Text → Prop
  | word {l rest : Layout} {w : Text} (leads : v.Leads l rest w) : Heads v l rest w
  | raw {b : Bracket} {inner rest : Layout} {g : Text} (stands : v.raw b inner)
    (inside : Shows v inner g) :
    Heads v (.nested b inner rest) rest (b.opening :: (g ++ [b.closing]))

/-- Whether every word begins and ends with a character that is not blank. -/
def Firm (v : View) : Prop := ∀ l rest w, v.Leads l rest w → IsFirm w

end View

namespace Shows

variable {v v' : View} {l rest : Layout} {t w : Text}

/-- The first word of a layout is shown before the rest. -/
theorem leads (h : v.Leads l rest w) (gap : Gap t) (behind : Shows v rest t) :
    Shows v l (w ++ t) := by
  cases h with
  | item shown => exact .item shown gap behind
  | token shown => exact .token shown gap behind

theorem heads (h : v.Heads l rest w) (gap : Gap t) (behind : Shows v rest t) :
    Shows v l (w ++ t) := by
  cases h with
  | word h => exact leads h gap behind
  | raw stands inside => simpa using Shows.raw stands inside gap behind

/-- Induction in which words and tokens are one case. -/
theorem induction {motive : (l : Layout) → (t : Text) → Shows v l t → Prop}
    (nil : motive .nil [] .nil) (space : ∀ l t h, motive l t h → motive l (' ' :: t) (.space h))
    (word : ∀ l rest w t leads gap h, motive rest t h → motive l (w ++ t) (Shows.leads leads gap h))
    (raw : ∀ b inner rest g t stands inside gap h, motive inner g inside → motive rest t h →
      motive (.nested b inner rest) (b.opening :: (g ++ b.closing :: t)) (.raw stands inside gap h))
    {l : Layout} {t : Text} (h : Shows v l t) : motive l t h := by
  induction h with
  | nil => exact nil
  | space h ih => exact space _ _ _ ih
  | item shown gap h ih => exact word _ _ _ _ (.item shown) gap h ih
  | token shown gap h ih => exact word _ _ _ _ (.token shown) gap h ih
  | raw stands inside gap h ih ih' => exact raw _ _ _ _ _ stands inside gap h ih ih'

/-- A view that allows more shows more. -/
theorem mono (h : Shows v l t) (item : ∀ i w, v.item i w → v'.item i w)
    (token : ∀ b inner w, v.token b inner w → v'.token b inner w)
    (raw : ∀ b inner, v.raw b inner → v'.raw b inner) : Shows v' l t := by
  induction h with
  | nil => exact .nil
  | space h ih => exact .space ih
  | item shown gap h ih => exact .item (item _ _ shown) gap ih
  | token shown gap h ih => exact .token (token _ _ _ shown) gap ih
  | raw stands inside gap h ih ih' => exact .raw (raw _ _ stands) ih gap ih'

/-- Spaces in front do not matter. -/
theorem spaces (h : Shows v l t) (blank : ∀ c ∈ u, c = ' ') : Shows v l (u ++ t) := by
  induction u with
  | nil => exact h
  | cons c cs ih =>
    obtain ⟨rfl, later⟩ := List.forall_mem_cons.mp blank
    exact .space (ih later)

end Shows

theorem Gap.of_prefix (gap : Gap t) (h : u <+: t) : Gap u := by
  obtain ⟨more, rfl⟩ := h
  cases u with
  | nil => exact gap_nil
  | cons c cs => exact gap

theorem Gap.spaces (gap : Gap t) (blank : ∀ c ∈ u, c = ' ') : Gap (u ++ t) := by
  cases u with
  | nil => exact gap
  | cons c cs => exact fun d head => blank d (by simpa using .inl (by simpa using head.symm))

/-- No gap begins with a word. -/
theorem View.Firm.not_gap {v : View} (firm : v.Firm) {rest : Layout} {w : Text}
    (leads : v.Leads l rest w) (t : Text) : ¬ Gap (w ++ t) := by
  obtain ⟨c, cs, -, -, rfl, solid, -, -⟩ := firm l rest w leads
  intro gap
  cases gap c rfl
  cases solid

/-- How the words of a text are replaced while it is scanned. A word is passed over or taken for a
mark, and what stands in its place then is allowed by the other view. `Agrees` says what the states
of the scan before and behind a layout have to do with it. -/
structure Replaces {α σ : Type} (recognise : Recogniser α) (write : σ → α → Text → σ → Prop)
    (v v' : View) (Agrees : σ → Layout → σ → Prop) : Prop where
  skips : SkipsSeparators recognise
  nil : ∀ {x z}, Agrees x .nil z → x = z
  word : ∀ {x z l rest w}, Agrees x l z → v.Leads l rest w →
    (Passes recognise w ∧ v'.Heads l rest w ∧ Agrees x rest z) ∨
      ∃ a y before word behind, Taken recognise w a ∧ write x a (before ++ (word ++ behind)) y ∧
        (∀ c ∈ before, c = ' ') ∧ (∀ c ∈ behind, c = ' ') ∧ v'.Heads l rest word ∧ Agrees y rest z
  raw : ∀ {x z b inner rest}, Agrees x (.nested b inner rest) z → v.raw b inner →
    v'.raw b inner ∧ ∃ y, Agrees x inner y ∧ Agrees y rest z

namespace Shows

variable {α σ : Type} {recognise : Recogniser α} {write : σ → α → Text → σ → Prop} {v v' : View}
  {Agrees : σ → Layout → σ → Prop} {l : Layout} {t : Text}

/-- Separators are skipped by a scan. -/
theorem scan_separator (skips : SkipsSeparators recognise) {c : Char}
    (separates : c ∈ [' ', '(', ')', '[', ']']) (previous : Option Char) (t : Text) :
    Split.scan recognise 0 previous (c :: t) =
      (Split.scan recognise 0 (some c) t).consText [c] :=
  Split.scan_append_of_quiet (u := [c]) ⟨skips c separates previous _, trivial⟩

/-- What the scan of a text gives when its words are replaced, whatever follows. -/
theorem renders (rules : Replaces recognise write v v' Agrees) (firm : v.Firm) (h : Shows v l t) :
    ∀ {x z : σ} {previous : Option Char}, BeginsWord previous ∨ Gap t → Agrees x l z →
      ∃ t', Shows v' l t' ∧ (Gap t → Gap t') ∧ ∀ {after T : Text} {y : σ}, EndsWord after →
        Split.Renders write z (Split.scan recognise 0 (lastChar previous t) after) T y →
        Split.Renders write x (Split.scan recognise 0 previous (t ++ after)) (t' ++ T) y := by
  induction h using Shows.induction with
  | nil =>
    intro x z previous _ agrees
    cases rules.nil agrees
    exact ⟨[], .nil, id, fun _ rest => rest⟩
  | space l t h ih =>
    intro x z previous _ agrees
    obtain ⟨t', shows', -, scans⟩ := ih (.inl beginsWord_space) agrees
    refine ⟨' ' :: t', .space shows', fun _ => gap_space t', fun ends rest => ?_⟩
    rw [List.cons_append, scan_separator rules.skips (by simp)]
    exact (scans ends rest).consText [' ']
  | word l rest w t leads gap h ih =>
    intro x z previous begins agrees
    have begins : BeginsWord previous := begins.resolve_right (firm.not_gap leads t)
    rcases rules.word agrees leads with ⟨passes, heads, agrees⟩ |
      ⟨a, y, before, word, behind, taken, written, blank, blank', heads, agrees⟩
    · obtain ⟨t', shows', gap', scans⟩ := ih (.inr gap) agrees
      refine ⟨w ++ t', .heads heads (gap' gap) shows', fun gap => absurd gap (firm.not_gap leads t),
        fun ends rest => ?_⟩
      rw [lastChar_append] at rest
      rw [List.append_assoc, List.append_assoc,
        Split.scan_append_of_quiet (passes previous _ begins (gap.endsWord ends))]
      exact (scans ends rest).consText w
    · obtain ⟨t', shows', gap', scans⟩ := ih (.inr gap) agrees
      refine ⟨before ++ (word ++ (behind ++ t')), ?_,
        fun gap => absurd gap (firm.not_gap leads t), fun ends rest => ?_⟩
      · exact .spaces (.heads heads ((gap' gap).spaces blank') (shows'.spaces blank')) blank
      · rw [lastChar_append] at rest
        rw [List.append_assoc, Split.scan_append_of_mark taken.1
          (taken.2 previous _ begins (gap.endsWord ends))]
        simpa using (scans ends rest).consMark written
  | raw b inner rest g t stands inside gap h ih ih' =>
    intro x z previous _ agrees
    obtain ⟨stands', y, agrees, agrees'⟩ := rules.raw agrees stands
    obtain ⟨g', shows', -, scans⟩ := ih (.inl (beginsWord_opening b)) agrees
    obtain ⟨t', shows'', gap', scans'⟩ := ih' (.inr gap) agrees'
    refine ⟨b.opening :: (g' ++ b.closing :: t'), .raw stands' shows' (gap' gap) shows'',
      fun gap => ?_, fun {after T _} ends rest => ?_⟩
    · have opening := gap b.opening rfl
      cases b <;> cases opening
    · have opening : b.opening ∈ [' ', '(', ')', '[', ']'] := by cases b <;> decide
      have closing : b.closing ∈ [' ', '(', ')', '[', ']'] := by cases b <;> decide
      have behind := (scans' ends (by simpa [lastChar] using rest)).consText [b.closing]
      rw [← scan_separator rules.skips closing (lastChar (some b.opening) g)] at behind
      have whole := (scans (endsWord_closing b _) behind).consText [b.opening]
      rw [← scan_separator rules.skips opening previous] at whole
      simpa using whole

/-- A text whose words are replaced has the same layout. -/
theorem replace (rules : Replaces recognise write v v' Agrees) (firm : v.Firm) (h : Shows v l t)
    {x z : σ} (agrees : Agrees x l z) :
    ∃ t', Shows v' l t' ∧ Split.Renders write x (t.split recognise) t' z := by
  obtain ⟨t', shows', -, scans⟩ := h.renders rules firm (.inl beginsWord_none) agrees
  exact ⟨t', shows', by simpa [Text.split] using scans endsWord_nil (.text z [])⟩

/-- A recogniser that passes over every word finds nothing in a text. -/
theorem quiet (firm : v.Firm) (skips : SkipsSeparators recognise)
    (passes : ∀ l rest w, v.Leads l rest w → Passes recognise w) (h : Shows v l t) :
    Quiet recognise none t [] := by
  have rules : Replaces recognise (fun (_ : Unit) _ _ _ => False) v v fun _ _ _ => True :=
    ⟨skips, fun _ => rfl, fun _ leads => .inl ⟨passes _ _ _ leads, .word leads, trivial⟩,
      fun _ stands => ⟨stands, (), trivial, trivial⟩⟩
  obtain ⟨t', -, rendered⟩ := h.replace rules firm (x := ()) (z := ()) trivial
  refine Split.quiet_of_scan ?_
  rw [Text.split] at rendered
  generalize Split.scan recognise 0 none t = s at rendered
  cases rendered with
  | text => rfl
  | mark written => exact written.elim

/-- Dropping blanks in front shows the same layout. -/
theorem dropWhile_isBlank (firm : v.Firm) (h : Shows v l t) : Shows v l (t.dropWhile isBlank) := by
  induction h using Shows.induction with
  | nil => exact .nil
  | space l t h ih => exact ih
  | word l rest w t leads gap h ih =>
    obtain ⟨c, cs, -, -, rfl, solid, -, -⟩ := firm l rest w leads
    rw [List.cons_append, List.dropWhile_cons_of_neg (by simp [solid])]
    exact .leads leads gap h
  | raw b inner rest g t stands inside gap h ih ih' =>
    have solid : ¬ isBlank b.opening := by cases b <;> decide
    rw [List.dropWhile_cons_of_neg solid]
    exact .raw stands inside gap h

theorem rdropWhile_append_solid {t : Text} {d : Char} {ds : Text} (same : u = ds ++ [d])
    (solid : isBlank d = false) : (u ++ t).rdropWhile isBlank = u ++ t.rdropWhile isBlank := by
  simp only [List.rdropWhile, List.reverse_append, List.dropWhile_append]
  split
  · next empty =>
    rw [List.isEmpty_iff] at empty
    simp [same, solid, empty]
  · simp

/-- Dropping blanks at the end shows the same layout. -/
theorem rdropWhile_isBlank (firm : v.Firm) (h : Shows v l t) :
    Shows v l (t.rdropWhile isBlank) := by
  induction h using Shows.induction with
  | nil => exact .nil
  | space l t h ih =>
    -- The space goes with the rest of the text, if nothing but blanks follows it.
    rw [List.rdropWhile, List.reverse_cons, List.dropWhile_append]
    split
    · next empty =>
      rw [List.isEmpty_iff] at empty
      rw [List.rdropWhile, empty] at ih
      exact ih
    · simpa [List.rdropWhile] using Shows.space ih
  | word l rest w t leads gap h ih =>
    obtain ⟨-, -, d, ds, -, -, same, solid⟩ := firm l rest w leads
    rw [rdropWhile_append_solid same solid]
    exact .leads leads (gap.of_prefix (List.rdropWhile_prefix _ _)) ih
  | raw b inner rest g t stands inside gap h ih ih' =>
    have solid : isBlank b.closing = false := by cases b <;> decide
    have ends : b.opening :: (g ++ [b.closing]) = b.opening :: g ++ [b.closing] := rfl
    have cut := rdropWhile_append_solid (t := t) ends solid
    rw [List.cons_append, List.append_assoc, List.singleton_append] at cut
    rw [cut, List.cons_append, List.append_assoc, List.singleton_append]
    exact .raw stands inside (gap.of_prefix (List.rdropWhile_prefix _ _)) ih'

/-- A text without the blanks at its ends has the same layout. -/
theorem strip (firm : v.Firm) (h : Shows v l t) : Shows v l (Text.strip t) :=
  rdropWhile_isBlank firm (dropWhile_isBlank firm h)

/-- A layout with a word in it is not that of an empty text. -/
theorem eq_nil_of_empty (firm : v.Firm) (h : Shows v l []) : l = .nil := by
  generalize empty : ([] : Text) = t at h
  cases h using Shows.induction with
  | nil => rfl
  | space | raw => cases empty
  | word l rest w t leads =>
    obtain ⟨c, cs, -, -, rfl, -⟩ := firm l rest w leads
    cases empty

/-- A text without words has only spaces. -/
theorem eq_space_of_nil (h : Shows v .nil t) : ∀ c ∈ t, c = ' ' := by
  generalize same : Layout.nil = l at h
  induction h with
  | nil => simp
  | space h ih => simpa using ih same
  | _ => cases same

variable (v') in
/-- Words that are replaced by numbered tokens. -/
theorem number {mark : Item → Option α} {token : Nat → Text} (firm : v.Firm)
    (skips : SkipsSeparators recognise) (raw : ∀ b inner, v.raw b inner → v'.raw b inner)
    (untouched : ∀ b inner w, ¬ v.token b inner w)
    (passed : ∀ i w, v.item i w → mark i = none → Passes recognise w ∧ v'.item i w)
    (taken : ∀ i w a, v.item i w → mark i = some a → Taken recognise w a ∧ ∀ n, Good n i →
      ∃ before word behind, token n = before ++ (word ++ behind) ∧ (∀ c ∈ before, c = ' ') ∧
        (∀ c ∈ behind, c = ' ') ∧ v'.item i word)
    (h : Shows v l t) {start : Nat} (numbered : l.Numbered mark Good start) :
    Shows v' l ((t.split recognise).renderNumbered fun n => token (start + n)) ∧
      (t.split recognise).marks = l.marks mark := by
  have rules : Replaces recognise (Split.Renders.Numbered fun n => token (start + n)) v v'
      fun before l behind => behind = before ++ l.marks mark ∧
        l.Numbered mark Good (start + before.length) := by
    refine ⟨skips, fun agrees => by simpa [Layout.marks] using agrees.1.symm,
      fun {x z l rest w} ⟨same, numbered⟩ leads => ?_,
      fun {x z b inner rest} ⟨same, numbered⟩ stands =>
        ⟨raw b inner stands, _, ⟨rfl, numbered.1⟩, ?_⟩⟩
    · cases leads with
      | token shown => exact absurd shown (untouched _ _ _)
      | @item i _ _ shown =>
        simp only [Layout.marks, Layout.Numbered] at same numbered
        cases marked : mark i with
        | none =>
          rw [marked] at same numbered
          obtain ⟨passes, shown'⟩ := passed i w shown marked
          exact .inl ⟨passes, .word (.item shown'), by simpa using same, by simpa using numbered⟩
        | some a =>
          rw [marked] at same numbered
          obtain ⟨takes, write⟩ := taken i w a shown marked
          obtain ⟨before, word, behind, same', blank, blank', shown'⟩ := write _ (numbered.1 rfl)
          refine .inr ⟨a, _, before, word, behind, takes, ⟨same'.symm, rfl⟩, blank, blank',
            .word (.item shown'), by simpa using same, ?_⟩
          simpa [Nat.add_assoc] using numbered.2
    · simp only [Layout.marks, Layout.Numbered] at same numbered
      exact ⟨by simpa using same, by simpa [Nat.add_assoc] using numbered.2⟩
  obtain ⟨t', shows', rendered⟩ :=
    h.replace rules firm (x := []) (z := l.marks mark) ⟨rfl, by simpa using numbered⟩
  obtain ⟨rfl, marks_eq⟩ := rendered.renderNumbered_eq
  exact ⟨shows', marks_eq⟩

end Shows

end PolicyRules
