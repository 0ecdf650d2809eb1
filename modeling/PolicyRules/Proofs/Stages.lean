import PolicyRules.Proofs.BuiltTree
import PolicyRules.Proofs.PlainWords

/-!
# The stages of a text

How the text of an expression stands at each stage of tree building, as a view of its layout: with
strings masked, with keywords marked, with subexpressions taken out, with groups collapsed, and with
groups and strings put back in the text of a leaf expression. Each step from one stage to the next
keeps the layout.

Main statements: `shows_maskStrings`, `shows_markKeywords`, `shows_extractSubexpressions`,
`shows_collapseGroups` and `shows_expandWithin`, one for each step.
-/

namespace PolicyRules

/-- Strings as tokens of the list that they are set aside in. -/
def stringMasked (strings : List Text) (text w : Text) : Prop :=
  ∃ n, strings[n]? = some text ∧ w = stringToken n

/-- Keywords as tokens of the list that they are set aside in. The ordinal is the place in the
list. -/
def keywordMarked (keywords : List Keyword) (k : Keyword) (ordinal : Int) (w : Text) : Prop :=
  ∃ n : Nat, ordinal = n ∧ keywords[n]? = some k ∧ w = keywordWord n

/-- Strings that may have been put back. -/
def stringOpened (strings : List Text) (text w : Text) : Prop :=
  w = text ∨ stringMasked strings text w

/-- No keywords at all. -/
def noKeyword (_ : Keyword) (_ : Int) (_ : Text) : Prop := False

namespace View

/-- The view in which strings are masked. -/
def masked (strings : List Text) : View where
  item := Item.Stands (stringMasked strings) keywordWritten
  raw := Layout.Enclosable
  token _ _ _ := False

/-- The view in which strings are masked and keywords marked. -/
def marked (strings : List Text) (keywords : List Keyword) : View where
  item := Item.Stands (stringMasked strings) (keywordMarked keywords)
  raw := Layout.Enclosable
  token _ _ _ := False

/-- The view in which subexpressions are tokens of the table that they are kept in. -/
def level (strings : List Text) (keywords : List Keyword) (table : List (Text × Expr)) : View where
  item := Item.Stands (stringMasked strings) (keywordMarked keywords)
  raw b _ := b = .round
  token b inner w := b = .square ∧ ∃ n : Nat, w = subexpressionToken n ∧
    ∀ e : Expr, e.Readable → inner = e.body → Table.value? w table = some e

/-- The view in which subexpressions are taken out. Those with numbers below `n` are tokens; the
tokens are numbered from `start` on. -/
def extracted (strings : List Text) (keywords : List Keyword) (start : Nat) (parts : List Text)
    (n : Nat) : View :=
  (marked strings keywords).aside .square (fun n => subexpressionToken (start + n : Nat)) parts n

/-- The view in which groups are collapsed. Those with numbers below `n` are tokens; the tokens are
numbered from `start` on. -/
def collapsed (strings : List Text) (keywords : List Keyword) (table : List (Text × Expr))
    (start : Nat) (groups : List Text) (n : Nat) : View :=
  (level strings keywords table).aside .round (fun n => 'i' :: ':' :: Text.ofNat (start + n)) groups
    n

/-- The view in which groups have been put back and strings may have been. There are no keywords. -/
def opened (strings : List Text) (table : List (Text × Expr)) : View where
  item := Item.Stands (stringOpened strings) noKeyword
  raw b _ := b = .round
  token := (level [] [] table).token

/-- The view in which groups and strings have been put back. There are no keywords. -/
def leaf (table : List (Text × Expr)) : View where
  item := Item.Stands stringWritten noKeyword
  raw b _ := b = .round
  token := (level [] [] table).token

end View

/-- Whether no keyword stands outside the square brackets of a layout. -/
def Layout.IsLeaf : Layout → Prop
  | nil => True
  | item (.lexeme _) rest => rest.IsLeaf
  | item (.keyword _ _) _ => False
  | nested .round inner rest => inner.IsLeaf ∧ rest.IsLeaf
  | nested .square _ rest => rest.IsLeaf

namespace Item.Stands

variable {strings : Text → Text → Prop} {keywords : Keyword → Int → Text → Prop} {i : Item}
  {w : Text}

/-- What holds of every word that stands for a lexeme. -/
theorem elim_lexeme {R : Text → Prop} {x : Lexeme} (h : (Item.lexeme x).Stands strings keywords w)
    (plain : ∀ x : Lexeme, x.Proper → (∀ text, x ≠ .string text) → R x.text)
    (string : ∀ text, (Lexeme.string text).Proper → strings text w → R w) : R w := by
  obtain ⟨proper, stands⟩ := h
  cases x with
  | string text => exact string text proper stands
  | _ =>
    rw [stands]
    exact plain _ proper (by simp)

/-- What holds of every word that stands for an item. -/
theorem elim {R : Text → Prop} (h : i.Stands strings keywords w)
    (plain : ∀ x : Lexeme, x.Proper → (∀ text, x ≠ .string text) → R x.text)
    (string : ∀ text, (Lexeme.string text).Proper → strings text w → R w)
    (keyword : ∀ k ordinal, keywords k ordinal w → R w) : R w := by
  cases i with
  | lexeme x => exact h.elim_lexeme plain string
  | keyword k ordinal => exact keyword k ordinal h.2

/-- Items other than strings and keywords stand in every view in the same way. -/
theorem of_lexeme {x : Lexeme} {strings' : Text → Text → Prop}
    {keywords' : Keyword → Int → Text → Prop} (h : (Item.lexeme x).Stands strings keywords w)
    (notString : ∀ text, x ≠ .string text) :
    w = x.text ∧ (Item.lexeme x).Stands strings' keywords' w := by
  obtain ⟨proper, stands⟩ := h
  cases x with
  | string text => exact absurd rfl (notString text)
  | _ => exact ⟨stands, proper, stands⟩

theorem mono {strings' : Text → Text → Prop} (h : i.Stands strings keywords w)
    (more : ∀ text, strings text w → strings' text w) : i.Stands strings' keywords w := by
  refine ⟨h.1, ?_⟩
  have stands := h.2
  split at stands <;> simp_all

end Item.Stands

theorem isPlain_keyword (k : Keyword) : IsPlain k.text := by
  cases k <;> decide

theorem isPlain_stringToken (n : Nat) : IsPlain (stringToken n) :=
  isPlain_append_ofNat "q:".toList (by decide) n

theorem isPlain_keywordWord (n : Nat) : IsPlain (keywordWord n) :=
  isPlain_append_ofNat "PLA".toList (by decide) n

theorem isUnreserved_stringToken (n : Nat) : IsUnreserved (stringToken n) :=
  isUnreserved_numbered (by decide) (by decide) n

theorem View.firm_printed : View.printed.Firm := by
  intro l rest w leads
  cases leads with
  | item shown =>
    refine shown.elim (fun x proper plain => (proper.isPlain plain).firm) ?_ ?_
    · rintro text proper rfl
      exact proper.1.isFirm
    · rintro k ordinal rfl
      exact (isPlain_keyword k).firm
  | token shown => exact shown.elim

variable {strings : List Text} {keywords : List Keyword} {table : List (Text × Expr)}

theorem isPlain_of_masked {l rest : Layout} {w : Text}
    (leads : (View.masked strings).Leads l rest w) : IsPlain w := by
  cases leads with
  | item shown =>
    refine shown.elim (fun x => Lexeme.Proper.isPlain) ?_ ?_
    · rintro text - ⟨n, -, rfl⟩
      exact isPlain_stringToken n
    · rintro k ordinal rfl
      exact isPlain_keyword k
  | token shown => exact shown.elim

theorem isPlain_subexpressionToken (n : Nat) : IsPlain (subexpressionToken n) :=
  isPlain_append_ofNat "PLH".toList (by decide) n

section Marked

variable {strings : List Text} {keywords : List Keyword} {table : List (Text × Expr)}
  {start n : Nat} {parts groups : List Text} {l rest : Layout} {i : Item} {w : Text}

theorem Item.Stands.isPlain (h : i.Stands (stringMasked strings) (keywordMarked keywords) w) :
    IsPlain w := by
  refine h.elim (fun x => Lexeme.Proper.isPlain) ?_ ?_
  · rintro text - ⟨n, -, rfl⟩
    exact isPlain_stringToken n
  · rintro k ordinal ⟨n, -, -, rfl⟩
    exact isPlain_keywordWord n

theorem isPlain_of_marked (leads : (View.marked strings keywords).Leads l rest w) : IsPlain w := by
  cases leads with
  | item shown => exact Item.Stands.isPlain shown
  | token shown => exact shown.elim

theorem isPlain_of_extracted
    (leads : (View.extracted strings keywords start parts n).Leads l rest w) : IsPlain w := by
  cases leads with
  | item shown =>
    rw [View.extracted, View.aside_item] at shown
    exact Item.Stands.isPlain shown
  | token shown =>
    rcases View.aside_token.mp shown with ⟨⟨⟩⟩ | ⟨m, -, -, -, rfl, -⟩
    exact isPlain_subexpressionToken _

theorem isPlain_of_level (leads : (View.level strings keywords table).Leads l rest w) :
    IsPlain w := by
  cases leads with
  | item shown => exact Item.Stands.isPlain shown
  | token shown =>
    obtain ⟨-, n, rfl, -⟩ := shown
    exact isPlain_subexpressionToken n

theorem isPlain_of_collapsed
    (leads : (View.collapsed strings keywords table start groups n).Leads l rest w) :
    IsPlain w := by
  cases leads with
  | item shown =>
    rw [View.collapsed, View.aside_item] at shown
    exact Item.Stands.isPlain shown
  | token shown =>
    rcases View.aside_token.mp shown with ⟨-, m, rfl, -⟩ | ⟨m, -, -, -, rfl, -⟩
    · exact isPlain_subexpressionToken m
    · exact isPlain_append_ofNat ['i', ':'] (by decide) _

end Marked

theorem unbracketed_of_isPlain {v : View} (h : ∀ l rest w, v.Leads l rest w → IsPlain w) :
    v.Unbracketed :=
  fun l rest w leads c member => not_mem_bracketChars_of_isPlainChar ((h l rest w leads).2 c member)

theorem firm_opened (strings : List Text) (table : List (Text × Expr)) :
    (View.opened strings table).Firm := by
  intro l rest w leads
  cases leads with
  | item shown =>
    refine shown.elim (fun x proper plain => (proper.isPlain plain).firm) ?_ fun _ _ => False.elim
    rintro text proper (rfl | ⟨n, -, rfl⟩)
    · exact proper.1.isFirm
    · exact (isPlain_stringToken n).firm
  | token shown =>
    obtain ⟨-, n, rfl, -⟩ := shown
    exact (isPlain_subexpressionToken n).firm

theorem firm_leaf (table : List (Text × Expr)) : (View.leaf table).Firm := by
  intro l rest w leads
  cases leads with
  | item shown =>
    have opened : (View.opened [] table).item _ w := shown.mono fun _ => .inl
    exact firm_opened [] table _ rest w (.item opened)
  | token shown => exact firm_opened [] table _ rest w (.token shown)

theorem passes_numberedAt_subexpressionToken (letter : Char) (n : Nat) :
    Passes (numberedAt letter) (subexpressionToken n) :=
  passes_numberedAt_of_not_mem (not_mem_append_ofNat "PLH".toList (by decide) (by decide) n)

/-- The quotation that a string of a layout is taken for. -/
def stringMark : Item → Option Quotation
  | .lexeme (.string text) => some (quotationOf text)
  | _ => none

/-- The keyword that a keyword of a layout is taken for. -/
def keywordMark : Item → Option Keyword
  | .keyword k _ => some k
  | .lexeme _ => none

namespace SetAside

variable {s : SetAside} {l : Layout} {t : Text}

/-- Masking strings keeps the layout. -/
theorem shows_maskStrings (h : Shows .printed l t) :
    Shows (.masked (s.maskStrings t).2.strings) l (s.maskStrings t).1 ∧
      (s.maskStrings t).2.strings = s.strings ++ (l.marks stringMark).map Quotation.text := by
  generalize strings_eq : s.strings ++ (l.marks stringMark).map Quotation.text = strings
  have listed : l.Numbered stringMark
      (fun n i => ∃ a, stringMark i = some a ∧ strings[n]? = some a.text) s.strings.length :=
    Layout.numbered_of_prefix (by simp [← strings_eq])
  have passed : ∀ i w, View.printed.item i w → stringMark i = none →
      Passes quotationAt w ∧ (View.masked strings).item i w := by
    intro i w stands unmarked
    cases i with
    | keyword k ordinal =>
      refine ⟨?_, stands⟩
      rw [show w = k.text from stands.2]
      exact (isPlain_keyword k).passes_quotationAt
    | lexeme x =>
      have notString : ∀ text, x ≠ .string text := by
        rintro text rfl
        cases unmarked
      obtain ⟨rfl, stands'⟩ := stands.of_lexeme notString
      exact ⟨(Lexeme.Proper.isPlain stands.1 notString).passes_quotationAt, stands'⟩
  have taken : ∀ i w a, View.printed.item i w → stringMark i = some a → Taken quotationAt w a ∧
      ∀ n, (∃ a, stringMark i = some a ∧ strings[n]? = some a.text) →
        ∃ before word behind, stringToken n = before ++ (word ++ behind) ∧ (∀ c ∈ before, c = ' ') ∧
          (∀ c ∈ behind, c = ' ') ∧ (View.masked strings).item i word := by
    intro i w a stands isMarked
    match i, isMarked with
    | .lexeme (.string text), rfl =>
      obtain ⟨proper, rfl⟩ := stands
      refine ⟨proper.1.taken, fun n => ?_⟩
      rintro ⟨_, same, found⟩
      cases same
      rw [proper.1.text_quotationOf] at found
      exact ⟨[], stringToken n, [], by simp, by simp, by simp, proper, n, found, rfl⟩
  obtain ⟨shown, marks_eq⟩ := h.number (.masked strings) View.firm_printed
    skipsSeparators_quotationAt (fun _ _ stands => stands) (fun _ _ _ => id) passed taken listed
  have strings_eq' : (s.maskStrings t).2.strings = strings := by
    rw [← strings_eq, ← marks_eq]
    rfl
  rw [strings_eq']
  exact ⟨shown, rfl⟩

/-- Marking keywords keeps the layout, if their ordinals are their places in the list. -/
theorem shows_markKeywords (h : Shows (.masked strings) l t)
    (ordered : l.Numbered keywordMark (fun n i => ∃ k, i = .keyword k n) s.keywords.length) :
    Shows (.marked strings (s.markKeywords t).2.keywords) l (s.markKeywords t).1 ∧
      (s.markKeywords t).2.keywords = s.keywords ++ l.marks keywordMark := by
  generalize keywords_eq : s.keywords ++ l.marks keywordMark = keywords
  have listed : l.Numbered keywordMark
      (fun n i => ∃ k, keywordMark i = some k ∧ keywords[n]? = some k) s.keywords.length :=
    Layout.numbered_of_prefix (f := id) (by simp [← keywords_eq])
  have passed : ∀ i w, (View.masked strings).item i w → keywordMark i = none →
      Passes keywordAt w ∧ (View.marked strings keywords).item i w := by
    intro i w stands unmarked
    cases i with
    | keyword k ordinal => cases unmarked
    | lexeme x =>
      refine ⟨?_, ?_⟩
      · refine stands.elim_lexeme
          (fun x proper plain => (proper.isUnreserved plain).passes_keywordAt) ?_
        rintro text - ⟨n, -, rfl⟩
        exact (isUnreserved_stringToken n).passes_keywordAt
      · cases x <;> exact stands
  have taken : ∀ i w a, (View.masked strings).item i w → keywordMark i = some a →
      Taken keywordAt w a ∧
      ∀ n : Nat, ((∃ k, keywordMark i = some k ∧ keywords[n]? = some k) ∧ ∃ k, i = .keyword k n) →
        ∃ before word behind, keywordToken n = before ++ (word ++ behind) ∧
        (∀ c ∈ before, c = ' ') ∧
          (∀ c ∈ behind, c = ' ') ∧ (View.marked strings keywords).item i word := by
    intro i w a stands isMarked
    match i, isMarked with
    | .keyword k ordinal, rfl =>
      obtain ⟨proper, rfl⟩ := stands
      refine ⟨taken_keyword _, fun n => ?_⟩
      rintro ⟨⟨_, same, found⟩, _, same'⟩
      cases same
      cases same'
      exact ⟨[' '], keywordWord n, [' '], by simp [keywordToken, keywordWord], by simp, by simp,
        proper, n, rfl, found, rfl⟩
  obtain ⟨shown, marks_eq⟩ := h.number (.marked strings keywords)
    (fun _ _ _ leads => (isPlain_of_masked leads).firm) skipsSeparators_keywordAt
    (fun _ _ stands => stands) (fun _ _ _ => id) passed taken (listed.and ordered)
  have keywords_eq' : (s.markKeywords t).2.keywords = keywords := by
    rw [← keywords_eq, ← marks_eq]
    rfl
  rw [keywords_eq']
  exact ⟨shown, rfl⟩

/-- Taking subexpressions out keeps the layout. -/
theorem shows_extractSubexpressions (h : Shows (.marked strings keywords) l t) (start : Nat) :
    ∃ rest parts, extractSubexpressions start t = .ok (rest, parts.map Text.strip) ∧
      rest.count '(' + parts.flatten.count '(' ≤ t.count '(' ∧
      Shows (.extracted strings keywords start parts parts.length) l rest ∧
      ∀ n part, parts[n]? = some part → ∃ e : Expr, e.Readable ∧
        Shows (.extracted strings keywords start parts n) e.body part := by
  obtain ⟨rest, parts, unnest_eq, shown, taken⟩ := h.unnest .square
    (fun n => subexpressionToken (start + n)) (fun n => subexpressionToken (start + n : Nat))
    (unbracketed_of_isPlain fun _ _ _ => isPlain_of_marked)
    fun n => ⟨[], [], by simp, by simp, by simp⟩
  refine ⟨rest, parts, ?_, count_of_unnest (by decide) (by decide) (fun n => ?_) unnest_eq, shown,
    fun n part found => ?_⟩
  · rw [extractSubexpressions, unnest_eq]
  · exact fun member =>
      not_mem_bracketChars_of_isPlainChar ((isPlain_subexpressionToken (start + n)).2 _ member)
        (by decide)
  · obtain ⟨_, ⟨e, readable, rfl⟩, shown⟩ := taken n part found
    rw [Nat.zero_add] at shown
    exact ⟨e, readable, shown⟩

/-- Subexpressions that are taken out are shown by the table, once those with smaller numbers have
been kept in it. -/
theorem shows_level_of_extracted {start n : Nat} {parts : List Text}
    (kept : ∀ m < n, ∀ part, parts[m]? = some part → ∀ e : Expr, e.Readable →
      Shows (.extracted strings keywords start parts m) e.body part →
      Table.value? (subexpressionToken (start + m : Nat)) table = some e)
    (h : Shows (.extracted strings keywords start parts n) l t) :
    Shows (.level strings keywords table) l t := by
  refine h.mono (fun i w shown => ?_) (fun b inner w shown => ?_) (fun b inner stands => ?_)
  · rwa [View.extracted, View.aside_item] at shown
  · rcases View.aside_token.mp shown with ⟨⟨⟩⟩ | ⟨m, lt, rfl, -, rfl, part, found, shown⟩
    refine ⟨rfl, _, rfl, fun e readable same => ?_⟩
    subst same
    exact kept m lt part found e readable shown
  · rw [View.extracted, View.aside_raw] at stands
    cases b with
    | round => rfl
    | square => exact absurd rfl stands.1

/-- Collapsing groups keeps the layout. -/
theorem shows_collapseGroups (h : Shows (.level strings keywords table) l t) :
    ∃ rest groups, s.collapseGroups t = (rest, { s with groups := s.groups ++ groups }) ∧
      groups.length = t.count '(' ∧
      Shows (.collapsed strings keywords table s.groups.length groups groups.length) l rest := by
  obtain ⟨rest, groups, unnest_eq, shown, -⟩ := h.unnest .round
    (fun n => groupToken (s.groups.length + n))
    (fun n => 'i' :: ':' :: Text.ofNat (s.groups.length + n))
    (unbracketed_of_isPlain fun _ _ _ => isPlain_of_level)
    fun n => ⟨[' '], [' '], by simp [groupToken], by simp, by simp⟩
  refine ⟨rest, groups, ?_, length_of_unnest unnest_eq, shown⟩
  rw [collapseGroups, unnest_eq]

/-- Putting strings back keeps the layout of a leaf expression. -/
theorem shows_renderStrings (small : s.strings.length ≤ 10 ^ maxDecimalDigits)
    (h : Shows (.opened s.strings table) l t) :
    ∃ t', (t.split stringTokenAt).renderM (tokenEntry s.strings) = .ok t' ∧
      Shows (.leaf table) l t' := by
  have rules : Replaces stringTokenAt
      (fun (_ : Unit) digits w _ => tokenEntry s.strings digits = .ok w) (.opened s.strings table)
      (.leaf table) fun _ _ _ => True := by
    refine ⟨skipsSeparators_numberedAt (by decide), fun _ => rfl, fun {x z l rest w} _ leads => ?_,
      fun _ stands => ⟨stands, (), trivial, trivial⟩⟩
    cases leads with
    | token shown =>
      obtain ⟨square, n, rfl, value⟩ := shown
      exact .inl
        ⟨passes_numberedAt_subexpressionToken 'q' n, .word (.token ⟨square, n, rfl, value⟩),
          trivial⟩
    | @item i _ _ shown =>
      cases i with
      | keyword k ordinal => exact shown.2.elim
      | lexeme y =>
        by_cases isString : ∃ text, y = .string text
        · obtain ⟨text, rfl⟩ := isString
          obtain ⟨proper, rfl | ⟨n, found, rfl⟩⟩ := shown
          · exact .inl ⟨IsQuoted.passes_stringTokenAt proper.2.2, .word (.item ⟨proper, rfl⟩),
              trivial⟩
          · have lt : n < s.strings.length := (List.getElem?_eq_some_iff.mp found).1
            refine .inr ⟨Text.ofNat n, (), [], text, [], taken_numberedAt 'q' n, ?_,
              by simp, by simp, .word (.item ⟨proper, rfl⟩), trivial⟩
            simpa using tokenEntry_ofNat (by omega) found
        · have notString : ∀ text, y ≠ .string text := fun text same => isString ⟨text, same⟩
          obtain ⟨rfl, shown'⟩ := shown.of_lexeme notString
          exact .inl ⟨Lexeme.Proper.passes_numberedAt shown.1 notString 'q', .word (.item shown'),
            trivial⟩
  obtain ⟨t', shown, rendered⟩ := h.replace rules (firm_opened _ _) (x := ()) (z := ()) trivial
  exact ⟨t', rendered.renderM_eq, shown⟩

/-- Putting groups and strings back keeps the layout of a leaf expression. Groups are nested less
deep than their numbers. -/
theorem shows_expandWithin {start : Nat} {groups : List Text}
    (found : ∀ n group, groups[n]? = some group → s.groups[start + n]? = some group)
    (smallGroups : s.groups.length ≤ 10 ^ maxDecimalDigits)
    (smallStrings : s.strings.length ≤ 10 ^ maxDecimalDigits) {n depth : Nat} (deep : n < depth)
    (h : Shows (.collapsed s.strings keywords table start groups n) l t) (isLeaf : l.IsLeaf) :
    ∃ t', s.expandWithin depth t = .ok t' ∧ Shows (.leaf table) l t' := by
  induction depth generalizing n l t with
  | zero => omega
  | succ depth ih =>
    have rules : Replaces groupTokenAt
        (fun (_ : Unit) digits w _ => (do
          let group ← tokenEntry s.groups digits
          return '(' :: (← s.expandWithin depth group) ++ [')']) = Except.ok w)
        (.collapsed s.strings keywords table start groups n) (.opened s.strings table) fun _ l _ =>
          l.IsLeaf := by
      refine ⟨skipsSeparators_numberedAt (by decide), fun _ => rfl,
        fun {x z l rest w} isLeaf leads => ?_, fun {x z b inner rest} isLeaf stands => ?_⟩
      · cases leads with
        | token shown =>
          rcases View.aside_token.mp shown with ⟨rfl, m, rfl, value⟩ |
            ⟨m, lt, rfl, -, rfl, group, isGroup, inside⟩
          · exact .inl ⟨passes_numberedAt_subexpressionToken 'i' m,
              .word (.token ⟨rfl, m, rfl, value⟩), isLeaf⟩
          · obtain ⟨g, expanded, shown⟩ := ih (by omega) inside isLeaf.1
            have entry := found m group isGroup
            have lt' : start + m < s.groups.length := (List.getElem?_eq_some_iff.mp entry).1
            have inside' : Shows (.opened s.strings table) _ g :=
              shown.mono (fun i w shown => shown.mono fun _ => .inl) (fun _ _ _ => id) fun _ _ => id
            refine .inr ⟨Text.ofNat (start + m), (), [], '(' :: (g ++ [')']), [],
              taken_numberedAt 'i' (start + m), ?_, by simp, by simp, .raw rfl inside', isLeaf.2⟩
            simp only [bind_eq_ok_iff, pure_eq_ok_iff]
            exact ⟨group, tokenEntry_ofNat (by omega) entry, g, expanded, by simp⟩
        | @item i _ _ shown =>
          rw [View.collapsed, View.aside_item] at shown
          cases i with
          | keyword k ordinal => exact isLeaf.elim
          | lexeme y =>
            refine .inl ⟨?_, .word (.item ?_), isLeaf⟩
            · refine shown.elim_lexeme (fun x proper plain => proper.passes_numberedAt plain 'i') ?_
              rintro text - ⟨n, -, rfl⟩
              exact passes_groupTokenAt_stringToken n
            · refine ⟨shown.1, ?_⟩
              cases y with
              | string text => exact .inr shown.2
              | _ => exact shown.2
      · rw [View.collapsed, View.aside_raw] at stands
        exact absurd stands.2 stands.1
    obtain ⟨opened, shown, rendered⟩ := h.replace rules
      (fun _ _ _ leads => (isPlain_of_collapsed leads).firm) (x := ()) (z := ()) isLeaf
    obtain ⟨t', rendered', shown'⟩ := shows_renderStrings smallStrings shown
    refine ⟨t', ?_, shown'⟩
    rw [expandWithin, rendered.renderM_eq]
    exact rendered'

end SetAside

end PolicyRules
