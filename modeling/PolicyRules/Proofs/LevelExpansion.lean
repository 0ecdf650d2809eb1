import PolicyRules.Proofs.CollapsedLevels
import PolicyRules.Proofs.LeafQuotes

/-!
# Expanding a level

A level is expanded operand by operand: no token of a group or string goes on where a level is cut
at its keywords. So a level can be expanded if each of its operands can, and it is a text that names
no string any more if its operands are. Operands that are read are such operands: leaf expressions,
and groups by what is said of levels.

Main statements: `Scans.resolves` for a level, `SetAside.Levelled.resolves_of_operands` for what is
read.
-/

namespace PolicyRules

/-- Whether a character has no part in the tokens of groups and strings. -/
def isOutside (c : Char) : Bool := ! isDecimalDigit c && ! "iq:".toList.contains c

variable {c : Char} {previous : Option Char}

theorem isOutside_iff : isOutside c ↔ isDecimalDigit c = false ∧ c ≠ 'i' ∧ c ≠ 'q' ∧ c ≠ ':' := by
  simp [isOutside]

theorem isOutside_of_isBlank (h : isBlank c) : isOutside c := by
  have letters : isBlank 'i' = false ∧ isBlank 'q' = false ∧ isBlank ':' = false := by decide
  refine isOutside_iff.mpr ⟨isDecimalDigit_eq_false_of_isBlank h, ?_, ?_, ?_⟩ <;> rintro rfl <;>
    simp [letters] at h

section Scanning

variable {letter c : Char} {previous previous' : Option Char} {t u x y : Text}

theorem numberedAt_cons_of_ne (other : c ≠ letter) (previous : Option Char) (t : Text) :
    numberedAt letter previous (c :: t) = none := by
  cases found : numberedAt letter previous (c :: t) with
  | none => rfl
  | some result =>
    obtain ⟨d, rest, same, -⟩ := numberedAt_eq_some found
    exact absurd (List.cons.inj same).1 other

theorem digitsAt?_append (ends : EndsNumber y) (x : Text) : digitsAt? (x ++ y) = digitsAt? x := by
  have run : (x ++ y).takeWhile isDecimalDigit = x.takeWhile isDecimalDigit := by
    induction x with
    | nil =>
      cases y with
      | nil => rfl
      | cons c cs => simp [ends c rfl]
    | cons c cs ih => simp [List.takeWhile_cons, ih]
  simp only [digitsAt?, run]

/-- What follows a text does not matter for a token at its beginning, if no token goes on there. -/
theorem numberedAt_append (nonempty : x ≠ []) (apart : ∀ c, y.head? = some c → isOutside c) :
    numberedAt letter previous (x ++ y) = numberedAt letter previous x := by
  have ends : EndsNumber y := fun c head => (isOutside_iff.mp (apart c head)).1
  obtain ⟨c, x, rfl⟩ := List.exists_cons_of_ne_nil nonempty
  by_cases isLetter : c = letter
  · subst isLetter
    cases x with
    | nil =>
      cases y with
      | nil => rfl
      | cons d y =>
        have other : d ≠ ':' := (isOutside_iff.mp (apart d rfl)).2.2.2
        simp [numberedAt, Text.dropStart?, other.symm]
    | cons d x =>
      by_cases isColon : d = ':'
      · subst isColon
        simp [numberedAt, Text.dropStart?, digitsAt?_append ends]
      · simp [numberedAt, Text.dropStart?, Ne.symm isColon]
  · rw [List.cons_append, numberedAt_cons_of_ne isLetter, numberedAt_cons_of_ne isLetter]

theorem quiet_numberedAt_append (apart : ∀ c, y.head? = some c → isOutside c)
    (h : Quiet (numberedAt letter) previous x t) :
    Quiet (numberedAt letter) previous x (t ++ y) := by
  induction x generalizing previous with
  | nil => trivial
  | cons c cs ih =>
    refine ⟨?_, ih h.2⟩
    rw [← List.append_assoc, numberedAt_append (by simp) apart]
    exact h.1

/-- What stands before a text matters only for a token at its beginning. -/
theorem scan_numberedAt_congr
    (same : isClear previous = isClear previous' ∨ t.head? ≠ some letter) :
    Split.scan (numberedAt letter) 0 previous t = Split.scan (numberedAt letter) 0 previous' t := by
  cases t with
  | nil => rfl
  | cons c cs =>
    have here : numberedAt letter previous (c :: cs) = numberedAt letter previous' (c :: cs) := by
      rcases same with same | other
      · simp only [numberedAt, same]
      · have other : c ≠ letter := fun same => other (by simp [same])
        rw [numberedAt_cons_of_ne other, numberedAt_cons_of_ne other]
    rw [Split.scan, Split.scan, here]

theorem scan_numberedAt_of_forall (other : ∀ c ∈ u, c ≠ letter) (previous : Option Char)
    (t : Text) :
    Split.scan (numberedAt letter) 0 previous (u ++ t) =
      (Split.scan (numberedAt letter) 0 (lastChar previous u) t).consText u := by
  apply Split.scan_append_of_quiet
  exact quiet_of_forall
    (fun c member previous t => numberedAt_cons_of_ne (other c member) previous t) previous t

/-- No string is named in two texts put together, if no token goes on from the first to the
second. -/
theorem hasNumbered_append (first : hasNumbered "q:".toList x = false)
    (second : hasNumbered "q:".toList y = false) (apart : ∀ c, y.head? = some c → isOutside c) :
    hasNumbered "q:".toList (x ++ y) = false := by
  refine hasNumbered_eq_false_iff.mpr fun d digit inside => ?_
  rcases List.infix_append_iff_ne_nil.mp inside with left | right |
    ⟨p, q, begun, more, same, -, ⟨rest, start⟩⟩
  · exact not_infix_of_hasNumbered first digit left
  · exact not_infix_of_hasNumbered second digit right
  · obtain ⟨e, q, rfl⟩ := List.exists_cons_of_ne_nil more
    obtain ⟨c, p, rfl⟩ := List.exists_cons_of_ne_nil begun
    have inToken : e ∈ [':', d] := by
      have later : [':', d] = p ++ e :: q := (List.cons.inj same).2
      simp [later]
    have outside := isOutside_iff.mp (apart e (by simp [← start]))
    rcases List.mem_pair.mp inToken with rfl | rfl
    · exact outside.2.2.2 rfl
    · rw [outside.1] at digit
      cases digit

/-- No string is named in a text behind one without the letter of its tokens. -/
theorem hasNumbered_prepend (plain : 'q' ∉ x) (h : hasNumbered "q:".toList y = false) :
    hasNumbered "q:".toList (x ++ y) = false := by
  refine hasNumbered_eq_false_iff.mpr fun d digit inside => ?_
  rcases List.infix_append_iff_ne_nil.mp inside with left | right |
    ⟨p, q, begun, -, same, suffix, -⟩
  · exact plain (left.subset (by simp))
  · exact not_infix_of_hasNumbered h digit right
  · obtain ⟨c, p, rfl⟩ := List.exists_cons_of_ne_nil begun
    obtain rfl : 'q' = c := (List.cons.inj same).1
    exact plain (suffix.subset (by simp))

end Scanning

section Rendering

variable {α : Type} {write : α → Except Error Text} {s : Split α} {t u w : Text} {a : α}

theorem Split.renderM_consText_eq_ok_iff :
    (s.consText u).renderM write = .ok t ↔ ∃ t', s.renderM write = .ok t' ∧ t = u ++ t' := by
  simp only [Split.renderM, Split.consText, bind_eq_ok_iff, pure_eq_ok_iff]
  constructor
  · rintro ⟨pieces, written, rfl⟩
    exact ⟨_, ⟨pieces, written, rfl⟩, by simp⟩
  · rintro ⟨_, ⟨pieces, written, rfl⟩, rfl⟩
    exact ⟨pieces, written, by simp⟩

theorem Split.renderM_consMark (written : write a = .ok w) (h : s.renderM write = .ok t) :
    (s.consMark a).renderM write = .ok (w ++ t) := by
  simp only [Split.renderM, Split.consMark, bind_eq_ok_iff, pure_eq_ok_iff, List.mapM_cons] at h ⊢
  obtain ⟨pieces, others, rfl⟩ := h
  exact ⟨_, ⟨_, ⟨w, written, rfl⟩, pieces, others, rfl⟩, by simp⟩

/-- Tokens are written one after the other in two texts, if none goes on from the first to the
second. -/
theorem Scans.renderM_append {letter : Char} {write : Text → Except Error Text}
    {x y a b : Text} {s : Split Text} (apart : ∀ c, y.head? = some c → isOutside c)
    (scanned : Scans (numberedAt letter) previous x s) (first : s.renderM write = .ok a)
    (second : (Split.scan (numberedAt letter) 0 (lastChar previous x) y).renderM write = .ok b) :
    (Split.scan (numberedAt letter) 0 previous (x ++ y)).renderM write = .ok (a ++ b) := by
  induction scanned generalizing a with
  | @text previous x quiet =>
    obtain rfl := Split.renderM_nil_eq_ok first
    have quiet' := quiet_numberedAt_append apart quiet
    rw [List.nil_append] at quiet'
    rw [Split.scan_append_of_quiet quiet']
    exact Split.renderM_consText_eq_ok_iff.mpr ⟨b, second, rfl⟩
  | @mark previous u w t next digits tail quiet nonempty found rest ih =>
    obtain ⟨v, t', written, later, rfl⟩ := Split.renderM_cons_eq_ok first
    have quiet' : Quiet (numberedAt letter) previous u (w ++ (t ++ y)) := by
      rw [← List.append_assoc]
      exact quiet_numberedAt_append apart quiet
    have found' : numberedAt letter (lastChar previous u) (w ++ (t ++ y)) =
        some (digits, w.length) := by
      rw [← List.append_assoc, numberedAt_append (by simp [nonempty]) apart]
      exact found
    have behind := ih later (by simpa using second)
    rw [lastChar_append] at behind
    rw [List.append_assoc, List.append_assoc, Split.scan_append_of_quiet quiet',
      Split.scan_append_of_mark nonempty found']
    refine Split.renderM_consText_eq_ok_iff.mpr
      ⟨v ++ (t' ++ b), Split.renderM_consMark written behind, by simp⟩

/-- What has no part in tokens stays at the beginning of a text. -/
theorem exists_cons_of_renderM {letter : Char} {write : Text → Except Error Text}
    (other : c ≠ letter)
    (h : (Split.scan (numberedAt letter) 0 previous (c :: t)).renderM write = .ok u) :
    ∃ u', u = c :: u' := by
  have split := scan_numberedAt_of_forall (u := [c]) (by simpa using other) previous t
  rw [List.singleton_append] at split
  rw [split] at h
  obtain ⟨u', -, same⟩ := Split.renderM_consText_eq_ok_iff.mp h
  exact ⟨u', same⟩

end Rendering

namespace SetAside

variable {s : SetAside} {depth : Nat} {c : Char} {t u w x y a b : Text}

/-- A text that begins outside of tokens begins so when it has been expanded. -/
theorem head?_of_expandWithin (apart : ∀ c, y.head? = some c → isOutside c)
    (h : s.expandWithin depth y = .ok b) : b.head? = y.head? := by
  cases depth with
  | zero => cases h
  | succ depth =>
    obtain ⟨opened, renderGroups, renderStrings⟩ := bind_eq_ok_iff.mp h
    cases y with
    | nil =>
      obtain rfl := Split.renderM_nil_eq_ok renderGroups
      exact congrArg List.head? (Split.renderM_nil_eq_ok renderStrings)
    | cons c cs =>
      have outside := isOutside_iff.mp (apart c rfl)
      obtain ⟨opened, rfl⟩ := exists_cons_of_renderM outside.2.1 renderGroups
      obtain ⟨rest, rfl⟩ := exists_cons_of_renderM outside.2.2.1 renderStrings
      rfl

/-- Texts are expanded one after the other, if no token goes on from the first to the second. -/
theorem expandWithin_append (apart : ∀ c, y.head? = some c → isOutside c)
    (first : s.expandWithin depth x = .ok a) (second : s.expandWithin depth y = .ok b) :
    s.expandWithin depth (x ++ y) = .ok (a ++ b) := by
  cases depth with
  | zero => cases first
  | succ depth =>
    obtain ⟨openedX, groupsX, stringsX⟩ := bind_eq_ok_iff.mp first
    obtain ⟨openedY, groupsY, stringsY⟩ := bind_eq_ok_iff.mp second
    have other : ∀ letter, letter = 'i' ∨ letter = 'q' → y.head? ≠ some letter := by
      rintro letter isLetter head
      have outside := isOutside_iff.mp (apart letter head)
      rcases isLetter with rfl | rfl
      · exact outside.2.1 rfl
      · exact outside.2.2.1 rfl
    have head : openedY.head? = y.head? := by
      cases y with
      | nil => exact congrArg List.head? (Split.renderM_nil_eq_ok groupsY)
      | cons c cs =>
        obtain ⟨rest, rfl⟩ := exists_cons_of_renderM (isOutside_iff.mp (apart c rfl)).2.1 groupsY
        rfl
    refine bind_eq_ok_iff.mpr ⟨openedX ++ openedY, ?_, ?_⟩
    · refine (Split.scans (measured_numberedAt 'i') none x).renderM_append apart groupsX ?_
      have fresh : ∀ previous, Split.scan (numberedAt 'i') 0 previous y =
          Split.scan (numberedAt 'i') 0 none y :=
        fun previous => scan_numberedAt_congr (.inr (other 'i' (.inl rfl)))
      rw [fresh]
      exact groupsY
    · refine (Split.scans (measured_numberedAt 'q') none openedX).renderM_append (head ▸ apart)
        stringsX ?_
      have fresh : ∀ previous,
          Split.scan (numberedAt 'q') 0 previous openedY =
            Split.scan (numberedAt 'q') 0 none openedY :=
        fun previous => scan_numberedAt_congr (.inr (head ▸ other 'q' (.inr rfl)))
      rw [fresh]
      exact stringsY

/-- What stands before a text in which no token begins stays as it is. -/
theorem expandWithin_prepend (plain : ∀ c ∈ w, c ≠ 'i' ∧ c ≠ 'q')
    (edge : isClear (lastChar none w) ∨ isWordEdge y.head?) (h : s.expandWithin depth y = .ok b) :
    s.expandWithin depth (w ++ y) = .ok (w ++ b) := by
  cases depth with
  | zero => cases h
  | succ depth =>
    obtain ⟨opened, renderGroups, renderStrings⟩ := bind_eq_ok_iff.mp h
    have begins : ∀ {letter : Char} {t : Text}, isWordChar letter →
        isClear (lastChar none w) ∨ isWordEdge t.head? →
        Split.scan (numberedAt letter) 0 (lastChar none w) t =
          Split.scan (numberedAt letter) 0 none t := by
      intro letter t word edge
      refine scan_numberedAt_congr (edge.imp (fun clear => clear) fun edge head => ?_)
      rw [head] at edge
      simp [isWordEdge, word] at edge
    have edge' : isClear (lastChar none w) ∨ isWordEdge opened.head? := by
      refine edge.imp_right fun edge => ?_
      cases y with
      | nil =>
        rw [Split.renderM_nil_eq_ok renderGroups]
        rfl
      | cons c cs =>
        have other : c ≠ 'i' := by
          rintro rfl
          have inWord : isWordEdge (some 'i') = false := by decide
          rw [List.head?_cons, inWord] at edge
          cases edge
        obtain ⟨rest, rfl⟩ := exists_cons_of_renderM other renderGroups
        exact edge
    refine bind_eq_ok_iff.mpr ⟨w ++ opened, ?_, ?_⟩
    · have split := scan_numberedAt_of_forall (fun c member => (plain c member).1) none y
      rw [Text.split, groupTokenAt, split, begins (by decide) edge]
      exact Split.renderM_consText_eq_ok_iff.mpr ⟨opened, renderGroups, rfl⟩
    · have split := scan_numberedAt_of_forall (fun c member => (plain c member).2) none opened
      rw [Text.split, stringTokenAt, split, begins (by decide) edge']
      exact Split.renderM_consText_eq_ok_iff.mpr ⟨b, renderStrings, rfl⟩

/-- Whether a text can be expanded, and names no string then. -/
def Resolves (s : SetAside) (t : Text) : Prop :=
  ∃ u, s.expand t = .ok u ∧ hasNumbered "q:".toList u = false

namespace Resolves

theorem append (hx : s.Resolves x) (hy : s.Resolves y)
    (apart : ∀ c, y.head? = some c → isOutside c) : s.Resolves (x ++ y) := by
  obtain ⟨a, expandedX, noneX⟩ := hx
  obtain ⟨b, expandedY, noneY⟩ := hy
  refine ⟨a ++ b, expandWithin_append apart expandedX expandedY, hasNumbered_append noneX noneY ?_⟩
  rwa [head?_of_expandWithin apart expandedY]

theorem prepend (h : s.Resolves y) (plain : ∀ c ∈ w, c ≠ 'i' ∧ c ≠ 'q')
    (edge : isClear (lastChar none w) ∨ isWordEdge y.head?) : s.Resolves (w ++ y) := by
  obtain ⟨b, expanded, noString⟩ := h
  exact ⟨w ++ b, expandWithin_prepend plain edge expanded,
    hasNumbered_prepend (fun member => (plain 'q' member).2 rfl) noString⟩

/-- Blanks around a text do not matter. -/
theorem of_strip (h : Text.strip t ≠ [] → s.Resolves (Text.strip t)) : s.Resolves t := by
  obtain ⟨before, behind, whole, blank, blank'⟩ := Text.exists_append_strip t
  have plain : ∀ {c : Char}, isBlank c → c ≠ 'i' ∧ c ≠ 'q' := fun isBlank =>
    ⟨(isOutside_iff.mp (isOutside_of_isBlank isBlank)).2.1,
      (isOutside_iff.mp (isOutside_of_isBlank isBlank)).2.2.1⟩
  have last : s.Resolves behind := by
    have empty : s.Resolves [] := ⟨[], rfl, by decide⟩
    have alone := empty.prepend (fun c member => plain (blank' c member)) (.inr rfl)
    rwa [List.append_nil] at alone
  have inside : s.Resolves (Text.strip t ++ behind) := by
    by_cases empty : Text.strip t = []
    · rwa [empty]
    · exact (h empty).append last fun c head => isOutside_of_isBlank
        (blank' c (List.mem_of_mem_head? head))
  rw [whole]
  refine inside.prepend (fun c member => plain (blank c member)) (.inl ?_)
  by_cases empty : before = []
  · rw [empty]
    rfl
  · obtain ⟨c, member, last⟩ := exists_lastChar_eq empty none
    rw [last]
    exact isClear_of_isClearOfTokens (isClearOfTokens_of_isBlank (blank c member))

/-- The group that a token stands for is put back in parentheses. -/
theorem of_token {k : Nat} {digits g : Text} (nonempty : digits ≠ [])
    (all : ∀ d ∈ digits, isDecimalDigit d) (entry : tokenEntry s.groups digits = .ok g)
    (descends : s.Descends k g) (lt : k < s.groups.length) (h : s.Resolves g) :
    s.Resolves (TokenKind.group.start ++ digits) := by
  obtain ⟨u, expanded, noString⟩ := h
  have whole : (TokenKind.group.start ++ digits).split groupTokenAt = ⟨[], [(digits, [])]⟩ := by
    have read : digitsAt? digits = some digits := by
      have run := takeWhile_append_of_head all (t := []) (by simp)
      rw [List.append_nil] at run
      simp [digitsAt?, run, nonempty]
    have taken : numberedAt 'i' none ((TokenKind.group.start ++ digits) ++ []) =
        some (digits, (TokenKind.group.start ++ digits).length) := by
      simp [numberedAt, isClear, TokenKind.start, Text.dropStart?, read]
    have split := Split.scan_append_of_mark (by simp [TokenKind.start]) taken
    rw [List.append_nil] at split
    rw [Text.split, groupTokenAt, split]
    rfl
  have noString' : hasNumbered "q:".toList (['('] ++ (u ++ [')'])) = false := by
    refine hasNumbered_prepend (by decide) (hasNumbered_append noString (by decide) ?_)
    simpa using by decide
  have written : (do
      let group ← tokenEntry s.groups digits
      return '(' :: (← s.expandWithin s.groups.length group) ++ [')']) = .ok ('(' :: u ++ [')']) :=
    bind_eq_ok_iff.mpr
      ⟨g, entry, bind_eq_ok_iff.mpr ⟨u, descends.carries_expandWithin lt u expanded, rfl⟩⟩
  have text_eq : ['('] ++ (u ++ [')']) = ('(' :: u ++ [')']) ++ [] := by simp
  refine ⟨['('] ++ (u ++ [')']), expandWithin_of_renders ?_ (hasNumbered_eq_false_iff.mp noString'),
    noString'⟩
  rw [whole, text_eq]
  exact Split.Renders.consMark (s := ⟨[], []⟩) (y := ()) written (.text () [])

end Resolves

end SetAside

section Level

variable {s : SetAside} {t : Text}

/-- A level resolves if its operands do. -/
theorem Scans.resolves {split : Split Text} (scanned : Scans keywordTokenAt previous t split)
    (operands : ∀ part ∈ split.plain, Text.strip part ≠ [] → s.Resolves (Text.strip part)) :
    s.Resolves t := by
  induction scanned with
  | @text previous t quiet => exact .of_strip (operands t (by simp [Split.plain]))
  | @mark previous u w t next digits tail quiet nonempty found rest ih =>
    obtain ⟨before, behind, more, same, width, -, all, blank, blank', -, ended⟩ :=
      keywordTokenAt_eq_some found
    obtain ⟨rfl, rfl⟩ := List.append_inj same width
    have first : s.Resolves u := .of_strip (operands u (by simp [Split.plain]))
    have later := ih fun part member => operands part (List.mem_cons_of_mem _ member)
    have outside : ∀ {c : Char}, isOutside c → c ≠ 'i' ∧ c ≠ 'q' := fun h =>
      ⟨(isOutside_iff.mp h).2.1, (isOutside_iff.mp h).2.2.1⟩
    have plain : ∀ c ∈ before ++ ("PLA".toList ++ digits) ++ behind, c ≠ 'i' ∧ c ≠ 'q' := by
      simp only [List.forall_mem_append]
      refine ⟨⟨fun c member => outside (isOutside_of_isBlank (blank c member)), fun c member => ?_,
        fun d member => ?_⟩, fun c member => outside (isOutside_of_isBlank (blank' c member))⟩
      · have capitals : ∀ c ∈ "PLA".toList, isOutside c := List.all_eq_true.mp (by decide)
        exact outside (capitals c member)
      · have letters : isDecimalDigit 'i' = false ∧ isDecimalDigit 'q' = false := by decide
        have digit := all d member
        refine ⟨?_, ?_⟩ <;> rintro rfl <;> simp [letters] at digit
    refine first.append (later.prepend plain ?_) ?_
    · by_cases empty : behind = []
      · exact .inr (ended empty)
      · obtain ⟨c, member, last⟩ := exists_lastChar_eq empty none
        refine .inl (isClear_of_isClearOfTokens ?_)
        rw [lastChar_append, lastChar_of_ne_nil empty _ none, last]
        exact isClearOfTokens_of_isBlank (blank' c member)
    · intro c head
      cases before with
      | nil =>
        obtain rfl := Option.some.inj head
        decide
      | cons d before =>
        obtain rfl := Option.some.inj head
        exact isOutside_of_isBlank (blank d (by simp))

/-- A part of a level between keywords is an operand of it, unless it is blank. -/
theorem Piece.operand_mem {pieces : List Piece} {part : Text} (h : Piece.ofText t = .ok pieces)
    (listed : part ∈ (t.split keywordTokenAt).plain) (nonempty : Text.strip part ≠ []) :
    .operand (Text.strip part) ∈ pieces := by
  have single : Piece.ofPlain part = [.operand (Text.strip part)] := by
    simp [Piece.ofPlain, nonempty]
  simp only [Piece.ofText, bind_eq_ok_iff, pure_eq_ok_iff] at h
  obtain ⟨rest, mapped, rfl⟩ := h
  rcases List.mem_cons.mp listed with rfl | later
  · rw [single]
    simp
  · obtain ⟨piece, inTail, rfl⟩ := List.mem_map.mp later
    obtain ⟨found, member, made⟩ := exists_of_mapM_eq_ok mapped inTail
    obtain ⟨n, -, same⟩ := bind_eq_ok_iff.mp made
    obtain rfl := pure_eq_ok_iff.mp same
    exact List.mem_append_right _ (List.mem_flatten.mpr ⟨_, member, by simp [single]⟩)

namespace SetAside

theorem resolves_of_pieces {pieces : List Piece} (read : Piece.ofText t = .ok pieces)
    (operands : ∀ u, .operand u ∈ pieces → s.Resolves u) : s.Resolves t :=
  (Split.scans measured_keywordTokenAt none t).resolves fun _ member nonempty =>
    operands _ (Piece.operand_mem read member nonempty)

namespace Levelled

variable {pieces : List Piece} {depth : Nat} {e : Expr} {u : Text}

/-- What is read as an operand resolves, if what is read as a level in the place of a group does. -/
theorem resolves_operand (h : s.Levelled t) (read : Piece.ofText t = .ok pieces)
    (member : .operand u ∈ pieces)
    (groups : ∀ g e, s.Levelled g → s.parseWithin depth g = .ok e → s.Resolves g)
    (parsed : s.operandWithin depth u = .ok e) : s.Resolves u := by
  unfold operandWithin at parsed
  split at parsed
  · next digits token =>
    obtain ⟨g, entry, parsed⟩ := bind_eq_ok_iff.mp parsed
    obtain ⟨level, k, lt, descends⟩ := h.of_operand read member token entry
    obtain ⟨rfl, nonempty, all⟩ := Backed.eq_of_groupToken? token
    exact .of_token nonempty all entry descends lt (groups g e level parsed)
  · exact (h.sorted_operand read member).expand_of_parseOperand parsed

/-- What is read as a level resolves. -/
theorem resolves (h : s.Levelled t) (parsed : s.parseWithin depth t = .ok e) : s.Resolves t := by
  induction depth generalizing t e with
  | zero => cases parsed
  | succ depth ih =>
    rw [parseWithin_succ] at parsed
    obtain ⟨pieces, read, parsed⟩ := bind_eq_ok_iff.mp parsed
    change (if _ then _ else _) = _ at parsed
    split at parsed
    · obtain ⟨_, -, failed⟩ := bind_eq_ok_iff.mp parsed
      cases failed
    · obtain ⟨c, value, -, -, built, -⟩ := readOperand_eq_ok_iff.mp parsed
      exact resolves_of_pieces read fun u member =>
        h.resolves_operand read member (fun g e level => ih level) (built u member)

/-- A level resolves if all of its operands are read. -/
theorem resolves_of_operands (h : s.Levelled t) (read : Piece.ofText t = .ok pieces)
    (built : ∀ u, .operand u ∈ pieces → ∃ e, s.operandWithin depth u = .ok e) : s.Resolves t := by
  refine resolves_of_pieces read fun u member => ?_
  obtain ⟨e, parsed⟩ := built u member
  exact h.resolves_operand read member (fun g e level => level.resolves) parsed

end Levelled

end SetAside

end Level

end PolicyRules
