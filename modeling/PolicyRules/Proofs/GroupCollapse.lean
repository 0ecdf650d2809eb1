import PolicyRules.Proofs.Bracketings
import PolicyRules.Proofs.GroupOrder

/-!
# Groups are collapsed without loss

The groups of a balanced text are set aside, each under a number greater than those of the groups
that it names, and the text keeps a token for each of them. Putting the groups back gives the text
again, but for the spaces that tokens have around them: a parenthesis is then set apart from what is
outside of it.

Main statement: `SetAside.collapseGroups_lossless`.
-/

namespace PolicyRules

section SetApart

/-- A text with a space before each opening parenthesis and behind each closing one. -/
def setApart (t : Text) : Text :=
  t.flatMap fun c => if c = '(' then [' ', '('] else if c = ')' then [')', ' '] else [c]

variable {t w : Text}

theorem setApart_cons {c : Char} (plain : c ≠ '(' ∧ c ≠ ')') (t : Text) :
    setApart (c :: t) = c :: setApart t := by
  simp [setApart, plain]

theorem setApart_opening (t : Text) : setApart ('(' :: t) = ' ' :: '(' :: setApart t := by
  simp [setApart]

theorem setApart_closing (t : Text) : setApart (')' :: t) = ')' :: ' ' :: setApart t := by
  simp [setApart]

/-- What has no space and no parenthesis stands in the text itself. -/
theorem isPrefix_of_setApart (solid : ∀ c ∈ w, c ≠ ' ' ∧ c ≠ ')') (h :
    w <+: setApart t) : w <+: t := by
  induction t generalizing w with
  | nil => exact h
  | cons c cs ih =>
    cases w with
    | nil => exact List.nil_prefix
    | cons d w =>
      obtain ⟨first, later⟩ := List.forall_mem_cons.mp solid
      by_cases opening : c = '('
      · rw [opening, setApart_opening] at h
        exact absurd (List.cons_prefix_cons.mp h).1 first.1
      · by_cases closing : c = ')'
        · rw [closing, setApart_closing] at h
          exact absurd (List.cons_prefix_cons.mp h).1 first.2
        · rw [setApart_cons ⟨opening, closing⟩] at h
          obtain ⟨rfl, rest⟩ := List.cons_prefix_cons.mp h
          exact List.cons_prefix_cons.mpr ⟨rfl, ih later rest⟩

theorem isInfix_of_setApart (nonempty : w ≠ []) (solid : ∀ c ∈ w, c ≠ ' ' ∧ c ≠ '(' ∧ c ≠ ')')
    (h : w <:+: setApart t) : w <:+: t := by
  have begins : ∀ u, w <+: setApart u → w <+: u := fun u =>
    isPrefix_of_setApart fun c member => ⟨(solid c member).1, (solid c member).2.2⟩
  have outside : ∀ c u, w <:+: c :: u → c = ' ' ∨ c = '(' ∨ c = ')' → w <:+: u := by
    intro c u inside apart
    rcases List.infix_cons_iff.mp inside with first | later
    · obtain ⟨d, ds, rfl⟩ := List.exists_cons_of_ne_nil nonempty
      obtain ⟨rfl, -⟩ := List.cons_prefix_cons.mp first
      have := solid d (by simp)
      simp_all
    · exact later
  induction t with
  | nil => exact h
  | cons c cs ih =>
    apply List.infix_cons_iff.mpr
    by_cases opening : c = '('
    · rw [opening, setApart_opening] at h
      exact .inr (ih (outside _ _ (outside _ _ h (by simp)) (by simp)))
    · by_cases closing : c = ')'
      · rw [closing, setApart_closing] at h
        exact .inr (ih (outside _ _ (outside _ _ h (by simp)) (by simp)))
      · have plain : setApart (c :: cs) = c :: setApart cs := setApart_cons ⟨opening, closing⟩ cs
        rcases List.infix_cons_iff.mp (plain ▸ h) with first | later
        · exact .inl (begins _ (plain ▸ first))
        · exact .inr (ih later)

/-- The beginning of the token of a string has no space and no parenthesis. -/
theorem solid_numbered {d : Char} (digit : isDecimalDigit d) :
    ∀ c ∈ ['q', ':', d], c ≠ ' ' ∧ c ≠ '(' ∧ c ≠ ')' := by
  have none : isDecimalDigit ' ' = false ∧ isDecimalDigit '(' = false ∧
      isDecimalDigit ')' = false := by decide
  have other : d ≠ ' ' ∧ d ≠ '(' ∧ d ≠ ')' := by
    refine ⟨?_, ?_, ?_⟩ <;> rintro rfl <;> simp [none] at digit
  intro c member
  simp only [List.mem_cons, List.not_mem_nil, or_false] at member
  rcases member with rfl | rfl | rfl
  · decide
  · decide
  · exact other

end SetApart

theorem plain_groupToken (n : Nat) : ∀ c ∈ groupToken n, c ≠ '(' ∧ c ≠ ')' := by
  intro c member
  simp only [groupToken, List.mem_append, List.mem_singleton] at member
  rcases member with (letter | digit) | rfl
  · have letters : " i:".toList.all fun c => c != '(' && c != ')' := by decide
    simpa using List.all_eq_true.mp letters c letter
  · have isDigit := isDigit_of_mem_ofNat digit
    refine ⟨?_, ?_⟩ <;> rintro rfl <;> cases isDigit
  · decide

namespace Bracketing

/-- What has no space in it and begins a collapsed text begins the text itself. -/
theorem isPrefix_of_collapsed (f : Bracketing .round) {n : Nat} {w : Text} (solid : ' ' ∉ w)
    (h : w <+: f.collapsed groupToken n) : w <+: f.text := by
  induction f generalizing w with
  | nil => exact h
  | char c plain rest ih =>
    cases w with
    | nil => exact List.nil_prefix
    | cons d w =>
      obtain ⟨rfl, later⟩ := List.cons_prefix_cons.mp h
      exact List.cons_prefix_cons.mpr ⟨rfl, ih (by simp_all) later⟩
  | pair inner rest ihInner ihRest =>
    cases w with
    | nil => exact List.nil_prefix
    | cons d w =>
      obtain ⟨rfl, -⟩ := List.cons_prefix_cons.mp h
      exact absurd List.mem_cons_self solid

/-- Whether no token of a group stands in the text. -/
def Unnumbered (f : Bracketing .round) : Prop :=
  ∀ d, isDecimalDigit d → ¬ ['i', ':', d] <:+: f.text

/-- No token of a group stands where a collapsed text begins. -/
theorem Unnumbered.not_isPrefix_collapsed {f : Bracketing .round} (h : f.Unnumbered) {d : Char}
    (digit : isDecimalDigit d) (n : Nat) : ¬ ['i', ':', d] <+: f.collapsed groupToken n := by
  intro begins
  have other : d ≠ ' ' := (solid_numbered digit d (by simp)).1
  exact h d digit (isPrefix_of_collapsed f (by simp [other.symm]) begins).isInfix

section Scanning

variable {c : Char} {plain : c ≠ Bracket.round.opening ∧ c ≠ Bracket.round.closing}
  {inner rest : Bracketing .round}

theorem Unnumbered.of_char (h : (char c plain rest).Unnumbered) : rest.Unnumbered :=
  fun d digit inside => h d digit (List.infix_cons inside)

theorem Unnumbered.of_pair (h : (pair inner rest).Unnumbered) :
    inner.Unnumbered ∧ rest.Unnumbered := by
  refine ⟨fun d digit inside => h d digit (inside.trans ?_), fun d digit inside =>
    h d digit (inside.trans ?_)⟩
  · exact ⟨['('], ')' :: rest.text, by simp [text, Bracket.opening, Bracket.closing]⟩
  · exact ⟨'(' :: (inner.text ++ [')']), [], by simp [text, Bracket.opening, Bracket.closing]⟩

theorem scan_char (h : (char c plain rest).Unnumbered) (previous : Option Char) (n : Nat) :
    Split.scan groupTokenAt 0 previous ((char c plain rest).collapsed groupToken n) =
      (Split.scan groupTokenAt 0 (some c) (rest.collapsed groupToken n)).consText [c] := by
  have quiet : groupTokenAt previous ((char c plain rest).collapsed groupToken n) = none := by
    cases found : groupTokenAt previous ((char c plain rest).collapsed groupToken n) with
    | none => rfl
    | some result =>
      obtain ⟨d, more, same, digit⟩ := numberedAt_eq_some found
      exact absurd ⟨more, same.symm⟩ (h.not_isPrefix_collapsed digit n)
  exact Split.scan_append_of_quiet (u := [c]) ⟨quiet, trivial⟩

theorem scan_pair (previous : Option Char) (n : Nat) :
    Split.scan groupTokenAt 0 previous ((pair inner rest).collapsed groupToken n) =
      (((Split.scan groupTokenAt 0 (some ' ') (rest.collapsed groupToken n)).consText
        [' ']).consMark (Text.ofNat (n + rest.size + inner.size))).consText [' '] := by
  have quiet : ∀ previous t, Quiet groupTokenAt previous [' '] t := fun previous t =>
    ⟨skipsSeparators_numberedAt (by decide) ' ' (by simp) previous t, trivial⟩
  have split : (pair inner rest).collapsed groupToken n =
      [' '] ++ ('i' :: ':' :: Text.ofNat (n + rest.size + inner.size) ++
        ([' '] ++ rest.collapsed groupToken n)) := by
    simp [collapsed, groupToken]
  rw [split]
  generalize n + rest.size + inner.size = m
  have taken : groupTokenAt (some ' ') ('i' :: ':' :: Text.ofNat m ++
      ([' '] ++ rest.collapsed groupToken n)) =
      some (Text.ofNat m, ('i' :: ':' :: Text.ofNat m).length) :=
    (taken_numberedAt 'i' m).2 _ _ beginsWord_space (by simp [EndsWord])
  rw [Split.scan_append_of_quiet (quiet _ _)]
  change (Split.scan groupTokenAt 0 (some ' ') _).consText [' '] = _
  rw [Split.scan_append_of_mark (by simp) taken, Split.scan_append_of_quiet (quiet _ _)]
  rfl

end Scanning

/-- A collapsed text names the groups of its outermost pairs. -/
theorem bounds_of_mem_marks (f : Bracketing .round) (h : f.Unnumbered) {previous : Option Char}
    {n : Nat} {digits : Text}
    (member : digits ∈ (Split.scan groupTokenAt 0 previous (f.collapsed groupToken n)).marks) :
    ∃ m, n ≤ m ∧ m < n + f.size ∧ digits = Text.ofNat m := by
  induction f generalizing previous with
  | nil => cases member
  | char c plain rest ih =>
    rw [scan_char h] at member
    exact ih h.of_char member
  | pair inner rest ihInner ihRest =>
    rw [scan_pair] at member
    rw [size]
    rcases List.mem_cons.mp member with rfl | later
    · exact ⟨n + rest.size + inner.size, by omega, by omega, rfl⟩
    · obtain ⟨m, ge, lt, rfl⟩ := ihRest h.of_pair.2 later
      exact ⟨m, ge, by omega, rfl⟩

theorem lt_of_mem_groupNumbers (f : Bracketing .round) (h : f.Unnumbered) {n m : Nat}
    (member : m ∈ (f.collapsed groupToken n).groupNumbers) : m < n + f.size := by
  obtain ⟨digits, listed, rfl⟩ := List.mem_map.mp member
  obtain ⟨m, -, lt, rfl⟩ := f.bounds_of_mem_marks h listed
  rwa [ordinalOf, value_digits_ofNat]

/-- A part names only parts before it. -/
theorem layeredFrom_parts (f : Bracketing .round) (h : f.Unnumbered) (n : Nat) :
    LayeredFrom n (f.parts groupToken n) := by
  induction f generalizing n with
  | nil => simp [LayeredFrom, parts]
  | char c plain rest ih => exact ih h.of_char n
  | pair inner rest ihInner ihRest =>
    obtain ⟨hInner, hRest⟩ := h.of_pair
    have last : LayeredFrom (n + rest.size + inner.size)
        [inner.collapsed groupToken (n + rest.size)] := by
      intro k group found m member
      obtain ⟨rfl, rfl⟩ : k = 0 ∧ inner.collapsed groupToken (n + rest.size) = group := by
        simpa [List.getElem?_singleton] using found
      exact inner.lt_of_mem_groupNumbers hInner member
    refine (ihRest hRest n).append ?_
    rw [length_parts]
    refine (ihInner hInner _).append ?_
    rwa [length_parts]

end Bracketing

namespace SetAside

/-- Putting groups back in a text in which no string is named. -/
theorem expandWithin_of_renders {s : SetAside} {depth : Nat} {t opened : Text}
    (h : Split.Renders (fun _ digits w _ => (do
      let group ← tokenEntry s.groups digits
      return '(' :: (← s.expandWithin depth group) ++ [')']) = .ok w) () (t.split
        groupTokenAt) opened ())
    (noString : ∀ d, isDecimalDigit d → ¬ ['q', ':', d] <:+: opened) :
    s.expandWithin (depth + 1) t = .ok opened := by
  have quiet : Quiet stringTokenAt none opened [] :=
    quiet_numberedAt noString (by simp [EndsWord]) none
  have whole : opened.split stringTokenAt = ⟨opened, []⟩ := Split.scan_of_quiet quiet
  refine bind_eq_ok_iff.mpr ⟨opened, h.renderM_eq, ?_⟩
  rw [whole]
  simp [Split.renderM, pure_eq_ok_iff]

/-- Putting groups back in a collapsed text, whose parts are the groups from the number `n` on. -/
theorem renders_collapsed {s : SetAside} (f : Bracketing .round) {n depth : Nat}
    (previous : Option Char) (noGroup : f.Unnumbered)
    (noString : ∀ d, isDecimalDigit d → ¬ ['q', ':', d] <:+: f.text)
    (held : f.parts groupToken n <+: s.groups.drop n) (room : n + f.size ≤ 10 ^ maxDecimalDigits)
    (deep : f.size ≤ depth) : Split.Renders (fun _ digits w _ => (do
      let group ← tokenEntry s.groups digits
      return '(' :: (← s.expandWithin depth group) ++ [')']) = .ok w) ()
      (Split.scan groupTokenAt 0 previous (f.collapsed groupToken n)) (setApart f.text) () := by
  induction f generalizing n depth previous with
  | nil => exact .text () []
  | char c plain rest ih =>
    rw [Bracketing.scan_char noGroup, Bracketing.text, setApart_cons plain]
    have later := ih (some c) noGroup.of_char
      (fun d digit inside => noString d digit (List.infix_cons inside)) held room deep
    exact later.consText [c]
  | pair inner rest ihInner ihRest =>
    obtain ⟨noGroupInner, noGroupRest⟩ := noGroup.of_pair
    have text_eq : (Bracketing.pair inner rest).text = '(' :: (inner.text ++ ')' :: rest.text) :=
      rfl
    have noStringInner : ∀ d, isDecimalDigit d → ¬ ['q', ':', d] <:+: inner.text :=
      fun d digit inside =>
        noString d digit (inside.trans ⟨['('], ')' :: rest.text, by simp [text_eq]⟩)
    have noStringRest : ∀ d, isDecimalDigit d → ¬ ['q', ':', d] <:+: rest.text :=
      fun d digit inside =>
        noString d digit (inside.trans ⟨'(' :: (inner.text ++ [')']), [], by simp [text_eq]⟩)
    obtain ⟨heldRest, held⟩ := isPrefix_drop_of_append held
    rw [Bracketing.length_parts] at held
    obtain ⟨heldInner, held⟩ := isPrefix_drop_of_append held
    rw [Bracketing.length_parts] at held
    rw [Bracketing.size] at room deep
    obtain ⟨depth, rfl⟩ : ∃ d, depth = d + 1 := ⟨depth - 1, by omega⟩
    -- What is inside the pair is put back one level deeper, from the group with the number of the
    -- pair.
    have inside : s.expandWithin (depth + 1) (inner.collapsed groupToken (n + rest.size)) = .ok
        (setApart inner.text) := by
      refine expandWithin_of_renders
        (ihInner none noGroupInner noStringInner heldInner (by omega) (by omega)) ?_
      exact fun d digit found => noStringInner d digit
        (isInfix_of_setApart (by simp) (solid_numbered digit) found)
    have entry := tokenEntry_ofNat (by omega) (getElem?_of_isPrefix_drop held)
    have apart : setApart (Bracketing.pair inner rest).text =
        [' '] ++ (('(' :: setApart inner.text ++ [')']) ++ ([' '] ++ setApart rest.text)) := by
      rw [text_eq, setApart_opening, setApart, List.flatMap_append, ← setApart, ← setApart,
        setApart_closing]
      simp
    rw [Bracketing.scan_pair, apart]
    apply Split.Renders.consText
    apply Split.Renders.consMark (y := ())
    · exact bind_eq_ok_iff.mpr ⟨_, entry, bind_eq_ok_iff.mpr ⟨_, inside, rfl⟩⟩
    · apply Split.Renders.consText
      exact ihRest (some ' ') noGroupRest noStringRest heldRest (by omega) (by omega)

/-- Collapsing the groups of a text that passes the check, in which neither a group nor a string is
named. No parenthesis is left, neither in the text nor in the groups that are added; those that were
there stay, and still each group names only groups before it. Putting everything back gives the text
with its parentheses set apart, as long as the numbers of the groups have no more digits than are
read. Putting back and reading what names the groups ends for every text. -/
theorem collapseGroups_lossless {s : SetAside} {t : Text} (balanced : checkBalanced t = .ok ())
    (noGroup : hasNumbered "i:".toList t = false) (noString : hasNumbered "q:".toList t = false)
    (layered : s.Layered) :
    ∃ rest new s', s.collapseGroups t = (rest, s') ∧ s' = { s with groups := s.groups ++ new } ∧
      (∀ c ∈ rest, c ≠ '(' ∧ c ≠ ')') ∧ (∀ group ∈ new, ∀ c ∈ group, c ≠ '(' ∧ c ≠ ')') ∧
      s'.Layered ∧
      (s.groups.length + t.count '(' ≤ 10 ^ maxDecimalDigits → s'.expand rest = .ok (setApart t)) ∧
      ∀ u, s'.expand u ≠ .error .endlessGroup ∧ s'.parseLevel u ≠ .error .endlessGroup := by
  obtain ⟨f, rfl⟩ := balanced_of_checkBalanced .round balanced
  have unnumbered : f.Unnumbered := hasNumbered_eq_false_iff.mp noGroup
  have noString := hasNumbered_eq_false_iff.mp noString
  have collapsed : s.collapseGroups f.text = (f.collapsed groupToken s.groups.length,
      { s with groups := s.groups ++ f.parts groupToken s.groups.length }) := by
    rw [collapseGroups, f.unnest_text, f.collapsed_shift, f.parts_shift, Nat.add_zero]
  have layered' :
      ({ s with groups := s.groups ++ f.parts groupToken s.groups.length } : SetAside).Layered := by
    apply LayeredFrom.append layered
    rw [Nat.zero_add]
    exact f.layeredFrom_parts unnumbered _
  refine ⟨_, _, _, collapsed, rfl, f.plain_collapsed plain_groupToken _,
    f.plain_parts plain_groupToken _, layered', fun room => ?_, fun u =>
      ⟨fun endless => ?_, fun endless => ?_⟩⟩
  · refine expandWithin_of_renders (renders_collapsed f none unnumbered noString ?_ ?_ ?_) ?_
    · simp
    · rwa [f.size_eq_count]
    · rw [List.length_append, f.length_parts]
      omega
    · exact fun d digit found => noString d digit
        (isInfix_of_setApart (by simp) (solid_numbered digit) found)
  · exact layered'.terminates_expand u _ endless rfl
  · exact layered'.terminates_parseLevel u _ endless rfl

/-- Two groups, of which the second names the first. -/
def twoGroups : SetAside := { groups := ["a == 1".toList, " i:0  * b".toList] }

theorem twoGroups_layered : twoGroups.Layered := by
  intro k group found m member
  cases k with
  | zero =>
    obtain rfl := Option.some.inj found
    have none : Text.groupNumbers "a == 1".toList = [] := by decide
    rw [none] at member
    cases member
  | succ k =>
    cases k with
    | zero =>
      obtain rfl := Option.some.inj found
      have one : Text.groupNumbers " i:0  * b".toList = [0] := by decide
      rw [one] at member
      obtain rfl := List.mem_singleton.mp member
      decide
    | succ k => cases found

theorem collapseGroups_lossless_nested :
    checkBalanced "((a) + b)*(c)".toList = .ok () ∧
      hasNumbered "i:".toList "((a) + b)*(c)".toList = false ∧
      hasNumbered "q:".toList "((a) + b)*(c)".toList = false ∧ twoGroups.Layered ∧
      ∃ rest new s', twoGroups.collapseGroups "((a) + b)*(c)".toList = (rest, s') ∧
        s' = { twoGroups with groups := twoGroups.groups ++ new } ∧
        (∀ c ∈ rest, c ≠ '(' ∧ c ≠ ')') ∧ (∀ group ∈ new, ∀ c ∈ group, c ≠ '(' ∧ c ≠ ')') ∧
        s'.Layered ∧
        s'.expand rest = .ok " ( (a)  + b) * (c) ".toList ∧
        ∀ u, s'.expand u ≠ .error .endlessGroup ∧ s'.parseLevel u ≠ .error .endlessGroup := by
  have balanced : checkBalanced "((a) + b)*(c)".toList = .ok () := by decide
  have noGroup : hasNumbered "i:".toList "((a) + b)*(c)".toList = false := by decide
  have noString : hasNumbered "q:".toList "((a) + b)*(c)".toList = false := by decide
  have room : twoGroups.groups.length + "((a) + b)*(c)".toList.count '(' ≤
      10 ^ maxDecimalDigits := by
    apply Nat.le_trans (m := 10 ^ 1)
    · decide
    · exact Nat.pow_le_pow_right (by decide) (by decide)
  obtain ⟨rest, new, s', collapsed, grown, plain, plain', layered, expanded, ends⟩ :=
    collapseGroups_lossless balanced noGroup noString twoGroups_layered
  refine ⟨balanced, noGroup, noString, twoGroups_layered, rest, new, s', collapsed, grown, plain,
    plain', layered, ?_, ends⟩
  rw [expanded room]
  decide

end SetAside

end PolicyRules
