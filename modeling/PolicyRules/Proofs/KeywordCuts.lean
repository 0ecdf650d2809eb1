import PolicyRules.Proofs.LikeLeaves

/-!
# Cutting texts with open places at their keywords

A level is cut into pieces at the tokens of keywords, each taken with the blanks around it.
Stripping a text strips its glyphs (`strip_text`). So if tokens of keywords stand only in the places
that are left open for them, the pieces of a text are its glyphs between such places
(`Written.ofSplit_text`), and two writings of a text have like pieces (`Written.inStep_ofText`).
-/

namespace PolicyRules

variable {c : Char} {v : Text} {rest : List Glyph}

section Texts

variable {previous : Option Char} {u v : Text} {n : Nat}

theorem Text.strip_cons (blank : isBlank c) (t : Text) : Text.strip (c :: t) = Text.strip t := by
  simp [Text.strip, blank]

theorem Text.strip_dropWhile (t : Text) : Text.strip (t.dropWhile isBlank) = Text.strip t := by
  induction t with
  | nil => rfl
  | cons c cs ih =>
    by_cases blank : isBlank c
    · rw [List.dropWhile_cons_of_pos blank, ih, strip_cons blank]
    · rw [List.dropWhile_cons_of_neg blank]

theorem Text.strip_concat (blank : isBlank c) (t : Text) :
    Text.strip (t ++ [c]) = Text.strip t := by
  unfold Text.strip
  rw [List.dropWhile_append]
  cases rest : t.dropWhile isBlank <;> simp [blank]

/-- A text is one that ends in no blank, with blanks behind it. -/
theorem Text.exists_trailing (t : Text) :
    ∃ u blanks, t = u ++ blanks ∧ (∀ c ∈ blanks, isBlank c) ∧
    Text.strip u = Text.strip t ∧ ∀ c, lastChar none u = some c → isBlank c = false := by
  induction t using List.reverseRecOn with
  | nil => exact ⟨[], [], rfl, by simp, rfl, by simp [lastChar]⟩
  | append_singleton t c ih =>
    by_cases blank : isBlank c
    · obtain ⟨u, blanks, rfl, all, same, solid⟩ := ih
      refine ⟨u, blanks ++ [c], by simp, ?_, by rw [same, strip_concat blank], solid⟩
      exact List.forall_mem_append.mpr ⟨all, List.forall_mem_singleton.mpr blank⟩
    · refine ⟨t ++ [c], [], by simp, by simp, rfl, fun d last => ?_⟩
      obtain rfl : c = d := by simpa [lastChar] using last
      simpa using blank

/-- A token of a keyword is taken with the blanks around it. -/
theorem keywordTokenAt_of_blanks {blanks : Text} (all : ∀ c ∈ blanks, isBlank c)
    (begins : blanks = [] → isWordEdge previous) (ends : isWordEdge v.head?) :
    keywordTokenAt previous (blanks ++ (keywordWord n ++ v)) =
      some (Text.ofNat n, (blanks ++ (keywordWord n ++ v.takeWhile isBlank)).length) := by
  induction blanks generalizing previous with
  | nil =>
    have found := keywordWordAt_keywordWord n (begins rfl) ends
    have start : ∃ cs, keywordWord n = 'P' :: cs := ⟨_, rfl⟩
    obtain ⟨cs, word⟩ := start
    rw [List.nil_append, List.nil_append]
    rw [word, List.cons_append] at found ⊢
    rw [keywordTokenAt_of_not_blank (by decide), found, Option.map_some, ← List.cons_append,
      List.drop_left]
    simp [Nat.add_right_comm]
  | cons c cs ih =>
    obtain ⟨blank, all⟩ := List.forall_mem_cons.mp all
    have edge : isWordEdge (some c) := by
      simp [isWordEdge, isWordChar_eq_false_of_isBlank blank]
    rw [List.cons_append, keywordTokenAt_blank blank, ih all fun _ => edge]
    rfl

theorem keywordTokenAt_eq_none (quiet : Quiet keywordWordAt previous u v)
    (solid : ∃ c ∈ u, isBlank c = false) : keywordTokenAt previous (u ++ v) = none := by
  induction u generalizing previous with
  | nil => simp at solid
  | cons c cs ih =>
    obtain ⟨here, later⟩ := quiet
    rw [List.cons_append] at here ⊢
    cases blank : isBlank c with
    | false => rw [keywordTokenAt_of_not_blank blank, here, Option.map_none]
    | true =>
      obtain ⟨d, member, other⟩ := solid
      rcases List.mem_cons.mp member with rfl | member
      · rw [blank] at other
        cases other
      · rw [keywordTokenAt_blank blank, ih later ⟨d, member, other⟩, Option.map_none]

/-- Before blanks there is no token with blanks around it, if there is no token. -/
theorem quiet_keywordTokenAt_of_solid (quiet : Quiet keywordWordAt previous u v)
    (solid : ∀ c, lastChar none u = some c → isBlank c = false) :
    Quiet keywordTokenAt previous u v := by
  induction u generalizing previous with
  | nil => trivial
  | cons c cs ih =>
    have ends : ∃ d ∈ c :: cs, isBlank d = false := by
      obtain ⟨d, member, last⟩ := exists_lastChar_eq (List.cons_ne_nil c cs) none
      exact ⟨d, member, solid d last⟩
    refine ⟨keywordTokenAt_eq_none quiet ends, ih quiet.2 fun d last => solid d ?_⟩
    cases cs with
    | nil => cases last
    | cons _ _ => exact last

/-- The pieces of a text that has been cut at the tokens of keywords. -/
def Piece.ofSplit (split : Split Text) : Except Error (List Piece) := do
  let rest ← split.tail.mapM fun (digits, plain) => do
    return .keyword (← tokenNumber digits) :: Piece.ofPlain plain
  return Piece.ofPlain split.head ++ rest.flatten

theorem Piece.ofText_eq (t : Text) : Piece.ofText t = Piece.ofSplit (t.split keywordTokenAt) := rfl

theorem Piece.ofPlain_of_strip_eq (h : Text.strip u = Text.strip v) :
    Piece.ofPlain u = Piece.ofPlain v := by
  simp only [Piece.ofPlain, h]

theorem Piece.ofSplit_consMark {split : Split Text} {digits : Text} {pieces : List Piece}
    (number : tokenNumber digits = .ok n) (rest : Piece.ofSplit split = .ok pieces) (u : Text) :
    Piece.ofSplit ((split.consMark digits).consText u) = .ok
      (Piece.ofPlain u ++ .keyword n :: pieces) := by
  simp only [Piece.ofSplit, Split.consMark, Split.consText, List.mapM_cons, bind_eq_ok_iff,
    pure_eq_ok_iff] at rest ⊢
  obtain ⟨later, mapped, rfl⟩ := rest
  exact ⟨_, ⟨_, ⟨n, number, rfl⟩, later, mapped, rfl⟩, by simp⟩

/-- The pieces up to a keyword, and those behind it. -/
theorem Piece.ofSplit_scan {pieces : List Piece}
    (quiet : Quiet keywordWordAt previous u (keywordWord n ++ v))
    (begins : isWordEdge (lastChar previous u)) (ends : isWordEdge v.head?)
    (small : n < 10 ^ maxDecimalDigits) (rest : Piece.ofSplit
      (Split.scan keywordTokenAt 0 (lastChar previous (u ++ (keywordWord n ++ v.takeWhile isBlank)))
        (v.dropWhile isBlank)) = .ok pieces) :
    Piece.ofSplit (Split.scan keywordTokenAt 0 previous (u ++ (keywordWord n ++ v))) =
      .ok (Piece.ofPlain u ++ .keyword n :: pieces) := by
  obtain ⟨x, blanks, rfl, all, same, solid⟩ := Text.exists_trailing u
  obtain ⟨first, -⟩ := quiet_append_iff.mp quiet
  have begins' : blanks = [] → isWordEdge (lastChar previous x) := by
    rintro rfl
    simpa using begins
  have found := keywordTokenAt_of_blanks all begins' ends (n := n)
  have whole : blanks ++ (keywordWord n ++ v) =
      (blanks ++ (keywordWord n ++ v.takeWhile isBlank)) ++ v.dropWhile isBlank := by
    simp
  rw [List.append_assoc, Split.scan_append_of_quiet (quiet_keywordTokenAt_of_solid first solid)]
  rw [whole] at found ⊢
  rw [Split.scan_append_of_mark (by simp [keywordWord]) found, ← Piece.ofPlain_of_strip_eq same]
  refine Piece.ofSplit_consMark (tokenNumber_ofNat small) ?_ x
  rwa [List.append_assoc, lastChar_append] at rest

end Texts

/-- Whether a glyph is a blank. -/
def Glyph.isBlank : Glyph → Bool
  | .char c => PolicyRules.isBlank c
  | .keyword _ | .part _ | .string _ => false

/-- The glyphs without the blanks at the two ends. -/
def stripGlyphs (gs : List Glyph) : List Glyph :=
  ((gs.dropWhile Glyph.isBlank).reverse.dropWhile Glyph.isBlank).reverse

section Glyphs

variable {ω : Writing} {gs : List Glyph} {g : Glyph}

theorem isInfix_stripGlyphs (gs : List Glyph) : stripGlyphs gs <:+: gs := by
  have front := (List.dropWhile_suffix Glyph.isBlank (l := gs)).isInfix
  have back := List.reverse_infix.mpr
    (List.dropWhile_suffix Glyph.isBlank (l := (gs.dropWhile Glyph.isBlank).reverse)).isInfix
  rw [List.reverse_reverse] at back
  exact back.trans front

/-- What is written for a glyph that is no blank has no blanks. -/
theorem Glyph.solid (noString : ∀ n, g ≠ .string n) (other : g.isBlank = false) :
    ω.glyph g ≠ [] ∧ ∀ c ∈ ω.glyph g, PolicyRules.isBlank c = false := by
  have token : g.isToken → ω.glyph g ≠ [] ∧
      ∀ c ∈ ω.glyph g, PolicyRules.isBlank c = false := by
    intro isToken
    obtain ⟨all, ends⟩ := Written.mem_token (ω := ω) isToken
    refine ⟨fun empty => ?_, fun c member => ?_⟩
    · obtain ⟨d, last, -⟩ := ends none
      rw [empty] at last
      cases last
    · have letters : "PLAH".toList.all fun c => ! PolicyRules.isBlank c := by decide
      rcases all c member with letter | digit
      · simpa using List.all_eq_true.mp letters c letter
      · exact isBlank_eq_false_of_isReferenceChar (isReferenceChar_of_isDigit digit)
  cases g with
  | char c => exact ⟨by simp, List.forall_mem_singleton.mpr other⟩
  | keyword n | part n => exact token rfl
  | string n => exact absurd rfl (noString n)

theorem text_eq_nil_iff (noString : ∀ n, .string n ∉ gs) : ω.text gs = [] ↔ gs = [] := by
  cases gs with
  | nil => simp
  | cons g gs =>
    have nonempty : ω.glyph g ≠ [] := by
      cases g with
      | char c => simp
      | keyword n | part n => exact List.cons_ne_nil _ _
      | string n => exact absurd (by simp) (noString n)
    simp [nonempty]

theorem dropWhile_text (noString : ∀ n, .string n ∉ gs) :
    (ω.text gs).dropWhile isBlank = ω.text (gs.dropWhile Glyph.isBlank) := by
  induction gs with
  | nil => rfl
  | cons g gs ih =>
    have later : ∀ n, .string n ∉ gs := fun n member => noString n (List.mem_cons_of_mem _ member)
    cases blank : g.isBlank with
    | true =>
      cases g with
      | char c =>
        rw [List.dropWhile_cons_of_pos blank, ← ih later]
        exact List.dropWhile_cons_of_pos blank
      | _ => cases blank
    | false =>
      obtain ⟨nonempty, all⟩ :=
        Glyph.solid (ω := ω) (fun n same => noString n (by simp [same])) blank
      obtain ⟨c, cs, text_eq⟩ := List.exists_cons_of_ne_nil nonempty
      rw [List.dropWhile_cons_of_neg (by simp [blank]), Writing.text_cons, text_eq,
        List.cons_append, List.dropWhile_cons_of_neg (by simp [all c (by simp [text_eq])])]

theorem dropWhile_reverse_text (noString : ∀ n, .string n ∉ gs) :
    (ω.text gs).reverse.dropWhile isBlank =
      (ω.text (gs.reverse.dropWhile Glyph.isBlank).reverse).reverse := by
  induction gs using List.reverseRecOn with
  | nil => rfl
  | append_singleton gs g ih =>
    have earlier : ∀ n, .string n ∉ gs := fun n member => noString n (List.mem_append_left _ member)
    rw [List.reverse_append, List.reverse_singleton, List.singleton_append]
    cases blank : g.isBlank with
    | true =>
      cases g with
      | char c =>
        rw [List.dropWhile_cons_of_pos blank, ← ih earlier]
        have blank' : isBlank c := blank
        simp [blank']
      | _ => cases blank
    | false =>
      obtain ⟨nonempty, all⟩ :=
        Glyph.solid (ω := ω) (fun n same => noString n (by simp [same])) blank
      obtain ⟨cs, c, text_eq⟩ := (List.eq_nil_or_concat (ω.glyph g)).resolve_left nonempty
      have solid := all c (by simp [text_eq])
      rw [List.dropWhile_cons_of_neg (by simp [blank])]
      simp [text_eq, solid]

/-- Stripping a text strips its glyphs. -/
theorem strip_text (noString : ∀ n, .string n ∉ gs) :
    Text.strip (ω.text gs) = ω.text (stripGlyphs gs) := by
  have front : ∀ n, .string n ∉ gs.dropWhile Glyph.isBlank := fun n member =>
    noString n ((List.dropWhile_suffix _).subset member)
  rw [Text.strip, dropWhile_text noString, dropWhile_reverse_text front, List.reverse_reverse]
  rfl

/-- A character that begins no token is a glyph of its own. -/
theorem exists_char {t : Text} (noString : ∀ n, .string n ∉ gs) (other : c ≠ 'P')
    (behind : ∀ d, v.head? = some d → d = 'P') (h : ω.text gs ++ v = c :: t) :
    ∃ rest, gs = .char c :: rest ∧ (∀ n, .string n ∉ rest) ∧ ω.text rest ++ v = t := by
  cases gs with
  | nil =>
    rw [Writing.text_nil, List.nil_append] at h
    exact absurd (behind c (by rw [h]; rfl)) other
  | cons g rest =>
    cases g with
    | char d =>
      obtain ⟨rfl, rfl⟩ := List.cons.inj h
      exact ⟨rest, rfl, fun n member => noString n (List.mem_cons_of_mem _ member), rfl⟩
    | keyword n | part n => exact absurd (List.cons.inj h).1.symm other
    | string n => exact absurd (by simp) (noString n)

/-- Where no place is left open for a token of a keyword, none stands, unless it is made of
characters. -/
theorem quiet_keywordWordAt_text (noString : ∀ n, .string n ∉ gs) (noKeyword : ∀ n, .keyword n ∉ gs)
    (avoids : ∀ d, isDecimalDigit d → ¬ ("PLA".toList ++ [d]).map .char <:+: gs)
    (behind : ∀ d, v.head? = some d → d = 'P') (previous : Option Char) :
    Quiet keywordWordAt previous (ω.text gs) v := by
  induction gs generalizing previous with
  | nil => trivial
  | cons g rest ih =>
    have inside : rest <:+: g :: rest := (List.suffix_cons g rest).isInfix
    have noString' : ∀ n, .string n ∉ rest := fun n member => noString n (inside.subset member)
    have later := fun previous => ih noString' (fun n member => noKeyword n (inside.subset member))
      (fun d digit found => avoids d digit (found.trans inside)) previous
    rw [Writing.text_cons, quiet_append_iff]
    refine ⟨?_, later _⟩
    cases g with
    | keyword n => exact absurd (by simp) (noKeyword n)
    | string n => exact absurd (by simp) (noString n)
    | part n => exact Written.quiet_subexpressionToken _ _ _
    | char c =>
      refine ⟨?_, trivial⟩
      rw [Option.eq_none_iff_forall_ne_some]
      intro found here
      unfold keywordWordAt at here
      obtain ⟨-, here⟩ := Option.ite_none_right_eq_some.mp here
      obtain ⟨after, start, here⟩ := Option.bind_eq_some_iff.mp here
      obtain ⟨digits, digitsAt, -⟩ := Option.bind_eq_some_iff.mp here
      obtain ⟨d, ds, rfl, digit⟩ : ∃ d ds, after = d :: ds ∧ isDecimalDigit d := by
        cases after with
        | nil => cases digitsAt
        | cons d ds =>
          by_cases digit : isDecimalDigit d
          · exact ⟨d, ds, rfl, digit⟩
          · simp [digitsAt?, digit] at digitsAt
      -- The letters and the digit are glyphs one after the other.
      have whole : c :: (ω.text rest ++ v) = 'P' :: 'L' :: 'A' :: d :: ds :=
        Text.dropStart?_eq_some_iff.mp start
      obtain ⟨rfl, text_eq⟩ := List.cons.inj whole
      obtain ⟨second, rfl, noString', text_eq⟩ := exists_char noString' (by decide) behind text_eq
      obtain ⟨third, rfl, noString', text_eq⟩ := exists_char noString' (by decide) behind text_eq
      have other : d ≠ 'P' := by
        rintro rfl
        cases digit
      obtain ⟨rest, rfl, -, -⟩ := exists_char noString' other behind text_eq
      exact avoids d digit ⟨[], rest, by simp⟩

/-- Glyphs are cut at the places that are left open for keywords. -/
theorem exists_keywordCuts (gs : List Glyph) :
    ∃ (head : List Glyph) (tail : List (Nat × List Glyph)),
      gs = head ++ tail.flatMap (fun x => .keyword x.1 :: x.2) ∧ (∀ n, .keyword n ∉ head) ∧
      ∀ x ∈ tail, ∀ n, .keyword n ∉ x.2 := by
  induction gs with
  | nil => exact ⟨[], [], rfl, by simp, by simp⟩
  | cons g gs ih =>
    obtain ⟨head, tail, rfl, first, later⟩ := ih
    by_cases keyword : ∃ n, g = .keyword n
    · obtain ⟨n, rfl⟩ := keyword
      exact ⟨[], (n, head) :: tail, rfl, by simp, List.forall_mem_cons.mpr ⟨first, later⟩⟩
    · refine ⟨g :: head, tail, rfl, fun n member => ?_, later⟩
      rcases List.mem_cons.mp member with same | member
      · exact keyword ⟨n, same.symm⟩
      · exact first n member

end Glyphs

namespace Written

variable {count bound : Nat} {avoided : Text → Prop} {ω : Writing} {gs head : List Glyph}
  {tail : List (Nat × List Glyph)}

/-- A word ends before a token. -/
theorem isWordEdge_lastChar {g : Glyph} (h : Written count bound avoided (gs ++ g :: rest))
    (noString : ∀ n, .string n ∉ gs) (token : g.isToken) {previous : Option Char}
    (start : gs = [] → isWordEdge previous) : isWordEdge (lastChar previous (ω.text gs)) := by
  rcases List.eq_nil_or_concat gs with rfl | ⟨init, g', rfl⟩
  · exact start rfl
  · rw [List.concat_eq_append] at h noString ⊢
    obtain ⟨-, -, junction⟩ := List.isChain_append.mp h.chain
    have clear : g'.isClear := (junction g' (by simp) g rfl).2 token
    cases g' with
    | char c =>
      rw [Writing.text_append, lastChar_append]
      exact isWordEdge_of_isClear clear
    | keyword n | part n => cases clear
    | string n => exact absurd (by simp) (noString n)

/-- A word ends with the blanks between two tokens. -/
theorem isWordEdge_blanks {n : Nat} {x : List Glyph} {g : Glyph}
    (h : Written count bound avoided (.keyword n :: (x ++ g :: rest))) (token : g.isToken)
    (blank : x.dropWhile Glyph.isBlank = []) (previous : Option Char) :
    isWordEdge (lastChar previous ((ω.text (x ++ g :: rest)).takeWhile isBlank)) := by
  cases x with
  | nil =>
    -- Two tokens do not stand side by side.
    have clear : g.isClear := (List.isChain_cons_cons.mp h.chain).1.1 rfl
    rw [Glyph.isToken_eq_false_of_isClear clear] at token
    cases token
  | cons g' x =>
    have here : g'.isBlank := List.dropWhile_eq_nil_iff.mp blank g' (by simp)
    cases g' with
    | char c =>
      have here : isBlank c := here
      obtain ⟨d, member, last⟩ := exists_lastChar_eq
        (u := (ω.text (.char c :: x ++ g :: rest)).takeWhile isBlank) (by simp [here]) previous
      rw [last, isWordEdge, Option.any_some,
        isWordChar_eq_false_of_isBlank (List.mem_takeWhile_imp member)]
      rfl
    | _ => cases here

/-- No token of a keyword stands where there is no place for one. -/
theorem quiet_of_labels (labels : ∀ d, isDecimalDigit d → avoided ("PLA".toList ++ [d]))
    (h : Written count bound avoided (gs ++ rest)) (noString : ∀ n, .string n ∉ gs ++ rest)
    (noKeyword : ∀ n, .keyword n ∉ gs) (behind : ∀ d, v.head? = some d → d = 'P')
    (previous : Option Char) : Quiet keywordWordAt previous (ω.text gs) v :=
  quiet_keywordWordAt_text (fun n member => noString n (List.mem_append_left _ member)) noKeyword
    (fun d digit found => h.avoids _ (labels d digit)
      (found.trans (List.prefix_append _ _).isInfix)) behind previous

/-- The pieces of a text whose keywords stand in their places. -/
theorem ofSplit_text (labels : ∀ d, isDecimalDigit d → avoided ("PLA".toList ++ [d]))
    (inert : ω.Inert count)
    (h : Written count bound avoided (head ++ tail.flatMap fun x => .keyword x.1 :: x.2))
    (noString : ∀ n, .string n ∉ head ++ tail.flatMap fun x => .keyword x.1 :: x.2)
    (first : ∀ n, .keyword n ∉ head) (later : ∀ x ∈ tail, ∀ n, .keyword n ∉ x.2)
    (small : ∀ x ∈ tail, ω.keywords + x.1 < 10 ^ maxDecimalDigits) (previous : Option Char)
    (start : head = [] → tail ≠ [] → isWordEdge previous) :
    Piece.ofSplit
      (Split.scan keywordTokenAt 0 previous
        (ω.text (head ++ tail.flatMap fun x => .keyword x.1 :: x.2))) =
      .ok (Piece.ofPlain (ω.text head) ++ tail.flatMap fun x => .keyword (ω.keywords + x.1) ::
        Piece.ofPlain (ω.text x.2)) := by
  induction tail generalizing head previous with
  | nil =>
    have quiet : Quiet keywordWordAt previous (ω.text head) [] :=
      h.quiet_of_labels labels noString first (by simp) previous
    rw [List.flatMap_nil, List.append_nil, Split.scan_of_quiet (quiet_keywordTokenAt quiet)]
    simp [Piece.ofSplit]
    rfl
  | cons x tail ih =>
    obtain ⟨n, x⟩ := x
    obtain ⟨small, smallLater⟩ := List.forall_mem_cons.mp small
    obtain ⟨noKeyword, later⟩ := List.forall_mem_cons.mp later
    rw [List.flatMap_cons, List.cons_append] at h noString ⊢
    generalize behind_eq : (tail.flatMap fun x => Glyph.keyword x.1 :: x.2) =
      behind at h noString ih ⊢
    have noStringLater : ∀ m, .string m ∉ x ++ behind := fun m member =>
      noString m (List.mem_append_right _ (List.mem_cons_of_mem _ member))
    have noStringHead : ∀ m, .string m ∉ head :=
      fun m member => noString m (List.mem_append_left _ member)
    have token : Written count bound avoided (.keyword n :: (x ++ behind)) :=
      h.of_isInfix (List.suffix_append _ _).isInfix
    -- The blanks behind the token are taken with it.
    have begins : behind.dropWhile Glyph.isBlank = behind := by
      rw [← behind_eq]
      cases tail with
      | nil => rfl
      | cons _ _ => exact List.dropWhile_cons_of_neg (by simp [Glyph.isBlank])
    have glyphs_eq : (x ++ behind).dropWhile Glyph.isBlank =
        x.dropWhile Glyph.isBlank ++ behind := by
      rw [List.dropWhile_append, begins]
      cases x.dropWhile Glyph.isBlank <;> rfl
    have inside : x.dropWhile Glyph.isBlank ++ behind <:+: x ++ behind :=
      glyphs_eq ▸ (List.dropWhile_suffix _).isInfix
    have restEdge : x.dropWhile Glyph.isBlank = [] → tail ≠ [] →
        isWordEdge (lastChar previous (ω.text head ++
        (keywordWord (ω.keywords + n) ++ (ω.text (x ++ behind)).takeWhile isBlank))) = true := by
      intro blank more
      obtain ⟨next, tail, rfl⟩ := List.exists_cons_of_ne_nil more
      rw [← behind_eq] at token ⊢
      rw [lastChar_append, lastChar_append]
      exact token.isWordEdge_blanks rfl blank _
    have stripped : Text.strip (ω.text (x.dropWhile Glyph.isBlank)) = Text.strip (ω.text x) := by
      rw [← dropWhile_text fun m member => noStringLater m (List.mem_append_left _ member),
        Text.strip_dropWhile]
    have rest := ih (token.of_cons.of_isInfix inside)
      (fun m member => noStringLater m (inside.subset member))
      (fun m member => noKeyword m ((List.dropWhile_suffix _).subset member)) later smallLater
        _ restEdge
    rw [← glyphs_eq, ← dropWhile_text noStringLater] at rest
    have quiet : Quiet keywordWordAt previous (ω.text head)
        (keywordWord (ω.keywords + n) ++ ω.text (x ++ behind)) :=
      h.quiet_of_labels labels noString first (by rintro _ ⟨⟩; rfl) previous
    have pieces := Piece.ofSplit_scan quiet
      (h.isWordEdge_lastChar noStringHead rfl (start · (by simp))) (token.isWordEdge_head inert rfl)
        small rest
    rw [Writing.text_append, Writing.text_cons]
    refine pieces.trans ?_
    rw [Piece.ofPlain_of_strip_eq stripped]
    simp

variable {ω' : Writing} {P : List Glyph → Prop} {ordinals : Int → Int → Prop}

theorem like_ofPlain (noString : ∀ n, .string n ∉ gs) (holds : P (stripGlyphs gs)) :
    List.Forall₂ (Piece.Like ordinals (Rewritten ω ω' P)) (Piece.ofPlain (ω.text gs))
      (Piece.ofPlain (ω'.text gs)) := by
  have noString' : ∀ n, .string n ∉ stripGlyphs gs :=
    fun n member => noString n ((isInfix_stripGlyphs gs).subset member)
  unfold Piece.ofPlain
  simp only [strip_text noString, List.isEmpty_iff, text_eq_nil_iff noString']
  split_ifs
  · exact .nil
  · exact .cons (.operand ⟨_, holds, rfl, rfl⟩) .nil

/-- A text has like pieces in two writings, if its keywords have related ordinals in them. -/
theorem inStep_ofText (labels : ∀ d, isDecimalDigit d → avoided ("PLA".toList ++ [d]))
    (inert : ω.Inert count) (inert' : ω'.Inert count) (h : Written count bound avoided gs)
    (noString : ∀ n, .string n ∉ gs) (closed : ∀ x, x <:+: gs → P x)
    (small : ∀ n, .keyword n ∈ gs → ω.keywords + n < 10 ^ maxDecimalDigits ∧
      ω'.keywords + n < 10 ^ maxDecimalDigits)
    (numbers : ∀ n, .keyword n ∈ gs → ordinals (ω.keywords + n : Nat) (ω'.keywords + n : Nat)) :
    InStep (List.Forall₂ (Piece.Like ordinals (Rewritten ω ω' P))) (Piece.ofText (ω.text gs))
      (Piece.ofText (ω'.text gs)) := by
  obtain ⟨head, tail, rfl, first, later⟩ := exists_keywordCuts gs
  have keyword : ∀ x ∈ tail, .keyword x.1 ∈ head ++ tail.flatMap fun x => .keyword x.1 :: x.2 :=
    fun x member =>
      List.mem_append_right _ (List.mem_flatMap.mpr ⟨x, member, by simp⟩)
  rw [Piece.ofText_eq, Piece.ofText_eq, Text.split, Text.split,
    h.ofSplit_text labels inert noString first later
      (fun x member => (small _ (keyword x member)).1) none (fun _ _ => rfl),
    h.ofSplit_text labels inert' noString first later
      (fun x member => (small _ (keyword x member)).2) none (fun _ _ => rfl)]
  have plain : ∀ x, x <:+: head ++ (tail.flatMap fun x => .keyword x.1 :: x.2) →
      List.Forall₂ (Piece.Like ordinals (Rewritten ω ω' P)) (Piece.ofPlain (ω.text x))
        (Piece.ofPlain (ω'.text x)) :=
    fun x inside => like_ofPlain (fun n member => noString n (inside.subset member))
      (closed _ ((isInfix_stripGlyphs x).trans inside))
  refine .ok (List.rel_append (plain head (List.prefix_append _ _).isInfix) ?_)
  refine List.rel_flatMap (R := fun x y => x = y ∧ x ∈ tail)
    (List.forall₂_same.mpr fun x member => ⟨rfl, member⟩) ?_
  rintro x _ ⟨rfl, member⟩
  refine .cons (.keyword (numbers _ (keyword x member))) (plain x.2 ?_)
  obtain ⟨before, behind, rfl⟩ := List.append_of_mem member
  exact ⟨head ++ (before.flatMap fun x => .keyword x.1 :: x.2) ++ [.keyword x.1],
    behind.flatMap fun x => .keyword x.1 :: x.2, by simp⟩

end Written

end PolicyRules
