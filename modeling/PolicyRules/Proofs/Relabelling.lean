import PolicyRules.Proofs.KeywordCuts
import PolicyRules.Proofs.LikeTrees
import PolicyRules.Proofs.PlainTexts
import PolicyRules.Proofs.TreeFailures

/-!
# Plain texts beside earlier ones

When a plain text is read after other texts, its keywords and subexpressions are numbered on from
theirs. Apart from these numbers, which are places in a list of glyphs, all its parts are the same
as if it were read alone, since tokens stand apart from names. So a plain text has a tree beside
earlier texts if it has one alone, and the two trees differ in the ordinals of keywords only
(`SetAside.inStep_build_of_plain`).
-/

namespace PolicyRules

/-- The letters of the tokens of keywords and subexpressions. -/
def labelStarts : List Text := ["PLA".toList, "PLH".toList]

/-- Whether a word begins a token of a keyword or a subexpression. -/
def IsLabel (u : Text) : Prop :=
  ∃ start ∈ labelStarts, ∃ d, isDecimalDigit d ∧ u = start ++ [d]

namespace IsLabel

variable {u t : Text}

theorem exists_cons (h : IsLabel u) : ∃ v, u = 'P' :: v := by
  obtain ⟨start, listed, d, -, rfl⟩ := h
  simp only [labelStarts, List.mem_cons, List.not_mem_nil, or_false] at listed
  rcases listed with rfl | rfl
  · exact ⟨_, rfl⟩
  · exact ⟨_, rfl⟩

theorem ne_nil (h : IsLabel u) : u ≠ [] := by
  obtain ⟨v, rfl⟩ := h.exists_cons
  exact List.cons_ne_nil _ _

theorem not_mem (h : IsLabel u) {c : Char} (other : c ∉ "PLAH".toList)
    (noDigit : isDecimalDigit c = false) : c ∉ u := by
  obtain ⟨start, listed, d, digit, rfl⟩ := h
  have letters : (labelStarts.all fun start => start.all fun c => "PLAH".toList.contains c) := by
    decide
  have inStart := List.all_eq_true.mp (List.all_eq_true.mp letters start listed) c
  intro member
  rcases List.mem_append.mp member with letter | last
  · exact other (List.contains_iff_mem.mp (inStart letter))
  · rw [List.mem_singleton.mp last, digit] at noDigit
    cases noDigit

/-- No label stands in a text without numbered tokens. -/
theorem not_isInfix (unnumbered : t.Unnumbered) (h : IsLabel u) : ¬ u <:+: t := by
  obtain ⟨start, listed, d, digit, rfl⟩ := h
  simp only [labelStarts, List.mem_cons, List.not_mem_nil, or_false] at listed
  rcases listed with rfl | rfl
  · exact not_infix_of_hasNumbered (unnumbered.tokens .keyword) digit
  · exact not_infix_of_hasNumbered unnumbered.parts digit

end IsLabel

/-- The lists of glyphs that can be a level of a plain text. `limit` is the number of keywords. -/
structure Level (count limit bound : Nat) (gs : List Glyph) : Prop where
  written : Written count bound IsLabel gs
  noString : ∀ n, .string n ∉ gs
  keyword_lt : ∀ n, .keyword n ∈ gs → n < limit

namespace Level

variable {count limit bound : Nat} {gs x y part : List Glyph}

/-- A part of a level is a level. -/
theorem of_isInfix (h : Level count limit bound gs) (inside : x <:+: gs) :
    Level count limit bound x :=
  ⟨h.written.of_isInfix inside, fun n member => h.noString n (inside.subset member),
    fun n member => h.keyword_lt n (inside.subset member)⟩

theorem grow (h : Level count limit bound gs) : Level count limit (bound + 1) gs :=
  { h with written := { h.written with
      part_lt := fun n member => Nat.lt_succ_of_lt (h.written.part_lt n member) } }

theorem of_text {u : Text} (free : QuoteFree u)
    (noLabel : ∀ label, IsLabel label → ¬ label <:+: u) : Level count limit bound (u.map .char) :=
  ⟨.of_text free noLabel, by simp, by simp⟩

/-- Levels can be joined by a glyph that stands in no label, if it fits. -/
theorem join {g : Glyph} (h : Level count limit bound x) (here : Level count limit bound [g])
    (h' : Level count limit bound y) (chain : (x ++ g :: y).IsChain Glyph.Fits)
    (outside : ∀ u, IsLabel u → g ∉ u.map .char) : Level count limit bound (x ++ g :: y) := by
  have cases_of_mem : ∀ {g'}, g' ∈ x ++ g :: y → g' ∈ x ∨ g' ∈ [g] ∨ g' ∈ y := by simp
  refine ⟨h.written.join here.written h'.written chain fun u label =>
    ⟨label.ne_nil, outside u label⟩, fun n member => ?_, fun n member => ?_⟩
  · rcases cases_of_mem member with member | member | member
    · exact h.noString n member
    · exact here.noString n member
    · exact h'.noString n member
  · rcases cases_of_mem member with member | member | member
    · exact h.keyword_lt n member
    · exact here.keyword_lt n member
    · exact h'.keyword_lt n member

/-- Levels are joined by a blank. -/
theorem append_blank (h : Level count limit bound x) (h' : Level count limit bound y) :
    Level count limit bound (x ++ .char ' ' :: y) := by
  have clear : Glyph.isClear (.char ' ') := by decide
  have blank : ∀ u, IsLabel u → ' ' ∉ u := fun u label => label.not_mem (by decide) (by decide)
  have here : Level count limit bound [.char ' '] := by
    refine of_text (u := [' ']) (by decide) fun u label inside => ?_
    obtain ⟨v, rfl⟩ := label.exists_cons
    exact absurd (inside.subset List.mem_cons_self) (by decide)
  refine h.join here h' ?_ fun u label => by simpa using blank u label
  refine List.isChain_append.mpr
    ⟨h.written.chain, List.isChain_cons.mpr ⟨fun g _ => ?_, h'.written.chain⟩,
      fun g _ g' head => ?_⟩
  · exact (Glyph.fits_of_isClear clear g).1
  · obtain rfl := Option.some.inj head
    exact (Glyph.fits_of_isClear clear g).2

/-- A group can be set aside and its token left in its place. -/
theorem group (n : Nat) (h : Level count limit bound (x ++ .char '(' :: (part ++ .char ')' :: y))) :
    Level count limit bound part ∧ Level count limit bound
      (x ++ ((groupToken n).map .char ++ y)) := by
  refine ⟨h.of_isInfix ⟨x ++ [.char '('], .char ')' :: y, by simp⟩, ?_⟩
  have before := h.of_isInfix (List.prefix_append x _).isInfix
  have behind := h.of_isInfix (x := y) ⟨x ++ .char '(' :: (part ++ [.char ')']), [], by simp⟩
  have token : Level count limit bound (("i:".toList ++ Text.ofNat n).map .char) := by
    refine of_text (quoteFree_append_ofNat (by decide) n) fun label isLabel inside => ?_
    obtain ⟨v, rfl⟩ := isLabel.exists_cons
    have member := inside.subset (List.mem_cons_self (a := 'P'))
    rcases List.mem_append.mp member with letter | digit
    · exact absurd letter (by decide)
    · exact absurd (isDigit_of_mem_ofNat digit) (by decide)
  simpa [groupToken] using before.append_blank (token.append_blank behind)

end Level

/-- Whether two neighbours fit together, and a square bracket of the two stands apart from a word of
the other. -/
def BracketsFit (g g' : Glyph) : Prop :=
  g.Fits g' ∧ (g' = .char '[' → g.isClear ∧ g ≠ .char ']') ∧
    (g = .char ']' → g'.isClear ∧ g' ≠ .char '[')

/-- The lists of glyphs that can be a part of a plain text while subexpressions are still in it. -/
structure Bracketed (count limit bound : Nat) (gs : List Glyph) : Prop where
  level : Level count limit bound gs
  chain : gs.IsChain BracketsFit

namespace Bracketed

variable {count limit bound : Nat} {gs x y part : List Glyph}

theorem of_isInfix (h : Bracketed count limit bound gs) (inside : x <:+: gs) :
    Bracketed count limit bound x :=
  ⟨h.level.of_isInfix inside, h.chain.infix inside⟩

/-- A token takes the place of a part in square brackets. -/
theorem isChain_extract
    (h : Bracketed count limit bound (x ++ .char '[' :: (part ++ .char ']' :: y))) (n : Nat) :
    (x ++ (.part n :: y)).IsChain BracketsFit := by
  obtain ⟨before, inner, opening⟩ := List.isChain_append.mp h.chain
  obtain ⟨-, behind, -⟩ := List.isChain_append.mp (List.isChain_cons.mp inner).2
  obtain ⟨closing, after⟩ := List.isChain_cons.mp behind
  refine List.isChain_append.mpr ⟨before, List.isChain_cons.mpr ⟨fun g head => ?_, after⟩,
    fun g last g' head => ?_⟩
  · obtain ⟨clear, other⟩ := (closing g head).2.2 rfl
    exact ⟨(Glyph.fits_of_isClear clear _).2, fun same => absurd same other, by simp⟩
  · obtain rfl := Option.some.inj head
    obtain ⟨clear, other⟩ := (opening g last _ rfl).2.1 rfl
    exact ⟨(Glyph.fits_of_isClear clear _).1, by simp, fun same => absurd same other⟩

/-- A subexpression can be taken out and its token left in its place. -/
theorem extract {n : Nat}
    (h : Bracketed count limit n (x ++ .char '[' :: (part ++ .char ']' :: y))) :
    Bracketed count limit n part ∧ Bracketed count limit (n + 1) (x ++ ([.part n] ++ y)) := by
  refine ⟨h.of_isInfix ⟨x ++ [.char '['], .char ']' :: y, by simp⟩, ?_⟩
  have before := (h.of_isInfix (List.prefix_append x _).isInfix).level.grow
  have behind :=
    (h.of_isInfix (x := y) ⟨x ++ .char '[' :: (part ++ [.char ']']), [], by simp⟩).level.grow
  have chain := h.isChain_extract n
  have here : Level count limit (n + 1) [.part n] := by
    refine ⟨⟨.singleton _, by simp, by simp, by simp, fun u label inside => ?_⟩, by simp, by simp⟩
    obtain ⟨v, rfl⟩ := label.exists_cons
    exact absurd (inside.subset List.mem_cons_self) (by simp)
  exact ⟨before.join here behind (chain.imp fun _ _ fits => fits.1) (by simp), chain⟩

/-- Parts are joined by blanks. -/
theorem append_blank (h : Bracketed count limit bound x) (h' : Bracketed count limit bound y) :
    Bracketed count limit bound (x ++ .char ' ' :: y) := by
  refine ⟨h.level.append_blank h'.level, ?_⟩
  have clear : Glyph.isClear (.char ' ') := by decide
  refine List.isChain_append.mpr ⟨h.chain, List.isChain_cons.mpr ⟨fun g _ => ?_, h'.chain⟩,
    fun g _ g' head => ?_⟩
  · exact ⟨(Glyph.fits_of_isClear clear g).1, fun _ => ⟨clear, by decide⟩,
      fun same => absurd same (by decide)⟩
  · obtain rfl := Option.some.inj head
    exact ⟨(Glyph.fits_of_isClear clear g).2, fun same => absurd same (by decide),
      fun _ => ⟨clear, by decide⟩⟩

theorem of_text {u : Text} (free : QuoteFree u) (noLabel : ∀ label, IsLabel label → ¬ label <:+: u)
    (apart : u.IsChain BracketsFree) : Bracketed count limit bound (u.map .char) := by
  refine ⟨.of_text free noLabel,
    (List.isChain_map Glyph.char).mpr (apart.imp fun a b brackets => ?_)⟩
  have clear : ∀ {c}, isReferenceChar c = false → isClear (some c) :=
    fun h => by simpa [isReferenceChar, isClear] using h
  refine ⟨Glyph.fits_of_isToken_eq_false rfl rfl, fun same => ?_, fun same => ?_⟩
  · obtain ⟨noReference, other⟩ := apart_of_mayOpenBehind (brackets.1 (Glyph.char.inj same))
    exact ⟨clear noReference, by simpa using other⟩
  · obtain ⟨noReference, other⟩ := apart_of_mayCloseBefore (brackets.2 (Glyph.char.inj same))
    exact ⟨clear noReference, by simpa using other⟩

end Bracketed

section Marking

variable {t u : Text}

theorem cons_isInfix_of_append {α : Type} {a : α} {l x y : List α} (outside : a ∉ x)
    (inside : a :: l <:+: x ++ y) : a :: l <:+: y := by
  induction x with
  | nil => exact inside
  | cons b x ih =>
    rcases List.infix_cons_iff.mp inside with front | inside
    · exact absurd (List.cons_prefix_cons.mp front).1 (List.ne_of_not_mem_cons outside)
    · exact ih (List.not_mem_of_not_mem_cons outside) inside

theorem IsLabel.not_isInfix_maskedFrom {label : Text} (h : IsLabel label)
    {tail : List (Quotation × Text)} (n : Nat) (first : ¬ label <:+: u)
    (later : ∀ piece ∈ tail, ¬ label <:+: piece.2) : ¬ label <:+: maskedFrom n u tail := by
  obtain ⟨v, start⟩ := h.exists_cons
  induction tail generalizing u n with
  | nil => simpa [maskedFrom] using first
  | cons piece tail ih =>
    obtain ⟨q, next⟩ := piece
    obtain ⟨second, later⟩ := List.forall_mem_cons.mp later
    have text_eq : maskedFrom n u ((q, next) :: tail) =
        u ++ 'q' :: ((':' :: Text.ofNat n) ++ maskedFrom (n + 1) next tail) := by
      simp [maskedFrom, stringToken]
    intro inside
    rw [text_eq] at inside
    rcases isInfix_of_append_cons (h.not_mem (by decide) (by decide)) h.ne_nil
      inside with inside | inside
    · exact first inside
    · rw [start] at inside
      refine ih (n + 1) second later (start ▸ cons_isInfix_of_append ?_ inside)
      intro member
      rcases List.mem_cons.mp member with same | digit
      · exact absurd same (by decide)
      · exact absurd (isDigit_of_mem_ofNat digit) (by decide)

/-- Masking strings makes no labels. -/
theorem IsLabel.not_isInfix_masked {label : Text} (h : IsLabel label) (unnumbered : t.Unnumbered) :
    ¬ label <:+: (SetAside.maskStrings {} t).1 := by
  have pieces : ∀ piece ∈ t.segments.plain, ¬ label <:+: piece := fun piece member inside =>
    h.not_isInfix unnumbered
      (inside.trans ((Split.scans measured_quotationAt none t).isInfix member))
  have later : ∀ piece ∈ t.segments.tail, ¬ label <:+: piece.2 := fun piece member =>
    pieces piece.2 (List.mem_cons_of_mem _ (List.mem_map_of_mem member))
  have masked := h.not_isInfix_maskedFrom 0 (pieces t.segments.head (by simp [Split.plain])) later
  simpa [SetAside.maskStrings, Split.renderNumbered, maskedFrom] using masked

/-- The glyphs of a text with places for its keywords, the first of which has the number given. -/
def markedFrom (n : Nat) (u : Text) (tail : List (Keyword × Text)) : List Glyph :=
  u.map .char ++ (tail.zipIdx n).flatMap fun entry =>
    .char ' ' :: .keyword entry.2 :: .char ' ' :: entry.1.2.map .char

theorem text_markedFrom (ω : Writing) (n : Nat) (u : Text) (tail : List (Keyword × Text)) :
    ω.text (markedFrom n u tail) =
      u ++ (tail.zipIdx n).flatMap fun entry => keywordToken (ω.keywords + entry.2) ++
      entry.1.2 := by
  induction tail generalizing n u with
  | nil => simp [markedFrom]
  | cons piece tail ih =>
    have later := ih (n + 1) piece.2
    simp only [markedFrom, Writing.text_append, Writing.text_map_char] at later
    have token : ∀ m, keywordToken m = ' ' :: (keywordWord m ++ [' ']) :=
      fun m => by simp [keywordToken, keywordWord]
    simp [markedFrom, token, Writing.glyph, later]

theorem bracketed_markedFrom {count limit n : Nat} {tail : List (Keyword × Text)}
    (pieces : ∀ piece ∈ u :: tail.map Prod.snd, Bracketed count limit 0 (piece.map .char))
    (few : n + tail.length ≤ limit) : Bracketed count limit 0 (markedFrom n u tail) := by
  induction tail generalizing n u with
  | nil => simpa [markedFrom] using pieces u (by simp)
  | cons piece tail ih =>
    obtain ⟨first, later⟩ := List.forall_mem_cons.mp pieces
    have keyword : Bracketed count limit 0 [.keyword n] := by
      refine ⟨⟨⟨.singleton _, by simp, by simp, by simp, fun label isLabel inside => ?_⟩, by simp,
        ?_⟩, .singleton _⟩
      · obtain ⟨v, rfl⟩ := isLabel.exists_cons
        exact absurd (inside.subset List.mem_cons_self) (by simp)
      · intro m member
        obtain rfl := Glyph.keyword.inj (List.mem_singleton.mp member)
        simp at few
        omega
    have rest := ih later (n := n + 1) (by simp at few; omega)
    simpa [markedFrom] using first.append_blank (keyword.append_blank rest)

end Marking

section Tables

/-- A subexpression is found at its number. -/
theorem SetAside.InOrder.value?_eq {table : List (Text × Expr)} (h : InOrder table) (n : Nat) :
    Table.value? (subexpressionToken n) table = table[n]?.map Prod.snd := by
  induction table using List.reverseRecOn with
  | nil => rfl
  | append_singleton table entry ih =>
    obtain ⟨key, e⟩ := entry
    rw [InOrder, List.length_append, List.length_singleton, List.range_succ, List.map_append,
      List.map_append] at h
    obtain ⟨earlier, last⟩ := List.append_inj h (by simp)
    obtain rfl : key = subexpressionToken table.length := List.head_eq_of_cons_eq last
    by_cases here : n = table.length
    · subst here
      rw [List.getElem?_concat_length]
      exact Table.value?_insert_self _ _ _
    · rw [← Table.insert, Table.value?_insert_of_ne (subexpressionToken_ne (Ne.symm here)),
        ih earlier, Table.insert, List.getElem?_append]
      split_ifs with inside
      · rfl
      · rw [List.getElem?_eq_none (by omega), List.getElem?_eq_none (by simp; omega)]

/-- The writing of a text that is read alone. -/
def Writing.alone (ω : Writing) : Writing := { strings := ω.strings }

/-- Whether the ordinal of a keyword is the one that it has alone, numbered on. -/
def Writing.Ordinals (ω : Writing) (n n' : Int) : Prop := n = n' + ω.keywords

/-- Whether a table holds earlier subexpressions and then those of another table. -/
structure Beside (ω : Writing) (b : Nat) (table table' : List (Text × Expr)) : Prop where
  inOrder : SetAside.InOrder table
  inOrder' : SetAside.InOrder table'
  length_eq : table.length = ω.parts + b
  length_eq' : table'.length = b
  trees : ∀ (n : Nat) x x', table[ω.parts + n]? = some x → table'[n]? = some x' →
    Expr.Alike ω.Ordinals Eq x.2 x'.2

namespace Beside

variable {ω : Writing} {b : Nat} {table table' : List (Text × Expr)} {e e' : Expr}

/-- Tables stay side by side when an entry is added to both. -/
theorem insert (h : Beside ω b table table') (alike : Expr.Alike ω.Ordinals Eq e e') :
    Beside ω (b + 1) (Table.insert (ω.glyph (.part b)) e table)
      (Table.insert (ω.alone.glyph (.part b)) e' table') := by
  have key : ω.glyph (.part b) = subexpressionToken table.length := by rw [h.length_eq]; rfl
  have key' : ω.alone.glyph (.part b) = subexpressionToken table'.length := by
    rw [h.length_eq']
    simp [Writing.glyph, Writing.alone]
  rw [key, key']
  refine ⟨h.inOrder.insert e, h.inOrder'.insert e', ?_, ?_, fun n x x' found found' => ?_⟩
  · rw [Table.insert, List.length_append, h.length_eq]
    rfl
  · rw [Table.insert, List.length_append, h.length_eq']
    rfl
  · rw [Table.insert, List.getElem?_append, h.length_eq] at found
    rw [Table.insert, List.getElem?_append, h.length_eq'] at found'
    by_cases earlier : n < b
    · rw [if_pos (by omega)] at found
      rw [if_pos earlier] at found'
      exact h.trees n x x' found found'
    · rw [if_neg (by omega), List.getElem?_singleton] at found
      rw [if_neg earlier, List.getElem?_singleton] at found'
      obtain ⟨-, ⟨⟩⟩ := Option.ite_none_right_eq_some.mp found
      obtain ⟨-, ⟨⟩⟩ := Option.ite_none_right_eq_some.mp found'
      exact alike

/-- Names that are no labels, and the tokens of the same subexpression, stand for alike
expressions. -/
theorem likeMeanings {count : Nat} (h : Beside ω b table table') :
    LikeMeanings (LikeNames b IsLabel ω ω.alone) (LikeStrings count ω ω.alone) ω.Ordinals Eq table
      table' where
  name w w' related := by
    cases related with
    | same avoids =>
      have noToken : digitsBehind? "PLH".toList w = none :=
        digitsBehind?_eq_none (hasNumbered_eq_false_iff.mpr fun d digit =>
          avoids _ ⟨_, List.mem_cons_of_mem _ List.mem_cons_self, d, digit, rfl⟩)
      refine .ofName (fun _ => rfl) ?_ fun _ => rfl
      rw [h.inOrder.keyed.value?_eq_none noToken, h.inOrder'.keyed.value?_eq_none noToken]
      exact .none
    | @part n lt =>
      have lt' : n < table'.length := h.length_eq'.symm ▸ lt
      have inside : ω.parts + n < table.length := by rw [h.length_eq]; omega
      have found : Table.value? (ω.glyph (.part n)) table = some table[ω.parts + n].2 := by
        rw [Writing.glyph, h.inOrder.value?_eq, List.getElem?_eq_getElem inside, Option.map_some]
      have found' : Table.value? (ω.alone.glyph (.part n)) table' = some table'[n].2 := by
        rw [Writing.glyph, h.inOrder'.value?_eq, Writing.alone, Nat.zero_add,
          List.getElem?_eq_getElem lt', Option.map_some]
      refine .ofName (fun _ => rfl) ?_ fun unbound => ?_
      · rw [found, found']
        exact .some (h.trees n _ _ (List.getElem?_eq_getElem inside) (List.getElem?_eq_getElem lt'))
      · rw [found] at unbound
        cases unbound
  tracker := by
    rintro _ _ (⟨avoids⟩ | ⟨lt⟩)
    · exact .inl rfl
    · exact .inr ⟨rfl, rfl⟩
  string := by
    rintro _ _ ⟨lt⟩
    rfl
  same _ := rfl

end Beside

end Tables

section Building

variable {ω ω' : Writing} {count limit : Nat} {t : Text}

/-- Levels are read in step beside earlier texts and alone, if the numbers of all keywords can be
read. -/
theorem parallel_alone (inert : ω.Inert count) (room : ω.keywords + limit ≤ 10 ^ maxDecimalDigits) :
    Parallel count IsLabel ω.Ordinals Eq ω ω.alone (Level count limit) (Beside ω) where
  plain u label :=
    ⟨label.ne_nil, label.not_mem (by decide) (by decide), label.not_mem (by decide) (by decide)⟩
  inert := inert
  inert' := ⟨inert.length_eq, inert.quoted, inert.noString, inert.noKeyword⟩
  written b gs level := ⟨level.written, level.noString⟩
  grow b gs level := level.grow
  group b n x part y level := level.group n
  pieces b gs level := by
    refine level.written.inStep_ofText (fun d digit => ⟨_, List.mem_cons_self, d, digit, rfl⟩) inert
      ⟨inert.length_eq, inert.quoted, inert.noString, inert.noKeyword⟩ level.noString
        (fun x inside => level.of_isInfix inside)
      (fun n member => ?_) (fun n member => ?_)
    · have lt := level.keyword_lt n member
      refine ⟨by omega, ?_⟩
      rw [Writing.alone, Nat.zero_add]
      omega
    · simp only [Writing.Ordinals, Writing.alone]
      omega
  meanings b table table' tables := tables.likeMeanings
  insert b table table' e e' tables alike := tables.insert alike

/-- Whether subexpressions and the rest of a text are the same lists of glyphs in two writings. -/
structure LikeParts (ω ω' : Writing) (L : Nat → List Glyph → Prop) (x x' : Text × List Text) :
    Prop where
  length_eq : x.2.length = x'.2.length
  parts : ∀ (n : Nat) t t', x.2[n]? = some t → x'.2[n]? = some t' → Rewritten ω ω' (L n) t t'
  rest : Rewritten ω ω' (L x.2.length) x.1 x'.1

/-- Subexpressions are taken out alike in every writing. -/
theorem Bracketed.inStep_extract {gs : List Glyph} (h : Bracketed count limit 0 gs) :
    InStep (LikeParts ω ω' (Level count limit)) (extractSubexpressions ω.parts (ω.text gs))
      (extractSubexpressions ω'.parts (ω'.text gs)) := by
  have tokens : ∀ ω : Writing, (fun n : Nat => subexpressionToken (ω.parts + n)) = fun n => ω.text
      [.part n] := by
    intro ω
    funext n
    simp [Writing.glyph]
  unfold extractSubexpressions
  rw [tokens, tokens]
  rcases exists_unnest .square (fun n => [.part n]) (Bracketed count limit)
    (fun n x part y level => level.extract) h.level.noString h with failed |
      ⟨rest, parts, done, last, each⟩
  · obtain ⟨⟨source', position'⟩, failed'⟩ := failed ω'
    obtain ⟨⟨source, position⟩, failed⟩ := failed ω
    rw [failed, failed']
    exact .error _ _
  · rw [done ω, done ω']
    refine .ok ⟨by simp, fun n t t' found found' => ?_, rest, by simpa using last.level, rfl, rfl⟩
    simp only [List.getElem?_map, Option.map_eq_some_iff, exists_exists_and_eq_and] at found found'
    obtain ⟨part, listed, rfl⟩ := found
    obtain ⟨part', listed', rfl⟩ := found'
    obtain rfl := Option.some.inj (listed.symm.trans listed')
    have level := (each n part listed).level
    exact ⟨stripGlyphs part, level.of_isInfix (isInfix_stripGlyphs part), strip_text level.noString,
      strip_text level.noString⟩

/-- The writing of a text that is read while other texts have been set aside. -/
def SetAside.writing (s : SetAside) (t : Text) : Writing where
  keywords := s.keywords.length
  parts := s.subexpressions.length
  strings := t.segments.marks.map Quotation.text

namespace SetAside

variable {s : SetAside}

theorem inert_writing (unnumbered : t.Unnumbered) :
    (s.writing t).Inert t.segments.marks.length where
  length_eq := by simp [writing]
  quoted w member := isQuoted_of_mem_segments member
  noString w member := by
    obtain ⟨q, listed, rfl⟩ := List.mem_map.mp member
    have inside := unnumbered.of_isInfix (isInfix_of_mem_segments listed)
    exact IsQuoted.passes_stringTokenAt (inside.tokens .string) none [] (by simp [BeginsWord])
      (by simp [EndsWord])
  noKeyword w member := by
    obtain ⟨q, listed, rfl⟩ := List.mem_map.mp member
    have inside := unnumbered.of_isInfix (isInfix_of_mem_segments listed)
    exact IsQuoted.passes_keywordWordAt (inside.tokens .keyword) none [] (by simp [BeginsWord])
      (by simp [EndsWord])

/-- The glyphs of a text whose strings are masked and whose keywords are marked. -/
def markedGlyphs (t : Text) : List Glyph :=
  markedFrom 0 ((maskStrings {} t).1.split keywordAt).head
    ((maskStrings {} t).1.split keywordAt).tail

theorem maskStrings_eq (noStrings : s.strings = []) (t : Text) :
    (s.maskStrings t).1 = (maskStrings {} t).1 := by
  simp only [maskStrings, noStrings]

/-- The marked text is a writing of its glyphs. -/
theorem marked_eq (noStrings : s.strings = []) (t : Text) :
    (s.marked t).1 = (s.writing t).text (markedGlyphs t) := by
  rw [markedGlyphs, text_markedFrom, marked, markKeywords, maskStrings_eq noStrings]
  rfl

theorem bracketed_markedGlyphs (plain : t.IsPlain) (free : QuoteFree (maskStrings {} t).1) :
    Bracketed count ((maskStrings {} t).1.split keywordAt).marks.length 0 (markedGlyphs t) := by
  refine bracketed_markedFrom (fun piece member => ?_) (by simp [Split.marks])
  have inside := (Split.scans measured_keywordAt none (maskStrings {} t).1).isInfix member
  have apart := plain.isChain_masked.infix inside
  exact .of_text (free.of_isInfix inside)
    (fun label isLabel found => isLabel.not_isInfix_masked plain.unnumbered (found.trans inside))
      apart

/-- A text has no more keywords than characters. -/
theorem length_keywords_masked_le (t : Text) :
    ((maskStrings {} t).1.split keywordAt).marks.length ≤ t.length := by
  have ends := countP_maskStrings_le (by decide) (fun _ => isKeywordEnd_of_isDigit) {} t
  exact ((length_keywords_le _).trans ends).trans List.countP_le_length

theorem alongside_marked (noStrings : s.strings = []) (noGroups : s.groups = []) (sound : s.Sound)
    (t : Text) (L : Nat → List Glyph → Prop) :
    Alongside (s.writing t).Ordinals (s.writing t) (s.writing t).alone L (Beside (s.writing t)) 0
      (s.marked t).2 (marked {} t).2 where
  groups := by
    change List.Forall₂ _ s.groups []
    rw [noGroups]
    exact .nil
  strings := by
    change s.strings ++ _ = _
    rw [noStrings]
    rfl
  strings' := rfl
  keywords n n' ordinals := by
    change (s.keywords ++ ((s.maskStrings t).1.split keywordAt).marks)[n]? =
      ((maskStrings {} t).1.split keywordAt).marks[n']?
    obtain rfl : n = n' + s.keywords.length := Int.ofNat.inj ordinals
    rw [maskStrings_eq noStrings, List.getElem?_append_right (Nat.le_add_left _ _),
      Nat.add_sub_cancel]
  tables := ⟨sound.inOrder, rfl, rfl, rfl, by simp [marked, markKeywords, maskStrings]⟩

/-- A plain text that is read after others has a tree if it has one alone, and the ordinals of its
keywords are then numbered on. -/
theorem inStep_build_of_plain (plain : t.IsPlain) (noStrings : s.strings = [])
    (noGroups : s.groups = []) (sound : s.Sound)
    (room : s.keywords.length + t.length ≤ 10 ^ maxDecimalDigits) :
    Attempt.InStep (fun _ _ => True) (Expr.Alike (s.writing t).Ordinals Eq) (build t s)
      (build t {}) := by
  by_cases free : QuoteFree (maskStrings {} t).1
  · obtain ⟨limit, few, whole⟩ : ∃ limit ≤ t.length, Bracketed t.segments.marks.length limit 0
      (markedGlyphs t) :=
      ⟨_, length_keywords_masked_le t, bracketed_markedGlyphs plain free⟩
    have parallel := parallel_alone (inert_writing (s := s) plain.unnumbered)
      (Nat.le_trans (Nat.add_le_add_left few _) room)
    refine inStep_build (maskStrings_eq noStrings t)
      (Q := LikeParts (s.writing t) (s.writing t).alone (Level t.segments.marks.length limit)) ?_ ?_
    · rw [marked_eq noStrings, marked_eq rfl]
      exact whole.inStep_extract
    · rintro ⟨rest, parts⟩ ⟨rest', parts'⟩ ⟨length_eq, texts, last⟩
      have run := parallel.inStep_buildFrom length_eq (b := 0) (by simpa using texts)
        (by simpa using last) (alongside_marked noStrings noGroups sound t _)
      exact run.mono fun _ _ _ => trivial
  · -- With an unclosed quotation mark there is no tree, whatever has been set aside.
    cases built : build t s with
    | ok e s' =>
      exact absurd (plain.quoteFree_masked noStrings sound.inOrder.keyed
        (fun entry member => (sound.trees entry member).tokenised) built) free
    | error e s' =>
      cases built' : build t {} with
      | ok e s' => exact absurd (plain.quoteFree_masked rfl (by simp [Keyed]) (by simp) built') free
      | error e' u' => exact .error e e' s' u'

end SetAside

end Building

end PolicyRules
