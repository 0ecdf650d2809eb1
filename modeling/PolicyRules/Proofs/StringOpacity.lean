import PolicyRules.Proofs.LikeTrees
import PolicyRules.Proofs.PlainTexts
import PolicyRules.Proofs.QuotedReferences
import PolicyRules.Proofs.TreeNames

/-!
# What quoted strings hold

Strings are masked before keywords and brackets are looked for, and put back before leaf expressions
are read. What stands in a quoted segment then counts only if it is a token of a string or of a
keyword.

Main statement: texts that are alike outside quotes, and whose quoted segments hold no such tokens,
have trees that differ in the literals of these segments only, or both have none
(`SetAside.build_of_alike`).
-/

namespace PolicyRules

/-- Whether no quoted segment of a text holds the token of a string or of a keyword. -/
def Text.InertStrings (t : Text) : Prop :=
  ∀ q ∈ t.segments.marks, (q.text.split stringTokenAt).tail = [] ∧
    (q.text.split keywordTokenAt).tail = []

instance (t : Text) : Decidable t.InertStrings := inferInstanceAs (Decidable (∀ _ ∈ _, _))

/-- Whether two literals are the same, or those of quoted segments of two texts at the same
place. -/
inductive LikeQuoted (t t' : Text) : Literal → Literal → Prop
  | same (l : Literal) : LikeQuoted t t' l l
  | quoted {n : Nat} {q q' : Quotation} (found : t.segments.marks[n]? = some q)
    (found' : t'.segments.marks[n]? = some q') :
    LikeQuoted t t' (.ofQuoted q.text) (.ofQuoted q'.text)

/-- Texts that differ inside quotes only are the same once their strings are masked. -/
theorem Split.renderNumbered_of_plain_eq {α β : Type} {s : Split α} {s' : Split β}
    (h : s.plain = s'.plain) (token : Nat → Text) :
    s.renderNumbered token = s'.renderNumbered token := by
  have pieces : ∀ {γ : Type} (s : Split γ), s.renderNumbered token =
      s.head ++ (s.tail.map (·.2)).zipIdx.flatMap fun piece => token piece.2 ++ piece.1 := by
    intro γ s
    simp [Split.renderNumbered, List.zipIdx_map, List.flatMap_map]
  obtain ⟨head, tail⟩ := List.cons.inj h
  rw [pieces, pieces, head, tail]

/-- The writing that fills in the quoted segments of a text. -/
def Text.writing (t : Text) : Writing := { strings := t.segments.marks.map Quotation.text }

/-- Whether a list of glyphs is a text without quotation marks. -/
def Literally (gs : List Glyph) : Prop := ∃ u : Text, QuoteFree u ∧ gs = u.map .char

/-- Whether two tables have alike expressions under the same names. -/
def AlikeTables (ordinals : Int → Int → Prop) (literals : Literal → Literal → Prop) :
    List (Text × Expr) → List (Text × Expr) → Prop :=
  List.Forall₂ fun x y => x.1 = y.1 ∧ Expr.Alike ordinals literals x.2 y.2

namespace Text

variable {t t' : Text}

theorem AlikeOutsideQuotes.length_marks (h : t.AlikeOutsideQuotes t') :
    t.segments.marks.length = t'.segments.marks.length := by
  simpa using congrArg List.length h.marks

theorem AlikeOutsideQuotes.masked_eq (h : t.AlikeOutsideQuotes t') :
    (SetAside.maskStrings {} t).1 = (SetAside.maskStrings {} t').1 :=
  Split.renderNumbered_of_plain_eq h.plain fun n => stringToken (([] : List Text).length + n)

theorem InertStrings.inert (h : t.InertStrings) : t.writing.Inert t.segments.marks.length where
  length_eq := by simp [writing]
  quoted w member := isQuoted_of_mem_segments member
  noString w member := by
    obtain ⟨q, listed, rfl⟩ := List.mem_map.mp member
    exact Split.quiet_of_scan (h q listed).1
  noKeyword w member := by
    obtain ⟨q, listed, rfl⟩ := List.mem_map.mp member
    exact quiet_keywordWordAt_of_tokenAt (Split.quiet_of_scan (h q listed).2)

end Text

namespace Literally

variable {gs x part y : List Glyph}

theorem of_isInfix (h : Literally gs) (inside : x <:+: gs) : Literally x := by
  obtain ⟨u, free, rfl⟩ := h
  obtain ⟨v, within, rfl⟩ := List.infix_map_iff.mp inside
  exact ⟨v, free.of_isInfix within, rfl⟩

theorem append (h : Literally x) (h' : Literally y) : Literally (x ++ y) := by
  obtain ⟨u, free, rfl⟩ := h
  obtain ⟨v, free', rfl⟩ := h'
  exact ⟨u ++ v, free.append free', List.map_append.symm⟩

/-- A part in brackets can be taken out and a token left in its place. -/
theorem unnest {opening closing : Char} {token : Text}
    (h : Literally (x ++ .char opening :: (part ++ .char closing :: y))) (free : QuoteFree token) :
    Literally part ∧ Literally (x ++ (token.map .char ++ y)) := by
  refine ⟨h.of_isInfix ⟨x ++ [.char opening], .char closing :: y, by simp⟩, ?_⟩
  have before := h.of_isInfix (List.prefix_append x _).isInfix
  have behind :=
    h.of_isInfix (x := y) ⟨x ++ .char opening :: (part ++ [.char closing]), [], by simp⟩
  exact before.append (.append ⟨token, free, rfl⟩ behind)

theorem written (h : Literally gs) (count bound : Nat) :
    Written count bound (fun _ => False) gs ∧ ∀ n, .string n ∉ gs := by
  obtain ⟨u, free, rfl⟩ := h
  exact ⟨.of_text free (by simp), by simp⟩

end Literally

section Building

variable {t t' : Text}

theorem AlikeTables.rel_value? {ordinals : Int → Int → Prop} {literals : Literal → Literal → Prop}
    {table table' : List (Text × Expr)} (h : AlikeTables ordinals literals table table')
    (key : Text) :
    Option.Rel (Expr.Alike ordinals literals) (Table.value? key table)
      (Table.value? key table') := by
  have reversed : List.Forall₂ (fun x y => x.1 = y.1 ∧ Expr.Alike ordinals literals x.2 y.2)
      table.reverse table'.reverse :=
    List.rel_reverse h
  unfold Table.value? Table.find?
  generalize table.reverse = xs at reversed
  generalize table'.reverse = ys at reversed
  induction reversed with
  | nil => exact .none
  | @cons x y _ _ first _ ih =>
    obtain ⟨key', e⟩ := x
    obtain ⟨_, e'⟩ := y
    obtain ⟨rfl, alike⟩ := first
    by_cases here : key' = key
    · simpa [here] using alike
    · simpa [here] using ih

theorem LikeNames.eq {bound : Nat} {avoided : Text → Prop} {ω ω' : Writing} {w w' : Text}
    (h : LikeNames bound avoided ω ω' w w') (parts : ω.parts = ω'.parts) : w = w' := by
  cases h with
  | same _ => rfl
  | part _ => simp [Writing.glyph, parts]

/-- Levels without quotation marks are read in step, whatever stands in the strings of the two
texts. -/
theorem parallel_of_alike (alike : t.AlikeOutsideQuotes t') (inert : t.InertStrings)
    (inert' : t'.InertStrings) :
    Parallel t.segments.marks.length (fun _ => False) Eq (LikeQuoted t t') t.writing t'.writing
      (fun _ => Literally) (fun _ => AlikeTables Eq (LikeQuoted t t')) where
  plain := by simp
  inert := inert.inert
  inert' := alike.length_marks ▸ inert'.inert
  written b gs level := level.written _ b
  grow _ _ level := level
  group _ n x part y level := level.unnest (quoteFree_groupToken n)
  pieces b gs level := by
    obtain ⟨u, free, rfl⟩ := level
    rw [Writing.text_map_char, Writing.text_map_char]
    cases cutUp : Piece.ofText u with
    | error e => exact .error e e
    | ok pieces =>
      refine .ok (List.forall₂_same.mpr fun piece member => ?_)
      cases piece with
      | keyword n => exact .keyword rfl
      | operand v =>
        obtain ⟨part, listed, rfl⟩ := Piece.exists_of_operand_mem cutUp member
        have inside := (Split.scans measured_keywordTokenAt none u).isInfix listed
        have stripped := free.of_isInfix ((Text.isInfix_strip part).trans inside)
        exact .operand ⟨_, ⟨_, stripped, rfl⟩, by simp, by simp⟩
  meanings b table table' tables := {
    name := fun w w' related => by
      obtain rfl := related.eq rfl
      exact .ofName .same (tables.rel_value? w) fun _ => rfl
    tracker := fun w w' related => .inl (related.eq rfl)
    string := by
      rintro _ _ ⟨lt⟩
      have lt' := alike.length_marks ▸ lt
      simp only [Writing.glyph, Text.writing, List.getElem?_map, List.getElem?_eq_getElem lt,
        List.getElem?_eq_getElem lt']
      exact .quoted (List.getElem?_eq_getElem lt) (List.getElem?_eq_getElem lt')
    same := .same }
  insert b table table' e e' tables alike := by
    exact List.rel_append tables (.cons ⟨rfl, alike⟩ .nil)

/-- The subexpressions of a text without quotation marks, and what is left of it, have none. -/
theorem quoteFree_extracted (start : Nat) {m rest : Text} {parts : List Text} (free : QuoteFree m)
    (h : extractSubexpressions start m = .ok (rest, parts)) :
    QuoteFree rest ∧ ∀ part ∈ parts, QuoteFree part := by
  have step : ∀ (n : Nat) x part y, Literally (x ++ .char '[' :: (part ++ .char ']' :: y)) →
      Literally part ∧ Literally (x ++ ((subexpressionToken (start + n)).map .char ++ y)) :=
    fun n x part y level => level.unnest (quoteFree_subexpressionToken (start + n))
  unfold extractSubexpressions at h
  have noString : ∀ n, .string n ∉ m.map Glyph.char := by simp
  rcases exists_unnest .square (fun n => (subexpressionToken (start + n)).map .char)
    (fun _ => Literally) step noString ⟨m, free, rfl⟩ with failed | ⟨rest, parts, done, last, each⟩
  · obtain ⟨e, failed⟩ := failed {}
    simp only [Writing.text_map_char] at failed
    rw [failed] at h
    cases h
  · have done := done {}
    simp only [Writing.text_map_char] at done
    rw [done] at h
    obtain ⟨rfl, rfl⟩ := Prod.mk.inj (Except.ok.inj h)
    have text : ∀ gs, Literally gs → QuoteFree (Writing.text {} gs) := by
      rintro _ ⟨u, free, rfl⟩
      simpa using free
    refine ⟨text _ last, fun part member => ?_⟩
    simp only [List.map_map, List.mem_map] at member
    obtain ⟨part, listed, rfl⟩ := member
    obtain ⟨n, found⟩ := List.mem_iff_getElem?.mp listed
    exact (text _ (each n part found)).of_isInfix (Text.isInfix_strip _)

namespace SetAside

/-- If no quotation mark is left over when strings are masked, trees are built in step. -/
theorem inStep_build_of_quoteFree (alike : t.AlikeOutsideQuotes t') (inert : t.InertStrings)
    (inert' : t'.InertStrings) (free : QuoteFree (maskStrings {} t).1) :
    Attempt.InStep (fun s s' => s.keywords = s'.keywords) (Expr.Alike Eq (LikeQuoted t t'))
      (build t {}) (build t' {}) := by
  have parallel := parallel_of_alike alike inert inert'
  have masked_eq := alike.masked_eq
  have marked_eq : (marked {} t').1 = (marked {} t).1 := by
    unfold marked markKeywords
    rw [← masked_eq]
    rfl
  have keywords_eq : (marked {} t').2.keywords = (marked {} t).2.keywords := by
    unfold marked markKeywords
    rw [← masked_eq]
    rfl
  have markedFree : QuoteFree (marked {} t).1 :=
    quoteFree_renderNumbered
      (fun piece member => free.of_isInfix ((Split.scans measured_keywordAt none _).isInfix member))
        fun n => quoteFree_keywordToken _
  have literally : ∀ u, QuoteFree u → Rewritten t.writing t'.writing Literally u u :=
    fun u free => ⟨u.map .char, ⟨u, free, rfl⟩, by simp, by simp⟩
  have start : Alongside Eq t.writing t'.writing (fun _ => Literally)
      (fun _ => AlikeTables Eq (LikeQuoted t t')) 0 (marked {} t).2 (marked {} t').2 := {
    groups := .nil
    strings := rfl
    strings' := rfl
    keywords := fun n n' same => by rw [Int.ofNat.inj same, keywords_eq]
    tables := .nil }
  refine inStep_build masked_eq (Q := fun x x' => x = x' ∧ QuoteFree x.1 ∧
    ∀ part ∈ x.2, QuoteFree part) ?_ ?_
  · rw [marked_eq]
    cases extracted : extractSubexpressions 0 (marked {} t).1 with
    | error e => exact .error e e
    | ok x => exact .ok ⟨rfl, quoteFree_extracted 0 markedFree extracted⟩
  · rintro ⟨rest, parts⟩ _ ⟨rfl, last, each⟩
    have texts : ∀ (n : Nat) u u', parts[n]? = some u → parts[n]? = some u' →
        Rewritten t.writing t'.writing Literally u u' := by
      intro n u u' found found'
      obtain rfl := Option.some.inj (found.symm.trans found')
      exact literally u (each u (List.mem_of_getElem? found))
    have run := parallel.inStep_buildFrom rfl texts (literally rest last) start
    exact run.mono fun s s' states => List.ext_getElem? fun n => states.keywords n n rfl

/-- Of two texts that differ inside quotes only, and whose quoted segments hold no token of a string
or a keyword, both have a tree or neither: the trees differ in the literals of quoted segments at
the same place only, and the keywords are the same. The quotation marks have to be closed or the
texts plain, since a token outside quotes can close a mark. -/
theorem build_of_alike (alike : t.AlikeOutsideQuotes t') (inert : t.InertStrings)
    (inert' : t'.InertStrings) (closed : t.QuotesClosed ∨ t.IsPlain ∧ t'.IsPlain) :
    Attempt.InStep (fun s s' => s.keywords = s'.keywords) (Expr.Alike Eq (LikeQuoted t t'))
      (build t {}) (build t' {}) := by
  by_cases free : QuoteFree (maskStrings {} t).1
  · exact inStep_build_of_quoteFree alike inert inert' free
  · rcases closed with closed | ⟨plain, plain'⟩
    · exact absurd (quoteFree_renderNumbered closed fun n => quoteFree_stringToken _) free
    · have refused : ∀ {u : Text} {e s}, u.IsPlain → (maskStrings {} u).1 = (maskStrings {} t).1 →
          build u {} ≠ .ok e s := by
        intro u e s plain same built
        exact free (same ▸ plain.quoteFree_masked rfl (by simp [Keyed]) (by simp) built)
      cases built : build t {} with
      | ok e s => exact absurd built (refused plain rfl)
      | error e s =>
        cases built' : build t' {} with
        | ok e s => exact absurd built' (refused plain' alike.masked_eq.symm)
        | error e' s' => exact .error e e' s s'

/-- A text with brackets, a keyword and the token of a group in quotes. -/
def bracketWords : Text := "NOT (\"(AND]\" == ['i:0'])".toList

/-- The same text with other words in quotes. -/
def otherWords : Text := "NOT (\"\" == ['x'])".toList

theorem build_of_alike_words : bracketWords.AlikeOutsideQuotes otherWords ∧
    ∃ e s e' s', build bracketWords {} = .ok e s ∧ build otherWords {} = .ok e' s' ∧
    s.keywords = s'.keywords ∧
      Expr.Alike Eq (LikeQuoted bracketWords otherWords) e e' := by
  have alike : bracketWords.AlikeOutsideQuotes otherWords := by decide
  have related := build_of_alike alike (by decide) (by decide) (.inl (by decide))
  obtain ⟨e, s, built⟩ :=
    Attempt.succeeds_iff.mp (show (build bracketWords).succeeds {} = true by decide +kernel)
  obtain ⟨e', s', built'⟩ :=
    Attempt.succeeds_iff.mp (show (build otherWords).succeeds {} = true by decide +kernel)
  rw [built, built'] at related
  cases related with
  | ok keywords trees => exact ⟨alike, e, s, e', s', built, built', keywords, trees⟩

/-- Tokens do count in quotes: that of a keyword anywhere and that of a string in a group. So does a
quotation mark, if a token outside quotes puts it behind an unclosed one. -/
theorem build_changed_by_quoted_tokens :
    (Text.AlikeOutsideQuotes "\"PLA0\" == 1".toList "\"a\" == 1".toList ∧
      (build "\"PLA0\" == 1".toList).succeeds {} = false ∧
      (build "\"a\" == 1".toList).succeeds {}) ∧
    (Text.AlikeOutsideQuotes "(\"q:0\") == 1".toList "(\"a\") == 1".toList ∧
      (build "(\"q:0\") == 1".toList).succeeds {} = false ∧
      (build "(\"a\") == 1".toList).succeeds {}) ∧
    Text.AlikeOutsideQuotes "\"a\" == ' q:0 \"".toList "\"x'+\" == ' q:0 \"".toList ∧
      (build "\"a\" == ' q:0 \"".toList).succeeds {} = false ∧
      (build "\"x'+\" == ' q:0 \"".toList).succeeds {} := by
  decide +kernel

end SetAside

end Building

end PolicyRules
