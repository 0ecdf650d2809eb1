import PolicyRules.Proofs.Operands

/-!
# Where the names of a tree stand in its text

Building a tree replaces strings, keywords, groups and parts in square brackets by tokens and puts
some of them back. A name that the tree reads and that holds no token of a bracket has stood in the
text all the time, outside quotes.

Main statements: `Scans.stands` for texts between marks that divide words,
`SetAside.stands_of_build` for whole trees.
-/

namespace PolicyRules

variable {α : Type} {previous : Option Char} {t piece : Text}

variable {recognise : Recogniser α} {s : Split α}

section Pieces

variable {n : Text}

/-- Whether the marks of a recogniser divide words: a mark does not begin behind a word or begins
with a character that ends words, and the same holds at its end. -/
structure Divides (recognise : Recogniser α) : Prop where
  left : ∀ {previous w t a}, recognise previous (w ++ t) = some (a, w.length) →
    isWordEdge previous ∨ isClearOfTokens w.head?
  right : ∀ {previous w t a}, recognise previous (w ++ t) = some (a, w.length) →
    isWordEdge t.head? ∨ isClearOfTokens (lastChar none w)

theorem quiet_append {u v : Text}
    (h : Quiet recognise previous (u ++ v) t) : Quiet recognise (lastChar previous u) v t := by
  induction u generalizing previous with
  | nil => exact h
  | cons c cs ih => exact ih h.2

/-- Nothing is recognised where a name begins in a text without marks. -/
theorem Quiet.at_name {a b : Text} (solid : IsSolid n)
    (quiet : Quiet recognise previous (a ++ (n ++ b)) t) :
    recognise (lastChar previous a) (n ++ (b ++ t)) = none := by
  have later := quiet_append quiet
  obtain ⟨c, cs, rfl, -⟩ := solid.head
  simpa using later.1

namespace Scans

variable (divides : Divides recognise) (solid : IsSolid n) (scanned : Scans recognise previous t s)
  (edge : isWordEdge t.head? ∨ isClearOfTokens previous) (member : piece ∈ s.plain)
  (h : Stands n none piece)
include divides solid scanned edge member h

/-- A name that stands in a text between marks stands in the whole text, if the marks divide words.
No mark is recognised there. -/
theorem exists_place :
    ∃ a b, t = a ++ (n ++ b) ∧ isClearOfTokens (lastChar previous a) ∧
      isClearOfTokens b.head? ∧ recognise (lastChar previous a) (n ++ b) = none := by
  have start : ∀ {a b : Text} {previous : Option Char} {t : Text}, t = a ++ (n ++ b) →
      (isWordEdge t.head? ∨ isClearOfTokens previous) →
      isClearOfTokens (lastChar none a) → isClearOfTokens (lastChar previous a) := by
    rintro a b previous t rfl edge clear
    cases a with
    | cons c cs => exact clear
    | nil =>
      rcases edge with ended | clear
      · obtain ⟨c, cs, rfl, first⟩ := solid.head
        rw [List.nil_append, List.cons_append, List.head?_cons, isWordEdge, Option.any_some,
          isWordChar_of_isNameStart first] at ended
        cases ended
      · exact clear
  induction scanned with
  | text quiet =>
    obtain rfl := List.mem_singleton.mp member
    obtain ⟨a, b, rfl, before, behind⟩ := h
    exact ⟨a, b, rfl, start rfl edge before, behind, by simpa using quiet.at_name solid⟩
  | @mark previous u w t next a tail quiet nonempty found rest ih =>
    rcases List.mem_cons.mp member with rfl | later
    · obtain ⟨x, b, rfl, before, behind⟩ := h
      refine ⟨x, b ++ (w ++ t), by simp, start (by simp; rfl) edge before, ?_, quiet.at_name solid⟩
      cases b with
      | cons c cs => exact behind
      | nil =>
        rcases divides.left found with ended | clear
        · rw [List.append_nil, lastChar_append, solid.isWordEdge_lastChar] at ended
          cases ended
        · obtain ⟨c, cs, rfl⟩ := List.exists_cons_of_ne_nil nonempty
          exact clear
    · have behind : isWordEdge t.head? ∨ isClearOfTokens (lastChar previous (u ++ w)) := by
        rcases divides.right found with ended | clear
        · exact .inl ended
        · right
          rwa [lastChar_append, lastChar_of_ne_nil nonempty _ none]
      obtain ⟨x, b, rfl, before, after, nothing⟩ := ih behind later
      rw [← lastChar_append] at before nothing
      exact ⟨u ++ w ++ x, b, by simp, before, after, nothing⟩

theorem stands : Stands n previous t := by
  obtain ⟨a, b, same, before, behind, -⟩ := scanned.exists_place divides solid edge member h
  exact ⟨a, b, same, before, behind⟩

end Scans

/-- A keyword stands between the ends of words. -/
theorem keywordAt_eq_some {keyword : Keyword} {width : Nat}
    (h : keywordAt previous t = some (keyword, width)) :
    isWordEdge previous ∧ ∃ rest, t = keyword.text ++ rest ∧ isWordEdge rest.head? ∧
      width = keyword.text.length := by
  unfold keywordAt at h
  obtain ⟨edge, h⟩ := Option.ite_none_right_eq_some.mp h
  obtain ⟨k, -, found⟩ := List.exists_of_findSome?_eq_some h
  obtain ⟨rest, start, found⟩ := Option.bind_eq_some_iff.mp found
  obtain ⟨ended, same⟩ := Option.ite_none_right_eq_some.mp found
  obtain ⟨rfl, rfl⟩ := Prod.mk.inj (Option.some.inj same)
  exact ⟨edge, rest, Text.dropStart?_eq_some_iff.mp start, ended, rfl⟩

theorem measured_keywordAt : Measured keywordAt := by
  intro previous t keyword width h
  obtain ⟨-, rest, rfl, -, rfl⟩ := keywordAt_eq_some h
  refine ⟨?_, by simp⟩
  cases keyword <;> decide

theorem divides_keywordAt : Divides keywordAt where
  left h := .inl (keywordAt_eq_some h).1
  right h := by
    obtain ⟨-, rest, same, ended, width⟩ := keywordAt_eq_some h
    obtain ⟨-, rfl⟩ := List.append_inj same width
    exact .inl ended

theorem keywordTokenAt_eq_some {digits : Text} {width : Nat}
    (h : keywordTokenAt previous t = some (digits, width)) :
    ∃ before behind rest, t = (before ++ ("PLA".toList ++ digits) ++ behind) ++ rest ∧
      width = (before ++ ("PLA".toList ++ digits) ++ behind).length ∧ digits ≠ [] ∧
      (∀ d ∈ digits, isDecimalDigit d) ∧ (∀ c ∈ before, isBlank c) ∧
      (∀ c ∈ behind, isBlank c) ∧ (before = [] → isWordEdge previous) ∧
      (behind = [] → isWordEdge rest.head?) := by
  unfold keywordTokenAt at h
  obtain ⟨edge, h⟩ := Option.ite_none_right_eq_some.mp h
  obtain ⟨rest, start, h⟩ := Option.bind_eq_some_iff.mp h
  obtain ⟨digits', found, h⟩ := Option.bind_eq_some_iff.mp h
  obtain ⟨ended, same⟩ := Option.ite_none_right_eq_some.mp h
  obtain ⟨rfl, rfl⟩ := Prod.mk.inj (Option.some.inj same)
  obtain ⟨nonempty, digits_eq⟩ := Option.ite_none_left_eq_some.mp found
  obtain rfl := Option.some.inj digits_eq
  rw [List.isEmpty_iff] at nonempty
  have blank : ∀ c ∈ t.takeWhile isBlank, isBlank c := fun c => List.mem_takeWhile_imp
  have whole := List.prefix_append_drop (List.takeWhile_prefix isBlank (l := t))
  have numbered := List.prefix_append_drop (List.takeWhile_prefix isDecimalDigit (l := rest))
  rw [Text.dropStart?_eq_some_iff.mp start] at whole
  generalize t.takeWhile isBlank = before at *
  generalize run_eq : rest.takeWhile isDecimalDigit = digits at *
  generalize rest.drop digits.length = tail at *
  have cut := List.takeWhile_append_dropWhile (p := isBlank) (l := tail)
  refine ⟨before, tail.takeWhile isBlank, tail.dropWhile isBlank, ?_, ?_, nonempty, ?_, blank,
    fun c => List.mem_takeWhile_imp, ?_, fun empty => ?_⟩
  · rw [List.append_assoc, cut, whole, numbered]
    simp
  · simp
    omega
  · exact fun d member => List.mem_takeWhile_imp (run_eq ▸ member)
  · rintro rfl
    simpa using edge
  · rw [empty, List.nil_append] at cut
    rw [cut]
    exact ended

theorem measured_keywordTokenAt : Measured keywordTokenAt := by
  intro previous t digits width h
  obtain ⟨before, behind, rest, rfl, rfl, -⟩ := keywordTokenAt_eq_some h
  simp

theorem divides_keywordTokenAt : Divides keywordTokenAt where
  left h := by
    obtain ⟨before, behind, rest, same, width, -, -, blank, -, edge, -⟩ := keywordTokenAt_eq_some h
    obtain ⟨rfl, -⟩ := List.append_inj same width
    cases before with
    | nil => exact .inl (edge rfl)
    | cons c cs => exact .inr (isClearOfTokens_of_isBlank (blank c (by simp)))
  right h := by
    obtain ⟨before, behind, rest, same, width, -, -, -, blank, -, edge⟩ := keywordTokenAt_eq_some h
    obtain ⟨rfl, rfl⟩ := List.append_inj same width
    by_cases empty : behind = []
    · exact .inl (edge empty)
    · right
      obtain ⟨c, member, last⟩ :=
        exists_lastChar_eq empty (lastChar none (before ++ ("PLA".toList ++ _)))
      rw [lastChar_append, last]
      exact isClearOfTokens_of_isBlank (blank c member)

end Pieces

section Trees

variable {n : Text}

/-- An operand is not the token of a keyword, if no such token is found. -/
theorem IsOperand.ne_keywordWord (h : IsOperand n none t)
    (none : (t.split keywordTokenAt).tail = []) (k : Nat) : n ≠ keywordWord k := by
  rintro rfl
  obtain ⟨a, b, rfl, -, opens, closes⟩ := h
  have found := keywordWordAt_keywordWord k 
    (isWordEdge_of_isClearOfTokens (isClearOfTokens_of_opensOperand opens))
    (isWordEdge_of_isClearOfTokens (isClearOfTokens_of_closesOperand closes))
  have same : keywordWord k ++ b = 'P' :: ("LA".toList ++ Text.ofNat k ++ b) := rfl
  have quiet : Quiet keywordTokenAt (lastChar Option.none a) (keywordWord k ++ b) [] :=
    quiet_append (Split.quiet_of_scan none)
  rw [same] at found quiet
  have here := quiet.1
  rw [List.append_nil, keywordTokenAt_of_not_blank (by decide), found] at here
  cases here

/-- The names that an expression reads for their values. -/
def Expr.names : Expr → List Text
  | .hole | .literal _ => []
  | .name text => [text]
  | .mapped key _ => key.names
  | .binary _ left right | .logical _ _ left right => left.names ++ right.names
  | .negation _ operand => operand.names
  | .update _ tracker value => tracker :: value.names
  | .updateMapped _ key _ value => key.names ++ value.names

/-- A property of the names of an expression is kept by all steps of tree building. -/
theorem levelClosed_names (keywords : List Keyword) (Name : Text → Prop) :
    LevelClosed keywords fun e => ∀ n ∈ e.names, Name n := by
  refine ⟨fun _ _ left right n member => ?_, fun _ operand => operand⟩
  rcases List.mem_append.mp member with inLeft | inRight
  · exact left n inLeft
  · exact right n inRight

/-- A leaf has the names of its phrase only. -/
theorem leafClosed_names (Name : Text → Prop) : LeafClosed Name fun e => ∀ n ∈ e.names, Name n where
  number _ := by simp [Expr.names]
  quoted _ := by simp [Expr.names]
  bool _ := by simp [Expr.names]
  name h := by simpa [Expr.names] using h
  mapped _ key := key
  binary left right := by
    intro n member
    rcases List.mem_append.mp member with inLeft | inRight
    · exact left n inLeft
    · exact right n inRight
  update _ tracker value := List.forall_mem_cons.mpr ⟨tracker, value⟩
  updateMapped _ key value := by
    intro n member
    rcases List.mem_append.mp member with inKey | inValue
    · exact key n inKey
    · exact value n inValue

/-- What is known of a text while a tree is built: it has no quotation mark, and a name that stands
in it stood in the text that the tree is built from. -/
def Follows (origin t : Text) : Prop :=
  QuoteFree t ∧ ∀ n, IsName n → hasNumbered "PLH".toList n = false → Stands n none t →
    Stands n none origin

namespace Follows

variable {origin t : Text}

theorem strip (h : Follows origin t) : Follows origin (Text.strip t) := by
  obtain ⟨before, behind, same, -, -⟩ := Text.exists_append_strip t
  refine ⟨h.1.of_isInfix ⟨before, behind, by simpa using same.symm⟩, fun n isName free stands => ?_⟩
  exact h.2 n isName free stands.of_strip

/-- A part in brackets follows, and so does the text with a token in its place. -/
theorem bracket {b : Bracket} {token : Text} {x part y : Text} (free : QuoteFree token)
    (severs : ∀ n, IsName n → hasNumbered "PLH".toList n = false → Severs n token)
    (h : Follows origin (x ++ b.opening :: (part ++ b.closing :: y))) :
    Follows origin part ∧ Follows origin (x ++ (token ++ y)) := by
  have opening : isRunChar b.opening = false := by cases b <;> decide
  have closing : isRunChar b.closing = false := by cases b <;> decide
  have inPart : QuoteFree part := h.1.of_isInfix ⟨x ++ [b.opening], b.closing :: y, by simp⟩
  have inFirst : QuoteFree x := h.1.of_isInfix ⟨[], b.opening :: (part ++ b.closing :: y), by simp⟩
  have inLast : QuoteFree y := h.1.of_isInfix ⟨x ++ b.opening :: (part ++ [b.closing]), [], by simp⟩
  refine ⟨⟨inPart, fun n isName unmarked stands => ?_⟩,
    inFirst.append (free.append inLast), fun n isName unmarked stands => ?_⟩
  · exact h.2 n isName unmarked (.of_separator opening (.inr (.of_separator closing (.inl stands))))
  · refine h.2 n isName unmarked (.of_separator opening ?_)
    rcases severs n isName unmarked none x y stands with before | behind
    · exact .inl before
    · exact .inr (.of_separator closing (.inr behind))

end Follows

theorem quoteFree_append_ofNat {start : Text} (free : QuoteFree start) (k : Nat) :
    QuoteFree (start ++ Text.ofNat k) :=
  free.append (quoteFree_of_isNameChar fun _ => isNameChar_of_mem_ofNat)

theorem quoteFree_groupToken (k : Nat) : QuoteFree (groupToken k) :=
  (quoteFree_append_ofNat (by decide) k).append (by decide)

theorem quoteFree_subexpressionToken (k : Nat) : QuoteFree (subexpressionToken k) :=
  quoteFree_append_ofNat (by decide) k

theorem quoteFree_stringToken (k : Nat) : QuoteFree (stringToken k) :=
  quoteFree_append_ofNat (by decide) k

theorem quoteFree_keywordToken (k : Nat) : QuoteFree (keywordToken k) :=
  (quoteFree_append_ofNat (by decide) k).append (by decide)

theorem Scans.isInfix (scanned : Scans recognise previous t s) (member : piece ∈ s.plain) :
    piece <:+: t := by
  induction scanned with
  | text quiet =>
    obtain rfl := List.mem_singleton.mp member
    exact List.infix_rfl
  | @mark previous u w t next a tail quiet nonempty found rest ih =>
    rcases List.mem_cons.mp member with rfl | later
    · exact ⟨[], w ++ t, by simp⟩
    · exact (ih later).trans ⟨u ++ w, [], by simp⟩

/-- The text with numbered tokens has no quotation mark if the texts around the marks have none. -/
theorem quoteFree_renderNumbered {token : Nat → Text} (plain : ∀ piece ∈ s.plain, QuoteFree piece)
    (tokens : ∀ k, QuoteFree (token k)) : QuoteFree (s.renderNumbered token) := by
  refine (plain s.head (by simp [Split.plain])).append fun c member => ?_
  obtain ⟨⟨piece, k⟩, listed, inside⟩ := List.mem_flatMap.mp member
  have inTail : piece ∈ s.tail := by simpa using List.mem_map_of_mem listed (f := Prod.fst)
  rcases List.mem_append.mp inside with token | text
  · exact tokens k c token
  · exact plain piece.2 (List.mem_cons_of_mem _ (List.mem_map_of_mem inTail)) c text

/-- An operand is what stands between two keywords. -/
theorem Piece.exists_of_operand_mem {u : Text} {pieces : List Piece}
    (h : Piece.ofText t = .ok pieces) (member : .operand u ∈ pieces) :
    ∃ part ∈ (t.split keywordTokenAt).plain, u = Text.strip part := by
  have single : ∀ part, .operand u ∈ Piece.ofPlain part → u = Text.strip part := by
    intro part listed
    unfold Piece.ofPlain at listed
    split at listed
    · cases listed
    · simpa using listed
  simp only [Piece.ofText, bind_eq_ok_iff, pure_eq_ok_iff] at h
  obtain ⟨rest, mapped, rfl⟩ := h
  rcases List.mem_append.mp member with first | later
  · exact ⟨_, by simp [Split.plain], single _ first⟩
  · obtain ⟨piece, listed, inside⟩ := List.mem_flatten.mp later
    obtain ⟨⟨digits, part⟩, inTail, made⟩ := (mem_of_mapM_eq_ok mapped).mp listed
    obtain ⟨k, -, same⟩ := bind_eq_ok_iff.mp made
    rw [← pure_eq_ok_iff.mp same] at inside
    rcases List.mem_cons.mp inside with keyword | operand
    · cases keyword
    · exact ⟨part, List.mem_cons_of_mem _ (List.mem_map_of_mem inTail), single part operand⟩

namespace SetAside

theorem parseOperand_tail_eq_nil {s : SetAside} {leaf : Text} {e : Expr}
    (h : s.parseOperand t = .ok e) (expanded : s.expand t = .ok leaf) :
    (leaf.split keywordTokenAt).tail = [] := by
  obtain ⟨leaf', expanded', h⟩ := bind_eq_ok_iff.mp h
  obtain rfl := Except.ok.inj (expanded.symm.trans expanded')
  split at h
  · next empty => exact List.isEmpty_iff.mp empty
  · cases h

/-- The rules by which the names of a tree are followed into the text with marked keywords. -/
theorem rules_follows {marked : Text} {strings : List Text} {keywords : List Keyword}
    (fillers : ∀ w ∈ strings, IsFiller w) :
    Rules strings keywords (Follows marked) (Follows marked) (Follows marked)
      fun e => ∀ n ∈ e.names, IsName n ∧ (∀ k, n ≠ keywordWord k) ∧
        (hasNumbered "PLH".toList n = false → Stands n none marked) where
  closed := levelClosed_names _ _
  collapse {u t} keeps whole := by
    unfold collapseGroups
    split
    · next rest groups unnested =>
      obtain ⟨level, inner⟩ := unnest_closed (fun x part y k nested =>
        nested.bracket (quoteFree_groupToken _) fun n isName _ => severs_groupToken isName _)
          unnested whole
      refine ⟨level, fun group member => ?_⟩
      rcases List.mem_append.mp member with earlier | new
      · exact keeps.groups group earlier
      · exact inner group new
    · exact ⟨whole, keeps.groups⟩
  pieces t level ps split u member := by
    obtain ⟨part, listed, rfl⟩ := Piece.exists_of_operand_mem split member
    have scanned := Split.scans measured_keywordTokenAt none t
    have follows : Follows marked part :=
      ⟨level.1.of_isInfix (scanned.isInfix listed), fun n isName unmarked stands =>
        level.2 n isName unmarked
          (scanned.stands divides_keywordTokenAt isName.isSolid (.inr rfl) listed stands)⟩
    exact follows.strip
  leaf {u t e} keeps operand parsed := by
    obtain ⟨leaf, phrase, expanded, read, made⟩ := parseOperand_eq_ok parsed
    have opened : Opened u.groups t leaf := opened_of_expandWithin
      (fun group member => (keeps.groups group member).1) (keeps.strings_eq ▸ fillers)
        operand.1 expanded
    refine (leafClosed_names _).toExpr keeps.subexpressions (fun n member => ?_) made
    obtain ⟨isName, isOperand⟩ := isOperand_of_ofText read member
    refine ⟨isName, isOperand.ne_keywordWord (parseOperand_tail_eq_nil parsed expanded),
      fun unmarked => ?_⟩
    rcases opened.stands n isName isOperand with here | ⟨group, listed, inGroup⟩
    · exact operand.2 n isName unmarked here
    · exact (keeps.groups group listed).2 n isName unmarked inGroup

theorem fillers_of_segments
    (noToken : ∀ q ∈ t.segments.marks, hasNumbered "q:".toList q.text = false) :
    ∀ w ∈ t.segments.marks.map Quotation.text, IsFiller w := by
  intro w member
  obtain ⟨q, listed, rfl⟩ := List.mem_map.mp member
  obtain ⟨isMark, outside⟩ := proper_of_mem_segments listed
  exact ⟨.mk (isQuoteMark_iff.mp isMark) outside, noToken q listed⟩

/-- A name that a tree reads stands outside quotes in the text that the tree was built from. -/
theorem stands_of_build {e : Expr} {s : SetAside} (h : build t {} = .ok e s)
    (closed : t.QuotesClosed)
    (noToken : ∀ q ∈ t.segments.marks, hasNumbered "q:".toList q.text = false) :
    ∀ n ∈ e.names, IsName n ∧ (hasNumbered "PLH".toList n = false →
      ∃ part ∈ t.unquoted, Stands n none part) := by
  obtain ⟨masked, s₁, marked, s₂, rest, parts, u, hmask, -, hmark, -⟩ := build_eq_ok_iff.mp h
  obtain ⟨rfl, rfl⟩ := Prod.mk.inj hmask
  obtain ⟨marked_eq, rfl⟩ := Prod.mk.inj hmark
  have maskedFree : QuoteFree (t.segments.renderNumbered fun n => stringToken (0 + n)) :=
    quoteFree_renderNumbered closed fun k => quoteFree_stringToken _
  have scanned :=
    Split.scans measured_keywordAt none (t.segments.renderNumbered fun n => stringToken (0 + n))
  have markedFree : QuoteFree marked := by
    rw [← marked_eq]
    exact quoteFree_renderNumbered
      (fun piece member => maskedFree.of_isInfix (scanned.isInfix member)) fun k =>
        quoteFree_keywordToken _
  have whole : ∀ rest parts, extractSubexpressions 0 marked = .ok (rest, parts) →
      ∀ text ∈ rest :: parts, Follows marked text := by
    intro rest parts extracted
    unfold extractSubexpressions at extracted
    split at extracted
    · next rest' parts' unnested =>
      obtain ⟨rfl, rfl⟩ := Prod.mk.inj (Except.ok.inj extracted)
      have start : Follows marked marked := ⟨markedFree, fun _ _ _ stands => stands⟩
      obtain ⟨outer, inner⟩ := unnest_closed (fun x part y k (nested : Follows marked _) =>
        nested.bracket (quoteFree_subexpressionToken _) fun n _ unmarked =>
          severs_subexpressionToken unmarked _)
        unnested start
      refine List.forall_mem_cons.mpr ⟨outer, fun text member => ?_⟩
      obtain ⟨part, listed, rfl⟩ := List.mem_map.mp member
      exact (inner part listed).strip
    · cases extracted
  obtain ⟨names, -⟩ := (rules_follows (fillers_of_segments noToken)).build rfl hmark
    ⟨rfl, rfl, by simp, by simp⟩ whole h
  intro n member
  obtain ⟨isName, notKeyword, stands⟩ := names n member
  refine ⟨isName, fun unmarked => ?_⟩
  have inMarked := stands unmarked
  rw [← marked_eq] at inMarked
  obtain ⟨piece, listed, inPiece⟩ := Split.stands_of_renderNumbered
    (fun k => severs_keywordToken isName (notKeyword _)) inMarked
  have inMasked := scanned.stands divides_keywordAt isName.isSolid (.inr rfl) listed inPiece
  exact Split.stands_of_renderNumbered (fun k => severs_stringToken isName _) inMasked

end SetAside

end Trees

end PolicyRules
