import PolicyRules.Proofs.PlainWords
import PolicyRules.Proofs.ReferenceMarks

/-!
# Names that stand in a text

A name stands in a text where it is a run of its own: what comes before it and behind it belongs to
no name and no token. While a text is normalized and its tree is built, parts of it are replaced by
tokens again and again. A name that is no token stands in the changed text only if it stood in the
text before, so names can be followed from the leaves of a tree back into the text of the rule.

Main statements: `Severs` and the tokens that cut, `Split.stands_of_render` and
`Split.stands_of_renderNumbered` for marks that are replaced.
-/

namespace PolicyRules

variable {α : Type}

/-- Whether a character can belong to a name or a token. -/
def isRunChar (c : Char) : Bool := isWordChar c || c == ':' || c == '#'

@[simp] theorem isClearOfTokens_none : isClearOfTokens none := rfl

@[simp] theorem isClearOfTokens_some (c : Char) : isClearOfTokens (some c) = ! isRunChar c := rfl

theorem isClearOfTokens_head_of_append {b y : Text} (h : isClearOfTokens (b ++ y).head?) :
    isClearOfTokens b.head? := by
  cases b with
  | nil => rfl
  | cons c cs => exact h

/-- Before a place that is clear no run ends. -/
theorem eq_nil_of_clear_lastChar {u : Text} {previous : Option Char}
    (run : ∀ c ∈ u, isRunChar c) (clear : isClearOfTokens (lastChar previous u)) : u = [] := by
  by_contra nonempty
  obtain ⟨c, member, last⟩ := exists_lastChar_eq nonempty previous
  rw [last, isClearOfTokens_some, run c member] at clear
  cases clear

/-- At a place that is clear no run begins. -/
theorem eq_nil_of_clear_head {u y : Text} (run : ∀ c ∈ u, isRunChar c)
    (clear : isClearOfTokens (u ++ y).head?) : u = [] := by
  cases u with
  | nil => rfl
  | cons c cs =>
    rw [List.cons_append, List.head?_cons, isClearOfTokens_some, run c (by simp)] at clear
    cases clear

namespace IsName

variable {n : Text}

/-- A name is a run of characters. -/
theorem isRunChar (h : IsName n) {c : Char} (member : c ∈ n) : isRunChar c := by
  have name : ∀ {d : Char}, isNameChar d → PolicyRules.isRunChar d := fun h => by
    simp [PolicyRules.isRunChar, isWordChar_of_isNameChar h]
  cases h with
  | call nonempty all =>
    simp only [List.mem_cons] at member
    rcases member with rfl | rfl | rfl | digit
    · decide
    · decide
    · decide
    · exact name (isNameChar_of_isDigit (all c digit))
  | plain h => exact name (h.all c member)
  | pair h h' =>
    rcases List.mem_append.mp member with first | second
    · exact name (h.all c first)
    · rcases List.mem_cons.mp second with rfl | second
      · rfl
      · exact name (h'.all c second)

/-- The last character belongs to a word. -/
theorem isWordEdge_lastChar (h : IsName n) (previous : Option Char) :
    isWordEdge (lastChar previous n) = false := by
  have last : ∀ {w : Text}, w ≠ [] → (∀ c ∈ w, isNameChar c) →
      ∀ previous, isWordEdge (lastChar previous w) = false := by
    intro w nonempty names previous
    obtain ⟨c, member, last⟩ := exists_lastChar_eq nonempty previous
    simp [last, isWordEdge, isWordChar_of_isNameChar (names c member)]
  have plain : ∀ {w : Text}, IsPlainName w → ∀ previous, isWordEdge (lastChar previous w) =
      false := by
    intro w h previous
    refine last ?_ h.all previous
    obtain ⟨c, cs, rfl, -⟩ := h
    simp
  cases h with
  | call nonempty all =>
    exact last nonempty (fun c member => isNameChar_of_isDigit (all c member)) (some '#')
  | plain h => exact plain h previous
  | pair h h' =>
    rw [lastChar_append]
    exact plain h' (some ':')

end IsName

/-- Whether a character belongs to no name and no token. The tokens of calls may have a minus
sign. -/
def isSeparator (c : Char) : Bool := ! isRunChar c && c != '-'

/-- Whether a text can be a name or a token: it begins with a letter, ends with a word and has no
separator. -/
structure IsSolid (n : Text) : Prop where
  head : ∃ c cs, n = c :: cs ∧ isNameStart c
  inside : ∀ c ∈ n, isSeparator c = false
  isWordEdge_lastChar : ∀ previous, isWordEdge (lastChar previous n) = false

theorem isSeparator_eq_false_of_isRunChar {c : Char} (h : isRunChar c) : isSeparator c = false := by
  simp [isSeparator, h]

theorem IsName.isSolid {n : Text} (h : IsName n) : IsSolid n where
  head := h.head
  inside _ member := isSeparator_eq_false_of_isRunChar (h.isRunChar member)
  isWordEdge_lastChar := h.isWordEdge_lastChar

/-- Whether a name stands at some place of a text as a run of its own. `previous` is the character
before the text. -/
def Stands (n : Text) (previous : Option Char) (t : Text) : Prop :=
  ∃ a b, t = a ++ (n ++ b) ∧ isClearOfTokens (lastChar previous a) ∧
    isClearOfTokens b.head?

namespace Stands

variable {n x y t w : Text} {previous : Option Char}

/-- A name stands in a text as well behind any place clear of tokens. -/
theorem of_clear (h : Stands n previous t) {previous' : Option Char}
    (clear : isClearOfTokens previous') : Stands n previous' t := by
  obtain ⟨a, b, rfl, before, behind⟩ := h
  refine ⟨a, b, rfl, ?_, behind⟩
  cases a with
  | nil => exact clear
  | cons c cs => exact before

/-- A name stands in a text that goes on behind it, clear of tokens. -/
theorem append_left (h : Stands n previous x) (clear : isClearOfTokens y.head?) :
    Stands n previous (x ++ y) := by
  obtain ⟨a, b, rfl, before, behind⟩ := h
  refine ⟨a, b ++ y, by simp, before, ?_⟩
  cases b with
  | nil => exact clear
  | cons c cs => exact behind

theorem append_right (h : Stands n (lastChar previous x) y) : Stands n previous (x ++ y) := by
  obtain ⟨a, b, rfl, before, behind⟩ := h
  exact ⟨x ++ a, b, by simp, by rwa [lastChar_append], behind⟩

/-- Where a name stands in two texts put together: in the first, in the second, or across the
border. -/
theorem append_cases (h : Stands n previous (x ++ y)) :
    (∃ a b, x = a ++ (n ++ b) ∧ isClearOfTokens (lastChar previous a) ∧
      isClearOfTokens (b ++ y).head?) ∨
    Stands n (lastChar previous x) y ∨
    ∃ a u v b, x = a ++ u ∧ y = v ++ b ∧ n = u ++ v ∧ u ≠ [] ∧ v ≠ [] ∧
      isClearOfTokens (lastChar previous a) ∧ isClearOfTokens b.head? := by
  obtain ⟨a, b, same, before, behind⟩ := h
  rcases List.append_eq_append_iff.mp same with ⟨rest, rfl, rfl⟩ | ⟨u, rfl, inner⟩
  · rw [lastChar_append] at before
    exact .inr (.inl ⟨rest, b, rfl, before, behind⟩)
  · rcases List.append_eq_append_iff.mp inner with ⟨rest, rfl, rfl⟩ | ⟨v, rfl, rfl⟩
    · exact .inl ⟨a, rest, rfl, before, behind⟩
    · by_cases atBorder : u = []
      · subst atBorder
        exact .inr (.inl ⟨[], b, by simp, by simpa [lastChar] using before, behind⟩)
      · by_cases inFirst : v = []
        · subst inFirst
          exact .inl ⟨a, [], by simp, before, by simpa using behind⟩
        · exact .inr (.inr ⟨a, u, v, b, rfl, rfl, rfl, atBorder, inFirst, before, behind⟩)

/-- A name between two clear places stands in the text. -/
theorem of_within {a b : Text} (same : x = a ++ (n ++ b))
    (before : isClearOfTokens (lastChar previous a))
    (behind : isClearOfTokens (b ++ y).head?) : Stands n previous x :=
  ⟨a, b, same, before, isClearOfTokens_head_of_append behind⟩

/-- A separator divides the places of a name. -/
theorem separator (solid : IsSolid n) {c : Char} (other : isSeparator c)
    (h : Stands n previous (x ++ c :: y)) : Stands n previous x ∨ Stands n (some c) y := by
  have outside : c ∉ n := by
    intro member
    rw [solid.inside c member] at other
    cases other
  rcases h.append_cases with ⟨a, b, same, before, behind⟩ | ⟨a, b, same, before, behind⟩ |
    ⟨a, u, v, b, -, same, rfl, -, nonempty, -⟩
  · exact .inl (of_within same before behind)
  · cases a with
    | nil =>
      obtain ⟨d, ds, rfl, -⟩ := solid.head
      obtain ⟨rfl, -⟩ := List.cons.inj same
      exact absurd List.mem_cons_self outside
    | cons d ds =>
      obtain ⟨rfl, rest_eq⟩ := List.cons.inj same
      exact .inr ⟨ds, b, rest_eq, before, behind⟩
  · obtain ⟨d, ds, rfl⟩ := List.exists_cons_of_ne_nil nonempty
    obtain ⟨rfl, -⟩ := List.cons.inj same
    exact absurd (by simp) outside

/-- A character of no run leaves names standing on both sides. -/
theorem of_separator {c : Char} (other : isRunChar c = false)
    (h : Stands n previous x ∨ Stands n none y) : Stands n previous (x ++ c :: y) := by
  rcases h with before | behind
  · exact before.append_left (by simp [other])
  · have cleared : Stands n (some c) y := behind.of_clear (by simp [other])
    have inside : Stands n (lastChar previous x) ([c] ++ y) := append_right cleared
    exact append_right inside

/-- In a run only the run itself stands. -/
theorem eq_of_run (run : ∀ c ∈ w, isRunChar c) (h : Stands n previous w) : n = w := by
  obtain ⟨a, b, rfl, before, behind⟩ := h
  obtain rfl := eq_nil_of_clear_lastChar (fun c member => run c (by simp [member])) before
  have last : b = [] :=
    eq_nil_of_clear_head (y := []) (fun c member => run c (by simp [member]))
      (by simpa using behind)
  simp [last]

theorem of_strip (h : Stands n none (Text.strip t)) : Stands n none t := by
  obtain ⟨before, behind, same, left, right⟩ := Text.exists_append_strip t
  rw [same]
  apply append_right
  have here : Stands n (lastChar none before) (Text.strip t) :=
    h.of_clear (isClearOfTokens_lastChar_of_isBlank left)
  exact here.append_left (isClearOfTokens_head_of_isBlank right)

end Stands

/-- Whether a text that is put into another one leaves the places of a name apart: the name stands
before it or behind it. -/
def Severs (n w : Text) : Prop :=
  ∀ previous x y, Stands n previous (x ++ (w ++ y)) → Stands n previous x ∨ Stands n none y

section

variable {n w : Text}

/-- A run cuts every name that does not contain it. -/
theorem severs_of_run (nonempty : w ≠ []) (run : ∀ c ∈ w, isRunChar c) (outside : ¬ w <:+: n) :
    Severs n w := by
  intro previous x y h
  rcases h.append_cases with ⟨a, b, same, before, behind⟩ | inside |
    ⟨a, u, v, b, -, same, rfl, -, some, -, behind⟩
  · exact .inl (.of_within same before behind)
  · rcases inside.append_cases with ⟨a, b, rfl, before, behind⟩ | later |
      ⟨a, u, v, b, rfl, rfl, rfl, -, -, before, -⟩
    · obtain rfl := eq_nil_of_clear_lastChar (fun c member => run c (by simp [member])) before
      obtain rfl := eq_nil_of_clear_head (fun c member => run c (by simp [member])) behind
      exact absurd ⟨[], [], by simp⟩ outside
    · exact .inr (later.of_clear rfl)
    · obtain rfl := eq_nil_of_clear_lastChar (fun c member => run c (by simp [member])) before
      exact absurd ⟨[], v, by simp⟩ outside
  · rcases List.append_eq_append_iff.mp same with ⟨rest, rfl, -⟩ | ⟨rest, rfl, rfl⟩
    · exact absurd ⟨u, rest, by simp⟩ outside
    · obtain rfl := eq_nil_of_clear_head (fun c member => run c (by simp [member])) behind
      exact absurd ⟨u, [], by simp⟩ outside

/-- A run between spaces cuts every other name. -/
theorem severs_of_spaced (solid : IsSolid n) (run : ∀ c ∈ w, isRunChar c) (other : n ≠ w) :
    Severs n (' ' :: w ++ [' ']) := by
  intro previous x y h
  have space : isSeparator ' ' := by decide
  have opened : Stands n previous (x ++ ' ' :: (w ++ ' ' :: y)) := by simpa using h
  rcases opened.separator solid space with before | behind
  · exact .inl before
  · rcases behind.separator solid space with inside | later
    · exact absurd (inside.eq_of_run run) other
    · exact .inr (later.of_clear rfl)

theorem isRunChar_of_isDigit {c : Char} (h : c.isDigit) : isRunChar c := by
  simp [isRunChar, isWordChar_of_isNameChar (isNameChar_of_isDigit h)]

theorem exists_digit_ofNat (k : Nat) : ∃ d ds, Text.ofNat k = d :: ds ∧ isDecimalDigit d := by
  obtain ⟨d, ds, same⟩ := List.exists_cons_of_ne_nil (ofNat_ne_nil k)
  have digit : d.isDigit := isDigit_of_mem_ofNat (by rw [same]; exact List.mem_cons_self)
  exact ⟨d, ds, same, isDecimalDigit_of_isDigit digit⟩

theorem isRunChar_of_mem_numbered {start : Text} (run : ∀ c ∈ start, isRunChar c) {k : Nat} :
    ∀ c ∈ start ++ Text.ofNat k, isRunChar c := by
  intro c member
  rcases List.mem_append.mp member with first | digit
  · exact run c first
  · exact isRunChar_of_isDigit (isDigit_of_mem_ofNat digit)

/-- The token of a group severs every name. -/
theorem severs_groupToken (isName : IsName n) (k : Nat) : Severs n (groupToken k) := by
  refine severs_of_spaced (w := "i:".toList ++ Text.ofNat k) isName.isSolid ?_ ?_
  · exact isRunChar_of_mem_numbered (List.all_eq_true.mp (by decide))
  · rintro rfl
    obtain ⟨d, ds, same, digit⟩ := exists_digit_ofNat k
    exact isName.not_isInfix 'i' digit ⟨[], ds, by simp [same]⟩

theorem severs_stringToken (isName : IsName n) (k : Nat) : Severs n (stringToken k) := by
  refine severs_of_run (by simp [stringToken]) ?_ ?_
  · exact isRunChar_of_mem_numbered (List.all_eq_true.mp (by decide))
  · intro inside
    obtain ⟨d, ds, same, digit⟩ := exists_digit_ofNat k
    refine isName.not_isInfix 'q' digit (List.IsInfix.trans ⟨[], ds, ?_⟩ inside)
    simp [stringToken, same]

theorem severs_keywordToken (isName : IsName n) {k : Nat} (other : n ≠ keywordWord k) :
    Severs n (keywordToken k) := by
  refine severs_of_spaced isName.isSolid ?_ other
  exact isRunChar_of_mem_numbered (List.all_eq_true.mp (by decide))

/-- That of a subexpression severs a name without such a token in it. -/
theorem severs_subexpressionToken (unmarked : hasNumbered "PLH".toList n = false) (k : Nat) :
    Severs n (subexpressionToken k) := by
  refine severs_of_run (by simp [subexpressionToken]) ?_ ?_
  · exact isRunChar_of_mem_numbered (List.all_eq_true.mp (by decide))
  · intro inside
    obtain ⟨d, ds, same, digit⟩ := exists_digit_ofNat k
    refine not_infix_of_hasNumbered unmarked digit (List.IsInfix.trans ⟨[], ds, ?_⟩ inside)
    simp [subexpressionToken, Text.ofInt, same]

/-- What cuts still cuts with characters behind it that begin no name. -/
theorem Severs.append {v : Text} (solid : IsSolid n) (h : Severs n w)
    (noStart : ∀ c ∈ v, isNameStart c = false) : Severs n (w ++ v) := by
  obtain ⟨first, others, rfl, start⟩ := solid.head
  have outside : first ∉ v := by
    intro member
    rw [noStart first member] at start
    cases start
  intro previous x y stands
  rw [List.append_assoc] at stands
  rcases h previous x (v ++ y) stands with before | behind
  · exact .inl before
  · right
    rcases behind.append_cases with ⟨a, b, rfl, -⟩ | later | ⟨a, u, _, b, rfl, -, same, nonempty, -⟩
    · exact absurd (by simp) outside
    · exact later.of_clear rfl
    · obtain ⟨c, cs, rfl⟩ := List.exists_cons_of_ne_nil nonempty
      obtain ⟨rfl, -⟩ := List.cons.inj same
      exact absurd (by simp) outside

theorem severs_callToken (solid : IsSolid n) (noHash : '#' ∉ n) (call : ForeignCall) :
    Severs n call.token := by
  have letters : Severs n "FC#".toList := by
    refine severs_of_run (by decide) (List.all_eq_true.mp (by decide)) fun inside => ?_
    exact noHash (inside.subset (by decide))
  refine letters.append solid fun c member => ?_
  cases id_eq : call.id with
  | ofNat k =>
    rw [id_eq] at member
    exact isNameStart_eq_false_of_isDigit (isDigit_of_mem_ofNat member)
  | negSucc k =>
    rw [id_eq] at member
    rcases List.mem_cons.mp member with rfl | digit
    · rfl
    · exact isNameStart_eq_false_of_isDigit (isDigit_of_mem_ofNat digit)

end

/-- A name that stands in a text with marks written anew stands in one of the texts around the
marks, if what is written cuts it. -/
theorem stands_of_pieces {n : Text} {pieces : List (Text × Text)}
    (cut : ∀ piece ∈ pieces, Severs n piece.1) {previous : Option Char} {head : Text}
    (h : Stands n previous (head ++ pieces.flatMap fun piece => piece.1 ++ piece.2)) :
    Stands n previous head ∨ ∃ piece ∈ pieces, Stands n none piece.2 := by
  induction pieces generalizing previous head with
  | nil => exact .inl (by simpa using h)
  | cons piece rest ih =>
    rw [List.flatMap_cons, List.append_assoc] at h
    rcases cut piece (by simp) previous head _ h with before | behind
    · exact .inl before
    · rcases ih (fun p member => cut p (List.mem_cons_of_mem _ member)) behind with here |
        ⟨p, member, later⟩
      · exact .inr ⟨piece, by simp, here⟩
      · exact .inr ⟨p, List.mem_cons_of_mem _ member, later⟩

namespace Split

variable {n : Text} {s : Split α}

theorem exists_plain_of_pieces {pieces : List (Text × Text)}
    (same : pieces.map Prod.snd = s.tail.map Prod.snd) (cut : ∀ piece ∈ pieces, Severs n piece.1)
    (h : Stands n none (s.head ++ pieces.flatMap fun piece => piece.1 ++ piece.2)) :
    ∃ piece ∈ s.plain, Stands n none piece := by
  rcases stands_of_pieces cut h with first | ⟨piece, member, later⟩
  · exact ⟨s.head, by simp [plain], first⟩
  · exact ⟨piece.2, List.mem_cons_of_mem _ (same ▸ List.mem_map_of_mem member), later⟩

/-- If what is filled in severs a name, it stands in a plain piece. -/
theorem stands_of_render {write : α → Text} (cut : ∀ a ∈ s.marks, Severs n (write a))
    (h : Stands n none (s.render write)) : ∃ piece ∈ s.plain, Stands n none piece := by
  have pieces : Stands n none
      (s.head ++ (s.tail.map fun p => (write p.1, p.2)).flatMap fun piece => piece.1 ++
        piece.2) := by
    simpa [render, List.flatMap_map] using h
  have cuts : ∀ piece ∈ s.tail.map fun p => (write p.1, p.2), Severs n piece.1 := by
    intro piece member
    obtain ⟨p, inTail, rfl⟩ := List.mem_map.mp member
    exact cut p.1 (List.mem_map_of_mem inTail)
  exact exists_plain_of_pieces (by simp) cuts pieces

theorem stands_of_renderNumbered {token : Nat → Text} (cut : ∀ k, Severs n (token k))
    (h : Stands n none (s.renderNumbered token)) : ∃ piece ∈ s.plain, Stands n none piece := by
  have pieces : Stands n none (s.head ++
      (s.tail.zipIdx.map fun p => (token p.2, p.1.2)).flatMap fun piece => piece.1 ++ piece.2) := by
    simpa [renderNumbered, List.flatMap_map] using h
  have cuts : ∀ piece ∈ s.tail.zipIdx.map fun p => (token p.2, p.1.2), Severs n piece.1 := by
    intro piece member
    obtain ⟨p, -, rfl⟩ := List.mem_map.mp member
    exact cut p.2
  have same : (s.tail.zipIdx.map Prod.fst).map Prod.snd = s.tail.map Prod.snd := by
    rw [List.zipIdx_map_fst]
  rw [List.map_map] at same
  exact exists_plain_of_pieces (by rwa [List.map_map]) cuts pieces

end Split

end PolicyRules
