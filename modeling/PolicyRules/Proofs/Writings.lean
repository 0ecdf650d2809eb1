import PolicyRules.Proofs.Cuts
import PolicyRules.Proofs.Expansion
import PolicyRules.Proofs.LikePhrases

/-!
# Texts with open places

While a tree is built, its texts hold tokens of keywords and subexpressions, whose numbers depend on
what has been set aside before, and quoted strings. A list of glyphs is such a text with these
places left open, and a writing fills them in. Wherever a token is bounded by characters that join
no word, and the strings hold no tokens themselves, what is found in a text does not depend on the
writing: the tokens of groups and strings (`Written.exists_cutAt`) and whether there is a token of a
keyword (`Written.quiet_keywordWordAt`). So groups and strings are put back in step
(`inStep_expandWithin`).
-/

namespace PolicyRules

/-- A character of a text, or a place in it for a token or a quoted string. -/
inductive Glyph where
  | char (c : Char)
  /-- The token of a keyword. -/
  | keyword (n : Nat)
  /-- The token of a subexpression. -/
  | part (n : Nat)
  /-- A quoted string, with its quotes. -/
  | string (n : Nat)
  deriving DecidableEq, Repr

variable {g : Glyph} {w : Text} {c letter : Char} {ω : Writing} {p : Option Char}

namespace Glyph

/-- Whether a glyph is the place of a token. -/
def isToken : Glyph → Bool
  | keyword _ | part _ => true
  | char _ | string _ => false

/-- Whether no word goes on from a glyph. -/
def isClear : Glyph → Bool
  | char c => PolicyRules.isClear (some c)
  | string _ => true
  | keyword _ | part _ => false

theorem isToken_eq_false_of_isClear (clear : g.isClear) : g.isToken = false := by
  cases g with
  | char c => rfl
  | string n => rfl
  | keyword n | part n => cases clear

/-- Whether a token on either side is bounded by the glyph on the other side. -/
def Fits (g g' : Glyph) : Prop :=
  (g.isToken → g'.isClear) ∧ (g'.isToken → g.isClear)

theorem fits_of_isToken_eq_false {g' : Glyph} (h : g.isToken = false) (h' : g'.isToken = false) :
    g.Fits g' := by
  simp [Fits, h, h']

/-- What separates words fits beside everything. -/
theorem fits_of_isClear (clear : g.isClear) (g' : Glyph) : g.Fits g' ∧ g'.Fits g := by
  have noToken := isToken_eq_false_of_isClear clear
  exact ⟨⟨by simp [noToken], fun _ => clear⟩, fun _ => clear, by simp [noToken]⟩

end Glyph

/-- What the open places of a text are filled with: the tokens are numbered on from given
numbers. -/
structure Writing where
  keywords : Nat := 0
  parts : Nat := 0
  strings : List Text := []

namespace Writing

/-- The text of a glyph. -/
def glyph (ω : Writing) : Glyph → Text
  | .char c => [c]
  | .keyword n => keywordWord (ω.keywords + n)
  | .part n => subexpressionToken (ω.parts + n : Nat)
  | .string n => ω.strings[n]?.getD []

/-- The text of a list of glyphs. -/
def text (ω : Writing) (gs : List Glyph) : Text := gs.flatMap ω.glyph

variable {ω : Writing} {gs : List Glyph}

@[simp] theorem text_nil (ω : Writing) : ω.text [] = [] := rfl

@[simp] theorem text_cons (ω : Writing) (g : Glyph) (gs : List Glyph) :
    ω.text (g :: gs) = ω.glyph g ++ ω.text gs :=
  rfl

@[simp] theorem text_append (ω : Writing) (gs gs' : List Glyph) :
    ω.text (gs ++ gs') = ω.text gs ++ ω.text gs' :=
  List.flatMap_append

@[simp] theorem glyph_char (ω : Writing) (c : Char) : ω.glyph (.char c) = [c] := rfl

@[simp] theorem text_map_char (ω : Writing) (u : Text) : ω.text (u.map .char) = u := by
  induction u with
  | nil => rfl
  | cons c cs ih => rw [List.map_cons, text_cons, ih]; rfl

/-- Whether a writing has a number of quoted strings, none of which holds a token of a string or a
keyword. -/
structure Inert (count : Nat) (ω : Writing) : Prop where
  length_eq : ω.strings.length = count
  quoted : ∀ w ∈ ω.strings, IsQuoted w
  noString : ∀ w ∈ ω.strings, Quiet stringTokenAt none w []
  noKeyword : ∀ w ∈ ω.strings, Quiet keywordWordAt none w []

end Writing

/-- The lists of glyphs that are read in step whatever the writing is. `count` is the number of
strings and `bound` that of subexpressions, and no word of `avoided` stands in the list. -/
structure Written (count bound : Nat) (avoided : Text → Prop) (gs : List Glyph) : Prop where
  chain : gs.IsChain Glyph.Fits
  quoteFree : ∀ c, .char c ∈ gs → isQuoteMark c = false
  string_lt : ∀ n, .string n ∈ gs → n < count
  part_lt : ∀ n, .part n ∈ gs → n < bound
  avoids : ∀ u, avoided u → ¬ u.map .char <:+: gs

/-- A text without quotation marks and avoided words is a list of glyphs. -/
theorem Written.of_text {count bound : Nat} {avoided : Text → Prop} {u : Text} (free : QuoteFree u)
    (avoids : ∀ v, avoided v → ¬ v <:+: u) : Written count bound avoided (u.map .char) where
  chain := by
    refine (List.isChain_map Glyph.char).mpr ((List.pairwise_of_forall fun a b => ?_).isChain)
    exact Glyph.fits_of_isToken_eq_false rfl rfl
  quoteFree c member := free c (by simpa using member)
  string_lt := by simp
  part_lt := by simp
  avoids v listed inside := by
    obtain ⟨v', within, same⟩ := List.infix_map_iff.mp inside
    obtain rfl := List.map_injective_iff.mpr (fun _ _ => Glyph.char.inj) same
    exact avoids _ listed within

theorem isQuoted_of_mem_segments {t : Text} (h : w ∈ t.segments.marks.map Quotation.text) :
    IsQuoted w := by
  obtain ⟨q, listed, rfl⟩ := List.mem_map.mp h
  obtain ⟨isMark, closed⟩ := proper_of_mem_segments listed
  exact .mk (isQuoteMark_iff.mp isMark) closed

/-- What avoids an entry of a list stands on one side of it. -/
theorem isInfix_of_append_cons {α : Type} {l x y : List α} {a : α} (outside : a ∉ l)
    (nonempty : l ≠ []) (inside : l <:+: x ++ a :: y) : l <:+: x ∨ l <:+: y := by
  obtain ⟨b, bs, rfl⟩ := List.exists_cons_of_ne_nil nonempty
  rcases List.infix_append_iff_ne_nil.mp inside with inside | inside |
    ⟨left, right, -, nonempty', same, -, front⟩
  · exact .inl inside
  · rcases List.infix_cons_iff.mp inside with front | inside
    · obtain ⟨rfl, -⟩ := List.cons_prefix_cons.mp front
      exact absurd (by simp) outside
    · exact .inr inside
  · obtain ⟨c, cs, rfl⟩ := List.exists_cons_of_ne_nil nonempty'
    obtain ⟨rfl, -⟩ := List.cons_prefix_cons.mp front
    exact absurd (by simp [same]) outside

/-- Whether a glyph can stand between any two lists of glyphs. -/
structure Separator (count : Nat) (avoided : Text → Prop) (g : Glyph) : Prop where
  clear : g.isClear
  quoteFree : ∀ c, g = .char c → isQuoteMark c = false
  string_lt : ∀ n, g = .string n → n < count
  avoids : ∀ u, avoided u → g ∉ u.map .char

theorem Separator.of_char {count : Nat} {avoided : Text → Prop} (clear : isClear (some c))
    (free : isQuoteMark c = false) (avoids : ∀ u, avoided u → c ∉ u) :
    Separator count avoided (.char c) := by
  refine ⟨clear, ?_, by simp, fun u listed => by simpa using avoids u listed⟩
  rintro _ ⟨⟩
  exact free

namespace Written

variable {count bound : Nat} {avoided : Text → Prop} {gs gs' : List Glyph} {g : Glyph}

/-- A part of what is written is written. -/
theorem of_isInfix (h : Written count bound avoided gs) (inside : gs' <:+: gs) :
    Written count bound avoided gs' where
  chain := h.chain.infix inside
  quoteFree c member := h.quoteFree c (inside.subset member)
  string_lt n member := h.string_lt n (inside.subset member)
  part_lt n member := h.part_lt n (inside.subset member)
  avoids u listed within := h.avoids u listed (within.trans inside)

theorem of_cons (h : Written count bound avoided (g :: gs)) : Written count bound avoided gs :=
  h.of_isInfix (List.suffix_cons g gs).isInfix

/-- Lists of glyphs can be joined by a glyph that stands in no word to be avoided, if it fits. -/
theorem join (h : Written count bound avoided gs) (here : Written count bound avoided [g])
    (h' : Written count bound avoided gs') (chain : (gs ++ g :: gs').IsChain Glyph.Fits)
    (outside : ∀ u, avoided u → u ≠ [] ∧ g ∉ u.map .char) :
    Written count bound avoided (gs ++ g :: gs') := by
  have cases_of_mem : ∀ {x}, x ∈ gs ++ g :: gs' → x ∈ gs ∨ x ∈ [g] ∨ x ∈ gs' := by simp
  refine ⟨chain, fun c member => ?_, fun n member => ?_, fun n member => ?_,
    fun u listed inside => ?_⟩
  · rcases cases_of_mem member with member | member | member
    · exact h.quoteFree c member
    · exact here.quoteFree c member
    · exact h'.quoteFree c member
  · rcases cases_of_mem member with member | member | member
    · exact h.string_lt n member
    · exact here.string_lt n member
    · exact h'.string_lt n member
  · rcases cases_of_mem member with member | member | member
    · exact h.part_lt n member
    · exact here.part_lt n member
    · exact h'.part_lt n member
  · obtain ⟨nonempty, outside⟩ := outside u listed
    rcases isInfix_of_append_cons outside (by simpa using nonempty) inside with inside | inside
    · exact h.avoids u listed inside
    · exact h'.avoids u listed inside

/-- A separator joins two writings. -/
theorem append_cons (separator : Separator count avoided g) (nonempty : ∀ u, avoided u → u ≠ [])
    (h : Written count bound avoided gs) (h' : Written count bound avoided gs') :
    Written count bound avoided (gs ++ g :: gs') := by
  have noToken := Glyph.isToken_eq_false_of_isClear separator.clear
  have here : Written count bound avoided [g] := by
    refine ⟨.singleton g, fun c member => separator.quoteFree c (List.mem_singleton.mp member).symm,
      fun n member => separator.string_lt n (List.mem_singleton.mp member).symm, fun n member => ?_,
      fun u listed inside => ?_⟩
    · rw [← List.mem_singleton.mp member] at noToken
      cases noToken
    · obtain ⟨c, cs, rfl⟩ := List.exists_cons_of_ne_nil (nonempty u listed)
      have member : Glyph.char c ∈ [g] := inside.subset (by simp)
      exact separator.avoids _ listed (by rw [← List.mem_singleton.mp member]; simp)
  refine h.join here h' ?_ fun u listed => ⟨nonempty u listed, separator.avoids u listed⟩
  refine List.isChain_append.mpr ⟨h.chain, List.isChain_cons.mpr ⟨fun x _ => ?_, h'.chain⟩,
    fun x _ y head => ?_⟩
  · exact (Glyph.fits_of_isClear separator.clear x).1
  · obtain rfl := Option.some.inj head
    exact (Glyph.fits_of_isClear separator.clear x).2

/-- The characters at the beginning of a list of glyphs, up to the first open place. -/
theorem exists_lead (gs : List Glyph) :
    ∃ (u : Text) (rest : List Glyph), gs = u.map .char ++ rest ∧ ∀ c, rest.head? ≠
      some (.char c) := by
  induction gs with
  | nil => exact ⟨[], [], rfl, by simp⟩
  | cons g gs ih =>
    cases g with
    | char c =>
      obtain ⟨u, rest, rfl, stop⟩ := ih
      exact ⟨c :: u, rest, rfl, stop⟩
    | keyword n | part n | string n => exact ⟨[], _, rfl, by simp⟩

theorem exists_lead_cons (c : Char) (rest : List Glyph) : ∃ (u : Text) (place : List Glyph),
    u.head? = some c ∧
    .char c :: rest = u.map .char ++ place ∧ ∀ d, place.head? ≠ some (.char d) := by
  obtain ⟨u, place, rfl, stop⟩ := exists_lead rest
  exact ⟨c :: u, place, rfl, rfl, stop⟩

/-- Every string that is used is among those of the writing. -/
theorem exists_string (h : ω.Inert count) {n : Nat} (lt : n < count) :
    ω.glyph (.string n) ∈ ω.strings := by
  rw [← h.length_eq] at lt
  simp [Writing.glyph, List.getElem?_eq_getElem lt]

theorem exists_marks (h : IsQuoted w) :
    ∃ mark body, w = mark :: body ++ [mark] ∧ isQuoteMark mark := by
  obtain ⟨isMark, -⟩ := h
  exact ⟨_, _, rfl, isQuoteMark_iff.mpr isMark⟩

theorem isWordChar_eq_false_of_isQuoteMark (h : isQuoteMark c) : isWordChar c = false := by
  rcases isQuoteMark_iff.mp h with rfl | rfl <;> decide

theorem isReferenceChar_eq_false_of_isClear (h : isClear (some c)) : isReferenceChar c = false := by
  simpa [isClear, isReferenceChar] using h

theorem joins_mark {a b : Char} (mark : isQuoteMark b) : joins a b = false ∧ joins b a = false := by
  have reference : isReferenceChar '"' = false ∧ isReferenceChar '\x27' = false := by decide
  have noDigit : '"'.isDigit = false ∧ '\x27'.isDigit = false := by decide
  rcases isQuoteMark_iff.mp mark with rfl | rfl
  · simp [joins, reference, noDigit]
  · simp [joins, reference, noDigit]

/-- A text is cut before its first open place. -/
theorem cut {u : Text} {rest : List Glyph} (h : Written count bound avoided (u.map .char ++ rest))
    (inert : ω.Inert count) (stop : ∀ c, rest.head? ≠ some (.char c)) : Cut u (ω.text rest) := by
  intro a b last head
  have ends : (u.map Glyph.char).getLast? = some (.char a) := by
    rw [List.getLast?_map, ← lastChar_none_eq, last]
    rfl
  obtain ⟨-, -, junction⟩ := List.isChain_append.mp h.chain
  have token : ∀ g gs start, rest = g :: gs → g.isToken → ω.glyph g = 'P' :: start →
      joins a b = false := by
    rintro g gs start rfl isToken same
    have clear : isClear (some a) := (junction _ ends g rfl).2 isToken
    rw [Writing.text_cons, same] at head
    obtain rfl : 'P' = b := Option.some.inj head
    have noDigit : 'P'.isDigit = false := by decide
    simp [joins, isReferenceChar_eq_false_of_isClear clear, noDigit]
  cases rest with
  | nil => cases head
  | cons g gs =>
    cases g with
    | char c => exact absurd rfl (stop c)
    | keyword n | part n => exact token _ _ _ rfl rfl rfl
    | string n =>
      obtain ⟨mark, body, same, isMark⟩ :=
        exists_marks (inert.quoted _ (exists_string inert (h.string_lt n (by simp))))
      rw [Writing.text_cons, same] at head
      obtain rfl := Option.some.inj head
      exact (joins_mark isMark).1

/-- A quoted text is cut off from what follows. -/
theorem cut_of_quoted {v : Text} (h : IsQuoted w) : Cut w v := by
  obtain ⟨mark, body, rfl, isMark⟩ := exists_marks h
  intro a b last _
  obtain rfl : mark = a := by simpa [lastChar] using last
  exact (joins_mark isMark).2

/-- What begins with no quotation mark is in a quoted string wherever it stands, or nowhere. -/
theorem quiet_of_quoted {α : Type} {recognise : Recogniser α} {v : Text} (quoted : IsQuoted w)
    (append : ∀ {u v : Text}, Cut u v → u ≠ [] →
      ∀ previous, recognise previous (u ++ v) = recognise previous u)
    (refuses : ∀ previous c t, isQuoteMark c → recognise previous (c :: t) = none)
    (quiet : Quiet recognise none w []) (previous : Option Char) :
    Quiet recognise previous w v := by
  have inside := (cut_of_quoted (v := v) quoted).quiet append quiet
  obtain ⟨mark, body, rfl, isMark⟩ := exists_marks quoted
  exact ⟨refuses previous mark _ isMark, inside.2⟩

theorem lastChar_of_quoted (quoted : IsQuoted w) (previous : Option Char) :
    ∃ c, lastChar previous w = some c ∧ isQuoteMark c := by
  obtain ⟨mark, body, rfl, isMark⟩ := exists_marks quoted
  exact ⟨mark, by simp [lastChar], isMark⟩

theorem isClear_of_isQuoteMark (h : isQuoteMark c) : isClear (some c) := by
  rcases isQuoteMark_iff.mp h with rfl | rfl <;> decide

theorem numberedAt_mark (word : isWordChar letter) (mark : isQuoteMark c)
    (previous : Option Char) (t : Text) : numberedAt letter previous (c :: t) = none := by
  have differs : letter ≠ c := by
    rintro rfl
    rw [isWordChar_eq_false_of_isQuoteMark mark] at word
    cases word
  simp [numberedAt, Text.dropStart?, differs]

theorem keywordWordAt_mark (mark : isQuoteMark c) (previous : Option Char) (t : Text) :
    keywordWordAt previous (c :: t) = none := by
  have differs : 'P' ≠ c := by
    rintro rfl
    cases mark
  simp [keywordWordAt, Text.dropStart?, differs]

/-- A numbered token is looked for behind any character as behind another one that is equally
clear. -/
theorem numberedAt_eq {q : Option Char} (h : isClear p = isClear q) (t : Text) :
    numberedAt letter p t = numberedAt letter q t := by
  simp only [numberedAt, h]

/-- The token of a glyph is made of the letters of tokens and digits, and ends in a digit. -/
theorem mem_token (token : g.isToken) :
    (∀ c ∈ ω.glyph g, c ∈ "PLAH".toList ∨ c.isDigit) ∧
      ∀ previous, ∃ d, lastChar previous (ω.glyph g) = some d ∧ d.isDigit := by
  have numbered : ∀ (start : Text) (n : Nat), (start.all fun c => "PLAH".toList.contains c) →
      (∀ c ∈ start ++ Text.ofNat n, c ∈ "PLAH".toList ∨ c.isDigit) ∧
        ∀ previous, ∃ d, lastChar previous (start ++ Text.ofNat n) = some d ∧ d.isDigit := by
    intro start n letters
    refine ⟨fun c member => ?_, fun previous => ?_⟩
    · rcases List.mem_append.mp member with letter | digit
      · exact .inl (List.contains_iff_mem.mp (List.all_eq_true.mp letters c letter))
      · exact .inr (isDigit_of_mem_ofNat digit)
    · obtain ⟨d, member, last⟩ := exists_lastChar_eq (ofNat_ne_nil n) (lastChar previous start)
      exact ⟨d, by rw [lastChar_append, last], isDigit_of_mem_ofNat member⟩
  cases g with
  | keyword n => exact numbered "PLA".toList _ (by decide)
  | part n => exact numbered "PLH".toList _ (by decide)
  | char c | string n => cases token

/-- Whether a list of glyphs is cut at the tokens of a letter in one way, whatever the writing
is. -/
structure CutAt (letter : Char) (count : Nat) (clear : Bool) (gs head : List Glyph)
    (tail : List (Text × List Glyph)) : Prop where
  whole : gs = head ++ tail.flatMap fun x => (letter :: ':' :: x.1).map Glyph.char ++ x.2
  scan_eq : ∀ ω : Writing, ω.Inert count → ∀ previous, isClear previous = clear →
    Split.scan (numberedAt letter) 0 previous (ω.text gs) =
      ⟨ω.text head, tail.map fun x => (x.1, ω.text x.2)⟩

namespace CutAt

variable {letter : Char} {clear clear' : Bool} {head : List Glyph} {tail : List (Text × List Glyph)}

/-- The pieces between the cuts are parts of the text. -/
theorem isInfix_head (h : CutAt letter count clear gs head tail) : head <:+: gs := by
  rw [h.whole]
  exact (List.prefix_append _ _).isInfix

theorem isInfix (h : CutAt letter count clear gs head tail) (x : Text × List Glyph)
    (member : x ∈ tail) : x.2 <:+: gs := by
  obtain ⟨before, behind, rfl⟩ := List.append_of_mem member
  rw [h.whole]
  refine ⟨head ++ (before.flatMap fun x => (letter :: ':' :: x.1).map Glyph.char ++ x.2) ++
    (letter :: ':' :: x.1).map Glyph.char, behind.flatMap fun x =>
      (letter :: ':' :: x.1).map Glyph.char ++ x.2, ?_⟩
  simp

/-- A glyph in which no token begins is added to the first piece. -/
theorem cons (h : CutAt letter count clear' gs head tail)
    (passes : ∀ ω : Writing, ω.Inert count → ∀ previous, isClear previous = clear →
      Quiet (numberedAt letter) previous (ω.glyph g) (ω.text gs) ∧
      isClear (lastChar previous (ω.glyph g)) = clear') :
    CutAt letter count clear (g :: gs) (g :: head) tail := by
  refine ⟨by rw [h.whole]; rfl, fun ω inert previous before => ?_⟩
  obtain ⟨quiet, behind⟩ := passes ω inert previous before
  rw [Writing.text_cons, Split.scan_append_of_quiet quiet, h.scan_eq ω inert _ behind]
  rfl

/-- A token begins a new piece. -/
theorem mark {digits : Text} (h : CutAt letter count false gs head tail) (nonempty : digits ≠ [])
    (all : ∀ d ∈ digits, isDecimalDigit d)
    (found : ∀ ω : Writing, ω.Inert count → ∀ previous, isClear previous = clear →
      numberedAt letter previous (letter :: ':' :: digits ++ ω.text gs) =
        some (digits, digits.length + 2)) :
    CutAt letter count clear ((letter :: ':' :: digits).map .char ++ gs) []
      ((digits, head) :: tail) := by
  refine ⟨by rw [h.whole]; simp, fun ω inert previous before => ?_⟩
  obtain ⟨d, member, last⟩ := exists_lastChar_eq nonempty (some ':')
  have behind : isClear (lastChar previous (letter :: ':' :: digits)) = false := by
    rw [lastChar, lastChar, last]
    simp [isClear, isWordChar_of_isDecimalDigit (all d member)]
  rw [Writing.text_append, Writing.text_map_char,
    Split.scan_append_of_mark (by simp) (found ω inert previous before), h.scan_eq ω inert _ behind]
  rfl

/-- A token of a keyword or a subexpression is passed over. -/
theorem cons_token (h : CutAt letter count false gs head tail)
    (other : letter ∉ "PLAH".toList ∧ letter.isDigit = false) (token : g.isToken) :
    CutAt letter count clear (g :: gs) (g :: head) tail := by
  refine h.cons fun ω inert previous _ => ⟨quiet_of_forall (fun c member p t => ?_) _ _, ?_⟩
  · have differs : letter ≠ c := by
      rintro rfl
      rcases (mem_token token).1 letter member with letter | digit
      · exact other.1 letter
      · exact absurd digit (by simp [other.2])
    simp [numberedAt, Text.dropStart?, differs]
  · obtain ⟨d, last, digit⟩ := (mem_token (ω := ω) token).2 previous
    rw [last]
    simp [isClear, isWordChar_of_isDecimalDigit (isDecimalDigit_of_isDigit digit)]

/-- A string without tokens is passed over. -/
theorem cons_string {n : Nat} (h : CutAt letter count true gs head tail)
    (word : isWordChar letter) (lt : n < count) (silent : ∀ ω : Writing,
      ω.Inert count → Quiet (numberedAt letter) none (ω.glyph (.string n)) []) :
    CutAt letter count clear (.string n :: gs) (.string n :: head) tail := by
  refine h.cons fun ω inert previous _ => ?_
  have quoted := inert.quoted _ (exists_string inert lt)
  obtain ⟨c, last, mark⟩ := lastChar_of_quoted quoted previous
  refine ⟨quiet_of_quoted quoted (·.numberedAt_append · word)
    (fun p c t mark => numberedAt_mark word mark p t) (silent ω inert) previous, ?_⟩
  rw [last, isClear_of_isQuoteMark mark]

end CutAt

/-- The numbered tokens of a text stand at the same places whatever the writing is. -/
theorem exists_cutAt (h : Written count bound avoided gs) (word : isWordChar letter)
    (other : letter ∉ "PLAH".toList ∧ letter.isDigit = false)
    (silent : ∀ ω : Writing, ω.Inert count → ∀ n, .string n ∈ gs →
      Quiet (numberedAt letter) none (ω.glyph (.string n)) [])
    (clear : Bool) : ∃ head tail, CutAt letter count clear gs head tail := by
  -- A token is passed over, and so is a string; characters up to the next open place are scanned as
  -- they stand.
  induction length : gs.length using Nat.strongRecOn generalizing gs clear with
  | ind size ih =>
    have later : ∀ rest clear', rest <:+: gs → rest.length < gs.length →
        ∃ head tail, CutAt letter count clear' rest head tail := by
      intro rest clear' inside shorter
      exact ih rest.length (length ▸ shorter) (h.of_isInfix inside)
        (fun ω inert n member => silent ω inert n (inside.subset member)) clear' rfl
    cases gs with
    | nil => exact ⟨[], [], rfl, fun _ _ _ _ => rfl⟩
    | cons g rest =>
      have behind := fun clear' => later rest clear' (List.suffix_cons _ _).isInfix (by simp)
      cases g with
      | keyword n | part n =>
        obtain ⟨head, tail, cutAt⟩ := behind false
        exact ⟨_, _, cutAt.cons_token other rfl⟩
      | string n =>
        obtain ⟨head, tail, cutAt⟩ := behind true
        exact ⟨_, _, cutAt.cons_string word (h.string_lt n (by simp)) fun ω inert =>
          silent ω inert n (by simp)⟩
      | char c =>
        obtain ⟨u, place, begins, whole, stop⟩ := exists_lead_cons c rest
        have nonempty : u ≠ [] := List.ne_nil_of_mem (List.mem_of_mem_head? begins)
        obtain ⟨q, asClear⟩ : ∃ q, isClear q = clear := by
          cases clear with
          | true => exact ⟨none, rfl⟩
          | false => exact ⟨some ':', rfl⟩
        rw [whole] at h
        have reads : ∀ ω : Writing, ω.Inert count → ∀ previous, isClear previous = clear →
            numberedAt letter previous (u ++ ω.text place) = numberedAt letter q u := by
          intro ω inert previous before
          rw [(h.cut inert stop).numberedAt_append nonempty word]
          exact numberedAt_eq (before.trans asClear.symm) u
        cases found : numberedAt letter q u with
        | none =>
          obtain ⟨head, tail, cutAt⟩ := behind (isClear (some c))
          refine ⟨_, _, cutAt.cons fun ω inert previous before => ⟨⟨?_, trivial⟩, rfl⟩⟩
          have text_eq : c :: ([] ++ ω.text rest) = u ++ ω.text place := by
            simpa using congrArg ω.text whole
          rw [List.cons_append, text_eq, reads ω inert previous before, found]
        | some entry =>
          obtain ⟨digits, width⟩ := entry
          obtain ⟨-, fits⟩ := measured_numberedAt letter _ _ _ _ found
          obtain ⟨w, t, rfl, rfl⟩ : ∃ w t, u = w ++ t ∧ w.length = width :=
            ⟨u.take width, u.drop width, (List.take_append_drop ..).symm, by simpa using fits⟩
          obtain ⟨rfl, some, all, -⟩ := numberedAt_append_eq_some found
          have whole' : .char c :: rest = (letter :: ':' :: digits).map .char ++
              (t.map .char ++ place) := by
            rw [whole, List.map_append, List.append_assoc]
          rw [whole'] at later ⊢
          obtain ⟨head, tail, cutAt⟩ := later (t.map .char ++ place) false
            (List.suffix_append _ _).isInfix (by
            simp only [List.length_append, List.length_map, List.length_cons]
            omega)
          refine ⟨_, _, cutAt.mark some all fun ω inert previous before => ?_⟩
          rw [Writing.text_append, Writing.text_map_char, ← List.append_assoc,
            reads ω inert previous before, found]
          rfl

/-- No name or number goes on behind a token. -/
theorem isReferenceChar_head (h : Written count bound avoided (g :: gs)) (inert : ω.Inert count)
    (token : g.isToken) : ∀ b, (ω.text gs).head? = some b → isReferenceChar b = false := by
  intro b head
  cases gs with
  | nil => cases head
  | cons g' gs =>
    have clear := (List.isChain_cons_cons.mp h.chain).1.1 token
    cases g' with
    | char c =>
      obtain rfl : c = b := Option.some.inj head
      exact isReferenceChar_eq_false_of_isClear clear
    | keyword n | part n => cases clear
    | string n =>
      obtain ⟨mark, body, same, isMark⟩ :=
        exists_marks (inert.quoted _ (exists_string inert (h.string_lt n (by simp))))
      rw [Writing.text_cons, same] at head
      obtain rfl := Option.some.inj head
      rcases isQuoteMark_iff.mp isMark with rfl | rfl <;> decide

/-- Behind a token stands the end of a word. -/
theorem isWordEdge_head (h : Written count bound avoided (g :: gs)) (inert : ω.Inert count)
    (token : g.isToken) : isWordEdge (ω.text gs).head? := by
  cases head : (ω.text gs).head? with
  | none => rfl
  | some b =>
    have other := h.isReferenceChar_head inert token b head
    simp only [isReferenceChar, Bool.or_eq_false_iff] at other
    simp [isWordEdge, other.1]

/-- No keyword is found in the token of a subexpression. -/
theorem quiet_subexpressionToken (n : Nat) (previous : Option Char) (t : Text) :
    Quiet keywordWordAt previous (subexpressionToken n) t := by
  have inside : ∀ (u : Text) (p : Option Char), isWordEdge p = false →
      (∀ c ∈ u, isWordChar c) →
      Quiet keywordWordAt p u t := by
    intro u
    induction u with
    | nil => exact fun _ _ _ => trivial
    | cons c cs ih =>
      intro p word all
      refine ⟨by simp [keywordWordAt, word], ih (some c) ?_ fun d member =>
        all d (List.mem_cons_of_mem _ member)⟩
      simp [isWordEdge, all c (by simp)]
  have start : Text.dropStart? "PLA".toList (subexpressionToken n ++ t) = none := rfl
  have here : keywordWordAt previous (subexpressionToken n ++ t) = none := by
    rw [keywordWordAt, start]
    exact ite_self _
  refine ⟨here, inside _ (some 'P') (by decide) fun c member => ?_⟩
  · have inert := Text.isInert_of_mem_subexpressionToken (n := n) (List.mem_cons_of_mem 'P' member)
    simp only [isInert, Bool.and_eq_true] at inert
    exact inert.1.1

/-- A text has a token of a keyword in every writing or in none, and only if there is a place for
one. -/
theorem quiet_keywordWordAt {ω' : Writing} (h : Written count bound avoided gs)
    (inert : ω.Inert count) (inert' : ω'.Inert count) {p' : Option Char}
    (edges : isWordEdge p = isWordEdge p')
    (start : ∀ g, gs.head? = some g → g.isToken → isWordEdge p)
    (quiet : Quiet keywordWordAt p (ω.text gs) []) :
    Quiet keywordWordAt p' (ω'.text gs) [] ∧ ∀ n, .keyword n ∉ gs := by
  induction gs generalizing p p' with
  | nil => exact ⟨trivial, by simp⟩
  | cons g rest ih =>
    rw [Writing.text_cons, quiet_append_iff] at quiet ⊢
    cases g with
    | char c =>
      obtain ⟨u, place, begins, whole, stop⟩ := exists_lead_cons c rest
      have nonempty : u ≠ [] := List.ne_nil_of_mem (List.mem_of_mem_head? begins)
      have same : isWordEdge (some c) = isWordEdge (some c) := rfl
      have next := ih h.of_cons same (fun g head token => ?_) quiet.2
      · have here := quiet.1.1
        have text_eq : ∀ ω : Writing, c :: ω.text rest = u ++ ω.text place := fun ω => by
          simpa using congrArg ω.text whole
        rw [whole] at h
        refine ⟨⟨⟨?_, trivial⟩, next.1⟩, by simpa using next.2⟩
        simp only [List.nil_append, List.append_nil, List.cons_append, text_eq] at here ⊢
        rw [(h.cut inert stop).keywordWordAt_append nonempty] at here
        rw [(h.cut inert' stop).keywordWordAt_append nonempty, ← here]
        simp only [keywordWordAt, edges]
      · obtain ⟨gs, rfl⟩ : ∃ gs, rest = g :: gs := ⟨rest.tail, List.eq_cons_of_mem_head? head⟩
        exact isWordEdge_of_isClear ((List.isChain_cons_cons.mp h.chain).1.2 token)
    | keyword n =>
      -- A token of a keyword is found wherever it stands.
      have found :=
        keywordWordAt_keywordWord (ω.keywords + n) (start _ rfl rfl) (h.isWordEdge_head inert rfl)
      obtain ⟨here, -⟩ := quiet.1
      rw [List.append_nil] at here
      exact absurd (here.symm.trans found) (by simp)
    | part n =>
      have inWord : ∀ (ω : Writing) p, isWordEdge (lastChar p (ω.glyph (.part n))) = false := by
        intro ω p
        obtain ⟨d, last, digit⟩ := (mem_token (ω := ω) (g := .part n) rfl).2 p
        simp [last, isWordEdge, isWordChar_of_isDecimalDigit (isDecimalDigit_of_isDigit digit)]
      have edges : isWordEdge (lastChar p (ω.glyph (.part n))) =
          isWordEdge (lastChar p' (ω'.glyph (.part n))) := by
        rw [inWord, inWord]
      have next := ih h.of_cons edges (fun g head token => ?_) quiet.2
      · exact ⟨⟨quiet_subexpressionToken _ _ _, next.1⟩, by simpa using next.2⟩
      · obtain ⟨gs, rfl⟩ : ∃ gs, rest = g :: gs := ⟨rest.tail, List.eq_cons_of_mem_head? head⟩
        cases (List.isChain_cons_cons.mp h.chain).1.2 token
    | string n =>
      have listed : ∀ ω : Writing, ω.Inert count → ω.glyph (.string n) ∈ ω.strings := fun ω inert =>
        exists_string inert (h.string_lt n (by simp))
      have atEdge : ∀ ω : Writing, ω.Inert count →
          ∀ p, isWordEdge (lastChar p (ω.glyph (.string n))) := by
        intro ω inert p
        obtain ⟨c, last, mark⟩ := lastChar_of_quoted (inert.quoted _ (listed ω inert)) p
        simp [last, isWordEdge, isWordChar_eq_false_of_isQuoteMark mark]
      have edges : isWordEdge (lastChar p (ω.glyph (.string n))) =
          isWordEdge (lastChar p' (ω'.glyph (.string n))) := by
        rw [atEdge ω inert, atEdge ω' inert']
      have next := ih h.of_cons edges (fun _ _ _ => atEdge ω inert p) quiet.2
      refine ⟨⟨?_, next.1⟩, by simpa using next.2⟩
      rw [List.append_nil]
      exact quiet_of_quoted (inert'.quoted _ (listed ω' inert')) (·.keywordWordAt_append ·)
        (fun p c t mark => keywordWordAt_mark mark p t) (inert'.noKeyword _ (listed ω' inert')) p'

end Written

/-- Whether two texts are written from one list of glyphs. -/
def Rewritten (ω ω' : Writing) (P : List Glyph → Prop) (t t' : Text) : Prop :=
  ∃ gs, P gs ∧ t = ω.text gs ∧ t' = ω'.text gs

section Expanding

variable {count bound : Nat} {avoided : Text → Prop} {ω ω' : Writing}

/-- Whether two texts are written from glyphs that can stand between any two lists of glyphs. -/
def Inserted (count bound : Nat) (avoided : Text → Prop) (ω ω' : Writing) : Text → Text → Prop :=
  Rewritten ω ω' fun gs => ∀ before behind, Written count bound avoided before →
    Written count bound avoided behind →
    Written count bound avoided (before ++ (gs ++ behind))

theorem Split.renderM_cons {ε : Type} (write : Text → Except ε Text) (head digits next : Text)
    (tail : List (Text × Text)) :
    renderM write ⟨head, (digits, next) :: tail⟩ =
      write digits >>= fun w => renderM write ⟨next, tail⟩ >>= fun rest => pure
        (head ++ (w ++ rest)) := by
  simp [renderM]

/-- Tokens are replaced in step, if what replaces them is inserted in step. -/
theorem inStep_renderM {write write' : Text → Except Error Text}
    (step : ∀ digits, InStep (Inserted count bound avoided ω ω') (write digits) (write' digits))
    {head : List Glyph} {tail : List (Text × List Glyph)} (first : Written count bound avoided head)
    (later : ∀ x ∈ tail, Written count bound avoided x.2) :
    InStep (Rewritten ω ω' (Written count bound avoided))
      (Split.renderM write ⟨ω.text head, tail.map fun x => (x.1, ω.text x.2)⟩)
      (Split.renderM write' ⟨ω'.text head, tail.map fun x => (x.1, ω'.text x.2)⟩) := by
  induction tail generalizing head with
  | nil => exact .ok ⟨head, first, by simp, by simp⟩
  | cons x tail ih =>
    obtain ⟨next, later⟩ := List.forall_mem_cons.mp later
    simp only [List.map_cons, Split.renderM_cons]
    apply (step x.1).bind
    rintro w w' ⟨gs, inserted, rfl, rfl⟩
    apply (ih next later).bind
    rintro rest rest' ⟨gs', written, rfl, rfl⟩
    exact .ok ⟨_, inserted head gs' first written, by simp, by simp⟩

/-- The strings of two writings are inserted in step. -/
theorem forall₂_strings (plain : ∀ u, avoided u → u ≠ []) (inert : ω.Inert count)
    (inert' : ω'.Inert count) :
    List.Forall₂ (Inserted count bound avoided ω ω') ω.strings ω'.strings := by
  refine List.forall₂_iff_get.mpr ⟨inert.length_eq.trans inert'.length_eq.symm, fun n lt lt' => ?_⟩
  refine ⟨[.string n], fun before behind first second => ?_, by simp [Writing.glyph, lt],
    by simp [Writing.glyph, lt']⟩
  refine first.append_cons ⟨rfl, by simp, fun m same => ?_, by simp⟩ plain second
  cases same
  rwa [← inert.length_eq]

/-- Groups and strings are put back in step. -/
theorem inStep_expandWithin {s s' : SetAside} (plain : ∀ u, avoided u → u ≠ [] ∧ '(' ∉ u ∧ ')' ∉ u)
    (inert : ω.Inert count) (inert' : ω'.Inert count) (strings : s.strings = ω.strings)
    (strings' : s'.strings = ω'.strings) (groups : List.Forall₂
      (Rewritten ω ω' fun gs => Written count bound avoided gs ∧ ∀ n, .string n ∉ gs) s.groups
        s'.groups) (depth : Nat) {t t' : Text}
    (related : Rewritten ω ω' (fun gs => Written count bound avoided gs ∧ ∀ n, .string n ∉ gs) t
      t') :
    InStep (Rewritten ω ω' (Written count bound avoided)) (s.expandWithin depth t)
      (s'.expandWithin depth t') := by
  have opening : Separator count avoided (.char '(') :=
    .of_char (by decide) (by decide) fun u listed => (plain u listed).2.1
  have closing : Separator count avoided (.char ')') :=
    .of_char (by decide) (by decide) fun u listed => (plain u listed).2.2
  have nonempty : ∀ u, avoided u → u ≠ [] := fun u listed => (plain u listed).1
  induction depth generalizing t t' with
  | zero => exact .error _ _
  | succ depth ih =>
    obtain ⟨gs, ⟨written, noString⟩, rfl, rfl⟩ := related
    obtain ⟨head, tail, cutAt⟩ := written.exists_cutAt (show isWordChar 'i' = true by decide)
      (by decide) (fun _ _ n member => absurd member (noString n)) true
    have pieces := fun x member => written.of_isInfix (cutAt.isInfix x member)
    simp only [SetAside.expandWithin, Text.split, groupTokenAt, stringTokenAt]
    rw [cutAt.scan_eq ω inert none rfl, cutAt.scan_eq ω' inert' none rfl]
    apply (inStep_renderM (fun digits => ?_) (written.of_isInfix cutAt.isInfix_head) pieces).bind
    · rintro opened opened' ⟨gs, written, rfl, rfl⟩
      obtain ⟨head, tail, cutAt⟩ := written.exists_cutAt (show isWordChar 'q' = true by decide)
        (by decide)
        (fun ω inert n member => inert.noString _
          (Written.exists_string inert (written.string_lt n member))) true
      have pieces := fun x member => written.of_isInfix (cutAt.isInfix x member)
      rw [cutAt.scan_eq ω inert none rfl, cutAt.scan_eq ω' inert' none rfl, strings, strings']
      exact inStep_renderM (inStep_tokenEntry (forall₂_strings nonempty inert inert'))
        (written.of_isInfix cutAt.isInfix_head) pieces
    · apply (inStep_tokenEntry groups digits).bind
      intro group group' inner
      apply (ih inner).bind
      rintro text text' ⟨gs, written, rfl, rfl⟩
      refine .ok ⟨.char '(' :: gs ++ [.char ')'], fun before behind first second => ?_,
        by simp, by simp⟩
      have closed := written.append_cons closing nonempty second
      simpa using first.append_cons opening nonempty closed

end Expanding

end PolicyRules
