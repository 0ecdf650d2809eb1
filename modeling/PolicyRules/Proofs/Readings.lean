import Mathlib.Data.List.Chain
import PolicyRules.Proofs.SourceTokens

/-!
# What a text stands for while its tree is built

A text with numbered tokens stands for the tokens that it has once everything set aside is put back
(`Reads`). Taking parts in brackets out of a text keeps what it stands for. The token of a group is
set apart by spaces. The name of a subexpression is not, so that square brackets have to stand apart
from names and from each other (`BracketsApart`).

Main statements: `legible_collapsed` for a text with groups taken out, `legible_extracted` for a
text with subexpressions taken out.
-/

namespace PolicyRules

section Reads

variable (strings : List Text) (keywords : List Keyword)

/-- What atoms stand for. The parts that are taken out of a text are numbered before the text around
them, so a part only names parts with smaller numbers, and it has no groups taken out. The token of
a string stands for anything if there is no string with its number. -/
inductive Reads : (groups parts : List Text) → List Atom → List Text → Prop
  | nil {groups parts : List Text} : Reads groups parts [] []
  | plain {groups parts : List Text} {w : Text} {atoms : List Atom} {tokens : List Text}
    (rest : Reads groups parts atoms tokens) : Reads groups parts (.plain w :: atoms) (w :: tokens)
  | string {groups parts : List Text} {digits w : Text} {atoms : List Atom} {tokens : List Text}
    (found : ∀ v, tokenEntry strings digits = .ok v → v = w)
    (rest : Reads groups parts atoms tokens) :
    Reads groups parts (.token .string digits :: atoms) (w :: tokens)
  | keyword {groups parts : List Text} {n : Nat} {k : Keyword} {atoms : List Atom}
    {tokens : List Text} (found : keywords[n]? = some k) (rest : Reads groups parts atoms tokens) :
    Reads groups parts (.token .keyword (Text.ofNat n) :: atoms) (k.text :: tokens)
  | group {groups parts : List Text} {n : Nat} {g : Text} {inner : List Text} {atoms : List Atom}
    {tokens : List Text} (found : groups[n]? = some g) (marked : keywordsFrom none g = [])
    (inside : Reads groups parts g.atoms inner) (rest : Reads groups parts atoms tokens) :
    Reads groups parts (.token .group (Text.ofNat n) :: atoms) (inner ++ tokens)
  | part {groups parts : List Text} {n : Nat} {p : Text} {inner : List Text} {atoms : List Atom}
    {tokens : List Text} (found : parts[n]? = some p) (marked : keywordsFrom none p = [])
    (inside : Reads [] (parts.take n) p.atoms inner) (rest : Reads groups parts atoms tokens) :
    Reads groups parts (.part (Text.ofNat n) :: atoms) (inner ++ tokens)

/-- Whether a text stands for tokens, and all its keywords are marked. -/
structure Legible (groups parts : List Text) (t : Text) (tokens : List Text) : Prop where
  reads : Reads strings keywords groups parts t.atoms tokens
  marked : keywordsFrom none t = []

end Reads

variable {strings : List Text} {keywords : List Keyword} {groups parts : List Text}

namespace Reads

variable {xs ys : List Atom} {ds es : List Text}

theorem plains (ws : List Text) : Reads strings keywords groups parts (ws.map .plain) ws := by
  induction ws with
  | nil => exact .nil
  | cons w ws ih => exact .plain ih

/-- Readings are put one behind the other. -/
theorem append (h : Reads strings keywords groups parts xs ds)
    (h' : Reads strings keywords groups parts ys es) :
    Reads strings keywords groups parts (xs ++ ys) (ds ++ es) := by
  induction h with
  | nil => exact h'
  | plain _ ih => exact .plain (ih h')
  | string found _ ih => exact .string found (ih h')
  | keyword found _ ih => exact .keyword found (ih h')
  | group found marked inside _ _ ih => simpa using group found marked inside (ih h')
  | part found marked inside _ _ ih => simpa using part found marked inside (ih h')

/-- A reading is divided where the atoms are. -/
theorem of_append (h : Reads strings keywords groups parts (xs ++ ys) ds) :
    ∃ d e, ds = d ++ e ∧ Reads strings keywords groups parts xs d ∧
      Reads strings keywords groups parts ys e := by
  induction xs generalizing ds with
  | nil => exact ⟨[], ds, rfl, .nil, h⟩
  | cons x xs ih =>
    cases h with
    | plain rest =>
      obtain ⟨d, e, rfl, first, second⟩ := ih rest
      exact ⟨_, e, rfl, .plain first, second⟩
    | string found rest =>
      obtain ⟨d, e, rfl, first, second⟩ := ih rest
      exact ⟨_, e, rfl, .string found first, second⟩
    | keyword found rest =>
      obtain ⟨d, e, rfl, first, second⟩ := ih rest
      exact ⟨_, e, rfl, .keyword found first, second⟩
    | group found marked inside rest =>
      obtain ⟨d, e, rfl, first, second⟩ := ih rest
      exact ⟨_, e, (List.append_assoc _ _ _).symm, .group found marked inside first, second⟩
    | part found marked inside rest =>
      obtain ⟨d, e, rfl, first, second⟩ := ih rest
      exact ⟨_, e, (List.append_assoc _ _ _).symm, .part found marked inside first, second⟩

/-- What is set aside later does not matter. -/
theorem more (h : Reads strings keywords groups parts xs ds) (groups' parts' : List Text) :
    Reads strings keywords (groups ++ groups') (parts ++ parts') xs ds := by
  induction h with
  | nil => exact .nil
  | plain _ ih => exact .plain ih
  | string found _ ih => exact .string found ih
  | keyword found _ ih => exact .keyword found ih
  | group found marked _ _ inner ih =>
    exact .group (List.getElem?_append_left (List.getElem?_eq_some_iff.mp found).1 ▸ found)
      marked inner ih
  | @part _ parts n _ _ _ _ found marked inside _ _ ih =>
    have lt := (List.getElem?_eq_some_iff.mp found).1
    refine .part (List.getElem?_append_left lt ▸ found) marked ?_ ih
    rwa [List.take_append_of_le_length lt.le]

end Reads

section Cuts

variable {c : Char} {x y t w : Text}

theorem Cut.wordParted (h : Cut x y) : WordParted x y := by
  intro a b last head word
  cases word' : isWordChar b with
  | false => rfl
  | true =>
    have apart := h a b last head
    simp [joins, isReferenceChar, word, word'] at apart

theorem isWordChar_eq_false_of_isDropped (h : isDropped c) : isWordChar c = false := by
  cases word : isWordChar c with
  | false => rfl
  | true =>
    rw [Text.isDropped_eq_false_of_isWordChar word] at h
    cases h

theorem wordParted_of_not_word (h : isWordChar c = false) (x y : Text) : WordParted x (c :: y) := by
  intro a b _ head _
  obtain rfl := Option.some.inj head
  exact h

theorem keywordsFrom_append_of_not_word (h : isWordChar c = false) (x y : Text) :
    keywordsFrom none (x ++ c :: y) = keywordsFrom none x ++ keywordsFrom none y := by
  rw [(wordParted_of_not_word h x y).keywordsFrom_none, keywordsFrom_of_not_word h]

theorem keywordsFrom_of_forall_dropped (h : ∀ c ∈ w, isDropped c) (t : Text) :
    keywordsFrom none (w ++ t) = keywordsFrom none t := by
  induction w with
  | nil => rfl
  | cons c cs ih =>
    obtain ⟨here, later⟩ := List.forall_mem_cons.mp h
    rw [List.cons_append, keywordsFrom_of_not_word (isWordChar_eq_false_of_isDropped here),
      ih later]

@[simp] theorem keywordsFrom_strip (t : Text) :
    keywordsFrom none (Text.strip t) = keywordsFrom none t := by
  obtain ⟨before, behind, whole, blank, blank'⟩ := Text.exists_append_strip t
  have nothing : keywordsFrom none behind = [] := by
    have dropped := keywordsFrom_of_forall_dropped
      (fun c member => Text.isDropped_of_isBlank (blank' c member)) []
    rwa [List.append_nil] at dropped
  have parted : WordParted (Text.strip t) behind := by
    cases behind with
    | nil => exact fun _ _ _ head => by cases head
    | cons c cs =>
      exact wordParted_of_not_word (isWordChar_eq_false_of_isBlank (blank' c (by simp))) _ _
  conv_rhs => rw [whole, keywordsFrom_of_forall_dropped fun c member =>
    Text.isDropped_of_isBlank (blank c member), parted.keywordsFrom_none, nothing, List.append_nil]

/-- A text without the first letters of keywords has no keywords. -/
theorem keywordsFrom_of_letters (h : ∀ c ∈ w, c ∉ "ANO".toList) (previous : Option Char)
    (t : Text) : keywordsFrom previous (w ++ t) = keywordsFrom (lastChar previous w) t := by
  induction w generalizing previous with
  | nil => rfl
  | cons c cs ih =>
    obtain ⟨here, later⟩ := List.forall_mem_cons.mp h
    have none : keywordAt previous (c :: (cs ++ t)) = none := by
      cases found : keywordAt previous (c :: (cs ++ t)) with
      | none => rfl
      | some entry =>
        obtain ⟨-, rest, same, -⟩ := keywordAt_eq_some found
        refine absurd ?_ here
        cases k : entry.1 <;> (rw [k] at same; obtain ⟨rfl, -⟩ := List.cons.inj same; decide)
    rw [List.cons_append, keywordsFrom, Split.scan, none]
    exact ih later (some c)

theorem not_mem_letters_of_isDecimalDigit (h : isDecimalDigit c) : c ∉ "ANO".toList := by
  intro member
  have letters : "ANO".toList.all fun d => ! isDecimalDigit d := by decide
  have other := List.all_eq_true.mp letters c member
  rw [h] at other
  cases other

/-- A numbered word has no keywords. -/
theorem keywordsFrom_digits (start : Text) {digits : Text}
    (letters : (start.all fun c => ! "ANO".toList.contains c))
    (all : ∀ d ∈ digits, isDecimalDigit d) (previous : Option Char) (t : Text) :
    keywordsFrom previous (start ++ digits ++ t) =
      keywordsFrom (lastChar previous (start ++ digits)) t := by
  refine keywordsFrom_of_letters (fun c member => ?_) previous t
  rcases List.mem_append.mp member with letter | digit
  · simpa using List.all_eq_true.mp letters c letter
  · exact not_mem_letters_of_isDecimalDigit (all c digit)

end Cuts

namespace Legible

variable {c : Char} {x y t : Text} {d e ds : List Text}

/-- Legible texts are so one behind the other, if they are cut. -/
theorem append (cut : Cut x y) (h : Legible strings keywords groups parts x d)
    (h' : Legible strings keywords groups parts y e) :
    Legible strings keywords groups parts (x ++ y) (d ++ e) := by
  refine ⟨?_, ?_⟩
  · rw [Text.atoms_append cut.parted]
    exact h.reads.append h'.reads
  · rw [cut.wordParted.keywordsFrom_none, h.marked, h'.marked]
    rfl

/-- A dropped character between two texts. -/
theorem append_dropped_iff (dropped : isDropped c) :
    Legible strings keywords groups parts (x ++ c :: y) ds ↔
      ∃ d e, ds = d ++ e ∧ Legible strings keywords groups parts x d ∧
      Legible strings keywords groups parts y e := by
  have noWord := isWordChar_eq_false_of_isDropped dropped
  constructor
  · rintro ⟨reads, marked⟩
    rw [Text.atoms_append_dropped dropped] at reads
    rw [keywordsFrom_append_of_not_word noWord, List.append_eq_nil_iff] at marked
    obtain ⟨d, e, rfl, first, second⟩ := reads.of_append
    exact ⟨d, e, rfl, ⟨first, marked.1⟩, second, marked.2⟩
  · rintro ⟨d, e, rfl, first, second⟩
    refine ⟨?_, ?_⟩
    · rw [Text.atoms_append_dropped dropped]
      exact first.reads.append second.reads
    · rw [keywordsFrom_append_of_not_word noWord, first.marked, second.marked]
      rfl

theorem strip_iff : Legible strings keywords groups parts (Text.strip t) ds ↔
    Legible strings keywords groups parts t ds := by
  constructor
  · rintro ⟨reads, marked⟩
    exact ⟨by rwa [Text.atoms_strip] at reads, by rwa [keywordsFrom_strip] at marked⟩
  · rintro ⟨reads, marked⟩
    exact ⟨by rwa [Text.atoms_strip], by rwa [keywordsFrom_strip]⟩

theorem more_groups (h : Legible strings keywords groups parts t ds) (more : List Text) :
    Legible strings keywords (groups ++ more) parts t ds :=
  ⟨by simpa using h.reads.more more [], h.marked⟩

theorem more_parts (h : Legible strings keywords groups parts t ds) (more : List Text) :
    Legible strings keywords groups (parts ++ more) t ds :=
  ⟨by simpa using h.reads.more [] more, h.marked⟩

/-- A part in brackets stands for what it contains. -/
theorem bracket_iff (br : Bracket) {part : Text} :
    Legible strings keywords groups parts (x ++ br.opening :: (part ++ br.closing :: y)) ds ↔
      ∃ d inner e, ds = d ++ (inner ++ e) ∧ Legible strings keywords groups parts x d ∧
        Legible strings keywords groups parts part inner ∧
        Legible strings keywords groups parts y e := by
  have opening : isDropped br.opening := by cases br <;> decide
  have closing : isDropped br.closing := by cases br <;> decide
  rw [append_dropped_iff opening]
  constructor
  · rintro ⟨d, rest, rfl, before, behind⟩
    obtain ⟨inner, e, rfl, inside, last⟩ := (append_dropped_iff closing).mp behind
    exact ⟨d, inner, e, rfl, before, inside, last⟩
  · rintro ⟨d, inner, e, rfl, before, inside, last⟩
    exact ⟨d, inner ++ e, rfl, before, (append_dropped_iff closing).mpr ⟨inner, e, rfl,
      inside, last⟩⟩

end Legible

section TakenOut

variable {t rest : Text} {tokens : List Text}

/-- The token of a group reads as the group. -/
theorem legible_groupToken {n : Nat} {g : Text} {inner : List Text} (found : groups[n]? = some g)
    (h : Legible strings keywords groups parts g inner) :
    Legible strings keywords groups parts (TokenKind.group.start ++ Text.ofNat n) inner := by
  have digits : ∀ d ∈ Text.ofNat n, isDecimalDigit d := fun d => isDecimalDigit_of_mem_ofNat
  have ends : EndsNumber [] := by simp [EndsNumber]
  refine ⟨?_, ?_⟩
  · have atoms := Text.atoms_append_token .group (by simp) (ofNat_ne_nil n) digits ends []
    rw [List.append_nil] at atoms
    rw [← List.nil_append (TokenKind.group.start ++ Text.ofNat n), atoms]
    simpa using Reads.group found h.marked h.reads .nil
  · have letters := keywordsFrom_digits TokenKind.group.start (by decide) digits none []
    rw [List.append_nil] at letters
    rw [letters]
    rfl

/-- Taking a group out of a text keeps what the text stands for. -/
theorem legible_collapsed {g : List Text}
    (h : unnest .round (fun n => groupToken (groups.length + n)) t = .ok (rest, g))
    (legible : Legible strings keywords groups parts t tokens) :
    Legible strings keywords (groups ++ g) parts rest tokens := by
  refine unnest_induction (fun g whole => Legible strings keywords (groups ++ g) parts whole tokens)
    (fun g x part y holds => ?_) h (by simpa using legible)
  obtain ⟨d, inner, e, rfl, before, inside, behind⟩ := (Legible.bracket_iff .round).mp holds
  have found : (groups ++ (g ++ [part]))[groups.length + g.length]? = some part := by
    rw [← List.append_assoc, List.getElem?_append_right (by simp)]
    simp
  have same : x ++ (groupToken (groups.length + g.length) ++ y) =
      x ++ ' ' :: (TokenKind.group.start ++ Text.ofNat (groups.length + g.length) ++ ' ' :: y) := by
    simp [groupToken, TokenKind.start]
  have space : isDropped ' ' := by decide
  rw [same, Legible.append_dropped_iff space]
  have more :=
    fun {t d} (h : Legible strings keywords (groups ++ g) parts t d) => h.more_groups [part]
  rw [List.append_assoc] at more
  refine ⟨d, inner ++ e, rfl, more before, (Legible.append_dropped_iff space).mpr ⟨inner, e, rfl,
    ?_, more behind⟩⟩
  exact legible_groupToken found (more inside)

/-- Whether two characters can stand side by side where square brackets are taken out of a text: no
bracket has the end or the beginning of a name or of another bracket directly beside it. -/
def bracketApart (a b : Char) : Bool :=
  ! (b == '[' && (isReferenceChar a || a == ']')) && ! (a == ']' && (isReferenceChar b || b == '['))

/-- Whether the square brackets of a text stand apart from names and from each other. -/
def BracketsApart (t : Text) : Prop := t.IsChain fun a b => bracketApart a b

instance (t : Text) : Decidable (BracketsApart t) := inferInstanceAs (Decidable (List.IsChain _ t))

theorem lastChar_none_eq (t : Text) : lastChar none t = t.getLast? := by
  rcases List.eq_nil_or_concat t with rfl | ⟨u, c, rfl⟩
  · rfl
  · simp [lastChar]

theorem bracketsApart_append {x y : Text} :
    BracketsApart (x ++ y) ↔ BracketsApart x ∧ BracketsApart y ∧
    ∀ a b, lastChar none x = some a → y.head? = some b → bracketApart a b := by
  rw [BracketsApart, List.isChain_append, lastChar_none_eq]
  exact and_congr_right fun _ => and_congr_right fun _ =>
    ⟨fun h a b last head => h a last b head, fun h a last b head => h a b last head⟩

theorem bracketsApart_of_forall {t : Text} (h : ∀ c ∈ t, c ≠ '[' ∧ c ≠ ']') : BracketsApart t := by
  induction t with
  | nil => exact .nil
  | cons c cs ih =>
    obtain ⟨here, later⟩ := List.forall_mem_cons.mp h
    cases cs with
    | nil => exact .singleton _
    | cons d ds =>
      exact .cons_cons (by simp [bracketApart, here.2, (later d (by simp)).1]) (ih later)

/-- The token of a subexpression reads as its content. -/
theorem legible_subexpressionToken {n : Nat} {p : Text} {inner : List Text}
    (found : parts[n]? = some p) (h : Legible strings keywords [] (parts.take n) p inner) :
    Legible strings keywords groups parts (subexpressionToken n) inner := by
  have digits : ∀ d ∈ Text.ofNat n, isDecimalDigit d := fun d => isDecimalDigit_of_mem_ofNat
  refine ⟨?_, ?_⟩
  · rw [Text.atoms_subexpressionToken]
    simpa using Reads.part found h.marked h.reads .nil
  · have letters := keywordsFrom_digits "PLH".toList (by decide) digits none []
    rw [List.append_nil] at letters
    exact letters

/-- Taking one part out of a text keeps what the text stands for, and its brackets stay apart. -/
theorem legible_extracted_part {x part y : Text}
    (h : Legible strings keywords [] parts (x ++ '[' :: (part ++ ']' :: y)) tokens)
    (apart : BracketsApart (x ++ '[' :: (part ++ ']' :: y))) :
    Legible strings keywords [] (parts ++ [part]) (x ++ (subexpressionToken parts.length ++ y))
      tokens ∧
      BracketsApart (x ++ (subexpressionToken parts.length ++ y)) := by
  obtain ⟨d, inner, e, rfl, before, inside, behind⟩ := (Legible.bracket_iff .square).mp h
  obtain ⟨apartX, apartRest, front⟩ := bracketsApart_append.mp apart
  have apartClosing : BracketsApart ([']'] ++ y) := (bracketsApart_append.mp apartRest.of_cons).2.1
  obtain ⟨-, apartY, back⟩ := bracketsApart_append.mp apartClosing
  have clearX : ∀ a, lastChar none x = some a → isReferenceChar a = false ∧ a ≠ ']' :=
    fun a last => by
      simpa [bracketApart] using front a '[' last rfl
  have clearY : ∀ b, y.head? = some b → b ≠ '[' ∧ isReferenceChar b = false ∧ b ≠ '[' :=
    fun b head => by
      simpa [bracketApart] using back ']' b rfl head
  have found : (parts ++ [part])[parts.length]? = some part := by simp
  have taken : (parts ++ [part]).take parts.length = parts := by simp
  refine ⟨?_, ?_⟩
  · refine .append (cut_subexpressionToken (fun a last => (clearX a last).1) _ y)
      (before.more_parts _) ?_
    refine .append (subexpressionToken_cut _ fun b head => (clearY b head).2.1) ?_
      (behind.more_parts _)
    exact legible_subexpressionToken found (by rwa [taken])
  · have brackets : ∀ c ∈ subexpressionToken (parts.length : Int), c ≠ '[' ∧ c ≠ ']' := by
      refine fun c member => ⟨?_, ?_⟩ <;> rintro rfl <;>
        cases Text.isInert_of_mem_subexpressionToken member
    have tokenApart := bracketsApart_of_forall brackets
    refine bracketsApart_append.mpr
      ⟨apartX, bracketsApart_append.mpr ⟨tokenApart, apartY, fun a b last head => ?_⟩,
        fun a b last head => ?_⟩
    · obtain ⟨d, last', digit⟩ := lastChar_subexpressionToken parts.length
      obtain rfl := Option.some.inj (last'.symm.trans last)
      have noClosing : d ≠ ']' := by
        rintro rfl
        cases digit
      simp [bracketApart, noClosing, (clearY b head).1]
    · obtain rfl : 'P' = b := Option.some.inj head
      simp [bracketApart, (clearX a last).2]

/-- Taking subexpressions out of a text keeps what the text stands for. -/
theorem legible_extracted {before parts : List Text}
    (h : unnest .square (fun n => subexpressionToken (before.length + n)) t = .ok (rest, parts))
    (legible : Legible strings keywords [] before t tokens) (apart : BracketsApart t) :
    Legible strings keywords [] (before ++ parts) rest tokens := by
  refine (unnest_induction
    (fun parts whole => Legible strings keywords [] (before ++ parts) whole tokens ∧
    BracketsApart whole) (fun parts x part y holds => ?_) h ⟨by simpa using legible, apart⟩).1
  simpa using legible_extracted_part holds.1 holds.2

end TakenOut

end PolicyRules
