import Mathlib.Data.Nat.Find
import PolicyRules.Proofs.LeafGrammar
import PolicyRules.Proofs.PlainWords

/-!
# Longest lexemes

What is found at a place of a text is the longest lexeme that is looked for there and that the text
begins with. So a lexeme is found again if the text is cut behind it, or later, and goes on with a
space: no lexeme but a string has a space in it, and a string ends at its second mark.

Main statements: `lexeme?_eq_some_iff`, and `lexeme?_cut` for texts that are cut.
-/

namespace PolicyRules

section Words

variable {u w v : Text}

theorem length_le_takeWhile {p : Char → Bool} (all : ∀ c ∈ w, p c) (begins : w <+: u) :
    w.length ≤ (u.takeWhile p).length := by
  obtain ⟨rest, rfl⟩ := begins
  rw [List.takeWhile_append_of_pos all, List.length_append]
  exact Nat.le_add_right _ _

theorem takeWhile_ne_nil {p : Char → Bool} (nonempty : w ≠ []) (all : ∀ c ∈ w, p c)
    (begins : w <+: u) : u.takeWhile p ≠ [] := by
  have run := length_le_takeWhile all begins
  intro none
  rw [none] at run
  exact nonempty (List.length_eq_zero_iff.mp (Nat.le_zero.mp run))

theorem IsPlainName.exists_plainName? (h : IsPlainName w) (begins : w <+: u) :
    ∃ v, plainName? u = some v ∧ w.length ≤ v.length := by
  obtain ⟨c, cs, rfl, start, chars⟩ := h
  obtain ⟨rest, rfl⟩ := begins
  refine ⟨_, if_pos start, ?_⟩
  rw [List.length_cons, List.length_cons]
  exact Nat.succ_le_succ (length_le_takeWhile chars (List.prefix_append cs rest))

/-- A name is at least as long as the plain name that it begins with. -/
theorem exists_nameLexeme?_of_plainName? (plain : plainName? u = some w) :
    ∃ v, nameLexeme? u = some v ∧ w.length ≤ v.length := by
  cases call : callNumber? u with
  | some digits =>
    refine ⟨"FC#".toList ++ digits, by rw [nameLexeme?, call], ?_⟩
    unfold callNumber? at call
    split at call
    · next rest start =>
      obtain rfl : u = 'F' :: 'C' :: '#' :: rest := Text.dropStart?_eq_some_iff.mp start
      obtain rfl : ['F', 'C'] = w := Option.some.inj plain
      simp only [List.length_append, List.length_cons, List.length_nil, String.length_toList]
      exact Nat.le_trans (by decide) (Nat.le_add_right _ _)
    · cases call
  | none =>
    rw [nameLexeme?, call]
    simp only [plain]
    split
    · split
      · exact ⟨_, rfl, by simp⟩
      · exact ⟨_, rfl, Nat.le_refl _⟩
    · exact ⟨_, rfl, Nat.le_refl _⟩

/-- A name that a text begins with is not longer than the one that is found. -/
theorem IsName.exists_nameLexeme? (h : IsName w) (begins : w <+: u) :
    ∃ v, nameLexeme? u = some v ∧ w.length ≤ v.length := by
  cases h with
  | @call digits nonempty all =>
    obtain ⟨rest, rfl⟩ := begins
    have run := length_le_takeWhile all (List.prefix_append digits rest)
    have some_run := takeWhile_ne_nil nonempty all (List.prefix_append digits rest)
    have number : callNumber? ('F' :: 'C' :: '#' :: digits ++ rest) =
        some ((digits ++ rest).takeWhile Char.isDigit) := by
      simp [callNumber?, Text.dropStart?, some_run]
    refine ⟨_, by rw [nameLexeme?, number], ?_⟩
    simpa using run
  | plain h =>
    obtain ⟨v, plain, le⟩ := h.exists_plainName? begins
    obtain ⟨v', found, le'⟩ := exists_nameLexeme?_of_plainName? plain
    exact ⟨v', found, Nat.le_trans le le'⟩
  | @pair w w' h h' =>
    obtain ⟨rest, rfl⟩ := begins
    have colon : ∀ c, (':' :: (w' ++ rest)).head? = some c → isNameChar c = false := by
      rintro c ⟨⟩
      decide
    obtain ⟨v, second, le⟩ := h'.exists_plainName? (List.prefix_append w' rest)
    rw [List.append_assoc, List.cons_append, nameLexeme?,
      callNumber?_append_eq_none h.all colon (by simp), h.plainName?_append colon]
    exact ⟨w ++ ':' :: v, by simp [second], by simpa using le⟩

/-- A number that a text begins with is not longer than the one that is found. -/
theorem IsNumber.exists_numberLexeme? (h : IsNumber w) (begins : w <+: u) :
    ∃ v, numberLexeme? u = some v ∧ w.length ≤ v.length := by
  cases h with
  | decimal nonempty all =>
    have run := length_le_takeWhile all begins
    have some_run := takeWhile_ne_nil nonempty all begins
    have decimal : (if (u.takeWhile Char.isDigit).isEmpty then none else some
        (u.takeWhile Char.isDigit)) =
        some (u.takeWhile Char.isDigit) := by
      simp [some_run]
    simp only [numberLexeme?, decimal]
    split
    · next rest start =>
      split
      · exact ⟨_, rfl, run⟩
      · obtain rfl : u = '0' :: 'x' :: rest := Text.dropStart?_eq_some_iff.mp start
        have one : (('0' :: 'x' :: rest).takeWhile Char.isDigit).length = 1 := rfl
        refine ⟨_, rfl, Nat.le_trans (run.trans_eq one) ?_⟩
        simp
    · exact ⟨_, rfl, run⟩
  | @hexadecimal digits nonempty all =>
    obtain ⟨rest, rfl⟩ := begins
    have run := length_le_takeWhile all (List.prefix_append digits rest)
    have some_run := takeWhile_ne_nil nonempty all (List.prefix_append digits rest)
    refine ⟨'0' :: 'x' :: (digits ++ rest).takeWhile isHexDigit, ?_, by simpa using run⟩
    simp [numberLexeme?, Text.dropStart?, some_run]

end Words

section Longest

variable {e : Expecting} {x y : Lexeme} {u v w : Text}

theorem Lexeme.FitsAt.lexeme?_text (fits : x.FitsAt e) : e.lexeme? x.text = some x := by
  simpa using lexeme?_append fits (.inr endsWord_nil)

/-- What is found first under a condition is found first under a stronger one, if it meets it. -/
theorem find?_of_imp {α : Type} {p q : α → Bool} {l : List α} {a : α}
    (imp : ∀ b, q b → p b) (found : l.find? p = some a) (meets : q a) : l.find? q = some a := by
  obtain ⟨-, before, behind, rfl, none⟩ := List.find?_eq_some_iff_append.mp found
  refine List.find?_eq_some_iff_append.mpr ⟨meets, before, behind, rfl, fun b member => ?_⟩
  cases other : q b with
  | false => rfl
  | true => exact absurd (imp b other) (by simpa using none b member)

/-- A sign that a text begins with is not longer than the one that is found. -/
theorem exists_sign_of_fitsAt {updatable : Bool} (fits : y.FitsAt (.operator updatable))
    (begins : y.text <+: u) :
    ∃ x, (Expecting.operator updatable).lexeme? u = some x ∧ y.text.length ≤ x.text.length := by
  obtain ⟨list, same⟩ : ∃ list : List Lexeme, ∀ t,
      (Expecting.operator updatable).lexeme? t = list.find? fun sign => Text.startsWith
        sign.text t := by
    cases updatable <;> exact ⟨_, fun _ => rfl⟩
  have own : list.find? (fun sign => Text.startsWith sign.text y.text) = some y := by
    rw [← same]
    exact fits.lexeme?_text
  have listed : y ∈ list := List.mem_of_find?_eq_some own
  obtain ⟨x, found⟩ : ∃ x, list.find? (fun sign => Text.startsWith sign.text u) = some x :=
    Option.isSome_iff_exists.mp
      (List.find?_isSome.mpr ⟨y, listed, Text.startsWith_iff_isPrefix.mpr begins⟩)
  refine ⟨x, (same u).trans found, ?_⟩
  have begins' : x.text <+: u :=
    Text.startsWith_iff_isPrefix.mp (by simpa using List.find?_some found)
  rcases List.prefix_or_prefix_of_prefix begins begins' with shorter | longer
  · exact shorter.length_le
  -- A sign that the other one begins with stands behind it in the list.
  · have again := find?_of_imp (q := fun sign : Lexeme => Text.startsWith sign.text y.text)
      (fun sign h => Text.startsWith_iff_isPrefix.mpr ((Text.startsWith_iff_isPrefix.mp h).trans
        begins)) found
      (Text.startsWith_iff_isPrefix.mpr longer)
    obtain rfl : y = x := Option.some.inj (own.symm.trans again)
    exact Nat.le_refl _

/-- If a text begins with a lexeme that is looked for, one is found, and it is not shorter. -/
theorem exists_lexeme?_of_fitsAt (fits : y.FitsAt e) (begins : y.text <+: u) :
    ∃ x, e.lexeme? u = some x ∧ y.text.length ≤ x.text.length := by
  cases e with
  | operand first =>
    cases y with
    | name w =>
      have name : IsName w := fits
      obtain ⟨v, found, le⟩ := name.exists_nameLexeme? begins
      exact ⟨.name v, by simp [Expecting.lexeme?, operandLexeme?, found], le⟩
    | number w =>
      have number : IsNumber w := fits
      obtain ⟨v, found, le⟩ := number.exists_numberLexeme? begins
      have noName : nameLexeme? u = none := by
        obtain ⟨rest, rfl⟩ := begins
        obtain ⟨c, cs, rfl, digit⟩ := number.head
        exact nameLexeme?_cons_eq_none (isNameStart_eq_false_of_isDigit digit) _
      exact ⟨.number v, by simp [Expecting.lexeme?, operandLexeme?, noName, found], le⟩
    | string w =>
      obtain ⟨rest, rfl⟩ := begins
      exact ⟨.string w, lexeme?_string fits first rest, Nat.le_refl _⟩
    | leftParen =>
      obtain ⟨rest, rfl⟩ := begins
      exact ⟨.leftParen, rfl, Nat.le_refl _⟩
    | _ => cases fits
  | tracker =>
    cases y with
    | name w =>
      have name : IsName w := fits
      obtain ⟨v, found, le⟩ := name.exists_nameLexeme? begins
      exact ⟨.name v, by simp [Expecting.lexeme?, found], le⟩
    | _ => cases fits
  | operator updatable => exact exists_sign_of_fitsAt fits begins

theorem Lexeme.FitsAt.eq_of_text_eq (fits : x.FitsAt e) (fits' : y.FitsAt e)
    (same : x.text = y.text) : x = y := by
  have found := fits.lexeme?_text
  rw [same, fits'.lexeme?_text] at found
  exact (Option.some.inj found).symm

/-- What is found is the longest lexeme that is looked for and that the text begins with. -/
theorem lexeme?_eq_some_iff : e.lexeme? u = some x ↔
    x.FitsAt e ∧ x.text <+: u ∧ ∀ y : Lexeme, y.FitsAt e → y.text <+: u →
    y.text.length ≤ x.text.length := by
  constructor
  · intro found
    obtain ⟨fits, begins⟩ := lexeme?_sound found
    refine ⟨fits, begins, fun y fitsOther beginsOther => ?_⟩
    obtain ⟨x', found', le⟩ := exists_lexeme?_of_fitsAt fitsOther beginsOther
    obtain rfl : x = x' := Option.some.inj (found.symm.trans found')
    exact le
  · rintro ⟨fits, begins, longest⟩
    obtain ⟨x', found, le⟩ := exists_lexeme?_of_fitsAt fits begins
    obtain ⟨fits', begins'⟩ := lexeme?_sound found
    have length_eq := Nat.le_antisymm le (longest x' fits' begins')
    have text_eq : x.text = x'.text :=
      (List.prefix_of_prefix_length_le begins begins' le).eq_of_length length_eq
    rw [found, fits.eq_of_text_eq fits' text_eq]

/-- What is found in a text depends on the lexemes that it begins with only. -/
theorem lexeme?_congr (same : ∀ y : Lexeme, y.FitsAt e → (y.text <+: u ↔ y.text <+: v)) :
    e.lexeme? u = e.lexeme? v := by
  refine Option.ext fun x => ?_
  rw [lexeme?_eq_some_iff, lexeme?_eq_some_iff]
  constructor
  · rintro ⟨fits, begins, longest⟩
    exact ⟨fits, (same x fits).mp begins, fun y fits' begins' =>
      longest y fits' ((same y fits').mpr begins')⟩
  · rintro ⟨fits, begins, longest⟩
    exact ⟨fits, (same x fits).mpr begins, fun y fits' begins' =>
      longest y fits' ((same y fits').mp begins')⟩

end Longest

section Cut

variable {e : Expecting} {x : Lexeme} {s s' u v w : Text}

/-- No lexeme but a string has a character in it that is neither plain nor a parenthesis. -/
theorem Lexeme.FitsAt.isQuoted_of_mem (fits : x.FitsAt e) {c : Char} (member : c ∈ x.text)
    (other : isPlainChar c = false ∧ c ∉ ['(', ')']) : IsQuoted x.text := by
  have notPlain : ¬ IsPlain x.text := fun plain => by simp [plain.2 c member] at other
  cases x with
  | name w => exact absurd (IsName.isPlain fits.isWord) notPlain
  | number w =>
    have plain := isPlainChar_of_isNameChar (IsNumber.isNameChar fits.isWord c member)
    rw [other.1] at plain
    cases plain
  | string w => exact fits.isWord
  | operator op | update op => exact absurd (by cases op <;> decide) notPlain
  | bar => exact absurd (by decide) notPlain
  | leftParen => exact absurd (List.mem_append_left [')'] member) other.2
  | rightParen => exact absurd (List.mem_cons_of_mem '(' member) other.2

/-- A text begins with one string at most. -/
theorem IsQuoted.eq_of_isPrefix (h : IsQuoted s) (h' : IsQuoted s') (begins : s <+: u)
    (begins' : s' <+: u) : s = s' := by
  obtain ⟨rest, rfl⟩ := begins
  obtain ⟨rest', same⟩ := begins'
  have found := h.stringLexeme?_append rest
  rw [← same, h'.stringLexeme?_append] at found
  exact (Option.some.inj found).symm

/-- What is longer than the part before a space has the space in it. -/
theorem isPrefix_or_space_mem (begins : s <+: v ++ ' ' :: w) : s <+: v ∨ ' ' ∈ s := by
  rcases List.prefix_or_prefix_of_prefix begins (List.prefix_append v (' ' :: w)) with inside |
    ⟨more, rfl⟩
  · exact .inl inside
  · cases more with
    | nil => simp
    | cons c cs =>
      have next := (List.prefix_append_right_inj v).mp begins
      obtain ⟨rfl, -⟩ := List.cons_prefix_cons.mp next
      simp

/-- What is found in a text is found also if the text is cut and goes on with a space, if it is cut
behind all lexemes that it begins with and no string runs over the cut. -/
theorem lexeme?_cut (begins : v <+: u)
    (long : ∀ y : Lexeme, y.FitsAt e → y.text <+: u → y.text <+: v)
    (closed : ∀ s, IsQuoted s → s <+: v ++ ' ' :: w → s <+: v) :
    e.lexeme? (v ++ ' ' :: w) = e.lexeme? u := by
  refine lexeme?_congr fun y fits =>
    ⟨fun h => ?_, fun h => (long y fits h).trans (List.prefix_append _ _)⟩
  rcases isPrefix_or_space_mem h with inside | space
  · exact inside.trans begins
  · exact (closed y.text (fits.isQuoted_of_mem space (by decide)) h).trans begins

/-- A lexeme is found also if the text is cut anywhere behind it and goes on with a space. -/
theorem lexeme?_of_cut (found : e.lexeme? u = some x) (begins : v <+: u) (inside : x.text <+: v) :
    e.lexeme? (v ++ ' ' :: w) = some x := by
  obtain ⟨fits, -, longest⟩ := lexeme?_eq_some_iff.mp found
  rw [lexeme?_cut begins, found]
  · intro y fitsOther beginsOther
    have shorter := List.prefix_of_prefix_length_le beginsOther (inside.trans begins)
      (longest y fitsOther beginsOther)
    exact shorter.trans inside
  -- A string that the text begins with now begins with the mark that the lexeme begins with.
  · intro s quoted beginsString
    have beginsLexeme := inside.trans (List.prefix_append v (' ' :: w))
    obtain @⟨mark, body, isMark, -⟩ := id quoted
    have same : x.text.head? = some mark := by
      obtain ⟨c, cs, text_eq, -⟩ := fits.head
      obtain ⟨rest, rest_eq⟩ := beginsString
      rw [text_eq, ← rest_eq, List.cons_append, List.cons_append] at beginsLexeme
      rw [text_eq, (List.cons_prefix_cons.mp beginsLexeme).1]
      rfl
    have quotedLexeme : IsQuoted x.text :=
      fits.isQuoted_of_mem (List.mem_of_mem_head? same) (by rcases isMark with rfl | rfl <;> decide)
    rw [quoted.eq_of_isPrefix quotedLexeme beginsString beginsLexeme]
    exact inside

end Cut

section Anywhere

variable {x : Lexeme} {u w : Text}

/-- Whether a text is a lexeme, wherever it is looked for. -/
def IsLexeme (w : Text) : Prop := ∃ x : Lexeme, x.IsWord ∧ x.text = w

/-- Each lexeme is looked for at the beginning of an expression or behind an operand that may be
updated. An equals sign is read as an update operator there. -/
theorem Lexeme.IsWord.exists_fitsAt (word : x.IsWord) :
    ∃ y : Lexeme, y.text = x.text ∧ (y.FitsAt (.operand true) ∨ y.FitsAt (.operator true)) := by
  cases x with
  | name w => exact ⟨.name w, rfl, .inl word⟩
  | number w => exact ⟨.number w, rfl, .inl word⟩
  | string w => exact ⟨.string w, rfl, .inl word⟩
  | operator op =>
    by_cases assign : op = .assign
    · exact ⟨.update .assign, by rw [assign]; rfl, .inr rfl⟩
    · exact ⟨.operator op, rfl, .inr assign⟩
  | update op => exact ⟨.update op, rfl, .inr rfl⟩
  | bar => exact ⟨.bar, rfl, .inr trivial⟩
  | leftParen => exact ⟨.leftParen, rfl, .inl trivial⟩
  | rightParen => exact ⟨.rightParen, rfl, .inr trivial⟩

theorem isLexeme_iff : IsLexeme w ↔ ((Expecting.operand true).lexeme? w).map Lexeme.text = some w ∨
    ((Expecting.operator true).lexeme? w).map Lexeme.text = some w := by
  constructor
  · rintro ⟨x, word, rfl⟩
    obtain ⟨y, text_eq, fits | fits⟩ := word.exists_fitsAt
    · exact .inl (by rw [← text_eq, fits.lexeme?_text]; rfl)
    · exact .inr (by rw [← text_eq, fits.lexeme?_text]; rfl)
  · rintro (h | h) <;> obtain ⟨x, found, text_eq⟩ := Option.map_eq_some_iff.mp h <;>
      exact ⟨x, (lexeme?_sound found).1.isWord, text_eq⟩

instance : DecidablePred IsLexeme := fun _ => decidable_of_iff _ isLexeme_iff.symm

/-- The length of the longest lexeme that a text begins with, and zero if there is none. -/
def longestLexeme (u : Text) : Nat := Nat.findGreatest (fun n => IsLexeme (u.take n)) u.length

theorem isPrefix_take_longestLexeme {n : Nat} (lexeme : IsLexeme w) (begins : w <+: u)
    (le : longestLexeme u ≤ n) : w <+: u.take n := by
  refine List.prefix_take_iff.mpr
    ⟨begins, Nat.le_trans (Nat.le_findGreatest begins.length_le ?_) le⟩
  rwa [← List.prefix_iff_eq_take.mp begins]

end Anywhere

end PolicyRules
