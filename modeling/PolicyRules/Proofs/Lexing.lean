import Mathlib.Data.List.TakeWhile
import PolicyRules.Leaf.Lexeme

/-!
# Reading lexemes back

Lexemes that are written with spaces between them are found again, if each of them is looked for at
its place. What a lexeme ends with is known from the character behind it: a space or a closing
bracket belongs to no lexeme but a string.

Main statements: `lexeme?_append` for one lexeme, and the rules of `Lexes` for texts.
-/

namespace PolicyRules

/-- Whether a text can follow a word: it is empty or begins with a space or a closing bracket. -/
def EndsWord (t : Text) : Prop := ∀ c, t.head? = some c → c = ' ' ∨ c = ')' ∨ c = ']'

@[simp] theorem endsWord_nil : EndsWord [] := by simp [EndsWord]

@[simp] theorem endsWord_space (t : Text) : EndsWord (' ' :: t) := by simp [EndsWord]

variable {w t : Text} {c : Char} {expecting : Expecting} {x : Lexeme}

/-- A run of characters of a class ends where a character of another class follows. -/
theorem takeWhile_append_of_head {p : Char → Bool} (all : ∀ c ∈ w, p c)
    (head : ∀ c, t.head? = some c → p c = false) : (w ++ t).takeWhile p = w := by
  rw [List.takeWhile_append_of_pos (by simpa using all)]
  cases t with
  | nil => simp
  | cons c cs => simp [head c rfl]

/-- What can follow a word belongs to no class that has no space and no closing bracket. -/
theorem EndsWord.head (ends : EndsWord t) {p : Char → Bool} (space : p ' ' = false)
    (round : p ')' = false) (square :
    p ']' = false) (c : Char) (h : t.head? = some c) : p c = false := by
  rcases ends c h with rfl | rfl | rfl
  · exact space
  · exact round
  · exact square

/-- Whether a text is a plain name. -/
def IsPlainName (w : Text) : Prop :=
  ∃ c cs, w = c :: cs ∧ isNameStart c ∧ ∀ d ∈ cs, isNameChar d

/-- The forms of names: the token of a foreign call, a plain name, or two of them with a colon in
between. -/
inductive IsName : Text → Prop
  | call {digits : Text} (nonempty : digits ≠ []) (all : ∀ c ∈ digits, c.isDigit) :
    IsName ('F' :: 'C' :: '#' :: digits)
  | plain {w : Text} (h : IsPlainName w) : IsName w
  | pair {w w' : Text} (h : IsPlainName w) (h' : IsPlainName w') : IsName (w ++ ':' :: w')

/-- The forms of numbers: decimal digits, or `0x` and hexadecimal digits. -/
inductive IsNumber : Text → Prop
  | decimal {w : Text} (nonempty : w ≠ []) (all : ∀ c ∈ w, c.isDigit) : IsNumber w
  | hexadecimal {digits : Text} (nonempty : digits ≠ []) (all : ∀ c ∈ digits, isHexDigit c) :
    IsNumber ('0' :: 'x' :: digits)

/-- The form of quoted strings. -/
inductive IsQuoted : Text → Prop
  | mk {mark : Char} {body : Text} (isMark : mark = '"' ∨ mark = '\x27') (closed : mark ∉ body) :
    IsQuoted (mark :: body ++ [mark])

/-- What is read as a plain name is one. -/
theorem isPlainName_of_plainName? (h : plainName? t = some w) : IsPlainName w := by
  cases t with
  | nil => cases h
  | cons c cs =>
    simp only [plainName?, Option.ite_none_right_eq_some, Option.some.injEq] at h
    obtain ⟨start, rfl⟩ := h
    exact ⟨c, _, rfl, start, fun d member => List.mem_takeWhile_imp member⟩

/-- What is read as a name is one. -/
theorem isName_of_nameLexeme? (h : nameLexeme? t = some w) : IsName w := by
  unfold nameLexeme? at h
  split at h
  · next digits call =>
    cases h
    unfold callNumber? at call
    split at call
    · simp only [Option.ite_none_left_eq_some, List.isEmpty_iff, Option.some.injEq] at call
      obtain ⟨nonempty, rfl⟩ := call
      exact .call nonempty fun c member => List.mem_takeWhile_imp member
    · cases call
  · split at h
    · cases h
    · next name plain =>
      split at h
      · split at h
        · next second plain' =>
          cases h
          exact .pair (isPlainName_of_plainName? plain) (isPlainName_of_plainName? plain')
        · cases h
          exact .plain (isPlainName_of_plainName? plain)
      · cases h
        exact .plain (isPlainName_of_plainName? plain)

theorem isNumber_of_numberLexeme? (h : numberLexeme? t = some w) : IsNumber w := by
  have decimal : ∀ {v : Text}, (if (t.takeWhile Char.isDigit).isEmpty then none
      else some (t.takeWhile Char.isDigit)) = some v → IsNumber v := by
    intro v hv
    simp only [Option.ite_none_left_eq_some, List.isEmpty_iff, Option.some.injEq] at hv
    obtain ⟨nonempty, rfl⟩ := hv
    exact .decimal nonempty fun c member => List.mem_takeWhile_imp member
  dsimp only [numberLexeme?] at h
  split at h
  · split at h
    · exact decimal h
    · next nonempty =>
      cases h
      exact .hexadecimal (by simpa using nonempty) fun c member => List.mem_takeWhile_imp member
  · exact decimal h

theorem isQuoted_of_stringLexeme? (h : stringLexeme? t = some w) : IsQuoted w := by
  cases t with
  | nil => cases h
  | cons c cs =>
    simp only [stringLexeme?, Option.ite_none_right_eq_some, Bool.and_eq_true, Bool.or_eq_true,
      beq_iff_eq, Option.some.injEq] at h
    obtain ⟨⟨isMark, -⟩, rfl⟩ := h
    exact .mk isMark fun member => by simpa using List.mem_takeWhile_imp member

theorem isNameChar_of_isNameStart (h : isNameStart c) : isNameChar c := by
  simp only [isNameStart, Bool.or_eq_true] at h
  rcases h with h | h <;> simp [isNameChar, Char.isAlphanum, h]

theorem IsPlainName.all (h : IsPlainName w) : ∀ c ∈ w, isNameChar c := by
  obtain ⟨c, cs, rfl, start, chars⟩ := h
  simpa using ⟨isNameChar_of_isNameStart start, chars⟩

/-- A plain name is read up to the first character that no name has. -/
theorem IsPlainName.plainName?_append (h : IsPlainName w)
    (head : ∀ c, t.head? = some c → isNameChar c = false) : plainName? (w ++ t) = some w := by
  obtain ⟨c, cs, rfl, start, chars⟩ := h
  rw [List.cons_append, plainName?, if_pos start, takeWhile_append_of_head chars head]

/-- A text that begins with a plain name does not begin with the token of a call. -/
theorem callNumber?_append_eq_none (all : ∀ c ∈ w, isNameChar c)
    (head : ∀ c, t.head? = some c → isNameChar c = false) (sign : t.head? ≠ some '#') :
    callNumber? (w ++ t) = none := by
  have begins : Text.dropStart? "FC#".toList (w ++ t) = none := by
    cases found : Text.dropStart? "FC#".toList (w ++ t) with
    | none => rfl
    | some rest =>
      exfalso
      have same : w ++ t = 'F' :: 'C' :: '#' :: rest := Text.dropStart?_eq_some_iff.mp found
      match w with
      | [] =>
        simp only [List.nil_append] at same
        simpa [same, isNameChar] using head 'F'
      | [a] =>
        simp only [List.cons_append, List.nil_append, List.cons.injEq] at same
        simpa [same, isNameChar] using head 'C'
      | [a, b] =>
        simp only [List.cons_append, List.nil_append, List.cons.injEq] at same
        exact sign (by simp [same])
      | a :: b :: c :: cs =>
        simp only [List.cons_append, List.cons.injEq] at same
        simpa [same, isNameChar] using all '#'
  rw [callNumber?, begins]

/-- A name is read whole where words end. -/
theorem IsName.nameLexeme?_append (h : IsName w) (ends : EndsWord t) :
    nameLexeme? (w ++ t) = some w := by
  have sign : t.head? ≠ some '#' := fun h => by simpa using ends '#' h
  have colon : t.head? ≠ some ':' := fun h => by simpa using ends ':' h
  cases h with
  | @call digits nonempty all =>
    have run := takeWhile_append_of_head all (ends.head (by decide) (by decide) (by decide))
    have number : callNumber? ('F' :: 'C' :: '#' :: digits ++ t) = some digits := by
      simp [callNumber?, Text.dropStart?, run, nonempty]
    rw [nameLexeme?, number]
    rfl
  | plain h =>
    have head := ends.head (p := isNameChar) (by decide) (by decide) (by decide)
    rw [nameLexeme?, callNumber?_append_eq_none h.all head sign, h.plainName?_append head]
    cases t with
    | nil => simp
    | cons c cs =>
      have other : c ≠ ':' := by simpa using colon
      simp [other]
  | @pair w w' h h' =>
    have head := ends.head (p := isNameChar) (by decide) (by decide) (by decide)
    have middle : ∀ c, (':' :: (w' ++ t)).head? = some c → isNameChar c = false := by
      rintro c ⟨⟩
      decide
    rw [List.append_assoc, List.cons_append, nameLexeme?,
      callNumber?_append_eq_none h.all middle (by simp), h.plainName?_append middle]
    simp [h'.plainName?_append head]

theorem nameLexeme?_cons_eq_none (h : isNameStart c = false) (cs : Text) :
    nameLexeme? (c :: cs) = none := by
  have other : 'F' ≠ c := by
    rintro rfl
    cases h
  simp [nameLexeme?, callNumber?, Text.dropStart?, other, plainName?, h]

theorem numberLexeme?_cons_eq_none (h : c.isDigit = false) (cs : Text) :
    numberLexeme? (c :: cs) = none := by
  have other : '0' ≠ c := by
    rintro rfl
    cases h
  simp [numberLexeme?, Text.dropStart?, other, h]

/-- A number is read whole where words end. -/
theorem IsNumber.numberLexeme?_append (h : IsNumber w) (ends : EndsWord t) :
    numberLexeme? (w ++ t) = some w := by
  cases h with
  | decimal nonempty all =>
    have run := takeWhile_append_of_head all (ends.head (by decide) (by decide) (by decide))
    have begins : Text.dropStart? "0x".toList (w ++ t) = none := by
      cases found : Text.dropStart? "0x".toList (w ++ t) with
      | none => rfl
      | some rest =>
        exfalso
        have same : w ++ t = '0' :: 'x' :: rest := Text.dropStart?_eq_some_iff.mp found
        match w with
        | [] => exact nonempty rfl
        | [a] =>
          simp only [List.cons_append, List.nil_append, List.cons.injEq] at same
          simpa [same] using ends 'x'
        | a :: b :: cs =>
          simp only [List.cons_append, List.cons.injEq] at same
          simpa [same] using all 'x'
    simp only [numberLexeme?, begins, run]
    simp [nonempty]
  | @hexadecimal digits nonempty all =>
    have run := takeWhile_append_of_head all (ends.head (by decide) (by decide) (by decide))
    simp [numberLexeme?, Text.dropStart?, run, nonempty]

/-- A string is read up to its closing mark, whatever follows. -/
theorem IsQuoted.stringLexeme?_append (h : IsQuoted w) (t : Text) :
    stringLexeme? (w ++ t) = some w := by
  obtain ⟨isMark, closed⟩ := h
  next mark body =>
  have run : (body ++ mark :: t).takeWhile (· != mark) = body := by
    refine takeWhile_append_of_head (fun c member => ?_) (by simp)
    simpa using fun same : c = mark => closed (same ▸ member)
  have quote : (mark == '"' || mark == '\x27') := by simpa using isMark
  simp [stringLexeme?, run, quote]

theorem IsNumber.head (h : IsNumber w) : ∃ c cs, w = c :: cs ∧ c.isDigit := by
  cases h with
  | decimal nonempty all =>
    match w with
    | [] => exact absurd rfl nonempty
    | c :: cs => exact ⟨c, cs, rfl, all c (by simp)⟩
  | hexadecimal nonempty all => exact ⟨'0', _, rfl, rfl⟩

theorem IsQuoted.head (h : IsQuoted w) :
    ∃ c cs, w = c :: cs ∧ isNameStart c = false ∧ c.isDigit = false := by
  obtain ⟨isMark, closed⟩ := h
  rcases isMark with rfl | rfl
  · exact ⟨_, _, rfl, by decide, by decide⟩
  · exact ⟨_, _, rfl, by decide, by decide⟩

/-- Whether a lexeme is looked for at a place, and is written as such a lexeme can be. -/
def Lexeme.FitsAt : Expecting → Lexeme → Prop
  | .operand _, .name w | .tracker, .name w => IsName w
  | .operand _, .number w => IsNumber w
  | .operand _, .string w => IsQuoted w
  | .operand _, .leftParen => True
  | .operator _, .operator op => op ≠ .assign
  | .operator updatable, .update _ => updatable
  | .operator _, .bar | .operator _, .rightParen => True
  | _, _ => False

/-- Whether the words of a lexeme have the forms of names, numbers and strings. -/
def Lexeme.IsWord : Lexeme → Prop
  | name text => IsName text
  | number text => IsNumber text
  | string text => IsQuoted text
  | _ => True

/-- A lexeme that fits at a place is a word of its kind. -/
theorem Lexeme.FitsAt.isWord (h : x.FitsAt expecting) : x.IsWord := by
  cases expecting <;> cases x <;> first | exact h | trivial

theorem isDigit_iff : c.isDigit ↔ 48 ≤ c.toNat ∧ c.toNat ≤ 57 := by
  have digit : c.isDigit = (decide (48 ≤ c.val) && decide (c.val ≤ 57)) := rfl
  simp [digit, UInt32.le_iff_toNat_le]

theorem isAlpha_iff : c.isAlpha ↔ 65 ≤ c.toNat ∧ c.toNat ≤ 90 ∨ 97 ≤ c.toNat ∧ c.toNat ≤ 122 := by
  have upper : c.isUpper = decide (65 ≤ c.val ∧ c.val ≤ 90) := rfl
  have lower : c.isLower = (decide (97 ≤ c.val) && decide (c.val ≤ 122)) := rfl
  have alpha : c.isAlpha = (c.isUpper || c.isLower) := rfl
  simp [alpha, upper, lower, UInt32.le_iff_toNat_le]

theorem isNameStart_eq_false_of_isDigit (h : c.isDigit) : isNameStart c = false := by
  have under : c ≠ '_' := by
    rintro rfl
    cases h
  have notAlpha : ¬ c.isAlpha := by
    rw [isDigit_iff] at h
    rw [isAlpha_iff]
    omega
  simp [isNameStart, notAlpha, under]

/-- Where an operator is expected, every one but an assignment is read. -/
theorem lexeme?_operator {op : Operator} (h : op ≠ .assign) (ends : EndsWord t) (updatable : Bool) :
    (Expecting.operator updatable).lexeme? (op.text ++ t) = some (.operator op) := by
  cases t with
  | nil => cases op <;> cases updatable <;> first | contradiction | rfl
  | cons c cs =>
    rcases ends c rfl with rfl | rfl | rfl <;> cases op <;> cases updatable <;>
      first | contradiction | rfl

/-- The operator of an update is read if the target can be updated. -/
theorem lexeme?_update (op : UpdateOperator) (ends : EndsWord t) :
    (Expecting.operator true).lexeme? (op.text ++ t) = some (.update op) := by
  cases t with
  | nil => cases op <;> rfl
  | cons c cs => rcases ends c rfl with rfl | rfl | rfl <;> cases op <;> rfl

theorem lexeme?_string (h : IsQuoted w) (first : Bool) (t : Text) :
    Expecting.lexeme? (.operand first) (w ++ t) = some (.string w) := by
  have found := h.stringLexeme?_append t
  obtain ⟨c, cs, rfl, noName, noDigit⟩ := h.head
  simp only [Expecting.lexeme?, operandLexeme?, List.cons_append, nameLexeme?_cons_eq_none noName,
    numberLexeme?_cons_eq_none noDigit] at found ⊢
  rw [found]

/-- A lexeme that fits is found at its place. -/
theorem lexeme?_append (fits : x.FitsAt expecting)
    (ends : x = .leftParen ∨ EndsWord t) : expecting.lexeme? (x.text ++ t) = some x := by
  rcases ends with rfl | ends
  · cases expecting with
    | operand first => rfl
    | tracker | operator updatable => cases fits
  cases expecting with
  | operand first =>
    cases x with
    | name w =>
      have name : IsName w := fits
      simp [Expecting.lexeme?, operandLexeme?, Lexeme.text, name.nameLexeme?_append ends]
    | number w =>
      have number : IsNumber w := fits
      obtain ⟨c, cs, w_eq, digit⟩ := number.head
      have noName : nameLexeme? (w ++ t) = none := by
        rw [w_eq]
        exact nameLexeme?_cons_eq_none (isNameStart_eq_false_of_isDigit digit) _
      simp [Expecting.lexeme?, operandLexeme?, Lexeme.text, noName,
        number.numberLexeme?_append ends]
    | string w => exact lexeme?_string fits first t
    | leftParen => rfl
    | _ => cases fits
  | tracker =>
    cases x with
    | name w =>
      have name : IsName w := fits
      simp [Expecting.lexeme?, Lexeme.text, name.nameLexeme?_append ends]
    | _ => cases fits
  | operator updatable =>
    cases x with
    | operator op => exact lexeme?_operator fits ends updatable
    | update op =>
      obtain rfl : updatable := fits
      exact lexeme?_update op ends
    | bar | rightParen => cases updatable <;> rfl
    | _ => cases fits

/-- What holds of each layout character holds of layout. -/
theorem of_isLayout {p : Char → Bool} (each : " \t\x0c\r\n".toList.all p) (h : isLayout c) :
    p c := by
  refine List.all_eq_true.mp each c ?_
  simpa [isLayout, or_assoc] using h

theorem isLayout_eq_false_of_isNameChar (h : isNameChar c) : isLayout c = false := by
  simp only [isLayout, Bool.or_eq_false_iff, beq_eq_false_iff_ne]
  refine ⟨⟨⟨⟨?_, ?_⟩, ?_⟩, ?_⟩, ?_⟩ <;> rintro rfl <;> cases h

theorem isNameChar_of_isDigit (h : c.isDigit) : isNameChar c := by
  simp [isNameChar, Char.isAlphanum, h]

theorem IsName.head (h : IsName w) : ∃ c cs, w = c :: cs ∧ isNameStart c := by
  cases h with
  | call nonempty all => exact ⟨'F', _, rfl, rfl⟩
  | plain h =>
    obtain ⟨c, cs, rfl, start, -⟩ := h
    exact ⟨c, cs, rfl, start⟩
  | pair h h' =>
    obtain ⟨c, cs, rfl, start, -⟩ := h
    exact ⟨c, _, rfl, start⟩

/-- No lexeme begins with white space. -/
theorem Lexeme.FitsAt.head (fits : x.FitsAt expecting) :
    ∃ c cs, x.text = c :: cs ∧ isLayout c = false := by
  cases x with
  | name w =>
    have name : IsName w := fits.isWord
    obtain ⟨c, cs, rfl, start⟩ := name.head
    exact ⟨c, cs, rfl, isLayout_eq_false_of_isNameChar (isNameChar_of_isNameStart start)⟩
  | number w =>
    have number : IsNumber w := fits.isWord
    obtain ⟨c, cs, rfl, digit⟩ := number.head
    exact ⟨c, cs, rfl, isLayout_eq_false_of_isNameChar (isNameChar_of_isDigit digit)⟩
  | string w =>
    have quoted : IsQuoted w := fits.isWord
    obtain ⟨isMark, -⟩ := quoted
    rcases isMark with rfl | rfl
    · exact ⟨_, _, rfl, by decide⟩
    · exact ⟨_, _, rfl, by decide⟩
  | operator op | update op => cases op <;> exact ⟨_, _, rfl, by decide⟩
  | bar | leftParen | rightParen => exact ⟨_, _, rfl, by decide⟩

/-- Whether a text is read as a list of lexemes, without a rest. -/
def Lexes (expecting : Expecting) (t : Text) (xs : List Lexeme) : Prop :=
  ∀ position, (readLexemes 0 position expecting t).found.map Prod.snd = xs ∧
    (readLexemes 0 position expecting t).stopped = none

/-- Reading skips the characters of a lexeme that has been read. -/
theorem readLexemes_skip (expecting : Expecting) (u t : Text) (position : Nat) :
    readLexemes u.length position expecting (u ++ t) =
      readLexemes 0 (position + u.length) expecting t := by
  induction u generalizing position with
  | nil => rfl
  | cons c cs ih =>
    rw [List.length_cons, List.cons_append, readLexemes, ih, Nat.add_right_comm, Nat.add_assoc]

namespace Lexes

variable {expecting : Expecting} {t : Text} {xs : List Lexeme}

theorem nil : Lexes expecting [] [] := fun _ => ⟨rfl, rfl⟩

theorem space (h : Lexes expecting t xs) : Lexes expecting (' ' :: t) xs := fun position =>
  h (position + 1)

theorem lexeme (fits : x.FitsAt expecting) (ends : x = .leftParen ∨ EndsWord t)
    (h : Lexes (expecting.after x) t xs) : Lexes expecting (x.text ++ t) (x :: xs) := by
  intro position
  have found := lexeme?_append fits ends
  obtain ⟨c, cs, text_eq, notLayout⟩ := fits.head
  rw [text_eq, List.cons_append] at found ⊢
  rw [readLexemes, if_neg (by simp [notLayout]), found]
  simp only [text_eq, List.length_cons, Nat.add_sub_cancel, readLexemes_skip]
  obtain ⟨found_eq, stopped⟩ := h (position + 1 + cs.length)
  exact ⟨by rw [List.map_cons, found_eq], stopped⟩

end Lexes

end PolicyRules
