import PolicyRules.Proofs.LeafGrammar
import PolicyRules.Proofs.Stages

/-!
# Reading leaf expressions back

The text of a leaf expression with groups and strings put back is read as that expression. Its
lexemes are derived as a phrase in which each subexpression is the name of its token, and the phrase
becomes the expression again when the names are looked up.

Main statement: `SetAside.parseOperand_eq_ok_of_shows`.
-/

namespace PolicyRules

/-- The lexemes of a layout without keywords. Parentheses are lexemes, and a subexpression is the
name of its token. -/
inductive Flattens (table : List (Text × Expr)) : Layout → List Lexeme → Prop
  | nil : Flattens table .nil []
  | item {x : Lexeme} {rest : Layout} {xs : List Lexeme} (h : Flattens table rest xs) :
    Flattens table (.item (.lexeme x) rest) (x :: xs)
  | group {inner rest : Layout} {xs ys : List Lexeme} (inside : Flattens table inner xs)
    (h : Flattens table rest ys) :
    Flattens table (.nested .round inner rest) (.leftParen :: (xs ++ .rightParen :: ys))
  | token {inner rest : Layout} {n : Nat} {xs : List Lexeme}
    (value : ∀ e : Expr, e.Readable → inner = e.body →
      Table.value? (subexpressionToken n) table = some e) (h : Flattens table rest xs) :
    Flattens table (.nested .square inner rest) (.name (subexpressionToken n) :: xs)

/-- What is looked for after lexemes have been read. -/
def Expecting.afterAll (expecting : Expecting) (xs : List Lexeme) : Expecting :=
  xs.foldl after expecting

variable {xs : List Lexeme} {asked : Nat} {c : Char} {t : Text} {table : List (Text × Expr)}
  {e : Expr}

theorem lexable_append {expecting : Expecting} {ys : List Lexeme} :
    Lexable expecting (xs ++ ys) ↔ Lexable expecting xs ∧ Lexable (expecting.afterAll xs) ys := by
  induction xs generalizing expecting with
  | nil => simp [Lexable, Expecting.afterAll]
  | cons x xs ih => simp [Lexable, Expecting.afterAll, ih, and_assoc]

namespace Shows

variable {table : List (Text × Expr)} {l : Layout} {t : Text}

/-- The lexemes of a layout are found in its text, if each of them is looked for at its place. -/
theorem lexes (h : Shows (.leaf table) l t) :
    ∃ xs, Flattens table l xs ∧ ∀ {expecting : Expecting} {rest : Text} {ys : List Lexeme},
      EndsWord rest → Lexable expecting xs → Lexes (expecting.afterAll xs) rest ys →
      Lexes expecting (t ++ rest) (xs ++ ys) := by
  induction h with
  | nil => exact ⟨[], .nil, fun _ _ behind => behind⟩
  | space h ih =>
    obtain ⟨xs, flattens, lexes⟩ := ih
    exact ⟨xs, flattens, fun ends lexable behind => .space (lexes ends lexable behind)⟩
  | @item i w t rest shown gap h ih =>
    obtain ⟨xs, flattens, lexes⟩ := ih
    cases i with
    | keyword k ordinal => exact shown.2.elim
    | lexeme x =>
      have text_eq : w = x.text := by
        cases x <;> exact shown.2
      refine ⟨x :: xs, .item flattens, fun ends lexable behind => ?_⟩
      rw [text_eq, List.append_assoc]
      exact .lexeme lexable.1 (.inr (gap.endsWord ends)) (lexes ends lexable.2 behind)
  | @token b inner rest w t shown gap h ih =>
    obtain ⟨xs, flattens, lexes⟩ := ih
    obtain ⟨rfl, n, rfl, value⟩ := shown
    refine ⟨_, .token value flattens, fun ends lexable behind => ?_⟩
    rw [List.append_assoc]
    exact .lexeme lexable.1 (.inr (gap.endsWord ends)) (lexes ends lexable.2 behind)
  | @raw b inner rest g t stands inside gap h ih ih' =>
    obtain ⟨xs, flattens, lexes⟩ := ih
    obtain ⟨ys, flattens', lexes'⟩ := ih'
    obtain rfl : b = .round := stands
    refine ⟨_, .group flattens flattens', fun {expecting rest zs} ends lexable behind => ?_⟩
    obtain ⟨opening, lexable⟩ := lexable
    obtain ⟨lexable, closing, lexable'⟩ := lexable_append.mp lexable
    have behind' : Lexes ((expecting.after .leftParen).afterAll xs) (')' :: (t ++ rest))
        (.rightParen :: (ys ++ zs)) := by
      refine .lexeme (x := .rightParen) closing (.inr (gap.endsWord ends)) (lexes' ends lexable' ?_)
      simpa [Expecting.afterAll] using behind
    have inner_lexes := lexes (endsWord_closing .round (t ++ rest)) lexable behind'
    have text_eq : Bracket.round.opening :: (g ++ Bracket.round.closing :: t) ++ rest =
        Lexeme.leftParen.text ++ (g ++ Bracket.round.closing :: (t ++ rest)) := by
      simp [Lexeme.text, Bracket.opening]
    rw [text_eq]
    simpa using Lexes.lexeme opening (.inl rfl) inner_lexes

end Shows

namespace Flattens

variable {table : List (Text × Expr)} {l m : Layout} {xs : List Lexeme}

/-- What is flattened can be divided where the layout is. -/
theorem of_append (h : Flattens table (l ++ m) xs) :
    ∃ ys zs, Flattens table l ys ∧ Flattens table m zs ∧ xs = ys ++ zs := by
  induction l generalizing xs with
  | nil => exact ⟨[], xs, .nil, h, rfl⟩
  | item i rest ih =>
    cases h with
    | item h =>
      obtain ⟨ys, zs, first, second, rfl⟩ := ih h
      exact ⟨_, zs, .item first, second, rfl⟩
  | nested b inner rest _ ih =>
    cases h with
    | group inside h =>
      obtain ⟨ys, zs, first, second, rfl⟩ := ih h
      exact ⟨_, zs, .group inside first, second, by simp⟩
    | token value h =>
      obtain ⟨ys, zs, first, second, rfl⟩ := ih h
      exact ⟨_, zs, .token value first, second, rfl⟩

theorem of_item {x : Lexeme} (h : Flattens table (.item (.lexeme x) l) xs) :
    ∃ ys, Flattens table l ys ∧ xs = x :: ys := by
  cases h with
  | item h => exact ⟨_, h, rfl⟩

theorem of_single {x : Lexeme} (h : Flattens table (.item (.lexeme x) .nil) xs) : xs = [x] := by
  obtain ⟨ys, rest, rfl⟩ := h.of_item
  cases rest
  rfl

/-- Parentheses in a layout are parentheses among the lexemes. -/
theorem of_bracketed {rank : Nat}
    (h : Flattens table (.bracketed (if rank < asked then some .round else none) l) xs) :
    ∃ ys, Flattens table l ys ∧ xs = parenthesize (rank < asked) ys := by
  split at h
  · next needed =>
    cases h with
    | group inside h =>
      cases h with
      | nil => exact ⟨_, inside, by simp [parenthesize, needed]⟩
  · next needless => exact ⟨xs, h, by simp [parenthesize, needless]⟩

end Flattens

section Numerals

variable {radix : Radix} {w : Text}

/-- Digits are read to the end. -/
theorem digitRun?_eq (digits : ∀ c ∈ w, c ≠ '_' ∧ (radix.digit? c).isSome) (due : Bool)
    (nonempty : due → w ≠ []) : radix.digitRun? due w = some (w.filterMap radix.digit?, []) := by
  induction w generalizing due with
  | nil =>
    cases due with
    | false => rfl
    | true => exact absurd rfl (nonempty rfl)
  | cons c cs ih =>
    obtain ⟨⟨notUnderscore, isDigit⟩, later⟩ := List.forall_mem_cons.mp digits
    obtain ⟨d, digit⟩ := Option.isSome_iff_exists.mp isDigit
    rw [Radix.digitRun?, if_neg notUnderscore, digit]
    simp [ih later false (by simp), digit]

theorem digit?_of_isDigit (h : c.isDigit) : radix.digit? c = some (c.toNat - 0x30) := by
  simp [Radix.digit?, decimalDigit?_of_isDigit h]

theorem ne_underscore_of_isHexDigit (h : isHexDigit c) : c ≠ '_' := by
  rintro rfl
  cases h

theorem isSome_digit?_of_isHexDigit (h : isHexDigit c) : (Radix.hexadecimal.digit? c).isSome := by
  simp only [isHexDigit, Bool.or_eq_true, Bool.and_eq_true, decide_eq_true_eq] at h
  rcases h with (digit | lower) | upper
  · simp [digit?_of_isDigit digit]
  · cases decimal : decimalDigit? c <;> simp [Radix.digit?, decimal, lower]
  · by_cases lower : 'a' ≤ c ∧ c ≤ 'f' <;>
      cases decimal : decimalDigit? c <;> simp [Radix.digit?, decimal, lower, upper]

theorem isBlank_eq_false_of_isNumber (h : IsNumber w) : ∀ c ∈ w, isBlank c = false :=
    fun c member =>
  isBlank_eq_false_of_isPlainChar (isPlainChar_of_isNameChar (h.isNameChar c member))

theorem strip_eq_of_not_blank (h : ∀ c ∈ w, isBlank c = false) : Text.strip w = w := by
  have keep : ∀ u : Text, (∀ c ∈ u, isBlank c = false) → u.dropWhile isBlank = u := by
    intro u solid
    cases u with
    | nil => rfl
    | cons c cs => simp [solid c]
  rw [Text.strip, keep w h, keep w.reverse (by simpa using h), List.reverse_reverse]

theorem signed_of_isDigit (digit : c.isDigit) (cs : Text) :
    Radix.signed (c :: cs) = (1, c :: cs) := by
  unfold Radix.signed
  split
  · next same => rw [(List.cons.inj same).1] at digit; cases digit
  · next same => rw [(List.cons.inj same).1] at digit; cases digit
  · rfl

/-- Decimal digits are read, if there are not too many of them. -/
theorem read_decimal (nonempty : w ≠ []) (digits : ∀ c ∈ w, c.isDigit) :
    Radix.decimal.read w =
      if maxDecimalDigits < w.length then .error (.tooManyDigits w.length)
      else .ok (Radix.decimal.value (w.filterMap Radix.decimal.digit?)) := by
  obtain ⟨c, cs, rfl⟩ := List.exists_cons_of_ne_nil nonempty
  have run : Radix.decimal.digitRun? true (c :: cs) =
      some ((c :: cs).filterMap Radix.decimal.digit?, []) := by
    refine digitRun?_eq (fun d member => ?_) true fun _ => nonempty
    refine ⟨?_, by simp [digit?_of_isDigit (digits d member)]⟩
    rintro rfl
    cases digits _ member
  have count : ((c :: cs).filterMap Radix.decimal.digit?).length = (c :: cs).length := by
    rw [List.filterMap_congr fun d member => digit?_of_isDigit (digits d member)]
    simp
  have signed := signed_of_isDigit (digits c (by simp)) cs
  have plain : Radix.decimal.withoutIntroduction (c :: cs) = c :: cs := by
    unfold Radix.withoutIntroduction
    rfl
  rw [Radix.read, signed]
  simp only [plain, run, Radix.exceedsLimit, count, decide_eq_true_eq]
  split <;> simp

/-- Hexadecimal digits are read, however many they are. -/
theorem read_hexadecimal (nonempty : w ≠ []) (digits : ∀ c ∈ w, isHexDigit c) :
    Radix.hexadecimal.read ('0' :: 'x' :: w) =
      .ok (Radix.hexadecimal.value (w.filterMap Radix.hexadecimal.digit?)) := by
  have run : Radix.hexadecimal.digitRun? true w = some (w.filterMap Radix.hexadecimal.digit?,
    []) := by
    refine digitRun?_eq (fun d member => ?_) true fun _ => nonempty
    exact ⟨ne_underscore_of_isHexDigit (digits d member),
      isSome_digit?_of_isHexDigit (digits d member)⟩
  have plain : Radix.hexadecimal.withoutIntroduction ('0' :: 'x' :: w) = w := by
    obtain ⟨c, cs, rfl⟩ := List.exists_cons_of_ne_nil nonempty
    have notUnderscore := ne_underscore_of_isHexDigit (digits c (by simp))
    simp only [Radix.withoutIntroduction, true_or, if_true]
    split
    · next same => exact absurd (List.cons.inj same).1 notUnderscore
    · rfl
  rw [Radix.read, signed_of_isDigit (by decide)]
  simp [plain, run, Radix.exceedsLimit]

end Numerals

namespace Literal

/-- Decimal digits do not begin with a letter behind a zero. -/
theorem dropStart?_of_isDigit (digits : ∀ c ∈ t, c.isDigit) {x : Char}
    (letter : x.isDigit = false) : Text.dropStart? ['0', x] t = none := by
  cases dropped : Text.dropStart? ['0', x] t with
  | none => rfl
  | some rest =>
    rw [Text.dropStart?_eq_some_iff] at dropped
    have digit := digits x (by simp [dropped])
    rw [digit] at letter
    cases letter

theorem radixOf_of_isDigit (digits : ∀ c ∈ t, c.isDigit) : radixOf t = .decimal := by
  have lower := dropStart?_of_isDigit (x := 'x') digits (by decide)
  have upper := dropStart?_of_isDigit (x := 'X') digits (by decide)
  simp [radixOf, Text.startsWith, lower, upper]

/-- A numeral is read as the number that it stands for, if it has not too many decimal digits. -/
theorem read_numeral (number : IsNumber t) : (radixOf t).read t =
      if Text.startsWith "0x".toList t = false ∧ maxDecimalDigits < t.length
      then .error (.tooManyDigits t.length) else .ok (numeralValue t : Int) := by
  cases number with
  | decimal nonempty digits =>
    have lower : Text.dropStart? "0x".toList t = none := dropStart?_of_isDigit digits (by decide)
    simp only [radixOf_of_isDigit digits, read_decimal nonempty digits, numeralValue,
      Text.startsWith, lower, Option.isSome_none, true_and]
  | @hexadecimal digits nonempty all =>
    have lower : Text.startsWith "0x".toList ('0' :: 'x' :: digits) := rfl
    rw [if_neg fun long => Bool.noConfusion (lower.symm.trans long.1)]
    exact read_hexadecimal nonempty all

/-- A number that fits into a word is read as its literal, if it has not too many digits. -/
theorem ofNumber_eq_ok (number : IsNumber t) (range : (numeralValue t : Int) ≤ maxWord)
    (short : Text.startsWith "0x".toList t = false → t.length ≤ maxDecimalDigits) :
    ofNumber t = .ok (ofNumeral t) := by
  have read_eq : (radixOf t).read t = .ok (numeralValue t : Int) := by
    rw [read_numeral number, if_neg fun long => absurd (short long.1) (Nat.not_le.mpr long.2)]
  rw [ofNumber, strip_eq_of_not_blank (isBlank_eq_false_of_isNumber number)]
  simp only [read_eq, ofNumeral]
  split
  · rfl
  · rw [if_neg (by omega)]

/-- A numeral without a letter behind its first zero is a decimal number. -/
theorem isDecimal_of_numeral {l : Literal} (number : IsNumber l.text) (same : l = ofNumeral l.text)
    (decimal : Text.startsWith "0x".toList l.text = false) : l.isDecimal := by
  have notAddress : isAddress l.text = false := by
    rw [isAddress, strip_eq_of_not_blank (isBlank_eq_false_of_isNumber number)]
    rw [Text.startsWith, Option.isSome_eq_false_iff, Option.isNone_iff_eq_none] at decimal
    rw [decimal]
  have type_eq : l.type = .uint256 := by
    rw [same]
    simp [ofNumeral, notAddress]
  rw [isDecimal, type_eq, decimal]
  rfl

end Literal

/-- Whether the expressions of a table are kept under the tokens of subexpressions. -/
def Keyed (table : List (Text × Expr)) : Prop :=
  ∀ entry ∈ table, ∃ n : Nat, entry.1 = subexpressionToken n

theorem isReserved_subexpressionToken (n : Nat) : isReserved (subexpressionToken n) := by
  have start : Text.dropStart? "PLH".toList (subexpressionToken n) = some (Text.ofNat n) :=
    Text.dropStart?_eq_some_iff.mpr rfl
  have numbered : isNumberedWord "PLH".toList (subexpressionToken n) := by
    simp only [isNumberedWord, start, Bool.and_eq_true, Bool.not_eq_true',
      List.isEmpty_eq_false_iff, List.all_eq_true]
    exact ⟨ofNat_ne_nil n, fun c => isDigit_of_mem_ofNat⟩
  rw [isReserved, numbered, Bool.or_true]

/-- A name that can be printed is not in the table of subexpressions. -/
theorem value?_eq_none (keyed : Keyed table) {text : Text}
    (free : ∀ part ∈ text.fields (· == ':'), isReserved part = false) :
    Table.value? text table = none := by
  cases found : Table.value? text table with
  | none => rfl
  | some e =>
    obtain ⟨entry, isEntry, rfl⟩ := Option.map_eq_some_iff.mp found
    obtain ⟨n, key_eq⟩ := keyed entry (Table.mem_of_find? isEntry)
    rw [Table.name_of_find? isEntry] at key_eq
    subst key_eq
    have single : Text.fields (· == ':') (subexpressionToken n) = [subexpressionToken n] := by
      refine fields_of_forall fun c member => ?_
      have noColon : ':' ∉ subexpressionToken n :=
        not_mem_append_ofNat "PLH".toList (by decide) (by decide) n
      simpa using fun same : c = ':' => noColon (same ▸ member)
    have reserved := free (subexpressionToken n) (by simp [single])
    rw [isReserved_subexpressionToken] at reserved
    cases reserved

theorem isName_subexpressionToken (n : Nat) : IsName (subexpressionToken n) := by
  refine .plain ⟨'P', 'L' :: 'H' :: Text.ofNat n, rfl, by decide, ?_⟩
  simp only [List.mem_cons, forall_eq_or_imp]
  exact ⟨by decide, by decide, fun c => isNameChar_of_mem_ofNat⟩

namespace Flattens

variable {table : List (Text × Expr)}

/-- A connective or a negation in a leaf expression is the name of its token. -/
theorem of_square (readable : e.Readable) (h : Flattens table (.nested .square e.body .nil) xs) :
    ∃ p : Phrase, Derives (.ofRank asked) xs p ∧ p.toExpr table = .ok e := by
  cases h with
  | @token _ _ n _ value h =>
    cases h with
    | nil =>
      have operand : Derives (.ofRank (asked + operandRank)) _ _ :=
        .name (isName_subexpressionToken n)
      refine ⟨_, operand.ofRank_mono (Nat.le_add_right asked operandRank), ?_⟩
      rw [Phrase.toExpr, Expr.ofName, value e readable rfl]

/-- A literal is an operand. -/
theorem literal_phrase {l : Literal} (keyed : Keyed table) (printable : l.Printable)
    (short : l.isDecimal → l.text.length ≤ maxDecimalDigits) :
    ∃ p : Phrase, Derives .primary [l.lexeme] p ∧ p.toExpr table = .ok (.literal l) := by
  have proper := printable.proper
  rcases printable with ⟨number, same, range⟩ | ⟨string, same, -, -⟩ | rfl | rfl
  · rw [Literal.lexeme_of_numeral same] at proper ⊢
    refine ⟨.number l.text, .number proper, ?_⟩
    have isNumber := isNumber_of_numberLexeme? number
    have read := Literal.ofNumber_eq_ok isNumber range fun decimal =>
      short (Literal.isDecimal_of_numeral isNumber same decimal)
    rw [Phrase.toExpr, read, ← same]
  · rw [Literal.lexeme_of_quoted same] at proper ⊢
    exact ⟨.string l.text, .string proper.1, by rw [Phrase.toExpr, ← same]⟩
  · have unbound : Table.value? "true".toList table = none := value?_eq_none keyed proper.2
    exact ⟨.name "true".toList, .name proper.1, by rw [Phrase.toExpr, Expr.ofName, unbound]; rfl⟩
  · have unbound : Table.value? "false".toList table = none := value?_eq_none keyed proper.2
    exact ⟨.name "false".toList, .name proper.1, by rw [Phrase.toExpr, Expr.ofName, unbound]; rfl⟩

/-- The lexemes of a layout are derived as a phrase that stands for the expression. -/
theorem phrase (keyed : Keyed table) (printable : e.Printable) (legible : e.Legible)
    (h : Flattens table (e.layout (.leaf asked)) xs) :
    ∃ p : Phrase, Derives (.ofRank asked) xs p ∧ p.toExpr table = .ok e := by
  induction e generalizing asked xs with
  | hole => exact printable.elim
  | literal l =>
    obtain ⟨ys, body, rfl⟩ := h.of_bracketed
    rw [body.of_single]
    obtain ⟨p, derives, toExpr⟩ :=
      literal_phrase keyed printable (legible l (by simp [Expr.literals]))
    exact ⟨p, .parenthesize operandRank derives, toExpr⟩
  | name text =>
    obtain ⟨ys, body, rfl⟩ := h.of_bracketed
    obtain ⟨name, notTrue, notFalse⟩ := printable
    rw [body.of_single]
    refine ⟨_, .parenthesize operandRank (.name name.proper.1), ?_⟩
    rw [Phrase.toExpr, Expr.ofName, value?_eq_none keyed name.2]
    simp only [notTrue, notFalse, or_self, if_false]
  | mapped key tracker ih =>
    obtain ⟨ys, body, rfl⟩ := h.of_bracketed
    obtain ⟨ks, zs, key_lexemes, behind, rfl⟩ := body.of_append
    obtain ⟨ts, last, rfl⟩ := behind.of_item
    obtain ⟨p, derives, value⟩ := ih printable.1 legible key_lexemes
    rw [last.of_single]
    refine ⟨_, .parenthesize 3 (.mapped derives printable.2.1.proper.1), ?_⟩
    simp only [Phrase.toExpr, bind_eq_ok_iff, pure_eq_ok_iff, requireTracker_eq_ok_iff]
    exact ⟨key, value, (), printable.2.2, rfl⟩
  | binary op left right ihl ihr =>
    obtain ⟨legible_left, legible_right⟩ := Expr.legible_append legible
    obtain ⟨ys, body, rfl⟩ := h.of_bracketed
    obtain ⟨ls, zs, left_lexemes, behind, rfl⟩ := body.of_append
    obtain ⟨rs, right_lexemes, rfl⟩ := behind.of_item
    obtain ⟨p, derives, value⟩ := ihl printable.2.1 legible_left left_lexemes
    obtain ⟨q, derives', value'⟩ := ihr printable.2.2 legible_right right_lexemes
    refine ⟨_, .parenthesize op.rank (.binary printable.1 derives derives'), ?_⟩
    simp only [Phrase.toExpr, bind_eq_ok_iff, pure_eq_ok_iff]
    exact ⟨left, value, right, value', rfl⟩
  | logical op ordinal left right ihl ihr | negation ordinal operand ih =>
    exact of_square ⟨printable, legible⟩ h
  | update op tracker value ih =>
    obtain ⟨ys, body, rfl⟩ := h.of_bracketed
    obtain ⟨ts, behind, rfl⟩ := body.of_item
    obtain ⟨vs, value_lexemes, rfl⟩ := behind.of_item
    obtain ⟨p, derives, toExpr⟩ := ih printable.2 legible value_lexemes
    refine ⟨_, .parenthesize 0 (.update op printable.1.1.proper.1 derives), ?_⟩
    simp only [Phrase.toExpr, bind_eq_ok_iff]
    exact ⟨value, toExpr, by rw [if_pos printable.1.2]; rfl⟩
  | updateMapped op key tracker value ihk ihv =>
    obtain ⟨legible_key, legible_value⟩ := Expr.legible_append legible
    obtain ⟨ys, body, rfl⟩ := h.of_bracketed
    obtain ⟨ks, zs, key_lexemes, behind, rfl⟩ := body.of_append
    obtain ⟨bs, afterBar, rfl⟩ := behind.of_item
    obtain ⟨ts, afterTracker, rfl⟩ := afterBar.of_item
    obtain ⟨vs, value_lexemes, rfl⟩ := afterTracker.of_item
    obtain ⟨p, derives, toExpr⟩ := ihk printable.1 legible_key key_lexemes
    obtain ⟨q, derives', toExpr'⟩ := ihv printable.2.2 legible_value value_lexemes
    refine ⟨_, .parenthesize 0 (.updateMapped op derives printable.2.1.1.proper.1 derives'), ?_⟩
    simp only [Phrase.toExpr, bind_eq_ok_iff, pure_eq_ok_iff, requireTracker_eq_ok_iff]
    exact ⟨key, toExpr, (), printable.2.1.2, value, toExpr', rfl⟩

end Flattens

theorem Layout.isLeaf_append {l m : Layout} (h : l.IsLeaf) (h' : m.IsLeaf) : (l ++ m).IsLeaf := by
  induction l with
  | nil => exact h'
  | item i rest ih =>
    cases i with
    | lexeme x => exact ih h
    | keyword k ordinal => exact h.elim
  | nested b inner rest _ ih =>
    cases b with
    | round => exact ⟨h.1, ih h.2⟩
    | square => exact ih h

namespace Expr

/-- Whether an expression belongs to a logical level. -/
def isConnective : Expr → Bool
  | logical _ _ _ _ | negation _ _ => true
  | _ => false

/-- An expression at a place of a leaf has a layout without levels. -/
theorem isLeaf_layout (e : Expr) (asked : Nat) : (e.layout (.leaf asked)).IsLeaf := by
  have enclosed : ∀ {l : Layout} {needed : Prop} [Decidable needed], l.IsLeaf →
      (Layout.bracketed (if needed then some .round else none) l).IsLeaf := by
    intro l needed _ h
    split
    · exact ⟨h, trivial⟩
    · exact h
  induction e generalizing asked with
  | hole | literal l | name text => exact enclosed trivial
  | mapped key tracker ih => exact enclosed (Layout.isLeaf_append (ih _) trivial)
  | binary op left right ihl ihr => exact enclosed (Layout.isLeaf_append (ihl _) (ihr _))
  | logical op ordinal left right | negation ordinal operand => exact trivial
  | update op tracker value ih => exact enclosed (ih _)
  | updateMapped op key tracker value ihk ihv =>
    exact enclosed (Layout.isLeaf_append (ihk _) (ihv _))

theorem layout_leaf_zero (h : e.isConnective = false) : e.layout (.leaf 0) = e.body := by
  cases e with
  | logical op ordinal left right => cases h
  | negation ordinal operand => cases h
  | _ => rfl

end Expr

theorem passes_keywordWordAt_of_leaf {l rest : Layout} {w : Text}
    (leads : (View.leaf table).Leads l rest w) : Passes keywordWordAt w := by
  cases leads with
  | item shown =>
    refine shown.elim (fun x proper plain => (proper.isUnreserved plain).passes_keywordWordAt) ?_
      fun _ _ => False.elim
    rintro text proper rfl
    exact IsQuoted.passes_keywordWordAt proper.2.1
  | token shown =>
    obtain ⟨-, n, rfl, -⟩ := shown
    exact passes_keywordWordAt_subexpressionToken n

namespace SetAside

variable {s : SetAside} {e : Expr} {t : Text}

/-- The text of a leaf expression with groups and strings put back is read as the expression. -/
theorem parseLeaf_eq_ok_of_shows (keyed : Keyed table)
    (printable : e.Printable) (legible : e.Legible) (leaf : e.isConnective = false)
    (h : Shows (.leaf table) e.body t) : parseLeaf table t = .ok e := by
  obtain ⟨xs, flattens, lexes⟩ := h.lexes
  rw [← Expr.layout_leaf_zero leaf] at flattens
  obtain ⟨p, sentence, toExpr⟩ := flattens.phrase keyed printable legible
  have found : Lexes (.operand true) t xs := by
    simpa using lexes endsWord_nil (Sentence.lexable sentence) .nil
  rw [parseLeaf, ofText_of_lexes found sentence]
  exact toExpr

/-- An operand that is a leaf expression is read as it was printed. -/
theorem parseOperand_eq_ok_of_shows {keywords : List Keyword} {start n : Nat} {groups : List Text}
    (found : ∀ n group, groups[n]? = some group → s.groups[start + n]? = some group)
    (smallGroups : s.groups.length ≤ 10 ^ maxDecimalDigits)
    (smallStrings : s.strings.length ≤ 10 ^ maxDecimalDigits) (deep : n < s.depth)
    (keyed : Keyed s.subexpressions) (printable : e.Printable) (legible : e.Legible)
    (leaf : e.isConnective = false)
    (h : Shows (.collapsed s.strings keywords s.subexpressions start groups n) e.body t) :
    s.parseOperand t = .ok e := by
  have isLeaf : e.body.IsLeaf := by
    rw [← Expr.layout_leaf_zero leaf]
    exact e.isLeaf_layout 0
  obtain ⟨opened, expanded, shown⟩ :=
    shows_expandWithin found smallGroups smallStrings deep h isLeaf
  have quiet : Quiet keywordTokenAt none opened [] :=
    quiet_keywordTokenAt (shown.quiet (firm_leaf _) skipsSeparators_keywordWordAt
      fun _ _ _ => passes_keywordWordAt_of_leaf)
  have unmarked : (opened.split keywordTokenAt).tail.isEmpty := by
    rw [Text.split, Split.scan_of_quiet quiet]
    rfl
  rw [parseOperand, expand, expanded]
  simp only [bind, Except.bind, unmarked, if_true]
  exact parseLeaf_eq_ok_of_shows keyed printable legible leaf shown

end SetAside

end PolicyRules
