import PolicyRules.Proofs.Layout
import PolicyRules.Proofs.PhraseText

/-!
# Printing expressions

The text of an expression, with its words and brackets set apart by single spaces. On a logical
level the left operand of a connective stands without brackets, and a connective that is a right
operand or is negated stands in parentheses. Under an operator of a leaf expression a connective or
a negation stands in square brackets, and a leaf operator stands in parentheses where its rank is
lower than the one asked for.

An expression can be printed if its names, numbers and strings can be read as such
(`Expr.Printable`). Printing does not show the ordinals of keywords; `Expr.renumber` gives them in
the order of the text.

Main statements: `Expr.shows_body`, the words of an expression have its layout, and
`Expr.print_renumber`.
-/

namespace PolicyRules

/-- How a word is written. -/
def Item.text : Item → Text
  | .lexeme x => x.text
  | .keyword k _ => k.text

/-- The words and brackets of a layout, in the order of the text. -/
def Layout.words : Layout → List Text
  | nil => []
  | item i rest => i.text :: rest.words
  | nested b inner rest => [b.opening] :: (inner.words ++ [b.closing] :: rest.words)

theorem Layout.words_append (l m : Layout) : (l ++ m).words = l.words ++ m.words := by
  induction l with
  | nil => rfl
  | item i rest ih | nested b inner rest _ ih => simp [words, ih]

/-- Puts a layout into brackets, if any are given. -/
def Layout.bracketed : Option Bracket → Layout → Layout
  | some b, l => nested b l nil
  | none, l => l

/-- Where an expression stands: on a logical level, behind a keyword, or at a place of a leaf
expression that asks for a rank. -/
inductive Place where
  | level
  | operand
  | leaf (asked : Nat)

/-- The lexeme of a literal. -/
def Literal.lexeme (l : Literal) : Lexeme :=
  match l.type with
  | .bool => .name l.text
  | .string | .bytes => .string l.text
  | _ => .number l.text

namespace Expr

/-- How tightly an expression binds in a leaf expression. -/
def rank : Expr → Nat
  | binary op _ _ => op.rank
  | update _ _ _ | updateMapped _ _ _ _ => 0
  | mapped _ _ => 3
  | _ => operandRank

/-- The brackets that an expression needs at a place. -/
def brackets : Place → Expr → Option Bracket
  | .level, _ => none
  | .operand, logical _ _ _ _ => some .round
  | .operand, _ => none
  | .leaf _, logical _ _ _ _ | .leaf _, negation _ _ => some .square
  | .leaf asked, e => if e.rank < asked then some .round else none

/-- The layout of an expression without brackets around it. -/
def body : Expr → Layout
  | hole => .nil
  | literal l => .item (.lexeme l.lexeme) .nil
  | name text => .item (.lexeme (.name text)) .nil
  | mapped key tracker =>
    .bracketed (key.brackets (.leaf operandRank)) key.body ++
      .item (.lexeme .bar) (.item (.lexeme (.name tracker)) .nil)
  | binary op left right =>
    .bracketed (left.brackets (.leaf (max 1 op.rank))) left.body ++
      .item (.lexeme (.operator op)) (.bracketed (right.brackets (.leaf (op.rank + 1))) right.body)
  | logical op ordinal left right =>
    left.body ++ .item (.keyword op ordinal) (.bracketed (right.brackets .operand) right.body)
  | negation ordinal operand =>
    .item (.keyword .not ordinal) (.bracketed (operand.brackets .operand) operand.body)
  | update op tracker value =>
    .item (.lexeme (.name tracker))
      (.item (.lexeme (.update op)) (.bracketed (value.brackets (.leaf 1)) value.body))
  | updateMapped op key tracker value =>
    .bracketed (key.brackets (.leaf operandRank)) key.body ++
      .item (.lexeme .bar) (.item (.lexeme (.name tracker))
        (.item (.lexeme (.update op)) (.bracketed (value.brackets (.leaf 1)) value.body)))

/-- The layout of an expression at a place. -/
def layout (place : Place) (e : Expr) : Layout := .bracketed (e.brackets place) e.body

/-- The text of an expression. -/
def print (e : Expr) : Text := [' '].intercalate e.body.words

end Expr

/-- Whether a word is a given word with a number behind it. -/
def isNumberedWord (start w : Text) : Bool :=
  match Text.dropStart? start w with
  | some digits => ! digits.isEmpty && digits.all Char.isDigit
  | none => false

/-- Whether a part of a name would be read as a keyword, or as the token of a keyword or of a
subexpression. -/
def isReserved (part : Text) : Bool :=
  (Keyword.ofText? part).isSome || isNumberedWord "PLA".toList part ||
    isNumberedWord "PLH".toList part

/-- Whether a text has given characters with a digit behind them in it. -/
def hasNumbered (start t : Text) : Bool :=
  t.tails.any fun u => (Text.dropStart? start u).any fun rest => rest.head?.any isDecimalDigit

/-- Whether a name can be printed. -/
def PrintableName (text : Text) : Prop :=
  nameLexeme? text = some text ∧ ∀ part ∈ text.fields (· == ':'), isReserved part = false

/-- Whether the name of a tracker can be printed. -/
def PrintableTracker (text : Text) : Prop :=
  PrintableName text ∧ (trackerReference? text).isSome

instance (text : Text) : Decidable (PrintableName text) := inferInstanceAs (Decidable (_ ∧ _))

instance (text : Text) : Decidable (PrintableTracker text) := inferInstanceAs (Decidable (_ ∧ _))

/-- The number that a numeral stands for. -/
def numeralValue (t : Text) : Nat :=
  match Text.dropStart? "0x".toList t with
  | some digits => Radix.hexadecimal.value (digits.filterMap Radix.hexadecimal.digit?)
  | none => Radix.decimal.value (t.filterMap Radix.decimal.digit?)

namespace Literal

/-- The literal of a numeral. -/
def ofNumeral (t : Text) : Literal :=
  ⟨.int (numeralValue t), if isAddress t then .address else .uint256, t⟩

/-- Whether a literal can be printed: a number that fits into a word, a quoted string without tokens
of keywords and strings in it, or a truth value. -/
def Printable (l : Literal) : Prop :=
  (numberLexeme? l.text = some l.text ∧ l = ofNumeral l.text ∧
    (numeralValue l.text : Int) ≤ maxWord) ∨
  (stringLexeme? l.text = some l.text ∧ l = ofQuoted l.text ∧
    hasNumbered "PLA".toList l.text = false ∧
    hasNumbered "q:".toList l.text = false) ∨
  l = ofBool "true".toList ∨ l = ofBool "false".toList

instance (l : Literal) : Decidable l.Printable := inferInstanceAs (Decidable (_ ∨ _))

end Literal

variable {e : Expr} {l : Literal}

namespace Expr

/-- Whether an expression can be printed. -/
def Printable : Expr → Prop
  | hole => False
  | literal l => l.Printable
  | name text => PrintableName text ∧ text ≠ "true".toList ∧ text ≠ "false".toList
  | mapped key tracker => key.Printable ∧ PrintableTracker tracker
  | binary op left right => op.isInfix ∧ left.Printable ∧ right.Printable
  | logical op _ left right => op ≠ .not ∧ left.Printable ∧ right.Printable
  | negation _ operand => operand.Printable
  | update _ tracker value => PrintableTracker tracker ∧ value.Printable
  | updateMapped _ key tracker value => key.Printable ∧ PrintableTracker tracker ∧ value.Printable

instance decidablePrintable : (e : Expr) → Decidable e.Printable
  | hole => .isFalse id
  | literal l => inferInstanceAs (Decidable l.Printable)
  | name text => inferInstanceAs (Decidable (PrintableName text ∧ _))
  | mapped key tracker =>
    have := key.decidablePrintable
    inferInstanceAs (Decidable (key.Printable ∧ PrintableTracker tracker))
  | binary op left right =>
    have := left.decidablePrintable
    have := right.decidablePrintable
    inferInstanceAs (Decidable (op.isInfix ∧ left.Printable ∧ right.Printable))
  | logical op _ left right =>
    have := left.decidablePrintable
    have := right.decidablePrintable
    inferInstanceAs (Decidable (op ≠ .not ∧ left.Printable ∧ right.Printable))
  | negation _ operand => operand.decidablePrintable
  | update _ tracker value =>
    have := value.decidablePrintable
    inferInstanceAs (Decidable (PrintableTracker tracker ∧ value.Printable))
  | updateMapped _ key tracker value =>
    have := key.decidablePrintable
    have := value.decidablePrintable
    inferInstanceAs (Decidable (key.Printable ∧ PrintableTracker tracker ∧ value.Printable))

/-- The keywords of an expression, in the order of the text. -/
def connectives : Expr → List Keyword
  | hole | literal _ | name _ => []
  | mapped key _ => key.connectives
  | binary _ left right => left.connectives ++ right.connectives
  | logical op _ left right => left.connectives ++ op :: right.connectives
  | negation _ operand => .not :: operand.connectives
  | update _ _ value => value.connectives
  | updateMapped _ key _ value => key.connectives ++ value.connectives

/-- The expression with its keywords numbered from `n` in the order of the text. -/
def renumber : (n : Nat) → Expr → Expr
  | _, hole => hole
  | _, literal l => literal l
  | _, name text => name text
  | n, mapped key tracker => mapped (key.renumber n) tracker
  | n, binary op left right =>
    binary op (left.renumber n) (right.renumber (n + left.connectives.length))
  | n, logical op _ left right =>
    logical op (n + left.connectives.length : Nat) (left.renumber n)
      (right.renumber (n + left.connectives.length + 1))
  | n, negation _ operand => negation n (operand.renumber (n + 1))
  | n, update op tracker value => update op tracker (value.renumber n)
  | n, updateMapped op key tracker value =>
    updateMapped op (key.renumber n) tracker (value.renumber (n + key.connectives.length))

@[simp] theorem brackets_renumber (place : Place) (n : Nat) (e : Expr) :
    (e.renumber n).brackets place = e.brackets place := by
  cases place <;> cases e <;> rfl

/-- What can be printed can be printed with other ordinals. -/
theorem printable_renumber {n : Nat} (h : e.Printable) : (e.renumber n).Printable := by
  induction e generalizing n with
  | hole | literal l | name text => exact h
  | mapped key tracker ih => exact ⟨ih h.1, h.2⟩
  | binary op left right ihl ihr | logical op ordinal left right ihl ihr =>
    exact ⟨h.1, ihl h.2.1, ihr h.2.2⟩
  | negation ordinal operand ih => exact ih h
  | update op tracker value ih => exact ⟨h.1, ih h.2⟩
  | updateMapped op key tracker value ihk ihv => exact ⟨ihk h.1, h.2.1, ihv h.2.2⟩

end Expr

theorem Layout.words_bracketed_congr {l m : Layout} (h : l.words = m.words) (b : Option Bracket) :
    (bracketed b l).words = (bracketed b m).words := by
  cases b with
  | none => exact h
  | some b => simp [bracketed, words, h]

namespace Expr

/-- The ordinals of keywords are not printed. -/
theorem words_body_renumber (n : Nat) (e : Expr) : (e.renumber n).body.words = e.body.words := by
  induction e generalizing n with
  | hole | literal l | name text => rfl
  | mapped key tracker ih =>
    simp [renumber, body, Layout.words_append, Layout.words_bracketed_congr (ih _)]
  | binary op left right ihl ihr =>
    simp [renumber, body, Layout.words_append, Layout.words, Layout.words_bracketed_congr (ihl _),
      Layout.words_bracketed_congr (ihr _)]
  | logical op ordinal left right ihl ihr =>
    simp [renumber, body, Layout.words_append, Layout.words, ihl, Item.text,
      Layout.words_bracketed_congr (ihr _)]
  | negation ordinal operand ih =>
    simp [renumber, body, Layout.words, Item.text, Layout.words_bracketed_congr (ih _)]
  | update op tracker value ih =>
    simp [renumber, body, Layout.words, Layout.words_bracketed_congr (ih _)]
  | updateMapped op key tracker value ihk ihv =>
    simp [renumber, body, Layout.words_append, Layout.words, Layout.words_bracketed_congr (ihk _),
      Layout.words_bracketed_congr (ihv _)]

/-- Ordinals are not printed. -/
theorem print_renumber (n : Nat) (e : Expr) : (e.renumber n).print = e.print := by
  rw [print, print, words_body_renumber]

end Expr

/-- Whether a literal is a number in decimal digits. -/
def Literal.isDecimal (l : Literal) : Bool :=
  l.type == .uint256 && ! Text.startsWith "0x".toList l.text

/-- The literals of an expression. -/
def Expr.literals : Expr → List Literal
  | hole | name _ => []
  | literal l => [l]
  | mapped key _ => key.literals
  | binary _ left right | logical _ _ left right => left.literals ++ right.literals
  | negation _ operand => operand.literals
  | update _ _ value => value.literals
  | updateMapped _ key _ value => key.literals ++ value.literals

/-- Whether the decimal numbers of an expression have no more digits than are read. -/
def Expr.Legible (e : Expr) : Prop :=
  ∀ l ∈ e.literals, l.isDecimal → l.text.length ≤ maxDecimalDigits

instance (e : Expr) : Decidable e.Legible := inferInstanceAs (Decidable (∀ l ∈ e.literals, _))

theorem Expr.legible_append {ls ms : List Literal}
    (h : ∀ l ∈ ls ++ ms, l.isDecimal → l.text.length ≤ maxDecimalDigits) :
    (∀ l ∈ ls, l.isDecimal → l.text.length ≤ maxDecimalDigits) ∧
      ∀ l ∈ ms, l.isDecimal → l.text.length ≤ maxDecimalDigits :=
  ⟨fun l member => h l (List.mem_append_left _ member),
    fun l member => h l (List.mem_append_right _ member)⟩

/-- Whether an expression can be printed and its text can be read. -/
def Expr.Readable (e : Expr) : Prop := e.Printable ∧ e.Legible

/-- Whether a lexeme can be printed. Parentheses are not words of a layout. -/
def Lexeme.Proper : Lexeme → Prop
  | name text => IsName text ∧ ∀ part ∈ text.fields (· == ':'), isReserved part = false
  | number text => IsNumber text
  | string text => IsQuoted text ∧ hasNumbered "PLA".toList text = false ∧
      hasNumbered "q:".toList text = false
  | operator op => op.isInfix
  | update _ | bar => True
  | leftParen | rightParen => False

/-- Whether a word can be printed. -/
def Item.Proper : Item → Prop
  | lexeme x => x.Proper
  | keyword _ _ => True

/-- Whether a part in brackets can be printed: in square brackets stands an expression. -/
def Layout.Enclosable : Bracket → Layout → Prop
  | .round, _ => True
  | .square, inner => ∃ e : Expr, e.Readable ∧ inner = e.body

/-- Whether a word stands for an item that can be printed, where strings and keywords stand as the
two relations say. -/
def Item.Stands (strings : Text → Text → Prop) (keywords : Keyword → Int → Text → Prop) (i : Item)
    (w : Text) : Prop :=
  i.Proper ∧
    match i with
    | lexeme (.string text) => strings text w
    | lexeme x => w = x.text
    | keyword k ordinal => keywords k ordinal w

/-- Strings as they are printed. -/
def stringWritten (text w : Text) : Prop := w = text

/-- Keywords as they are printed. -/
def keywordWritten (k : Keyword) (_ : Int) (w : Text) : Prop := w = k.text

/-- The view in which words and brackets stand as they are printed. -/
def View.printed : View where
  item := Item.Stands stringWritten keywordWritten
  raw := Layout.Enclosable
  token _ _ _ := False

/-- A proper item stands for itself where it is printed. -/
theorem Item.Proper.stands_text {i : Item} (proper : i.Proper) :
    i.Stands stringWritten keywordWritten i.text := by
  refine ⟨proper, ?_⟩
  split <;> rfl

/-- Words with a space before each of them. -/
def spaced (words : List Text) : Text := words.flatMap (' ' :: ·)

theorem gap_spaced (words : List Text) : Gap (spaced words) := by
  cases words <;> simp [spaced]

namespace Shows

variable {v : View} {l m : Layout} {t u : Text}

/-- Texts that show two layouts show them one behind the other, with a gap between. -/
theorem append (h : Shows v l t) (gap : Gap u) (behind : Shows v m u) :
    Shows v (l ++ m) (t ++ u) := by
  have both : ∀ {t}, Gap t → Gap (t ++ u) := fun {t} first => by
    cases t with
    | nil => exact gap
    | cons c cs => exact first
  induction h with
  | nil => exact behind
  | space h ih => exact .space ih
  | item shown gap h ih =>
    rw [List.append_assoc]
    exact .item shown (both gap) ih
  | token shown gap h ih =>
    rw [List.append_assoc]
    exact .token shown (both gap) ih
  | raw stands inside gap h ih ih' => simpa using Shows.raw stands inside (both gap) ih'

/-- A text keeps its layout without the space before it. -/
theorem of_space (firm : v.Firm) (h : Shows v l (' ' :: t)) : Shows v l t := by
  generalize same : ' ' :: t = u at h
  cases h using Shows.induction with
  | nil => cases same
  | space l u h =>
    obtain ⟨-, rfl⟩ := List.cons.inj same
    exact h
  | word l rest w u leads =>
    exact absurd (same ▸ gap_space t) (firm.not_gap leads u)
  | raw b => cases b <;> cases same

/-- A layout that is shown is shown in brackets, if it can stand in them. -/
theorem bracketed (h : Shows .printed l (spaced l.words)) {b : Option Bracket}
    (stands : ∀ c, b = some c → l.Enclosable c) :
    Shows .printed (.bracketed b l) (spaced (Layout.bracketed b l).words) := by
  cases b with
  | none => exact h
  | some b =>
    have inside : Shows .printed l (spaced l.words ++ [' ']) := by
      simpa using h.append (gap_space []) (.space .nil)
    simpa [Layout.bracketed, Layout.words, spaced] using
      Shows.space (.raw (v := .printed) (stands b rfl) inside gap_nil .nil)

theorem proper_item {i : Item} (proper : i.Proper) (h : Shows .printed l (spaced l.words)) :
    Shows .printed (.item i l) (spaced (Layout.item i l).words) :=
  .space (.item proper.stands_text (gap_spaced _) h)

/-- Layouts that are shown by their words are so together. -/
theorem append_spaced (h : Shows .printed l (spaced l.words))
    (h' : Shows .printed m (spaced m.words)) : Shows .printed (l ++ m) (spaced (l ++ m).words) := by
  rw [Layout.words_append, spaced, List.flatMap_append]
  exact h.append (gap_spaced _) h'

end Shows

theorem Literal.lexeme_of_numeral (h : l = ofNumeral l.text) : l.lexeme = .number l.text := by
  have type_eq : l.type = if isAddress l.text then .address else .uint256 := by
    rw [h]
    rfl
  rw [lexeme, type_eq]
  cases isAddress l.text <;> rfl

theorem Literal.lexeme_of_quoted (h : l = ofQuoted l.text) : l.lexeme = .string l.text := by
  have type_eq : l.type =
      if Text.startsWith "0x".toList ((l.text.drop 1).dropLast) then .bytes else .string := by
    rw [h]
    rfl
  rw [lexeme, type_eq]
  cases Text.startsWith "0x".toList ((l.text.drop 1).dropLast) <;> rfl

theorem Literal.Printable.proper (h : l.Printable) : l.lexeme.Proper := by
  rcases h with ⟨number, same, -⟩ | ⟨string, same, keywords, strings⟩ | rfl | rfl
  · rw [lexeme_of_numeral same]
    exact isNumber_of_numberLexeme? number
  · rw [lexeme_of_quoted same]
    exact ⟨isQuoted_of_stringLexeme? string, keywords, strings⟩
  · exact ⟨isName_of_nameLexeme? (t := "true".toList) (by decide), by decide⟩
  · exact ⟨isName_of_nameLexeme? (t := "false".toList) (by decide), by decide⟩

theorem PrintableName.proper {text : Text} (h : PrintableName text) : (Lexeme.name text).Proper :=
  ⟨isName_of_nameLexeme? h.1, h.2⟩

namespace Expr

/-- What can be read can stand in brackets. -/
theorem enclosable_body (h : e.Readable) (b : Bracket) : e.body.Enclosable b := by
  cases b with
  | round => trivial
  | square => exact ⟨e, h, rfl⟩

theorem shows_layout (h : e.Readable) (shown : Shows .printed e.body (spaced e.body.words))
    (place : Place) : Shows .printed (e.layout place) (spaced (e.layout place).words) :=
  shown.bracketed fun b _ => enclosable_body h b

/-- A printed expression shows its layout. -/
theorem shows_body (h : e.Printable) (legible : e.Legible) :
    Shows .printed e.body (spaced e.body.words) := by
  induction e with
  | hole => exact h.elim
  | literal l => exact .proper_item h.proper .nil
  | name text => exact .proper_item h.1.proper .nil
  | mapped key tracker ih =>
    have key_shown := shows_layout ⟨h.1, legible⟩ (ih h.1 legible) (.leaf operandRank)
    exact key_shown.append_spaced (.proper_item trivial (.proper_item h.2.1.proper .nil))
  | binary op left right ihl ihr =>
    obtain ⟨legible_left, legible_right⟩ := legible_append legible
    have left_shown :=
      shows_layout ⟨h.2.1, legible_left⟩ (ihl h.2.1 legible_left) (.leaf (max 1 op.rank))
    have right_shown :=
      shows_layout ⟨h.2.2, legible_right⟩ (ihr h.2.2 legible_right) (.leaf (op.rank + 1))
    exact left_shown.append_spaced (.proper_item h.1 right_shown)
  | logical op ordinal left right ihl ihr =>
    obtain ⟨legible_left, legible_right⟩ := legible_append legible
    have right_shown := shows_layout ⟨h.2.2, legible_right⟩ (ihr h.2.2 legible_right) .operand
    exact (ihl h.2.1 legible_left).append_spaced (.proper_item trivial right_shown)
  | negation ordinal operand ih =>
    have operand_shown := shows_layout (e := operand) ⟨h, legible⟩ (ih h legible) .operand
    exact .proper_item trivial operand_shown
  | update op tracker value ih =>
    have value_shown := shows_layout ⟨h.2, legible⟩ (ih h.2 legible) (.leaf 1)
    exact .proper_item h.1.1.proper (.proper_item trivial value_shown)
  | updateMapped op key tracker value ihk ihv =>
    obtain ⟨legible_key, legible_value⟩ := legible_append legible
    have key_shown := shows_layout ⟨h.1, legible_key⟩ (ihk h.1 legible_key) (.leaf operandRank)
    have value_shown := shows_layout ⟨h.2.2, legible_value⟩ (ihv h.2.2 legible_value) (.leaf 1)
    exact key_shown.append_spaced (.proper_item trivial
      (.proper_item h.2.1.1.proper (.proper_item trivial value_shown)))

end Expr

end PolicyRules
