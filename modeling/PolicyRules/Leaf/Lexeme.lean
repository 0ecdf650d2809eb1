import PolicyRules.Expr.Basic
import PolicyRules.Text.Word

/-!
# Lexemes

A leaf expression is written with names, numbers, quoted strings, operators, the bar of a keyed
access and parentheses, with ASCII white space between them. What is looked for at a place depends
on what was read before it: an operand, the tracker behind a bar, or what can follow an operand. An
update operator is looked for only behind a name that begins an expression and behind a keyed
access; elsewhere `+=` is read as a plus sign, and the equals sign begins nothing.
-/

namespace PolicyRules

/-- A word or sign of a leaf expression. -/
inductive Lexeme where
  | name (text : Text)
  | number (text : Text)
  /-- A quoted string with its quotes. -/
  | string (text : Text)
  | operator (op : Operator)
  | update (op : UpdateOperator)
  | bar
  | leftParen
  | rightParen
  deriving DecidableEq, Repr

/-- How a lexeme is written. -/
def Lexeme.text : Lexeme → Text
  | name text | number text | string text => text
  | operator op => op.text
  | update op => op.text
  | bar => ['|']
  | leftParen => ['(']
  | rightParen => [')']

/-- What is looked for at a place of a leaf expression. -/
inductive Expecting where
  /-- An operand; `first` says that an expression begins here. -/
  | operand (first : Bool)
  /-- The tracker of a keyed access. -/
  | tracker
  /-- What follows an operand; `updatable` says that an update operator may follow. -/
  | operator (updatable : Bool)
  deriving DecidableEq, Repr

/-- Whether a character separates lexemes. -/
def isLayout (c : Char) : Bool :=
  c == ' ' || c == '\t' || c == '\x0c' || c == '\r' || c == '\n'

/-- Whether a character can stand in a name after its first character. -/
def isNameChar (c : Char) : Bool := c.isAlphanum || c == '_'

/-- The number after the number sign of a call's token. -/
def callNumber? (t : Text) : Option Text :=
  match Text.dropStart? "FC#".toList t with
  | some rest =>
    let digits := rest.takeWhile Char.isDigit
    if digits.isEmpty then none else some digits
  | none => none

/-- The plain name at the beginning of a text. -/
def plainName? : Text → Option Text
  | [] => none
  | c :: cs => if isNameStart c then some (c :: cs.takeWhile isNameChar) else none

/-- The name at the beginning of a text: the token of a foreign call, or a plain name that may have
a second part after a colon. -/
def nameLexeme? (t : Text) : Option Text :=
  match callNumber? t with
  | some digits => some ("FC#".toList ++ digits)
  | none =>
    match plainName? t with
    | none => none
    | some name =>
      match t.drop name.length with
      | ':' :: rest =>
        match plainName? rest with
        | some second => some (name ++ ':' :: second)
        | none => some name
      | _ => some name

/-- The number at the beginning of a text: `0x` and hexadecimal digits, or decimal digits. -/
def numberLexeme? (t : Text) : Option Text :=
  let digits := t.takeWhile Char.isDigit
  let decimal := if digits.isEmpty then none else some digits
  match Text.dropStart? "0x".toList t with
  | some rest =>
    let digits := rest.takeWhile isHexDigit
    if digits.isEmpty then decimal else some ("0x".toList ++ digits)
  | none => decimal

/-- The quoted string at the beginning of a text, with its quotes. -/
def stringLexeme? : Text → Option Text
  | [] => none
  | c :: cs =>
    let body := cs.takeWhile (· != c)
    if (c == '"' || c == '\x27') && decide (body.length < cs.length) then
      some (c :: body ++ [c])
    else none

/-- The operand or left parenthesis at the beginning of a text. -/
def operandLexeme? (t : Text) : Option Lexeme :=
  match nameLexeme? t, numberLexeme? t, stringLexeme? t with
  | some text, _, _ => some (.name text)
  | none, some text, _ => some (.number text)
  | none, none, some text => some (.string text)
  | none, none, none => if t.head? = some '(' then some .leftParen else none

/-- The signs that can follow an operand. A sign that another one begins with comes after it. -/
def signs : List Lexeme := [
  .operator .eq, .operator .ne, .operator .ge, .operator .le, .operator .gt, .operator .lt,
  .operator .add, .operator .sub, .operator .mul, .operator .div, .bar, .rightParen]

/-- The signs that can follow an operand which may be updated. -/
def updateSigns : List Lexeme := [
  .update .add, .update .sub, .update .mul, .update .div, .operator .eq, .update .assign] ++ signs

namespace Expecting

/-- The lexeme at the beginning of a text. -/
def lexeme? (expecting : Expecting) (t : Text) : Option Lexeme :=
  match expecting with
  | operand _ => operandLexeme? t
  | tracker => (nameLexeme? t).map .name
  | operator false => signs.find? fun sign => Text.startsWith sign.text t
  | operator true => updateSigns.find? fun sign => Text.startsWith sign.text t

/-- What is looked for after a lexeme. -/
def after (expecting : Expecting) : Lexeme → Expecting
  | .name _ => operator (expecting == operand true || expecting == tracker)
  | .number _ | .string _ | .rightParen => operator false
  | .operator _ | .update _ => operand false
  | .bar => tracker
  | .leftParen => operand true

end Expecting

/-- The lexemes of a text with their positions. -/
structure Lexemes where
  /-- Each lexeme with the position of its first character. -/
  found : List (Nat × Lexeme)
  /-- The position of the first character that begins no lexeme looked for there. -/
  stopped : Option Nat
  deriving DecidableEq, Repr

/-- Reads the lexemes of a text. `skip` counts the characters that still belong to the lexeme last
read, and `position` is that of the next character. -/
def readLexemes : (skip position : Nat) → Expecting → Text → Lexemes
  | _, _, _, [] => ⟨[], none⟩
  | skip + 1, position, expecting, _ :: cs => readLexemes skip (position + 1) expecting cs
  | 0, position, expecting, c :: cs =>
    if isLayout c then readLexemes 0 (position + 1) expecting cs
    else
      match expecting.lexeme? (c :: cs) with
      | none => ⟨[], some position⟩
      | some lexeme =>
        let rest := readLexemes (lexeme.text.length - 1) (position + 1) (expecting.after lexeme) cs
        ⟨(position, lexeme) :: rest.found, rest.stopped⟩

/-- The lexemes of a text. -/
def lexemes (t : Text) : Lexemes := readLexemes 0 0 (.operand true) t

end PolicyRules
