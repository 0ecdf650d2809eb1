import PolicyRules.Reference.Mark
import PolicyRules.Text.Digit
import PolicyRules.Text.Segment
import PolicyRules.Text.Word
import PolicyRules.Entry

/-!
# Tokens of the logical level

While the logical structure of a text is read, parts of the text are set aside and stand in it as
numbered tokens: `i:` and a number for a group in parentheses, `q:` and a number for a quoted
string, `PLA` and a number for a logical keyword. The digits of such a number may be of any script.
A token that a text already holds cannot be told from one that was put there.
-/

namespace PolicyRules

/-- The decimal digits at the beginning of a text, if there are any. -/
def digitsAt? (t : Text) : Option Text :=
  let digits := t.takeWhile isDecimalDigit
  if digits.isEmpty then none else some digits

/-- Recognises a letter, a colon and digits, and gives the digits. -/
def numberedAt (letter : Char) : Recogniser Text := fun previous t =>
  if isClear previous then do
    let rest ← Text.dropStart? [letter, ':'] t
    let digits ← digitsAt? rest
    return (digits, digits.length + 2)
  else none

/-- Recognises the token of a group. -/
def groupTokenAt : Recogniser Text := numberedAt 'i'

/-- Recognises the token of a quoted string. -/
def stringTokenAt : Recogniser Text := numberedAt 'q'

/-- The digits of a text that is the token of a group and nothing else. -/
def groupToken? (t : Text) : Option Text := do
  let digits ← Text.dropStart? ['i', ':'] t
  if ! digits.isEmpty && digits.all isDecimalDigit then some digits else none

/-- The token of a group, set apart by spaces. -/
def groupToken (n : Nat) : Text := " i:".toList ++ Text.ofNat n ++ [' ']

/-- The token of a quoted string. -/
def stringToken (n : Nat) : Text := "q:".toList ++ Text.ofNat n

/-- The token of a logical keyword, set apart by spaces. -/
def keywordToken (n : Nat) : Text := " PLA".toList ++ Text.ofNat n ++ [' ']

/-- Whether a word ends or begins between two places, the other side being a word character. -/
def isWordEdge (c : Option Char) : Bool := ! c.any isWordChar

/-- Recognises a logical keyword that is a word of its own. -/
def keywordAt : Recogniser Keyword := fun previous t =>
  if isWordEdge previous then
    Keyword.all.findSome? fun keyword => do
      let rest ← Text.dropStart? keyword.text t
      if isWordEdge rest.head? then some (keyword, keyword.text.length) else none
  else none

/-- Recognises the token of a logical keyword, with the blanks around it, and gives its digits. -/
def keywordTokenAt : Recogniser Text := fun previous t =>
  let blanks := t.takeWhile isBlank
  if ! blanks.isEmpty || isWordEdge previous then do
    let rest ← Text.dropStart? "PLA".toList (t.drop blanks.length)
    let digits ← digitsAt? rest
    let rest := rest.drop digits.length
    if isWordEdge rest.head? then
      some (digits, blanks.length + 3 + digits.length + (rest.takeWhile isBlank).length)
    else none
  else none

/-- The number of a token. -/
def tokenNumber (digits : Text) : Except Error Nat :=
  match readOrdinal digits with
  | .ok n => .ok n
  | .error fault => .error (.integer fault)

/-- The entry that a token stands for. -/
def tokenEntry {α : Type} (entries : List α) (digits : Text) : Except Error α := do
  nthEntry entries (← tokenNumber digits)

end PolicyRules
