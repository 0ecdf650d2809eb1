import PolicyRules.Text.Basic
import PolicyRules.Text.Printable

/-!
# Quoted texts

The quoted form of a text, for messages and listings. It stands between apostrophes, or between
double quotes if it holds an apostrophe and no double quote. The quote itself and the backslash are
escaped, and so is every character that is not printable.
-/

namespace PolicyRules.Text

/-- The hexadecimal text of a number, filled with zeros to at least a given width. -/
def hex (width n : Nat) : Text :=
  let digits := Nat.toDigits 16 n
  List.replicate (width - digits.length) '0' ++ digits

/-- How a character is written between two quotes. -/
def escapeChar (quote c : Char) : Text :=
  if c = quote ∨ c = '\\' then ['\\', c]
  else if c = '\n' then ['\\', 'n']
  else if c = '\r' then ['\\', 'r']
  else if c = '\t' then ['\\', 't']
  else if isPrintable c then [c]
  else if c.toNat < 0x100 then ['\\', 'x'] ++ hex 2 c.toNat
  else if c.toNat < 0x10000 then ['\\', 'u'] ++ hex 4 c.toNat
  else ['\\', 'U'] ++ hex 8 c.toNat

/-- The quote that a text is written between. -/
def quoteFor (t : Text) : Char :=
  if t.contains '\x27' && ! t.contains '"' then '"' else '\x27'

/-- The quoted form of a text. -/
def quoted (t : Text) : Text :=
  quoteFor t :: t.flatMap (escapeChar (quoteFor t)) ++ [quoteFor t]

end PolicyRules.Text
