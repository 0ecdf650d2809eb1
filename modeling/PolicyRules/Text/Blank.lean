import PolicyRules.Text.Ranges

/-!
# Blanks

The characters that count as white space between words of a rule: tabs and line breaks, the four
information separators, the ASCII space, and the spaces and line breaks of Unicode. Zero-width
characters are not blanks.
-/

namespace PolicyRules

/-- The blank characters, as ranges of code points. -/
def blankRanges : List (Nat × Nat) := [
  (0x9, 0xd), (0x1c, 0x20), (0x85, 0x85), (0xa0, 0xa0), (0x1680, 0x1680), (0x2000, 0x200a),
  (0x2028, 0x2029), (0x202f, 0x202f), (0x205f, 0x205f), (0x3000, 0x3000)]

/-- Whether a character is a blank. -/
def isBlank (c : Char) : Bool := inRanges blankRanges c.toNat

theorem isBlank_space : isBlank ' ' := by decide

end PolicyRules
