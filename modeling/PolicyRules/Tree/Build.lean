import PolicyRules.Attempt
import PolicyRules.Nesting.Pairs
import PolicyRules.Tree.Level

/-!
# Building the tree of a text

Quoted strings are masked, brackets are checked, logical keywords and expressions in square brackets
are set aside, and then each level of parentheses is read. What has been set aside stays when a text
cannot be read: its keywords keep their ordinals, and the numbering of later texts goes on from
there.
-/

namespace PolicyRules

namespace SetAside

/-- Replaces the quoted strings of a text by tokens. -/
def maskStrings (s : SetAside) (t : Text) : Text × SetAside :=
  let segments := t.segments
  (segments.renderNumbered fun n => stringToken (s.strings.length + n),
    { s with strings := s.strings ++ segments.marks.map Quotation.text })

/-- Replaces the logical keywords of a text by tokens. -/
def markKeywords (s : SetAside) (t : Text) : Text × SetAside :=
  let split := t.split keywordAt
  (split.renderNumbered fun n => keywordToken (s.keywords.length + n),
    { s with keywords := s.keywords ++ split.marks })

/-- Replaces the groups in parentheses of a text by tokens. Parentheses that do not pair up are
ruled out by `checkBalanced` before groups are looked for; a text with such would be left as it
is. -/
def collapseGroups (s : SetAside) (t : Text) : Text × SetAside :=
  match unnest .round (fun n => groupToken (s.groups.length + n)) t with
  | .ok (rest, groups) => (rest, { s with groups := s.groups ++ groups })
  | .error _ => (t, s)

/-- Reads a text without brackets around it as a level. -/
def buildLevel (t : Text) : Attempt SetAside Expr := do
  let collapsed ← modifyGet (collapseGroups · t)
  Attempt.ofExcept ((← get).parseLevel collapsed)

/-- Reads an expression in square brackets and keeps it under the name of its number. -/
def buildSubexpression (t : Text) (n : Nat) : Attempt SetAside Unit := do
  let e ← buildLevel t
  modify fun s =>
    { s with subexpressions := Table.insert (subexpressionToken n) e s.subexpressions }

/-- Builds the tree of a normalized text. -/
def build (t : Text) : Attempt SetAside Expr := do
  let masked ← modifyGet (maskStrings · t)
  Attempt.ofExcept (checkBalanced masked)
  let marked ← modifyGet (markKeywords · masked)
  let start := (← get).subexpressions.length
  let (rest, parts) ← Attempt.ofExcept (extractSubexpressions start marked)
  (parts.zipIdx start).forM fun (part, n) => buildSubexpression part n
  buildLevel rest

end SetAside

end PolicyRules
