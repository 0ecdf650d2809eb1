import PolicyRules.Error

/-!
# Balanced brackets

Parentheses and square brackets have to be closed in the order in which they nest. Quoted strings
are masked before a text is checked, so that brackets inside quotes do not count.
-/

namespace PolicyRules

/-- The two kinds of brackets. -/
inductive Bracket where
  | round
  | square
  deriving DecidableEq, Repr

namespace Bracket

/-- The opening bracket of a kind. -/
def opening : Bracket → Char
  | round => '('
  | square => '['

/-- The closing bracket of a kind. -/
def closing : Bracket → Char
  | round => ')'
  | square => ']'

/-- The kind that a character opens. -/
def opened? (c : Char) : Option Bracket :=
  if c = '(' then some round else if c = '[' then some square else none

/-- The kind that a character closes. -/
def closed? (c : Char) : Option Bracket :=
  if c = ')' then some round else if c = ']' then some square else none

@[simp] theorem opened?_opening (bracket : Bracket) : opened? bracket.opening = some bracket := by
  cases bracket <;> rfl

@[simp] theorem opened?_closing (bracket : Bracket) : opened? bracket.closing = none := by
  cases bracket <;> rfl

@[simp] theorem closed?_closing (bracket : Bracket) : closed? bracket.closing = some bracket := by
  cases bracket <;> rfl

end Bracket

/-- What is wrong with the nesting of a text, and where. -/
inductive Imbalance where
  /-- A bracket closes something other than the innermost open bracket. -/
  | unbalanced (bracket : Bracket) (position : Nat)
  /-- The innermost bracket that is open at the end. -/
  | unclosed (bracket : Bracket) (position : Nat)
  deriving DecidableEq, Repr

/-- Reads a text from a position on, with the brackets that are open there, innermost first. -/
def findImbalance (opened : List (Bracket × Nat)) (position : Nat) : Text → Option Imbalance
  | [] => opened.head?.map fun (bracket, place) => .unclosed bracket place
  | c :: cs =>
    match Bracket.opened? c, Bracket.closed? c with
    | some bracket, _ => findImbalance ((bracket, position) :: opened) (position + 1) cs
    | none, none => findImbalance opened (position + 1) cs
    | none, some bracket =>
      match opened with
      | (innermost, _) :: outer =>
        if innermost = bracket then findImbalance outer (position + 1) cs
        else some (.unbalanced bracket position)
      | [] => some (.unbalanced bracket position)

/-- The error of an imbalance. -/
def Imbalance.error (source : Text) : Imbalance → Error
  | unbalanced bracket position =>
    .malformed (.unbalanced bracket.closing) source (some position)
  | unclosed bracket position => .malformed (.unclosed bracket.opening) source (some position)

/-- Fails unless every bracket is closed in nesting order. -/
def checkBalanced (t : Text) : Except Error Unit :=
  match findImbalance [] 0 t with
  | some imbalance => .error (imbalance.error t)
  | none => .ok ()

end PolicyRules
