import PolicyRules.Nesting.Balance

/-!
# Taking bracketed parts out of a text

The bracketed parts of a text are taken out and a token is left in the place of each. Parts are
numbered from right to left by their opening brackets, so a part is numbered before the part around
it and the outer part names the inner one by its token.

The text is read backwards. What has been read since the last closing bracket that is still waiting
for its opening bracket is the current text; the texts behind the waiting brackets are kept, the
nearest first.
-/

namespace PolicyRules

/-- A text read backwards up to some place. -/
structure Unnested where
  /-- The text up to the nearest closing bracket that waits for its opening bracket. -/
  current : Text
  /-- The texts behind the waiting brackets. -/
  behind : List Text
  /-- The parts taken out so far. -/
  parts : List Text
  deriving DecidableEq, Repr

/-- The rest of a text that has waiting brackets in it. -/
def Unnested.text (bracket : Bracket) (u : Unnested) : Text :=
  u.current ++ u.behind.flatMap (bracket.closing :: ·)

/-- Takes the parts in brackets of one kind out of a text that is given backwards. The token of a
part is made from its number. Fails with the changed text and the place of a bracket that has no
partner. -/
def unnestFrom (bracket : Bracket) (token : Nat → Text) :
    Unnested → (reversed : Text) → Except (Text × Nat) Unnested
  | u, [] => if u.behind.isEmpty then .ok u else .error (u.text bracket, u.current.length)
  | u, c :: cs =>
    if c = bracket.closing then
      unnestFrom bracket token { u with current := [], behind := u.current :: u.behind } cs
    else if c = bracket.opening then
      match u.behind with
      | [] => .error (cs.reverse ++ c :: u.current, cs.length)
      | next :: behind =>
        unnestFrom bracket token ⟨token u.parts.length ++ next, behind, u.parts ++ [u.current]⟩ cs
    else unnestFrom bracket token { u with current := c :: u.current } cs

/-- Takes the parts in brackets of one kind out of a text. Gives the text with a token for each
outermost part, and the parts in the order of their numbers. -/
def unnest (bracket : Bracket) (token : Nat → Text) (t : Text) :
    Except (Text × Nat) (Text × List Text) :=
  (unnestFrom bracket token ⟨[], [], []⟩ t.reverse).map fun u => (u.current, u.parts)

/-- The token that stands for a subexpression in square brackets. -/
def subexpressionToken (n : Int) : Text := "PLH".toList ++ Text.ofInt n

/-- Takes the subexpressions in square brackets out of a text. Their tokens are numbered from
`start` on. -/
def extractSubexpressions (start : Int) (t : Text) : Except Error (Text × List Text) :=
  match unnest .square (fun n => subexpressionToken (start + n)) t with
  | .ok (rest, parts) => .ok (rest, parts.map Text.strip)
  | .error (source, position) => .error (.malformed .brackets source (some position))

end PolicyRules
