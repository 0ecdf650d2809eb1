import PolicyRules.Program.Lower
import PolicyRules.Tree.Build

/-!
# Converting texts

A normalized text is converted by building its tree and lowering it. Several texts may be converted
in one workspace: keywords, subexpressions, instructions and slots go on from one text to the next,
also when a text could not be converted.
-/

namespace PolicyRules

/-- The state that conversions share. -/
structure Workspace where
  keywords : List Keyword := []
  subexpressions : List (Text × Expr) := []
  emission : Emission := {}
  deriving DecidableEq, Repr

namespace Workspace

/-- What tree building starts from: the keywords and subexpressions of earlier texts. -/
def setAside (w : Workspace) : SetAside :=
  { keywords := w.keywords, subexpressions := w.subexpressions }

/-- Builds the tree of a text. -/
def buildTree (t : Text) : Attempt Workspace Expr := fun w =>
  match SetAside.build t w.setAside with
  | .ok e s => .ok e { w with keywords := s.keywords, subexpressions := s.subexpressions }
  | .error e s => .error e { w with keywords := s.keywords, subexpressions := s.subexpressions }

/-- Lowers a tree and gives all instructions emitted so far. -/
def lower (b : Bindings) (tree : Expr) : Attempt Workspace (List Token) := fun w =>
  match Emission.lower b w.keywords tree w.emission with
  | .ok tokens e => .ok tokens { w with emission := e }
  | .error error e => .error error { w with emission := e }

/-- Converts a text and gives all instructions emitted so far. -/
def convert (b : Bindings) (t : Text) : Attempt Workspace (List Token) := do
  let tree ← buildTree t
  lower { b with source := t } tree

end Workspace

/-- Converts a text in a workspace of its own. -/
def convertText (b : Bindings) (t : Text) : Except Error (List Token) :=
  match Workspace.convert b t {} with
  | .ok tokens _ => .ok tokens
  | .error e _ => .error e

end PolicyRules
