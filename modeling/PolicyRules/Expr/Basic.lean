import PolicyRules.Expr.Literal

/-!
# Expressions

The tree of a condition or an effect. A logical node carries the ordinal of the keyword that it was
read from; the keyword itself is found in the list of keywords of the compilation.
-/

namespace PolicyRules

/-- A rule expression. -/
inductive Expr where
  /-- A place without an expression. -/
  | hole
  /-- A value written in the rule. -/
  | literal (value : Literal)
  /-- A name: an argument, a reference, or an unknown word. -/
  | name (name : Text)
  /-- A tracker read by key. -/
  | mapped (key : Expr) (tracker : Text)
  /-- A comparison or arithmetic. -/
  | binary (op : Operator) (left right : Expr)
  /-- A connective between two expressions. -/
  | logical (op : Keyword) (ordinal : Int) (left right : Expr)
  /-- A negation. -/
  | negation (ordinal : Int) (operand : Expr)
  /-- A change of a tracker. -/
  | update (op : UpdateOperator) (tracker : Text) (value : Expr)
  /-- A change of a tracker at a key. -/
  | updateMapped (op : UpdateOperator) (key : Expr) (tracker : Text) (value : Expr)
  deriving DecidableEq, Repr

/-- How the references of trackers that are read begin. -/
def trackerPrefix : Text := "TR:".toList

/-- How the references of trackers that are changed begin. -/
def updatePrefix : Text := "TRU:".toList

/-- The reference of the tracker that a name refers to, whether it is read or changed. -/
def trackerReference? (name : Text) : Option Text :=
  match Text.dropStart? updatePrefix name with
  | some rest => some (trackerPrefix ++ rest)
  | none => if Text.startsWith trackerPrefix name then some name else none

/-- Whether a name refers to a tracker that is changed. -/
def isUpdateReference (name : Text) : Bool := Text.startsWith updatePrefix name

end PolicyRules
