import PolicyRules.Leaf.Phrase
import PolicyRules.Table

/-!
# Leaf expressions

A phrase becomes an expression when its names and numbers are given a meaning. The name of a
subexpression is replaced by that expression, `true` and `false` are truth values, and any other
name stays a name. Only trackers can be read by key or updated. Of several faults the leftmost,
innermost one is reported, and all of them only after the whole text has been found to fit the
grammar.
-/

namespace PolicyRules

/-- The meaning of a name. -/
def Expr.ofName (subexpressions : List (Text × Expr)) (name : Text) : Expr :=
  match Table.value? name subexpressions with
  | some e => e
  | none =>
    if name = "true".toList ∨ name = "false".toList then .literal (.ofBool name) else .name name

/-- Fails unless a name refers to a tracker. -/
def requireTracker (name : Text) : Except Error Unit :=
  if (trackerReference? name).isSome then .ok ()
  else .error (.malformed (.mappedName name) name none)

/-- The expression of a phrase. -/
def Phrase.toExpr (subexpressions : List (Text × Expr)) : Phrase → Except Error Expr
  | name text => .ok (.ofName subexpressions text)
  | number text =>
    match Literal.ofNumber text with
    | .ok value => .ok (.literal value)
    | .error (.integer fault) => .error (.number fault)
    | .error e => .error e
  | string text => .ok (.literal (.ofQuoted text))
  | mapped key tracker => do
    let key ← key.toExpr subexpressions
    requireTracker tracker
    return .mapped key tracker
  | binary op left right => do
    let left ← left.toExpr subexpressions
    let right ← right.toExpr subexpressions
    return .binary op left right
  | update op target value => do
    let value ← value.toExpr subexpressions
    if (trackerReference? target).isSome then return .update op target value
    else throw (.malformed .updateTarget [] none)
  | updateMapped op key tracker value => do
    let key ← key.toExpr subexpressions
    requireTracker tracker
    let value ← value.toExpr subexpressions
    return .updateMapped op key tracker value

/-- The column of a position: its distance from the last line break before it, counted from one. -/
def columnOf (t : Text) (position : Nat) : Nat :=
  ((t.take position).reverse.takeWhile (· != '\n')).length + 1

/-- Reads a leaf expression. `subexpressions` are the expressions that names stand for. -/
def parseLeaf (subexpressions : List (Text × Expr)) (t : Text) : Except Error Expr :=
  match Phrase.ofText t with
  | .ok phrase => phrase.toExpr subexpressions
  | .error position =>
    .error (.malformed (.unexpected t (columnOf t position)) t (some position))

end PolicyRules
