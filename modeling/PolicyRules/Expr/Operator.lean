import PolicyRules.Text.Basic

/-!
# Operators

The operators of rule expressions and how they are written: comparisons and arithmetic inside a leaf
expression, tracker updates, and the logical keywords between leaf expressions.
-/

namespace PolicyRules

/-- Comparison and arithmetic operators. An update that only stores a value computes with
`assign`. -/
inductive Operator where
  | eq
  | ne
  | ge
  | le
  | gt
  | lt
  | add
  | sub
  | mul
  | div
  | assign
  deriving DecidableEq, Repr

namespace Operator

/-- How an operator is written. -/
def text : Operator → Text
  | eq => "==".toList
  | ne => "!=".toList
  | ge => ">=".toList
  | le => "<=".toList
  | gt => ">".toList
  | lt => "<".toList
  | add => "+".toList
  | sub => "-".toList
  | mul => "*".toList
  | div => "/".toList
  | assign => "=".toList

/-- All operators. -/
def all : List Operator := [eq, ne, ge, le, gt, lt, add, sub, mul, div, assign]

/-- The operator written so. -/
def ofText? (t : Text) : Option Operator := all.find? (·.text == t)

/-- Whether an operator compares two values. -/
def isComparison : Operator → Bool
  | eq | ne | ge | le | gt | lt => true
  | _ => false

/-- Whether an operator adds or subtracts. -/
def isAdditive : Operator → Bool
  | add | sub => true
  | _ => false

/-- Whether an operator multiplies or divides. -/
def isMultiplicative : Operator → Bool
  | mul | div => true
  | _ => false

theorem ofText?_text (op : Operator) : ofText? op.text = some op := by
  cases op <;> decide

end Operator

/-- Operators that change a tracker. -/
inductive UpdateOperator where
  | add
  | sub
  | mul
  | div
  | assign
  deriving DecidableEq, Repr

namespace UpdateOperator

/-- How an update operator is written. -/
def text : UpdateOperator → Text
  | add => "+=".toList
  | sub => "-=".toList
  | mul => "*=".toList
  | div => "/=".toList
  | assign => "=".toList

/-- All update operators. -/
def all : List UpdateOperator := [add, sub, mul, div, assign]

/-- The update operator written so. -/
def ofText? (t : Text) : Option UpdateOperator := all.find? (·.text == t)

/-- The operator that computes the new value from the old value and the operand. -/
def arithmetic : UpdateOperator → Operator
  | add => .add
  | sub => .sub
  | mul => .mul
  | div => .div
  | assign => .assign

end UpdateOperator

/-- The logical keywords. -/
inductive Keyword where
  | and
  | or
  | not
  deriving DecidableEq, Repr

namespace Keyword

/-- How a keyword is written. -/
def text : Keyword → Text
  | and => "AND".toList
  | or => "OR".toList
  | not => "NOT".toList

/-- All keywords. -/
def all : List Keyword := [and, or, not]

/-- The keyword written so. -/
def ofText? (t : Text) : Option Keyword := all.find? (·.text == t)

theorem ofText?_text (k : Keyword) : ofText? k.text = some k := by
  cases k <;> decide

end Keyword

end PolicyRules
