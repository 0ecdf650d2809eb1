import PolicyRules.Text.Basic

/-!
# Parameter types

The types that the interpreter knows. Each has a code; all arrays of values of a fixed size share
one code, and so do arrays of strings and of byte sequences.
-/

namespace PolicyRules

/-- The type of a value bound at call time. -/
inductive ParamType where
  | address
  | string
  | uint256
  | bool
  | void
  | bytes
  | staticArray
  | dynamicArray
  deriving DecidableEq, Repr

namespace ParamType

/-- The code of a type. -/
def code : ParamType → Nat
  | address => 0
  | string => 1
  | uint256 => 2
  | bool => 3
  | void => 4
  | bytes => 5
  | staticArray => 6
  | dynamicArray => 7

/-- All types, in the order of their codes. -/
def all : List ParamType :=
  [address, string, uint256, bool, void, bytes, staticArray, dynamicArray]

/-- The type with a given code. -/
def ofCode? (n : Int) : Option ParamType := all.find? fun type => decide ((type.code : Int) = n)

/-- The type names of declarations. -/
def names : List (Text × ParamType) := [
  ("address".toList, address),
  ("string".toList, string),
  ("uint256".toList, uint256),
  ("bool".toList, bool),
  ("void".toList, void),
  ("bytes".toList, bytes),
  ("address[]".toList, staticArray),
  ("uint256[]".toList, staticArray),
  ("bool[]".toList, staticArray),
  ("string[]".toList, dynamicArray),
  ("bytes[]".toList, dynamicArray)]

/-- The type that a name stands for, with blanks around the name ignored. Unknown names stand for
`void`. -/
def ofName (name : Text) : ParamType := (names.lookup (Text.strip name)).getD void

/-- Whether an argument can be declared with a type name. -/
def isArgumentTypeName (name : Text) : Bool :=
  (names.lookup name).isSome && name != "void".toList

/-- The type name under which a tracker of a type is bound. A tracker holds an address, a string, a
truth value, a byte sequence, or else a number. -/
def trackerName : ParamType → Text
  | address => "address".toList
  | string => "string".toList
  | bool => "bool".toList
  | bytes => "bytes".toList
  | _ => "uint256".toList

end ParamType

end PolicyRules
