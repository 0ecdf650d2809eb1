import PolicyRules.Expr.Operator
import PolicyRules.ParamType
import PolicyRules.Text.Integer
import PolicyRules.Text.Quoted

/-!
# Errors

Every way in which reading or compiling a rule can fail, with its wording. An error says what is
wrong and carries the text, place or name concerned; `Error.message` puts it into words.
-/

namespace PolicyRules

/-- What is wrong with a rule text that does not have the form of a rule. -/
inductive Fault where
  /-- A declared argument has no type or no name. -/
  | argument (declaration : Text)
  /-- Square brackets do not pair up. -/
  | brackets
  /-- A closing bracket does not close the innermost open bracket. -/
  | unbalanced (bracket : Char)
  /-- An opening bracket is never closed. -/
  | unclosed (bracket : Char)
  /-- There is no operand at all. -/
  | empty
  /-- Two operands stand side by side, or `NOT` stands between them. -/
  | connective
  /-- A logical operator ends the text. -/
  | operand
  /-- A connective stands where an operand has to begin. -/
  | leftOperand (keyword : Keyword)
  /-- A logical operator stands under a comparison or arithmetic. -/
  | nestedConnective
  /-- A leaf expression does not fit the grammar, from the given column on. -/
  | unexpected (text : Text) (column : Nat)
  /-- Something other than a tracker is read by key. -/
  | mappedName (name : Text)
  /-- Something other than a tracker is updated. -/
  | updateTarget
  /-- An event has no name. -/
  | eventName
  /-- A revert is followed by something other than one quoted message. -/
  | revert
  deriving DecidableEq, Repr

/-- A failure to read or compile a rule. -/
inductive Error where
  /-- A rule text does not have the form of a rule. `source` is the text concerned, and `position`
  the place in it, where one is known. -/
  | malformed (fault : Fault) (source : Text) (position : Option Int)
  /-- A reference has no entry in the tables. An empty note takes the usual wording. -/
  | unknownReference (reference source note : Text)
  /-- A number is above the largest that fits. -/
  | numberRange (literal : Text) (maximum : Int)
  /-- A name that no table knows stands where a value is needed. An empty note takes the usual
  wording. -/
  | unquoted (token : Text) (index : Int) (note : Text)
  /-- Foreign calls need each other's results. The chain ends with the name that it begins with. -/
  | cyclicCalls (chain : List Text)
  /-- An operator finds fewer values than it needs. -/
  | operandShortage (needed : Int) (available : Nat)
  /-- There is no expression to lower. -/
  | noExpression
  /-- An index lies outside its list. -/
  | outOfRange
  /-- An index does not fit into a machine word, so that no list could have it. -/
  | oversizedIndex
  /-- A name is not a key of its table. -/
  | unknownKey (name : Text)
  /-- A number is not the code of a type. -/
  | typeCode (code : Int)
  /-- A name is not a family of components. -/
  | unknownFamily (name : Text)
  /-- A text cannot be read as an integer. -/
  | integer (fault : IntegerFault)
  /-- A number in an expression cannot be read. -/
  | number (fault : IntegerFault)
  /-- A group of a text contains itself. -/
  | endlessGroup
  deriving DecidableEq, Repr

/-- A fault in words. -/
def Fault.message : Fault → String
  | argument declaration => "Malformed argument declaration '" ++ String.ofList declaration ++ "'"
  | brackets => "Unbalanced brackets"
  | unbalanced bracket => "Unbalanced '" ++ String.singleton bracket ++ "'"
  | unclosed bracket => "Unclosed '" ++ String.singleton bracket ++ "'"
  | empty => "Empty expression"
  | connective => "Expected AND or OR between operands"
  | operand => "Logical operator is missing an operand"
  | leftOperand keyword => String.ofList keyword.text ++ " is missing its left operand"
  | nestedConnective => "Logical operator inside a comparison or arithmetic expression"
  | unexpected text column =>
    "Invalid expression '" ++ String.ofList text ++ "': unexpected input at column " ++
      String.ofList (Text.ofNat column)
  | mappedName name => "Mapped access requires a tracker, got '" ++ String.ofList name ++ "'"
  | updateTarget => "Only trackers can be updated"
  | eventName => "emit requires an event name"
  | revert => "Malformed revert effect"

/-- The longest quoted form that a message about an integer shows. -/
def maxShownInteger : Nat := 200

/-- An unreadable integer in words. -/
def IntegerFault.message : IntegerFault → String
  | malformed radix text =>
    "invalid literal for int() with base " ++ String.ofList (Text.ofNat radix.base) ++ ": " ++
      String.ofList ((Text.quoted text).take maxShownInteger)
  | tooManyDigits count =>
    "Exceeds the limit (" ++ String.ofList (Text.ofNat maxDecimalDigits) ++
      " digits) for integer string conversion: value has " ++ String.ofList (Text.ofNat count) ++
      " digits; use sys.set_int_max_str_digits() to increase the limit"

/-- The chain of a cycle in words. A call that needs only itself is named once. -/
def cycleMessage : List Text → String
  | [first, second] =>
    if first = second then
      "Foreign call '" ++ String.ofList first ++ "' passes its own result as an argument"
    else "Cyclic foreign call dependency: " ++ String.ofList first ++ " -> " ++ String.ofList second
  | chain => "Cyclic foreign call dependency: " ++ " -> ".intercalate (chain.map String.ofList)

/-- An error in words. -/
def Error.message : Error → String
  | malformed fault _ _ => fault.message
  | unknownReference reference _ note =>
    if note.isEmpty then "Unknown reference '" ++ String.ofList reference ++ "'"
    else String.ofList note
  | numberRange literal maximum =>
    "Number '" ++ String.ofList literal ++ "' exceeds uint256 maximum. Maximum allowed is " ++
      String.ofList (Text.ofInt maximum) ++ "."
  | unquoted token index note =>
    if note.isEmpty then
      "Strings must be in quotes: '" ++ String.ofList token ++ "' at instruction " ++
        String.ofList (Text.ofInt index)
    else String.ofList note
  | cyclicCalls chain => cycleMessage chain
  | operandShortage needed available =>
    "Operator needs " ++ String.ofList (Text.ofInt needed) ++ " operands, " ++
      String.ofList (Text.ofNat available) ++ " available"
  | noExpression => "Cannot lower node None"
  | outOfRange => "list index out of range"
  | oversizedIndex => "cannot fit 'int' into an index-sized integer"
  | unknownKey name => String.ofList (Text.quoted name)
  | typeCode code => String.ofList (Text.ofInt code) ++ " is not a valid PType"
  | unknownFamily name => String.ofList (Text.quoted name) ++ " is not a valid ComponentType"
  | integer fault => fault.message
  | number fault => "Error trying to process rule \"number\":\n\n" ++ fault.message
  | endlessGroup => "Group contains itself"

/-- An unknown reference in the usual words. -/
def Error.unknown (reference source : Text) : Error := .unknownReference reference source []

/-- A component that no placeholder binds. -/
def Error.unbound (name source : Text) : Error :=
  .unknownReference name source ("No placeholder bound for '".toList ++ name ++ "'".toList)

end PolicyRules
