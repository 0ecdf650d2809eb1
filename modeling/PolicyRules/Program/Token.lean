import PolicyRules.Expr.Basic
import PolicyRules.Text.Quoted

/-!
# Instructions

An instruction set is a flat sequence of opcodes, operands and literals. Its numeric form replaces
each opcode by its code. The codes are agreed with the interpreter.
-/

namespace PolicyRules

/-- The operations of the interpreter. -/
inductive Operation where
  /-- Loads the literal that follows. -/
  | literal
  | not
  /-- Reads a placeholder. -/
  | placeholder
  | assign
  /-- Reads a tracker by key. -/
  | mapped
  | add
  | sub
  | mul
  | div
  | lt
  | gt
  | eq
  | and
  | or
  | ge
  | le
  | ne
  /-- Writes a tracker. -/
  | write
  /-- Writes a tracker at a key. -/
  | writeMapped
  deriving DecidableEq, Repr

namespace Operation

/-- The mnemonic of an operation. -/
def name : Operation → Text
  | literal => "N".toList
  | not => "NOT".toList
  | placeholder => "PLH".toList
  | assign => "=".toList
  | mapped => "PLHM".toList
  | add => "+".toList
  | sub => "-".toList
  | mul => "*".toList
  | div => "/".toList
  | lt => "<".toList
  | gt => ">".toList
  | eq => "==".toList
  | and => "AND".toList
  | or => "OR".toList
  | ge => ">=".toList
  | le => "<=".toList
  | ne => "!=".toList
  | write => "TRU".toList
  | writeMapped => "TRUM".toList

/-- The code of an operation. -/
def code : Operation → Nat
  | literal => 0
  | not => 1
  | placeholder => 2
  | assign => 3
  | mapped => 4
  | add => 5
  | sub => 6
  | mul => 7
  | div => 8
  | lt => 9
  | gt => 10
  | eq => 11
  | and => 12
  | or => 13
  | ge => 14
  | le => 15
  | ne => 16
  | write => 17
  | writeMapped => 18

/-- All operations, in the order of their codes. -/
def all : List Operation := [
  literal, not, placeholder, assign, mapped, add, sub, mul, div, lt, gt, eq, and, or, ge, le,
  ne, write, writeMapped]

/-- The operation with a given mnemonic. -/
def ofName? (t : Text) : Option Operation := all.find? (·.name == t)

/-- The operation that computes with an operator. -/
def ofOperator : Operator → Operation
  | .eq => eq
  | .ne => ne
  | .ge => ge
  | .le => le
  | .gt => gt
  | .lt => lt
  | .add => add
  | .sub => sub
  | .mul => mul
  | .div => div
  | .assign => assign

/-- The operation of a logical keyword. -/
def ofKeyword : Keyword → Operation
  | .and => and
  | .or => or
  | .not => not

theorem ofName?_name (op : Operation) : ofName? op.name = some op := by
  cases op <;> decide

theorem name_ofOperator (op : Operator) : (ofOperator op).name = op.text := by
  cases op <;> rfl

theorem name_ofKeyword (k : Keyword) : (ofKeyword k).name = k.text := by
  cases k <;> rfl

end Operation

/-- The opcode of an instruction. -/
inductive Opcode where
  | operation (op : Operation)
  /-- A logical keyword that is known by its ordinal only. -/
  | pending (ordinal : Int)
  /-- A mnemonic that is not an operation's. -/
  | unknown (name : Text)
  deriving DecidableEq, Repr

/-- The mnemonic of an opcode. -/
def Opcode.name : Opcode → Text
  | operation op => op.name
  | pending ordinal => "PLA".toList ++ Text.ofInt ordinal
  | unknown name => name

/-- The opcode with a given mnemonic. -/
def Opcode.ofName (t : Text) : Opcode :=
  match Operation.ofName? t with
  | some op => .operation op
  | none => .unknown t

/-- A token of an instruction set. -/
inductive Token where
  | opcode (op : Opcode)
  /-- A slot, the place of a placeholder, the id of a tracker, or a flag. -/
  | operand (n : Int)
  | literal (value : Literal)
  deriving DecidableEq, Repr

namespace Value

/-- The code in place of the mnemonic of an operation; all else is left as it is. -/
def mapOpcode : Value → Value
  | text t =>
    match Operation.ofName? t with
    | some op => int op.code
    | none => text t
  | value => value

/-- How a value is listed. -/
def listed : Value → Text
  | text t => Text.quoted t
  | int n => Text.ofInt n

end Value

namespace Token

/-- The opcode of the operation. -/
def operation (op : Operation) : Token := .opcode (.operation op)

/-- The plain form of a token. A literal keeps its text unless its value is a number, so that it
cannot be taken for a mnemonic. -/
def plain : Token → Value
  | opcode op => .text op.name
  | operand n => .int n
  | literal l =>
    match l.value with
    | .int n => .int n
    | .text _ => .text l.text

/-- The numeric form of a token. -/
def numeric : Token → Except Error Value
  | opcode (.operation op) => .ok (.int op.code)
  | opcode op => .error (.unknownKey op.name)
  | token => .ok token.plain

end Token

/-- An instruction set in plain form. -/
def plainForm (tokens : List Token) : List Value := tokens.map Token.plain

/-- An instruction set in numeric form. -/
def numericForm (tokens : List Token) : Except Error (List Value) := tokens.mapM Token.numeric

/-- A plain form with the codes of operations in place of their mnemonics. -/
def mapOpcodes (values : List Value) : List Value := values.map Value.mapOpcode

/-- The opcodes of an instruction set with their positions. -/
def opcodePositions (tokens : List Token) : List (Nat × Opcode) :=
  tokens.zipIdx.filterMap fun (token, position) =>
    match token with
    | .opcode op => some (position, op)
    | _ => none

/-- An instruction set as one text. -/
def listing (tokens : List Token) : Text :=
  "InstructionSet([".toList ++ ", ".toList.intercalate ((plainForm tokens).map Value.listed) ++
    "])".toList

end PolicyRules
