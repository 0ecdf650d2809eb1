import PolicyRules.Program.Token

/-!
# Instructions of a token list

The tokens of an instruction set form instructions: each opcode begins one, and what follows it up
to the next opcode are its arguments. This module cuts a token list into its instructions, names the
instructions that lowering emits, and says which slots an instruction reads.

Main statement: instructions that are written one after the other are found again
(`ofTokens?_flatMap_tokens`).
-/

namespace PolicyRules

/-- Whether a token is an opcode. -/
def Token.isOpcode : Token → Bool
  | .opcode _ => true
  | _ => false

/-- An opcode with the tokens that follow it. -/
structure Instruction where
  opcode : Opcode
  arguments : List Token
  deriving DecidableEq, Repr

namespace Instruction

/-- The tokens of an instruction. -/
def tokens (i : Instruction) : List Token := .opcode i.opcode :: i.arguments

/-- The tokens before the first opcode, and the instructions from there on. -/
def cut : List Token → List Token × List Instruction
  | [] => ([], [])
  | .opcode op :: rest => ([], ⟨op, (cut rest).1⟩ :: (cut rest).2)
  | token :: rest => (token :: (cut rest).1, (cut rest).2)

/-- The instructions of a token list, if it begins with an opcode. -/
def ofTokens? (tokens : List Token) : Option (List Instruction) :=
  match cut tokens with
  | ([], instructions) => some instructions
  | (_ :: _, _) => none

/-- Loads a literal. -/
def load (l : Literal) : Instruction := ⟨.operation .literal, [.literal l]⟩

/-- Reads the placeholder at a place of the list. -/
def read (place : Nat) : Instruction := ⟨.operation .placeholder, [.operand place]⟩

/-- Reads a tracker by the key in a slot. -/
def readMapped (id : Int) (key : Nat) : Instruction :=
  ⟨.operation .mapped, [.operand id, .operand key]⟩

/-- Computes with an operation on slots. -/
def compute (op : Operation) (slots : List Nat) : Instruction :=
  ⟨.operation op, slots.map fun (slot : Nat) => .operand slot⟩

/-- The operand that says how a tracker is stored. -/
def flag (backed : Bool) : Int := if backed then 1 else 0

/-- Writes the value of a slot to a tracker. -/
def write (id : Int) (slot : Nat) (backed : Bool) : Instruction :=
  ⟨.operation .write, [.operand id, .operand slot, .operand (flag backed)]⟩

/-- Writes the value of a slot to a tracker at the key in a slot. -/
def writeMapped (id : Int) (slot key : Nat) (backed : Bool) : Instruction :=
  ⟨.operation .writeMapped, [.operand id, .operand slot, .operand key, .operand (flag backed)]⟩

/-- The numbers among the arguments that are operands. -/
def operands (i : Instruction) : List Int :=
  i.arguments.filterMap fun
    | .operand n => some n
    | _ => none

/-- The operands of an instruction that are slots. The place of a placeholder, the id of a tracker
and a flag are not. -/
def reads (i : Instruction) : List Int :=
  match i.opcode with
  | .operation .literal | .operation .placeholder => []
  | .operation .mapped => i.operands.drop 1
  | .operation .write | .operation .writeMapped => (i.operands.drop 1).dropLast
  | _ => i.operands

@[simp] theorem reads_load (l : Literal) : (load l).reads = [] := rfl

@[simp] theorem reads_read (place : Nat) : (read place).reads = [] := rfl

@[simp] theorem reads_readMapped (id : Int) (key : Nat) :
    (readMapped id key).reads = [(key : Int)] :=
  rfl

@[simp] theorem reads_write (id : Int) (slot : Nat) (backed : Bool) :
    (write id slot backed).reads = [(slot : Int)] := rfl

@[simp] theorem reads_writeMapped (id : Int) (slot key : Nat) (backed : Bool) :
    (writeMapped id slot key backed).reads = [(slot : Int), (key : Int)] := rfl

/-- A computation reads the slots that it is given. -/
theorem operands_compute (op : Operation) (slots : List Nat) :
    (compute op slots).operands = slots.map fun (slot : Nat) => (slot : Int) := by
  rw [operands, compute, List.filterMap_map]
  exact congrFun List.filterMap_eq_map slots

/-- Whether an instruction has an operation of the interpreter, and no opcode among its
arguments. -/
structure IsComplete (i : Instruction) : Prop where
  operation : ∃ op, i.opcode = .operation op
  closed : ∀ token ∈ i.arguments, token.isOpcode = false

theorem isComplete_load (l : Literal) : (load l).IsComplete :=
  ⟨⟨_, rfl⟩, by simp [load, Token.isOpcode]⟩

theorem isComplete_read (place : Nat) : (read place).IsComplete :=
  ⟨⟨_, rfl⟩, by simp [read, Token.isOpcode]⟩

theorem isComplete_readMapped (id : Int) (key : Nat) : (readMapped id key).IsComplete :=
  ⟨⟨_, rfl⟩, by simp [readMapped, Token.isOpcode]⟩

theorem isComplete_compute (op : Operation) (slots : List Nat) : (compute op slots).IsComplete :=
  ⟨⟨_, rfl⟩, by simp [compute, Token.isOpcode]⟩

theorem isComplete_write (id : Int) (slot : Nat) (backed : Bool) :
    (write id slot backed).IsComplete :=
  ⟨⟨_, rfl⟩, by simp [write, Token.isOpcode]⟩

theorem isComplete_writeMapped (id : Int) (slot key : Nat) (backed : Bool) :
    (writeMapped id slot key backed).IsComplete :=
  ⟨⟨_, rfl⟩, by simp [writeMapped, Token.isOpcode]⟩

/-- Up to the next opcode, tokens belong to the instruction before. -/
theorem cut_append_of_isOpcode_eq_false {arguments : List Token}
    (h : ∀ token ∈ arguments, token.isOpcode = false) (rest : List Token) :
    cut (arguments ++ rest) = (arguments ++ (cut rest).1, (cut rest).2) := by
  induction arguments with
  | nil => rfl
  | cons token arguments ih =>
    have tail := ih fun other member => h other (List.mem_cons_of_mem _ member)
    cases token with
    | opcode op => simpa [Token.isOpcode] using h (.opcode op) (by simp)
    | operand n | literal l => simp [cut, tail]

/-- Cutting a program at its opcodes gives its instructions. -/
theorem cut_flatMap_tokens {instructions : List Instruction}
    (complete : ∀ i ∈ instructions, i.IsComplete) :
    cut (instructions.flatMap tokens) = ([], instructions) := by
  induction instructions with
  | nil => rfl
  | cons i rest ih =>
    have tail := ih fun other member => complete other (List.mem_cons_of_mem _ member)
    have first :=
      cut_append_of_isOpcode_eq_false (complete i (by simp)).closed (rest.flatMap tokens)
    simp [tokens, cut, first, tail]

/-- Instructions that are written one after the other are found again. -/
theorem ofTokens?_flatMap_tokens {instructions : List Instruction}
    (complete : ∀ i ∈ instructions, i.IsComplete) :
    ofTokens? (instructions.flatMap tokens) = some instructions := by
  simp [ofTokens?, cut_flatMap_tokens complete]

end Instruction

end PolicyRules
