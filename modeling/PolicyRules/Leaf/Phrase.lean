import PolicyRules.Leaf.Lexeme

/-!
# Phrases

The grammar of leaf expressions. An expression is a sum, a comparison of two sums, or an update of a
target by a sum. Sums and products are read from left to right, products binding tighter; a keyed
access, an operand with a bar and a tracker, binds tightest. An operand is a name, a number, a
string, or an expression in parentheses.

A phrase is read one lexeme at a time. The reader keeps, for each open parenthesis, the part of the
expression that was there before it, so that it always knows whether the next lexeme can continue
the text.
-/

namespace PolicyRules

/-- The structure of a leaf expression, before names and numbers are given a meaning. -/
inductive Phrase where
  | name (text : Text)
  | number (text : Text)
  | string (text : Text)
  | mapped (key : Phrase) (tracker : Text)
  | binary (op : Operator) (left right : Phrase)
  | update (op : UpdateOperator) (target : Text) (value : Phrase)
  | updateMapped (op : UpdateOperator) (key : Phrase) (tracker : Text) (value : Phrase)
  deriving DecidableEq, Repr

/-- The left side of an expression whose right side is being read. -/
inductive Side where
  /-- There is no left side yet. -/
  | none
  /-- A comparison with a sum. -/
  | compare (left : Phrase) (op : Operator)
  /-- An update of a name. -/
  | update (target : Text) (op : UpdateOperator)
  /-- An update of a tracker at a key. -/
  | updateMapped (key : Phrase) (tracker : Text) (op : UpdateOperator)
  deriving DecidableEq, Repr

/-- An expression that is being read, up to the operand that comes next. -/
structure Partial where
  side : Side := .none
  /-- The sum so far, with the sign before the next product. -/
  sum : Option (Phrase × Operator) := none
  /-- The product so far, with the sign before the next operand. -/
  product : Option (Phrase × Operator) := none
  deriving DecidableEq, Repr

/-- Joins a phrase to what stands before it, if anything does. -/
def joinLeft (before : Option (Phrase × Operator)) (right : Phrase) : Phrase :=
  match before with
  | some (left, op) => .binary op left right
  | none => right

namespace Partial

/-- The product that ends with an operand. -/
def closeProduct (p : Partial) (operand : Phrase) : Phrase := joinLeft p.product operand

/-- The sum that ends with an operand. -/
def closeSum (p : Partial) (operand : Phrase) : Phrase := joinLeft p.sum (p.closeProduct operand)

/-- The expression that ends with an operand. -/
def close (p : Partial) (operand : Phrase) : Phrase :=
  match p.side with
  | .none => p.closeSum operand
  | .compare left op => .binary op left (p.closeSum operand)
  | .update target op => .update op target (p.closeSum operand)
  | .updateMapped key tracker op => .updateMapped op key tracker (p.closeSum operand)

/-- Whether nothing has been read of an expression. -/
def isFresh (p : Partial) : Bool := p.side == .none && p.sum.isNone && p.product.isNone

end Partial

/-- What the reader has just read. -/
inductive Stage where
  /-- An operand has to come next. -/
  | operand
  /-- The tracker of a keyed access has to come next. -/
  | tracker (key : Phrase)
  /-- A bare name has been read. -/
  | name (text : Text)
  /-- A number, a string, or an expression in parentheses has been read. -/
  | primary (phrase : Phrase)
  /-- A keyed access has been read. -/
  | mapped (key : Phrase) (tracker : Text)
  deriving DecidableEq, Repr

namespace Stage

/-- The operand that has been read, if it is complete. -/
def complete? : Stage → Option Phrase
  | operand | tracker _ => none
  | name text => some (.name text)
  | primary phrase => some phrase
  | mapped key text => some (.mapped key text)

/-- The operand that has been read, if it can be a key. -/
def key? : Stage → Option Phrase
  | name text => some (.name text)
  | primary phrase => some phrase
  | operand | tracker _ | mapped _ _ => none

/-- The left side of an update of the operand that has been read. -/
def updateSide? (op : UpdateOperator) : Stage → Option Side
  | name target => some (.update target op)
  | mapped key text => some (.updateMapped key text op)
  | operand | tracker _ | primary _ => none

end Stage

/-- The state of the reader. -/
structure Reader where
  /-- The expression being read. -/
  inner : Partial := {}
  /-- The expressions around the open parentheses, innermost first. -/
  outer : List Partial := []
  stage : Stage := .operand
  deriving DecidableEq, Repr

namespace Reader

/-- Reads an operator behind an operand. A second comparison cannot follow the first. -/
def readOperator (r : Reader) (operand : Phrase) (op : Operator) : Option Reader :=
  if op.isMultiplicative then
    some ⟨{ r.inner with product := some (r.inner.closeProduct operand, op) }, r.outer, .operand⟩
  else if op.isAdditive then
    some ⟨⟨r.inner.side, some (r.inner.closeSum operand, op), none⟩, r.outer, .operand⟩
  else if op.isComparison && r.inner.side == .none then
    some ⟨⟨.compare (r.inner.closeSum operand) op, none, none⟩, r.outer, .operand⟩
  else none

/-- Reads an update operator. Its target has to be all that has been read of the expression. -/
def readUpdate (r : Reader) (op : UpdateOperator) : Option Reader :=
  if r.inner.isFresh then
    (r.stage.updateSide? op).map fun side => ⟨⟨side, none, none⟩, r.outer, .operand⟩
  else none

/-- Reads a right parenthesis behind an operand. -/
def closeParen (r : Reader) (operand : Phrase) : Option Reader :=
  match r.outer with
  | [] => none
  | inner :: outer => some ⟨inner, outer, .primary (r.inner.close operand)⟩

/-- Reads a lexeme, if it can continue what has been read. -/
def read (r : Reader) (lexeme : Lexeme) : Option Reader :=
  match r.stage, lexeme with
  | .operand, .name text => some { r with stage := .name text }
  | .operand, .number text => some { r with stage := .primary (.number text) }
  | .operand, .string text => some { r with stage := .primary (.string text) }
  | .operand, .leftParen => some ⟨{}, r.inner :: r.outer, .operand⟩
  | .tracker key, .name text => some { r with stage := .mapped key text }
  | stage, .bar => stage.key?.map fun key => { r with stage := .tracker key }
  | stage, .operator op => stage.complete?.bind (r.readOperator · op)
  | _, .update op => r.readUpdate op
  | stage, .rightParen => stage.complete?.bind r.closeParen
  | _, _ => none

/-- The phrase that has been read, if the text can end here. -/
def finish? (r : Reader) : Option Phrase :=
  if r.outer.isEmpty then r.stage.complete?.map r.inner.close else none

/-- Reads lexemes with their positions, of which the one before is at `last`. Fails with the
position of the first lexeme that cannot continue the text, or of the last lexeme if the text cannot
end. -/
def readAll (r : Reader) (last : Nat) (stopped : Option Nat) :
    List (Nat × Lexeme) → Except Nat Phrase
  | [] =>
    match stopped, r.finish? with
    | some position, _ => .error position
    | none, some phrase => .ok phrase
    | none, none => .error last
  | (position, lexeme) :: rest =>
    match r.read lexeme with
    | some r => r.readAll position stopped rest
    | none => .error position

end Reader

/-- The phrase of a text, or the position at which the text stops being one. -/
def Phrase.ofText (t : Text) : Except Nat Phrase :=
  let read := lexemes t
  Reader.readAll {} 0 read.stopped read.found

end PolicyRules
