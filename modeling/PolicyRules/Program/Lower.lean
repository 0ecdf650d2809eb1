import PolicyRules.Entry
import PolicyRules.Placeholder
import PolicyRules.Program.Emission
import PolicyRules.Reference.Tracker

/-!
# Lowering expressions

An expression is lowered by emitting its operands from left to right and then its operator. Logical
operators are emitted by their ordinals; when the whole expression has been lowered, the keywords
are put in their place.
-/

namespace PolicyRules

/-- What names are bound to while an expression is lowered. -/
structure Bindings where
  components : List Component := []
  placeholders : List Placeholder := []
  trackers : List Tracker := []
  /-- The text that is lowered, for errors. -/
  source : Text := []
  deriving DecidableEq, Repr

namespace Bindings

/-- The id of the tracker that a name refers to, and whether it is read through a placeholder. A
component that is not in the tracker table is not. -/
def trackerId (b : Bindings) (name : Text) : Except Error (Int × Bool) :=
  match (trackerReference? name).bind fun reference =>
      Table.find? Tracker.reference reference b.trackers with
  | some tracker => .ok (tracker.id, tracker.isPlaceholderBacked)
  | none =>
    match resolve b.components name with
    | some c => .ok (c.index, false)
    | none => .error (.unknown name b.source)

end Bindings

namespace Emission

/-- Emits the load of a literal. -/
def loadLiteral (l : Literal) : Attempt Emission Unit := do
  emit [.operation .literal, .literal l]
  discard push

/-- Emits the read of a name. A name that nothing binds is loaded as a literal. -/
def readName (b : Bindings) (name : Text) : Attempt Emission Unit :=
  match resolve b.components name with
  | none => loadLiteral (.ofUnbound name)
  | some c => do
    let place ← Attempt.ofExcept (Placeholder.ordinal b.placeholders b.source c)
    emit [.operation .placeholder, .operand place]
    discard push

/-- Emits the read of a tracker by the key that was produced last, and gives the slot of the key. -/
def readMapped (b : Bindings) (tracker : Text) : Attempt Emission Nat := do
  let keySlot ← pop
  let (id, _) ← Attempt.ofExcept (b.trackerId tracker)
  emit [.operation .mapped, .operand id, .operand keySlot]
  discard push
  return keySlot

/-- Emits the write of the value produced last to a tracker. -/
def writeTracker (tracker : Text) (id : Int) (backed : Bool) (keySlot : Option Nat) :
    Attempt Emission Unit := do
  let slot ← pop
  modify fun e => { e with written := some ⟨trackerReference? tracker, id, keySlot⟩ }
  let flag : Int := if backed then 1 else 0
  match keySlot with
  | none => emit [.operation .write, .operand id, .operand slot, .operand flag]
  | some key =>
    emit [.operation .writeMapped, .operand id, .operand slot, .operand key, .operand flag]
  discard push

/-- Lowers an expression, leaving logical operators pending. -/
def lowerExpr (b : Bindings) : Expr → Attempt Emission Unit
  | .hole => throw .noExpression
  | .literal l => loadLiteral l
  | .name name => readName b name
  | .mapped key tracker => do
    lowerExpr b key
    discard (readMapped b tracker)
  | .binary op left right => do
    lowerExpr b left
    lowerExpr b right
    emitOperator (.operation (.ofOperator op)) 2
  | .logical _ ordinal left right => do
    lowerExpr b left
    lowerExpr b right
    emitOperator (.pending ordinal) 2
  | .negation ordinal operand => do
    lowerExpr b operand
    emitOperator (.pending ordinal) 1
  | .update op tracker value => do
    let (id, backed) ← Attempt.ofExcept (b.trackerId tracker)
    readName b tracker
    lowerExpr b value
    emitOperator (.operation (.ofOperator op.arithmetic)) 2
    writeTracker tracker id backed none
  | .updateMapped op key tracker value => do
    let (id, backed) ← Attempt.ofExcept (b.trackerId tracker)
    lowerExpr b key
    let keySlot ← readMapped b tracker
    lowerExpr b value
    emitOperator (.operation (.ofOperator op.arithmetic)) 2
    writeTracker tracker id backed (some keySlot)

end Emission

/-- The token with a pending keyword put in its place. Only ordinals that are not negative are those
of keywords. -/
def Token.restore (keywords : List Keyword) : Token → Except Error Token
  | .opcode (.pending (.ofNat ordinal)) =>
    (nthEntry keywords ordinal).map fun keyword => .operation (.ofKeyword keyword)
  | token => .ok token

namespace Emission

/-- Puts the pending keywords of all instructions in their places. -/
def restoreKeywords (keywords : List Keyword) : Attempt Emission Unit := do
  let tokens ← Attempt.ofExcept ((← get).tokens.mapM (Token.restore keywords))
  modify fun e => { e with tokens := tokens }

/-- Lowers an expression and gives all instructions emitted so far. -/
def lower (b : Bindings) (keywords : List Keyword) (tree : Expr) :
    Attempt Emission (List Token) := do
  lowerExpr b tree
  restoreKeywords keywords
  return (← get).tokens

end Emission

end PolicyRules
