import PolicyRules.Attempt
import PolicyRules.Program.Token

/-!
# Emitting instructions

Every value that an instruction produces has a slot of its own, and slots are handed out in order.
Operators take the values produced last.
-/

namespace PolicyRules

/-- The tracker that was written last. -/
structure UpdateTarget where
  /-- The reference of the tracker, if the name that was written refers to one. -/
  reference : Option Text
  id : Int
  /-- The slot of the key. -/
  keySlot : Option Nat
  deriving DecidableEq, Repr

/-- The instructions emitted so far, and the slots of their values. -/
structure Emission where
  tokens : List Token := []
  /-- The slots whose values are still to be used, the latest last. -/
  slots : List Nat := []
  /-- The next slot. -/
  next : Nat := 0
  /-- The tracker that was written last. -/
  written : Option UpdateTarget := none
  deriving DecidableEq, Repr

namespace Emission

/-- Appends tokens. -/
def emit (tokens : List Token) : Attempt Emission Unit :=
  modify fun e => { e with tokens := e.tokens ++ tokens }

/-- Hands out the next slot. -/
def push : Attempt Emission Nat :=
  modifyGet fun e => (e.next, { e with slots := e.slots ++ [e.next], next := e.next + 1 })

/-- The number of slots that stay when `count` of them are taken. Taking none takes all, and a
negative count says how many stay. -/
def keptBy (available : Nat) (count : Int) : Nat :=
  if 0 < count then available - count.toNat else (-count).toNat

/-- Takes the latest slots, the oldest of them first. -/
def consume (count : Int) : Attempt Emission (List Nat) := do
  let e ← get
  if (e.slots.length : Int) < count then throw (.operandShortage count e.slots.length)
  let kept := keptBy e.slots.length count
  set { e with slots := e.slots.take kept }
  return e.slots.drop kept

/-- Takes the latest slot. -/
def pop : Attempt Emission Nat := do
  let e ← get
  match e.slots.getLast? with
  | some slot =>
    set { e with slots := e.slots.dropLast }
    return slot
  | none => throw .outOfRange

/-- Emits an operator on the latest slots and gives its value a slot. -/
def emitOperator (op : Opcode) (arity : Nat) : Attempt Emission Unit := do
  let slots ← consume arity
  emit (.opcode op :: slots.map fun (slot : Nat) => .operand slot)
  discard push

theorem emit_eq (tokens : List Token) (e : Emission) :
    emit tokens e = .ok () { e with tokens := e.tokens ++ tokens } := rfl

theorem push_eq (e : Emission) :
    push e = .ok e.next { e with slots := e.slots ++ [e.next], next := e.next + 1 } := rfl

/-- Slots are taken from the end, and an attempt to take too many changes nothing. -/
theorem consume_eq (count : Int) (e : Emission) :
    consume count e =
      if (e.slots.length : Int) < count then .error (.operandShortage count e.slots.length) e
      else .ok (e.slots.drop (keptBy e.slots.length count))
        { e with slots := e.slots.take (keptBy e.slots.length count) } := by
  change (if (e.slots.length : Int) < count then
    (throw (.operandShortage count e.slots.length) >>= fun (_ : PUnit) => _ :
      Attempt Emission (List Nat)) else _) e = _
  split <;> rfl

theorem keptBy_of_pos {available count : Nat} (h : 0 < count) :
    keptBy available count = available - count := by
  simp [keptBy, h]

theorem pop_append (slots : List Nat) (slot : Nat) (e : Emission) (h : e.slots = slots ++ [slot]) :
    pop e = .ok slot { e with slots := slots } := by
  have last : e.slots.getLast? = some slot := by rw [h, List.getLast?_concat]
  change (match e.slots.getLast? with | some slot => _ | none => _ : Attempt Emission Nat) e = _
  rw [last]
  change EStateM.Result.ok slot { e with slots := e.slots.dropLast } = _
  rw [h, List.dropLast_concat]

end Emission

end PolicyRules
