import PolicyRules.Program.Convert
import PolicyRules.Program.RawData

/-!
# Effects

An effect runs when the condition of a rule holds or fails. It reverts with a message, emits an
event with an optional parameter, or is an expression, which is converted like a condition.
-/

namespace PolicyRules

/-- The parameter of an event. -/
inductive Parameter where
  /-- The value of a placeholder, named by a text. -/
  | bound (place : Nat) (type : ParamType) (text : Text)
  | address (text : Text)
  | number (n : Int)
  | string (text : Text)
  deriving DecidableEq, Repr

/-- A compiled effect. -/
inductive Effect where
  | revert (message : Text)
  | event (name : Text) (parameter : Option Parameter)
  | expression (tokens : List Token) (data : List RawDatum)
  deriving DecidableEq, Repr

/-- The text without a pair of equal quotes around it. -/
def unquote (t : Text) : Text :=
  match t with
  | c :: rest => if isQuoteMark c && rest.getLast? == some c then rest.dropLast else t
  | [] => []

/-- The parameter of an event. -/
def Parameter.ofText (b : Bindings) (t : Text) : Except Error Parameter :=
  match resolve b.components t with
  | some c => do return .bound (← Placeholder.ordinal b.placeholders [] c) c.type t
  | none =>
    if isAddress t then .ok (.address t)
    else if t.all isDigitChar then
      match Radix.decimal.read t with
      | .ok n => .ok (.number n)
      | .error fault => .error (.integer fault)
    else .ok (.string (unquote t))

/-- What follows a word at the beginning of a text, if the word ends there. -/
def afterWord? (word t : Text) : Option Text :=
  match Text.dropStart? word t with
  | some rest => if isWordEdge rest.head? then some rest else none
  | none => none

/-- The message of a revert, given what follows the word: nothing, or a quoted message in
parentheses, which may be absent. -/
def revertMessage? (t : Text) : Option Text :=
  match t.dropWhile isBlank with
  | [] => some []
  | '(' :: rest =>
    let inner := rest.dropWhile isBlank
    let (message, behind) :=
      match quotationAt none inner with
      | some (q, width) => (q.body, inner.drop width)
      | none => ([], inner)
    if behind.dropWhile isBlank = [')'] then some message else none
  | _ => none

namespace Effect

/-- The event of an effect, given what follows the word: a name, and a parameter after a comma. -/
def ofEvent (b : Bindings) (body : Text) : Except Error Effect := do
  let name := unquote (Text.strip (Text.before ',' body))
  let parameter := Text.strip (Text.after ',' body)
  if name.isEmpty then throw (.malformed .eventName body none)
  if parameter.isEmpty then return .event name none
  else return .event name (some (← Parameter.ofText b parameter))

/-- The effect of an expression. -/
def ofExpression (b : Bindings) (strict : Bool) (t : Text) : Except Error Effect := do
  let tokens ← convertText b t
  return .expression tokens (← rawData strict tokens)

/-- Compiles a normalized effect. The text of an event stands on one line. -/
def ofText (b : Bindings) (strict : Bool) (t : Text) : Except Error Effect :=
  let t := Text.strip t
  let event := (afterWord? "emit".toList t).map (·.dropWhile isBlank)
  match event.filter (! ·.contains '\n'), afterWord? "revert".toList t with
  | some body, _ => ofEvent b body
  | none, some rest =>
    match revertMessage? rest with
    | some message => .ok (.revert message)
    | none => .error (.malformed .revert t none)
  | none, none => ofExpression b strict t

end Effect

/-- An effect as it is stored. Fields that do not apply to an effect have fixed values. -/
structure EffectRecord where
  kind : Nat
  text : Text := []
  tokens : List Token := []
  data : List RawDatum := []
  parameterType : ParamType := .uint256
  parameterValue : Value := .int 0
  isBound : Bool := false
  placeholder : Nat := 0
  deriving DecidableEq, Repr

/-- The record of an effect. -/
def Effect.record : Effect → EffectRecord
  | revert message => { kind := 0, text := message }
  | event name none => { kind := 1, text := name }
  | event name (some (.bound place type text)) =>
    { kind := 1, text := name, parameterType := type, parameterValue := .text text, isBound := true,
      placeholder := place }
  | event name (some (.address text)) =>
    { kind := 1, text := name, parameterType := .address, parameterValue := .text text }
  | event name (some (.number n)) =>
    { kind := 1, text := name, parameterType := .uint256, parameterValue := .int n }
  | event name (some (.string text)) =>
    { kind := 1, text := name, parameterType := .string, parameterValue := .text text }
  | expression tokens data => { kind := 2, tokens := tokens, data := data }

end PolicyRules
