import PolicyRules.Error

/-!
# Components

A component is a value that a rule names and that is bound when the rule runs: an argument of the
calling function, the result of a foreign call, a tracker, or a global variable.
-/

namespace PolicyRules

/-- The families of values that a rule can name. -/
inductive Family where
  | argument
  | foreignCall
  | tracker
  | trackerUpdate
  | globalVariable
  deriving DecidableEq, Repr

namespace Family

/-- The name of a family. -/
def name : Family → Text
  | argument => "function_argument".toList
  | foreignCall => "foreign_call".toList
  | tracker => "tracker".toList
  | trackerUpdate => "tracker_update".toList
  | globalVariable => "global".toList

/-- All families. -/
def all : List Family := [argument, foreignCall, tracker, trackerUpdate, globalVariable]

/-- The family with a given name. -/
def ofName (t : Text) : Except Error Family :=
  match all.find? (·.name == t) with
  | some family => .ok family
  | none => .error (.unknownFamily t)

end Family

/-- A global variable of the calling environment. -/
structure GlobalVariable where
  /-- The reference by which rules name it. -/
  reference : Text
  /-- The flag under which it is bound. -/
  flag : Nat
  /-- The name of its type. -/
  typeName : Text
  deriving DecidableEq, Repr

/-- The global variables. -/
def globalVariables : List GlobalVariable := [
  ⟨"GV:MSG_SENDER".toList, 0x04, "address".toList⟩,
  ⟨"GV:BLOCK_TIMESTAMP".toList, 0x08, "uint256".toList⟩,
  ⟨"GV:MSG_DATA".toList, 0x0c, "bytes".toList⟩,
  ⟨"GV:BLOCK_NUMBER".toList, 0x10, "uint256".toList⟩,
  ⟨"GV:TX_ORIGIN".toList, 0x14, "address".toList⟩]

/-- The global variable that a reference names. -/
def globalVariable? (reference : Text) : Option GlobalVariable :=
  globalVariables.find? (·.reference == reference)

/-- A value that a rule names. -/
structure Component where
  /-- The argument's name or the reference. -/
  name : Text
  /-- The argument's position, or the id of the foreign call or tracker. -/
  index : Int
  /-- The family of the value. -/
  family : Family
  /-- The name of the value's type. -/
  typeName : Text := "uint256".toList
  /-- The token that stands for a foreign call in normalized text. A call that only another call
  needs has none. -/
  token : Option Text := none
  deriving DecidableEq, Repr

namespace Component

/-- The flag under which a component is bound: zero for arguments, one for foreign calls, two for
trackers, and each global variable's own. -/
def flag (c : Component) : Except Error Nat :=
  match c.family with
  | .argument => .ok 0
  | .foreignCall => .ok 1
  | .tracker | .trackerUpdate => .ok 2
  | .globalVariable =>
    match globalVariable? c.name with
    | some g => .ok g.flag
    | none => .error (.unknownKey c.name)

/-- The type of a component's value. -/
def type (c : Component) : ParamType := .ofName c.typeName

/-- Whether a component is a foreign call that only another call needs. -/
def isDependencyOnly (c : Component) : Bool := c.family == .foreignCall && c.token.isNone

/-- The component of an argument. -/
def ofArgument (name : Text) (position : Nat) (typeName : Text) : Component :=
  ⟨name, position, .argument, typeName, none⟩

end Component

/-- The component of a global variable. -/
def GlobalVariable.component (g : GlobalVariable) : Component :=
  ⟨g.reference, 0, .globalVariable, g.typeName, none⟩

/-- The component of the global variable that a reference names. -/
def Component.ofGlobal (reference : Text) : Except Error Component :=
  match globalVariable? reference with
  | some g => .ok g.component
  | none => .error (.unknownKey reference)

/-- Adds a component unless one of its name is there. -/
def addComponent (components : List Component) (c : Component) : List Component :=
  if components.any (·.name == c.name) then components else components ++ [c]

/-- Puts a component into a merged list. A name keeps the place of its first entry. The entry itself
gives way only if it is a call that another call needs and the new one has a token. -/
def mergeComponent (merged : List Component) (c : Component) : List Component :=
  if merged.any (·.name == c.name) then
    merged.map fun m => if m.name = c.name ∧ m.isDependencyOnly ∧ c.token.isSome then c else m
  else merged ++ [c]

/-- Merges several component lists into one with an entry for each name, in the order in which the
names first occur. -/
def mergeComponents (lists : List (List Component)) : List Component :=
  lists.flatten.foldl mergeComponent []

end PolicyRules
