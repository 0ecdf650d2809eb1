import PolicyRules.Expr.Basic
import PolicyRules.Reference.Component

/-!
# Trackers

A tracker is a stored value of the policy that rules read and change.
-/

namespace PolicyRules

/-- A tracker of the policy. -/
structure Tracker where
  name : Text
  id : Int
  type : ParamType := .uint256
  deriving DecidableEq, Repr

/-- The type that a tracker is declared with: the name of a type, or its code. -/
inductive DeclaredType where
  | name (text : Text)
  | code (number : Int)
  deriving DecidableEq, Repr

/-- The type that is declared. A number that is the code of no type fails. -/
def DeclaredType.resolve : DeclaredType → Except Error ParamType
  | name text => .ok (.ofName text)
  | code number =>
    match ParamType.ofCode? number with
    | some type => .ok type
    | none => .error (.typeCode number)

namespace Tracker

/-- The tracker of a declaration. Without a type it holds a number. -/
def ofDeclared (name : Text) (id : Int) (type : Option DeclaredType) : Except Error Tracker := do
  return ⟨name, id, ← (type.getD (.code ParamType.uint256.code)).resolve⟩

/-- The reference by which rules read a tracker. -/
def reference (t : Tracker) : Text := trackerPrefix ++ t.name

/-- The name of the type under which a tracker is bound. -/
def typeName (t : Tracker) : Text := t.type.trackerName

/-- Whether a tracker is read through a placeholder: strings and byte sequences are. -/
def isPlaceholderBacked (t : Tracker) : Bool := t.type == .string || t.type == .bytes

/-- The component of a tracker that is read. -/
def read (t : Tracker) : Component := ⟨t.reference, t.id, .tracker, t.typeName, none⟩

/-- The component of a tracker that is changed. -/
def updated (t : Tracker) : Component := ⟨t.reference, t.id, .trackerUpdate, t.typeName, none⟩

end Tracker

end PolicyRules
