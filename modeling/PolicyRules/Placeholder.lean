import PolicyRules.Expr.Basic
import PolicyRules.Reference.Component
import PolicyRules.Table

/-!
# Placeholders

A placeholder tells the interpreter where a value comes from when a rule runs. Instructions name
placeholders by their place in the list, so the order of the list is part of the result.
-/

namespace PolicyRules

/-- The source of a value that is bound when a rule runs. -/
structure Placeholder where
  type : ParamType
  /-- The argument's position, or the id of the foreign call or tracker. -/
  index : Int
  /-- The flag of the family or global variable. -/
  flag : Int
  deriving DecidableEq, Repr

namespace Placeholder

/-- The placeholder that binds a component. -/
def ofComponent (c : Component) : Except Error Placeholder := do
  return ⟨c.type, c.index, ← c.flag⟩

/-- Whether a placeholder binds a component. The flag is looked up only if the index fits. -/
def binds (p : Placeholder) (c : Component) : Except Error Bool :=
  if p.index = c.index then do return decide (p.flag = (← c.flag)) else .ok false

/-- Adds a placeholder unless one with its index and flag is there. -/
def addTo (list : List Placeholder) (p : Placeholder) : List Placeholder :=
  if list.any fun q => q.index == p.index && q.flag == p.flag then list else list ++ [p]

/-- The placeholders of a list of components, one for each index and flag, in the order in which
they first occur. -/
def ofComponents (components : List Component) : Except Error (List Placeholder) := do
  return (← components.mapM ofComponent).foldl addTo []

/-- The place of the first placeholder that binds a component, counted from `place`. -/
def ordinalFrom (c : Component) (place : Nat) : List Placeholder → Except Error (Option Nat)
  | [] => .ok none
  | p :: rest => do
    if ← p.binds c then return some place else ordinalFrom c (place + 1) rest

/-- The place of the placeholder that binds a component. -/
def ordinal (placeholders : List Placeholder) (source : Text) (c : Component) :
    Except Error Nat := do
  match ← ordinalFrom c 0 placeholders with
  | some place => return place
  | none => throw (.unbound c.name source)

end Placeholder

/-- The component that a name refers to: first by the token that stands for it, then by its name, a
tracker that is changed having the name under which it is read. -/
def resolve (components : List Component) (name : Text) : Option Component :=
  let tokens := components.filter fun c => c.token.any (! ·.isEmpty)
  match Table.find? (·.token.getD []) name tokens with
  | some c => some c
  | none => Table.find? Component.name ((trackerReference? name).getD name) components

end PolicyRules
