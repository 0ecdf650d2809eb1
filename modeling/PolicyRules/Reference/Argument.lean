import PolicyRules.Reference.Mark

/-!
# Arguments of the calling function

The declaration of the calling function's arguments is a list, with commas, of type names followed
by names. An argument keeps its place in the declaration; one whose type cannot be bound is left
out.
-/

namespace PolicyRules

/-- The component of one declared argument, unless its type cannot be bound or it is filtered
out. -/
def argumentOf (declaration : Text) (keep : Text → Bool) (field : Text) (position : Nat) :
    Except Error (Option Component) :=
  match Text.words field with
  | typeName :: name :: _ =>
    if ParamType.isArgumentTypeName typeName && keep name then
      .ok (some (.ofArgument name position typeName))
    else .ok none
  | _ => .error (.malformed (.argument (Text.strip field)) declaration none)

/-- The components of a declaration's arguments. If a text is given, only those that it mentions. -/
def declaredArguments (declaration : Text) (usedIn : Option Text := none) :
    Except Error (List Component) :=
  if (Text.strip declaration).isEmpty then .ok []
  else do
    let keep name := usedIn.all (mentions name)
    let arguments ← (Text.commaFields declaration).zipIdx.mapM fun (field, position) =>
      argumentOf declaration keep field position
    return arguments.reduceOption

end PolicyRules
