import PolicyRules.Program.Token

/-!
# Raw data

The literals of an instruction set are lifted out of it, each with its position, so that they can be
stored apart and put back.
-/

namespace PolicyRules

/-- A literal lifted out of an instruction set. -/
structure RawDatum where
  /-- The position in the instruction set. -/
  position : Nat
  value : Value
  type : ParamType
  deriving DecidableEq, Repr

/-- The literals of an instruction set, from a position on. A name that nothing binds is refused if
`strict` is set. -/
def rawDataFrom (strict : Bool) (position : Nat) : List Token → Except Error (List RawDatum)
  | [] => .ok []
  | .literal l :: rest =>
    if strict && l.isUnbound then .error (.unquoted l.text position [])
    else
      match rawDataFrom strict (position + 1) rest with
      | .ok data => .ok (⟨position, l.value, l.type⟩ :: data)
      | .error e => .error e
  | _ :: rest => rawDataFrom strict (position + 1) rest

/-- The literals of an instruction set. -/
def rawData (strict : Bool) (tokens : List Token) : Except Error (List RawDatum) :=
  rawDataFrom strict 0 tokens

end PolicyRules
