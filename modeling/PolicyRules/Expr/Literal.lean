import PolicyRules.Error

/-!
# Literals

A literal is a value written in a rule: a number, an address, a truth value or a quoted string. A
name that nothing binds is kept as a literal of type `void`, its text standing for the value.
-/

namespace PolicyRules

/-- A value carried by a literal. -/
inductive Value where
  | int (n : Int)
  | text (t : Text)
  deriving DecidableEq, Repr

/-- A value written in a rule, with the text that it was written as. -/
structure Literal where
  value : Value
  type : ParamType
  text : Text
  deriving DecidableEq, Repr

/-- The largest number that fits into a word of 256 bits. -/
def maxWord : Int := Nat.pow 2 256 - 1

/-- Whether a character is a hexadecimal digit of ASCII. -/
def isHexDigit (c : Char) : Bool :=
  c.isDigit || (decide ('a' ≤ c) && decide (c ≤ 'f')) || (decide ('A' ≤ c) && decide (c ≤ 'F'))

/-- Whether a text is an address: `0x` and forty hexadecimal digits, with blanks around it
ignored. -/
def isAddress (t : Text) : Bool :=
  match Text.dropStart? "0x".toList (Text.strip t) with
  | some digits => decide (digits.length = 40) && digits.all isHexDigit
  | none => false

namespace Literal

/-- The base that a number is written in. -/
def radixOf (t : Text) : Radix :=
  if Text.startsWith "0x".toList t || Text.startsWith "0X".toList t then .hexadecimal else .decimal

/-- The literal of a number or an address. A number above `maxWord` is refused. -/
def ofNumber (t : Text) : Except Error Literal :=
  let t := Text.strip t
  match (radixOf t).read t with
  | .error fault => .error (.integer fault)
  | .ok n =>
    if isAddress t then .ok ⟨.int n, .address, t⟩
    else if maxWord < n then .error (.numberRange t maxWord)
    else .ok ⟨.int n, .uint256, t⟩

/-- The literal of a quoted string, given with its quotes. A string that begins with `0x` is a byte
sequence. -/
def ofQuoted (t : Text) : Literal :=
  let body := (t.drop 1).dropLast
  ⟨.text body, if Text.startsWith "0x".toList body then .bytes else .string, t⟩

/-- The literal of a truth value. -/
def ofBool (t : Text) : Literal := ⟨.int (if t = "true".toList then 1 else 0), .bool, t⟩

/-- The literal of a name that nothing binds. -/
def ofUnbound (name : Text) : Literal := ⟨.text name, .void, name⟩

/-- Whether a literal is a name that nothing binds. -/
def isUnbound (l : Literal) : Bool := l.type == .void

theorem isUnbound_ofUnbound (name : Text) : (ofUnbound name).isUnbound := rfl

end Literal

end PolicyRules
