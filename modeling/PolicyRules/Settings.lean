import PolicyRules.Text.Basic

/-!
# Settings

Names that nothing binds are refused unless the setting says otherwise.
-/

namespace PolicyRules

/-- The settings of a compiler. -/
structure Settings where
  /-- Whether names that nothing binds are refused. -/
  strict : Bool := true
  deriving DecidableEq, Repr

/-- The values that switch a setting off. -/
def offValues : List Text := ["0".toList, "false".toList, "no".toList, "off".toList]

/-- The settings that a variable of the environment gives. Case and blanks around the value do not
count; without a value the setting is on. -/
def Settings.ofVariable (value : Option Text) : Settings :=
  let value := value.getD "true".toList
  ⟨! offValues.contains ((Text.strip value).map Char.toLower)⟩

end PolicyRules
