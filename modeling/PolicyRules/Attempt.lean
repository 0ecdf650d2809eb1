import PolicyRules.Error

/-!
# Attempts

Reading and lowering a text change a state step by step, and a step that fails leaves the state as
the steps before it made it.
-/

namespace PolicyRules

/-- A computation that may fail, and keeps its state when it does. -/
abbrev Attempt (σ α : Type) := EStateM Error σ α

/-- A result that does not depend on the state. -/
def Attempt.ofExcept {σ α : Type} : Except Error α → Attempt σ α
  | .ok a => pure a
  | .error e => throw e

@[simp] theorem Attempt.ofExcept_ok {σ α : Type} (a : α) (s : σ) :
    (Attempt.ofExcept (.ok a) : Attempt σ α) s = .ok a s := rfl

@[simp] theorem Attempt.ofExcept_error {σ α : Type} (e : Error) (s : σ) :
    (Attempt.ofExcept (.error e) : Attempt σ α) s = .error e s := rfl

end PolicyRules
