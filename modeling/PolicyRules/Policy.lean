import PolicyRules.Effect
import PolicyRules.Reference.Argument
import PolicyRules.Reference.Dependency
import PolicyRules.Reference.Extract
import PolicyRules.Settings

/-!
# Policies

A policy compiles the rules of one calling function. Conditions have placeholder lists of their own;
the effects that run in one case of a rule share a list, so the components of all of them are merged
before any is compiled.
-/

namespace PolicyRules

/-- The tables and settings with which rules are compiled. -/
structure Policy extends Tables, Settings where
  deriving DecidableEq, Repr

/-- A compiled condition. -/
structure Condition where
  tokens : List Token
  placeholders : List Placeholder
  data : List RawDatum
  components : List Component
  deriving DecidableEq, Repr

/-- The compiled effects of one case, with the placeholders that they share. -/
structure Effects where
  effects : List Effect
  placeholders : List Placeholder
  deriving DecidableEq, Repr

/-- A rule as it is written. -/
structure RuleText where
  condition : Text
  /-- The effects that run when the condition holds. -/
  positive : List Text := []
  /-- The effects that run when it does not. -/
  negative : List Text := []
  deriving DecidableEq, Repr

/-- A compiled rule. -/
structure Rule where
  condition : Condition
  positive : Effects
  negative : Effects
  deriving DecidableEq, Repr

/-- The sources of the values and keys of one foreign call. -/
structure CallSources where
  values : List ValueSource
  keys : List ValueSource
  deriving DecidableEq, Repr

namespace Policy

/-- The policy of a calling function, given the declaration of its arguments. -/
def ofDeclaration (declaration : Text) (trackers : List Tracker) (calls : List ForeignCall)
    (settings : Settings) : Except Error Policy := do
  let arguments ← declaredArguments declaration
  return { arguments := arguments, trackers := trackers, calls := calls, strict := settings.strict }

/-- The bindings of a list of components. -/
def bindings (p : Policy) (components : List Component) (placeholders : List Placeholder) :
    Bindings :=
  { components := components, placeholders := placeholders, trackers := p.trackers }

/-- Orders the dependencies of a text and extracts its references. -/
def process (p : Policy) (source : Text) : Except Error Extract := do
  let dependencies ← dependencyOrder p.calls source
  p.extract source (some dependencies)

/-- Compiles a condition. -/
def compileCondition (p : Policy) (source : Text) : Except Error Condition := do
  let extracted ← p.process source
  let placeholders ← Placeholder.ofComponents extracted.components
  let tokens ← convertText (p.bindings extracted.components placeholders) extracted.text
  return ⟨tokens, placeholders, ← rawData p.strict tokens, extracted.components⟩

/-- Compiles one effect. Components that are given are merged with the effect's own; placeholders
that are given are used instead of those of the components. -/
def compileEffect (p : Policy) (source : Text) (components : Option (List Component) := none)
    (placeholders : Option (List Placeholder) := none) : Except Error Effect := do
  let extracted ← p.process source
  let components :=
    match components with
    | some given => mergeComponents [given, extracted.components]
    | none => extracted.components
  let placeholders ←
    match placeholders with
    | some given => pure given
    | none => Placeholder.ofComponents components
  Effect.ofText (p.bindings components placeholders) p.strict extracted.text

/-- Compiles the effects of one case. -/
def compileEffects (p : Policy) (sources : List Text) : Except Error Effects := do
  let extracted ← sources.mapM p.process
  let components := mergeComponents (extracted.map (·.components))
  let placeholders ← Placeholder.ofComponents components
  let effects ← extracted.mapM fun e =>
    Effect.ofText (p.bindings components placeholders) p.strict e.text
  return ⟨effects, placeholders⟩

/-- Compiles a rule. -/
def compileRule (p : Policy) (rule : RuleText) : Except Error Rule := do
  return ⟨← p.compileCondition rule.condition, ← p.compileEffects rule.positive,
    ← p.compileEffects rule.negative⟩

/-- The sources of the values of every foreign call, by the names of the calls. -/
def callSources (p : Policy) : List (Text × CallSources) :=
  p.calls.map fun call => (call.name,
    ⟨call.sources p.arguments p.trackers p.calls, call.keySources p.arguments p.trackers p.calls⟩)

end Policy

end PolicyRules
