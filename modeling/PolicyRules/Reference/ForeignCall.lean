import PolicyRules.Reference.Tracker
import PolicyRules.Table

/-!
# Foreign calls

A foreign call asks another contract for a value. Its own arguments are arguments of the calling
function, results of other foreign calls, or trackers; the source of each is encoded for the call.
-/

namespace PolicyRules

/-- How the references of foreign calls begin. -/
def callPrefix : Text := "FC:".toList

/-- A foreign call of the policy. -/
structure ForeignCall where
  name : Text
  id : Int
  /-- The values that the call is given. -/
  values : List Text := []
  /-- The name of the result's type. -/
  returnType : Text := "uint256".toList
  /-- The keys by which mapped trackers given to the call are read. -/
  keyValues : List Text := []
  deriving DecidableEq, Repr

/-- The values of a list written with commas. Blanks around a value do not count, and nothing stands
for an empty field. -/
def valueList (t : Text) : List Text :=
  (Text.commaFields t).filterMap fun field =>
    if (Text.strip field).isEmpty then none else some (Text.strip field)

/-- The kinds of sources of a call's argument. -/
inductive SourceKind where
  | argument
  | foreignCall
  | tracker
  | placeholderTracker
  deriving DecidableEq, Repr

/-- The code of a kind of source. -/
def SourceKind.code : SourceKind → Nat
  | argument => 0
  | foreignCall => 1
  | tracker => 2
  | placeholderTracker => 4

/-- The place that a call's argument comes from. -/
structure ValueSource where
  kind : SourceKind
  /-- The argument's position, or the id of the foreign call or tracker. -/
  index : Int
  deriving DecidableEq, Repr

/-- The source of one value. Values that no table knows have none. -/
def ValueSource.of? (arguments : List Component) (trackers : List Tracker)
    (calls : List ForeignCall) (value : Text) : Option ValueSource :=
  let value := Text.strip value
  if Text.startsWith callPrefix value then
    (Table.find? (fun call => callPrefix ++ call.name) value calls).map fun call =>
      ⟨.foreignCall, call.id⟩
  else if Text.startsWith trackerPrefix value then
    (Table.find? Tracker.reference value trackers).map fun tracker =>
      ⟨if tracker.type = .string then .placeholderTracker else .tracker, tracker.id⟩
  else
    (Table.find? Component.name value arguments).map fun argument =>
      ⟨.argument, argument.index⟩

namespace ForeignCall

/-- The reference by which rules name a call. -/
def reference (call : ForeignCall) : Text := callPrefix ++ call.name

/-- The token that stands for a call in normalized text. -/
def token (call : ForeignCall) : Text := "FC#".toList ++ Text.ofInt call.id

/-- The component of a call, with the token that stands for it if the text names the call. -/
def component (call : ForeignCall) (token : Option Text) : Component :=
  ⟨call.reference, call.id, .foreignCall, call.returnType, token⟩

/-- The sources of the values that a call is given. -/
def sources (arguments : List Component) (trackers : List Tracker) (calls : List ForeignCall)
    (call : ForeignCall) : List ValueSource :=
  call.values.filterMap (ValueSource.of? arguments trackers calls)

/-- The sources of the keys by which a call's mapped trackers are read. -/
def keySources (arguments : List Component) (trackers : List Tracker) (calls : List ForeignCall)
    (call : ForeignCall) : List ValueSource :=
  call.keyValues.filterMap (ValueSource.of? arguments trackers calls)

end ForeignCall

end PolicyRules
