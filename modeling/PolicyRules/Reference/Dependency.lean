import PolicyRules.Reference.Mark

/-!
# Dependencies between foreign calls

A foreign call needs the results of the calls, and the trackers, that it is given. The calls of a
text are put into an order in which everything that a call needs comes before it.
-/

namespace PolicyRules

/-- The reference in a value that is given to a call: the value up to its first parenthesis. -/
def valueReference (value : Text) : Text := Text.before '(' (Text.strip value)

/-- The number of calls outside a chain of calls that wait for each other. -/
def callsOutside (calls : List ForeignCall) (chain : List Text) : Nat :=
  (calls.filter fun call => ! chain.contains call.name).length

theorem callsOutside_lt {calls : List ForeignCall} {chain : List Text} {name : Text}
    {call : ForeignCall} (fresh : ¬ chain.contains name)
    (found : Table.find? ForeignCall.name name calls = some call) :
    callsOutside calls (chain ++ [name]) < callsOutside calls chain := by
  have hmem := Table.mem_of_find? found
  have hname := Table.name_of_find? found
  have hsub : (calls.filter fun c => ! (chain ++ [name]).contains c.name) =
      (calls.filter fun c => ! chain.contains c.name).filter fun c => c.name != name := by
    rw [List.filter_filter]
    congr 1
    funext c
    by_cases h : c.name = name <;> simp [h]
  unfold callsOutside
  rw [hsub]
  apply List.length_filter_lt_length_iff_exists.2
  exact ⟨call, by simpa [hmem, hname] using fresh, by simp [hname]⟩

mutual

/-- Puts a call, after all that it needs, at the end of an order. `chain` are the calls that wait
for this one. -/
def placeCall (calls : List ForeignCall) (source : Text) (chain order : List Text) (name : Text) :
    Except Error (List Text) :=
  if _fresh : chain.contains name then
    .error (.cyclicCalls (chain.dropWhile (· != name) ++ [name]))
  else if order.contains (callPrefix ++ name) then .ok order
  else
    match _found : Table.find? ForeignCall.name name calls with
    | none => .error (.unknown (callPrefix ++ name) source)
    | some call =>
      match placeValues calls source (chain ++ [name]) order call.values with
      | .error e => .error e
      | .ok order => .ok (order ++ [callPrefix ++ name])
termination_by (callsOutside calls chain, 0)
decreasing_by
  exact Prod.Lex.left _ _ (callsOutside_lt _fresh _found)

/-- Puts the calls and trackers among the values given to a call at the end of an order. -/
def placeValues (calls : List ForeignCall) (source : Text) (chain order : List Text) :
    List Text → Except Error (List Text)
  | [] => .ok order
  | value :: values =>
    let reference := valueReference value
    match Text.dropStart? callPrefix reference with
    | some name =>
      match placeCall calls source chain order name with
      | .error e => .error e
      | .ok order => placeValues calls source chain order values
    | none =>
      if Text.startsWith trackerPrefix reference && ! order.contains reference then
        placeValues calls source chain (order ++ [reference]) values
      else placeValues calls source chain order values
termination_by values => (callsOutside calls chain, values.length)

end

/-- The references of the calls that a text names, directly or through other calls, and of the
trackers given to them, everything after what it needs. -/
def dependencyOrder (calls : List ForeignCall) (source : Text) : Except Error (List Text) :=
  (callNames source).foldlM (placeCall calls source []) []

/-- A text that names no call needs none. -/
theorem dependencyOrder_of_callNames_eq_nil {calls : List ForeignCall} {source : Text}
    (h : callNames source = []) : dependencyOrder calls source = .ok [] := by
  rw [dependencyOrder, h]
  rfl

end PolicyRules
