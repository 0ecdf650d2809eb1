import PolicyRules.Reference.Mark

/-!
# Extracting references

Finds what a condition or an effect refers to, and normalizes the text so that references can be
told from plain names: a foreign call with its argument list becomes the call's token, and a tracker
with a key becomes the key, a bar and the tracker. Text inside quotes is left alone.
-/

namespace PolicyRules

/-- The tables of a policy. -/
structure Tables where
  /-- The arguments of the calling function. -/
  arguments : List Component := []
  trackers : List Tracker := []
  calls : List ForeignCall := []
  deriving DecidableEq, Repr

namespace Tables

/-- The tracker of a name. -/
def tracker? (tables : Tables) (name : Text) : Option Tracker :=
  Table.find? Tracker.name name tables.trackers

/-- The foreign call of a name. -/
def call? (tables : Tables) (name : Text) : Option ForeignCall :=
  Table.find? ForeignCall.name name tables.calls

end Tables

/-- A text in normal form, with the components that it refers to. -/
structure Extract where
  text : Text
  components : List Component
  deriving DecidableEq, Repr

/-- The marks of a recogniser outside quotes, from left to right. -/
def unquotedMarks {α : Type} (recognise : Recogniser α) (t : Text) : List α :=
  (Text.unquoted t).flatMap fun part => (part.split recognise).marks

/-- A text with the marks outside quotes replaced. -/
def replaceUnquoted {α : Type} (recognise : Recogniser α) (write : α → Text) (t : Text) : Text :=
  t.mapUnquoted fun part => (part.split recognise).render write

/-- A tracker with a key in normal form. A key of several words is put into parentheses. -/
def mappedText (mark : TrackerMark × Text) : Text :=
  let key := Text.strip mark.2
  (if key.contains ' ' then '(' :: key ++ [')'] else key) ++ " | ".toList ++ mark.1.reference

/-- Finds an entry or reports its reference. -/
def require {α : Type} (entry : Option α) (reference source : Text) : Except Error α :=
  match entry with
  | some a => .ok a
  | none => .error (.unknown reference source)

namespace Tables

/-- The token of the call of a name. -/
def callToken (tables : Tables) (name : Text) : Text :=
  ((tables.call? name).map ForeignCall.token).getD []

/-- The text with foreign calls replaced by their tokens. -/
def withTokens (tables : Tables) (t : Text) : Text := replaceUnquoted callAt tables.callToken t

/-- Whether a dependency is a tracker. -/
def isTrackerDependency (reference : Text) : Bool := Text.before ':' reference == "TR".toList

/-- The foreign calls that a text names outside quotes. `source` is the text as it was given, with
which an unknown reference is reported. -/
def namedCalls (tables : Tables) (source text : Text) : Except Error (List ForeignCall) :=
  (unquotedMarks callAt text).mapM fun name =>
    require (tables.call? name) (callPrefix ++ name) source

/-- The foreign calls among the dependencies of a text. -/
def neededCalls (tables : Tables) (source : Text) (dependencies : List Text) :
    Except Error (List ForeignCall) :=
  (dependencies.filter (! isTrackerDependency ·)).mapM fun reference =>
    require (tables.call? (Text.after ':' reference)) reference source

/-- The trackers that a text names outside quotes, with whether it changes them. -/
def namedTrackers (tables : Tables) (source text : Text) : Except Error (List (Bool × Tracker)) :=
  (unquotedMarks trackerAt text).mapM fun mark =>
    (require (tables.tracker? mark.name) mark.reference source).map fun t => (mark.isUpdate, t)

/-- The trackers among the dependencies of a text. -/
def neededTrackers (tables : Tables) (source : Text) (dependencies : List Text) :
    Except Error (List Tracker) :=
  (dependencies.filter isTrackerDependency).mapM fun reference =>
    let name := Text.after ':' reference
    require (tables.tracker? name) (trackerPrefix ++ name) source

end Tables

/-- The global variables that a text names outside quotes. -/
def namedGlobals (source text : Text) : Except Error (List GlobalVariable) :=
  (unquotedMarks globalAt text).mapM fun reference =>
    require (globalVariable? reference) reference source

namespace Tables

/-- The components of the calls that a text needs and of those that it names. A call has a token if
the text names it. -/
def callComponents (needed named : List ForeignCall) : List Component :=
  let isNamed (call : ForeignCall) := named.any (·.name == call.name)
  (needed.map fun call => call.component (if isNamed call then some call.token else none)) ++
    named.map fun call => call.component (some call.token)

/-- The components of the trackers that a text names and of those given to the calls that it needs:
first those that are read, then those that are changed. -/
def trackerComponents (named : List (Bool × Tracker)) (needed : List Tracker) : List Component :=
  let (updates, reads) := named.partition (·.1)
  (reads.map (·.2) ++ needed).map Tracker.read ++ updates.map (·.2.updated)

/-- Finds the references of a text. `dependencies` are the references that the text needs, in the
order in which they are bound; without them it needs the calls that it names. The components come by
family: arguments, foreign calls, trackers and global variables, and each name only once. -/
def extract (tables : Tables) (source : Text) (dependencies : Option (List Text) := none) :
    Except Error Extract := do
  let text := Text.clean source
  let arguments := tables.arguments.filter fun argument => mentions argument.name text
  let namedCalls ← tables.namedCalls source text
  let text := tables.withTokens text
  let dependencies :=
    dependencies.getD ((namedCalls.map (·.name)).eraseDups.map (callPrefix ++ ·))
  let neededCalls ← tables.neededCalls source dependencies
  let text := replaceUnquoted mappedTrackerAt mappedText text
  let namedTrackers ← tables.namedTrackers source text
  let neededTrackers ← tables.neededTrackers source dependencies
  let globals ← namedGlobals source text
  let components := arguments ++ callComponents neededCalls namedCalls ++
    trackerComponents namedTrackers neededTrackers ++ globals.map GlobalVariable.component
  return ⟨text, components.foldl addComponent []⟩

end Tables

end PolicyRules
