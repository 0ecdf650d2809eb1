import PolicyRules.Reference.ForeignCall
import PolicyRules.Text.Segment
import PolicyRules.Text.Word

/-!
# References in a text

How references stand in a rule text: `FC:` and a name with an optional argument list for a foreign
call, `TR:` or `TRU:` and a name with an optional key for a tracker, `GV:` and a name for a global
variable. A reference does not begin inside a word or after a colon; a foreign call does not begin
after a number sign either, so that the tokens of calls are not taken apart.
-/

namespace PolicyRules

/-- Whether a reference can follow a character. -/
def isClear (previous : Option Char) : Bool :=
  ! previous.any fun c => isWordChar c || c == ':'

/-- Whether a name or a foreign call can follow a character. -/
def isClearOfTokens (previous : Option Char) : Bool :=
  ! previous.any fun c => isWordChar c || c == ':' || c == '#'

/-- The name at the beginning of a text: a letter or underscore of ASCII and word characters. -/
def nameAt? : Text → Option Text
  | [] => none
  | c :: cs => if isNameStart c then some (c :: cs.takeWhile isWordChar) else none

/-- The text between parentheses at the beginning of a text, if no parenthesis stands in between. -/
def parenthesized? : Text → Option Text
  | '(' :: cs =>
    let body := cs.takeWhile fun c => c != '(' && c != ')'
    if (cs.drop body.length).head? = some ')' then some body else none
  | _ => none

/-- Recognises the name of a foreign call. -/
def callNameAt : Recogniser Text := fun previous t =>
  if isClearOfTokens previous then do
    let rest ← Text.dropStart? callPrefix t
    let name ← nameAt? rest
    return (name, callPrefix.length + name.length)
  else none

/-- Recognises a foreign call with its argument list. -/
def callAt : Recogniser Text := fun previous t => do
  let (name, width) ← callNameAt previous t
  match parenthesized? (t.drop width) with
  | some arguments => return (name, width + arguments.length + 2)
  | none => return (name, width)

/-- A tracker as a text names it. -/
structure TrackerMark where
  /-- Whether the tracker is changed. -/
  isUpdate : Bool
  name : Text
  deriving DecidableEq, Repr

/-- The reference as the text has it. -/
def TrackerMark.reference (mark : TrackerMark) : Text :=
  (if mark.isUpdate then updatePrefix else trackerPrefix) ++ mark.name

/-- Recognises a tracker. -/
def trackerAt : Recogniser TrackerMark := fun previous t =>
  if isClear previous then
    match Text.dropStart? updatePrefix t, Text.dropStart? trackerPrefix t with
    | some rest, _ => (nameAt? rest).map fun name =>
      (⟨true, name⟩, updatePrefix.length + name.length)
    | none, some rest => (nameAt? rest).map fun name =>
      (⟨false, name⟩, trackerPrefix.length + name.length)
    | none, none => none
  else none

/-- Recognises a tracker with a key. -/
def mappedTrackerAt : Recogniser (TrackerMark × Text) := fun previous t => do
  let (mark, width) ← trackerAt previous t
  let key ← parenthesized? (t.drop width)
  if key.isEmpty then none else return ((mark, key), width + key.length + 2)

/-- How the references of global variables begin. -/
def globalPrefix : Text := "GV:".toList

/-- Recognises the reference of a global variable. -/
def globalAt : Recogniser Text := fun previous t =>
  if isClear previous then do
    let rest ← Text.dropStart? globalPrefix t
    let name ← nameAt? rest
    return (globalPrefix ++ name, globalPrefix.length + name.length)
  else none

/-- The names of the foreign calls in a text, each once, in the order of their first occurrence. -/
def callNames (t : Text) : List Text := (t.split callNameAt).marks.eraseDups

/-- The names of the trackers in a text, each once: first those that are read, then those that are
changed. -/
def trackerNames (t : Text) : List Text :=
  let (updates, reads) := (t.split trackerAt).marks.partition (·.isUpdate)
  ((reads ++ updates).map (·.name)).eraseDups

/-- Whether a name begins at a place: neither the character before nor the one behind extends it. -/
def standsAt (name : Text) (previous : Option Char) (t : Text) : Bool :=
  isClearOfTokens previous &&
    match Text.dropStart? name t with
    | some rest => isClear rest.head?
    | none => false

/-- Whether a name stands at some place of a text without quotes. -/
def standsIn (name : Text) : Option Char → Text → Bool
  | previous, [] => standsAt name previous []
  | previous, c :: cs => standsAt name previous (c :: cs) || standsIn name (some c) cs

/-- Whether a text has a name as a whole word outside quotes. -/
def mentions (name t : Text) : Bool := (Text.unquoted t).any (standsIn name none)

end PolicyRules
