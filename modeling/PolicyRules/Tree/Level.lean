import PolicyRules.Leaf.Parse
import PolicyRules.Tree.Token

/-!
# The logical level

At one level of parentheses a text is a sequence of operands and logical keywords: operands joined
by `AND` and `OR`, which bind equally and from left to right, each operand preceded by any number of
`NOT`. An operand is a group, which is a level of its own, or a leaf expression.
-/

namespace PolicyRules

/-- The parts of a text that have been set aside. -/
structure SetAside where
  /-- The texts of the groups in parentheses. -/
  groups : List Text := []
  /-- The quoted strings, with their quotes. -/
  strings : List Text := []
  /-- The logical keywords, in the order of the text. -/
  keywords : List Keyword := []
  /-- The expressions in square brackets, by the names that stand for them. -/
  subexpressions : List (Text × Expr) := []
  deriving DecidableEq, Repr

/-- An operand or a keyword of a level. -/
inductive Piece where
  | operand (text : Text)
  | keyword (ordinal : Nat)
  deriving DecidableEq, Repr

/-- The operand in a text between keywords, unless it is blank. -/
def Piece.ofPlain (t : Text) : List Piece :=
  if (Text.strip t).isEmpty then [] else [.operand (Text.strip t)]

/-- The operands and keywords of a level. -/
def Piece.ofText (t : Text) : Except Error (List Piece) := do
  let split := t.split keywordTokenAt
  let rest ← split.tail.mapM fun (digits, plain) => do
    return .keyword (← tokenNumber digits) :: ofPlain plain
  return ofPlain split.head ++ rest.flatten

/-- The left operand of a connective that waits for its right one. -/
structure Waiting where
  left : Expr
  keyword : Keyword
  ordinal : Nat
  deriving DecidableEq, Repr

/-- Joins an operand to what waits for it. -/
def Waiting.join (waiting : Option Waiting) (right : Expr) : Expr :=
  match waiting with
  | some w => .logical w.keyword w.ordinal w.left right
  | none => right

/-- Negates an expression once for each ordinal, the first one innermost. -/
def negate (ordinals : List Nat) (e : Expr) : Expr :=
  ordinals.foldl (fun e (ordinal : Nat) => .negation ordinal e) e

section

variable (keywords : List Keyword) (fail : Fault → Error) (operand : Text → Except Error Expr)

mutual

/-- Reads an operand, before which `waiting` and the negations `nots` have been read, the last one
first, and all that follows it. -/
def readOperand (waiting : Option Waiting) (nots : List Nat) : List Piece → Except Error Expr
  | [] => .error (fail .operand)
  | .operand t :: rest =>
    match operand t with
    | .error e => .error e
    | .ok e => readConnective (Waiting.join waiting (negate nots e)) rest
  | .keyword ordinal :: rest =>
    match nthEntry keywords ordinal with
    | .error e => .error e
    | .ok .not => readOperand waiting (ordinal :: nots) rest
    | .ok keyword => .error (fail (.leftOperand keyword))

/-- Reads what follows a complete operand. -/
def readConnective (left : Expr) : List Piece → Except Error Expr
  | [] => .ok left
  | .operand _ :: _ => .error (fail .connective)
  | .keyword ordinal :: rest =>
    match nthEntry keywords ordinal with
    | .error e => .error e
    | .ok .not => .error (fail .connective)
    | .ok keyword => readOperand (some ⟨left, keyword, ordinal⟩) [] rest

end

end

namespace SetAside

/-- The text with groups and strings put back in the place of their tokens. Groups can be nested
`depth` deep. -/
def expandWithin (s : SetAside) : (depth : Nat) → Text → Except Error Text
  | 0, _ => .error .endlessGroup
  | depth + 1, t => do
    let opened ← (t.split groupTokenAt).renderM fun digits => do
      let group ← tokenEntry s.groups digits
      return '(' :: (← s.expandWithin depth group) ++ [')']
    (opened.split stringTokenAt).renderM (tokenEntry s.strings)

/-- The depth to which groups can be nested, unless one contains itself. -/
def depth (s : SetAside) : Nat := s.groups.length + 1

/-- The text with groups and strings put back in the place of their tokens. -/
def expand (s : SetAside) (t : Text) : Except Error Text := s.expandWithin s.depth t

/-- The text with groups, strings and keywords put back. -/
def restore (s : SetAside) (t : Text) : Except Error Text := do
  let expanded ← s.expand t
  let restored ← (expanded.split keywordTokenAt).renderM fun digits => do
    return ' ' :: (← tokenEntry s.keywords digits).text ++ [' ']
  return Text.strip restored

/-- The error of a fault in a text, which is shown with everything put back. -/
def faultIn (s : SetAside) (t : Text) (fault : Fault) : Error :=
  match s.restore t with
  | .ok source => .malformed fault source none
  | .error e => e

/-- Reads an operand that is a leaf expression. -/
def parseOperand (s : SetAside) (t : Text) : Except Error Expr := do
  let leaf ← s.expand t
  if (leaf.split keywordTokenAt).tail.isEmpty then parseLeaf s.subexpressions leaf
  else throw (s.faultIn leaf .nestedConnective)

/-- Reads a level whose groups are nested at most `depth` deep. -/
def parseWithin (s : SetAside) : (depth : Nat) → Text → Except Error Expr
  | 0, _ => .error .endlessGroup
  | depth + 1, t => do
    let pieces ← Piece.ofText t
    if pieces.isEmpty then throw (.malformed .empty (← s.expand t) none)
    let operand text :=
      match groupToken? text with
      | some digits => do s.parseWithin depth (← tokenEntry s.groups digits)
      | none => s.parseOperand text
    readOperand s.keywords (s.faultIn t) operand none [] pieces

/-- Reads a level. -/
def parseLevel (s : SetAside) (t : Text) : Except Error Expr := s.parseWithin s.depth t

end SetAside

end PolicyRules
