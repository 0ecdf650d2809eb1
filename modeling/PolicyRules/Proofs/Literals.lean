import PolicyRules.Proofs.BuiltTree
import PolicyRules.Proofs.LeafMeaning

/-!
# The literals of a tree

Every literal of a tree is a number that fits into a word of 256 bits or a quoted string, since the
leaf reader makes no others and joining expressions makes none.

What holds of the words of a leaf by their forms, and is kept when they are joined, holds of every
operand (`WordClosed.parseOperand`). Main statement: `Expr.Written.wordClosed`, from which
`Expr.Written` follows of every tree by the closure rules of tree building.
-/

namespace PolicyRules

/-- A property of expressions that holds of the words of a leaf, by their forms, and that joining
them keeps. -/
structure WordClosed (P : Expr → Prop) : Prop where
  truth : ∀ {w : Text}, IsName w → P (.literal (.ofBool w))
  name : ∀ {w : Text}, IsName w → P (.name w)
  number : ∀ {w : Text}, IsNumber w → (numeralValue w : Int) ≤ maxWord → P (.literal (.ofNumeral w))
  string : ∀ {w : Text}, IsQuoted w → P (.literal (.ofQuoted w))
  mapped : ∀ {key : Expr} {w : Text}, IsName w → P key → P (.mapped key w)
  binary : ∀ {op : Operator} {left right : Expr}, P left → P right → P (.binary op left right)
  update : ∀ {op : UpdateOperator} {w : Text} {value : Expr}, IsName w → P value →
    P (.update op w value)
  updateMapped : ∀ {op : UpdateOperator} {key : Expr} {w : Text} {value : Expr}, IsName w →
    P key → P value →
    P (.updateMapped op key w value)

namespace WordClosed

variable {P : Expr → Prop} {e : Expr}

/-- What a phrase yields has the property, if the subexpressions that it names have it. -/
theorem of_yields (closed : WordClosed P) {table : List (Text × Expr)} {p : Phrase}
    (entries : ∀ entry ∈ table, P entry.2) (spelled : p.Spelled) {r : Except Error Expr}
    (yields : p.Yields table r) (h : r = .ok e) : P e := by
  induction yields generalizing e with
  | subexpression bound =>
    cases h
    obtain ⟨entry, found, rfl⟩ := Option.map_eq_some_iff.mp bound
    exact entries entry (Table.mem_of_find? found)
  | truth unbound either =>
    cases h
    exact closed.truth spelled
  | name unbound other =>
    cases h
    exact closed.name spelled
  | number short fits =>
    cases h
    exact closed.number spelled fits
  | string =>
    cases h
    exact closed.string spelled
  | mapped _ isTracker ih =>
    cases h
    exact closed.mapped spelled.2 (ih spelled.1 rfl)
  | binary _ _ ih ih' =>
    cases h
    exact closed.binary (ih spelled.2.1 rfl) (ih' spelled.2.2 rfl)
  | update _ isTracker ih =>
    cases h
    exact closed.update spelled.1 (ih spelled.2 rfl)
  | updateMapped _ isTracker _ ih ih' =>
    cases h
    exact closed.updateMapped spelled.2.1 (ih spelled.1 rfl) (ih' spelled.2.2 rfl)
  | _ => cases h

/-- An operand has the property, if the subexpressions have it. -/
theorem parseOperand (closed : WordClosed P) {s : SetAside} {t : Text}
    (entries : ∀ entry ∈ s.subexpressions, P entry.2) (h : s.parseOperand t = .ok e) : P e := by
  obtain ⟨leaf, phrase, -, read, given⟩ := SetAside.parseOperand_eq_ok h
  obtain ⟨xs, -, -, sentence⟩ := sentence_of_ofText read
  exact closed.of_yields entries sentence.spelled ((Phrase.toExpr_eq_iff sentence.spelled).mp given)
    rfl

end WordClosed

/-- Whether a literal is one that can be written in a text: a number of one word, or a quoted
string. -/
inductive Literal.Written : Literal → Prop
  | word {l : Literal} {n : Int} (value : l.value = .int n) (nonneg : 0 ≤ n) (fits : n ≤ maxWord) :
    Written l
  | quoted {w : Text} (h : IsQuoted w) : Written (.ofQuoted w)

/-- Whether all literals of an expression can be written in a text. -/
def Expr.Written (e : Expr) : Prop := ∀ l ∈ e.literals, l.Written

theorem Literal.written_ofBool (w : Text) : (ofBool w).Written := by
  by_cases same : w = "true".toList
  · exact .word (n := 1) (congrArg Value.int (if_pos same)) (by decide) (by decide +kernel)
  · exact .word (n := 0) (congrArg Value.int (if_neg same)) (by decide) (by decide +kernel)

theorem Literal.written_ofNumeral {w : Text} (fits : (numeralValue w : Int) ≤ maxWord) :
    (ofNumeral w).Written :=
  .word rfl (Int.natCast_nonneg _) fits

namespace Expr.Written

variable {e left right : Expr} {l : Literal}

theorem of_literal (h : l.Written) : (Expr.literal l).Written := List.forall_mem_singleton.mpr h

theorem of_append (first : left.Written) (second : right.Written) :
    ∀ l ∈ left.literals ++ right.literals, l.Written :=
  List.forall_mem_append.mpr ⟨first, second⟩

theorem levelClosed (keywords : List Keyword) : LevelClosed keywords Written where
  logical := fun _ _ left right => of_append left right
  negation := fun _ operand => operand

theorem wordClosed : WordClosed Written where
  truth _ := of_literal (Literal.written_ofBool _)
  name _ _ member := by cases member
  number _ fits := of_literal (Literal.written_ofNumeral fits)
  string quoted := of_literal (.quoted quoted)
  mapped _ key := key
  binary := of_append
  update _ value := value
  updateMapped _ := of_append

end Expr.Written

end PolicyRules
