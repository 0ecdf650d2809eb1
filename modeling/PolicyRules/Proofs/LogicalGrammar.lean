import PolicyRules.Proofs.TreeFailures

/-!
# The grammar of the logical level

A level is a chain of operands (`Chain`): the first one and, behind each connective, the next one,
where an operand may have negations before it (`Unary`). Its tree is the fold of the operands from
the left, and each node of the tree has the ordinal of the keyword that it comes from. Reading the
pieces of a level accepts those of chains and nothing else, and gives the tree of the chain.

Main statements: `readOperand_eq_ok_iff` for what is accepted, `exists_fault_of_not_chain` for the
rest.
-/

namespace PolicyRules

/-- An operand behind any number of negations, with their ordinals. -/
inductive Unary where
  | operand (text : Text)
  | negation (ordinal : Nat) (negated : Unary)

namespace Unary

def pieces : Unary → List Piece
  | operand text => [.operand text]
  | negation ordinal negated => .keyword ordinal :: negated.pieces

/-- The tree of an operand with its negations, given the trees of operands. -/
def tree (value : Text → Expr) : Unary → Expr
  | operand text => value text
  | negation ordinal negated => .negation ordinal (negated.tree value)

/-- Whether each negation has the ordinal of one. -/
def Proper (keywords : List Keyword) : Unary → Prop
  | operand _ => True
  | negation ordinal negated => keywords[ordinal]? = some .not ∧ negated.Proper keywords

end Unary

/-- A connective and the operand behind it. -/
structure Joined where
  keyword : Keyword
  ordinal : Nat
  right : Unary

namespace Joined

def pieces (j : Joined) : List Piece := .keyword j.ordinal :: j.right.pieces

/-- The tree of a connective, given that of its left operand. -/
def tree (value : Text → Expr) (left : Expr) (j : Joined) : Expr :=
  .logical j.keyword j.ordinal left (j.right.tree value)

/-- Whether a connective has the ordinal of one. -/
def Proper (keywords : List Keyword) (j : Joined) : Prop :=
  keywords[j.ordinal]? = some j.keyword ∧ j.keyword ≠ .not ∧ j.right.Proper keywords

end Joined

/-- A logical expression without its groups: operands and the connectives between them. -/
structure Chain where
  first : Unary
  rest : List Joined

namespace Chain

def pieces (c : Chain) : List Piece := c.first.pieces ++ c.rest.flatMap Joined.pieces

/-- The tree of a chain. Connectives bind equally and from left to right. -/
def tree (value : Text → Expr) (c : Chain) : Expr :=
  c.rest.foldl (Joined.tree value) (c.first.tree value)

def Proper (keywords : List Keyword) (c : Chain) : Prop :=
  c.first.Proper keywords ∧ ∀ j ∈ c.rest, j.Proper keywords

end Chain

section Reading

variable {keywords : List Keyword} {fail : Fault → Error} {operand : Text → Except Error Expr}
  {value : Text → Expr}

/-- Reading an operand with its negations, and what follows it. -/
theorem readOperand_unary {u : Unary} (proper : u.Proper keywords)
    (built : ∀ t, .operand t ∈ u.pieces → operand t = .ok (value t)) (waiting : Option Waiting)
    (nots : List Nat) (more : List Piece) :
    readOperand keywords fail operand waiting nots (u.pieces ++ more) =
      readConnective keywords fail operand (Waiting.join waiting (negate nots (u.tree value)))
        more := by
  induction u generalizing nots with
  | operand t =>
    simp only [Unary.pieces, List.singleton_append, readOperand, built t (by simp [Unary.pieces]),
      Unary.tree]
  | negation n u ih =>
    obtain ⟨isNot, proper⟩ := proper
    rw [Unary.pieces, List.cons_append, readOperand, nthEntry_eq_ok_iff.mpr isNot]
    exact ih proper (fun t member => built t (List.mem_cons_of_mem _ member)) (n :: nots)

theorem readConnective_connective {n : Nat} {keyword : Keyword}
    (found : keywords[n]? = some keyword) (connective : keyword ≠ .not) (left : Expr)
    (more : List Piece) :
    readConnective keywords fail operand left (.keyword n :: more) =
      readOperand keywords fail operand (some ⟨left, keyword, n⟩) [] more := by
  rw [readConnective, nthEntry_eq_ok_iff.mpr found]
  cases keyword with
  | and => rfl
  | or => rfl
  | not => exact absurd rfl connective

/-- Reading connectives with their operands behind a left operand. -/
theorem readConnective_joined {rest : List Joined} (proper : ∀ j ∈ rest, j.Proper keywords)
    (built : ∀ t, .operand t ∈ rest.flatMap Joined.pieces → operand t = .ok (value t))
    (left : Expr) :
    readConnective keywords fail operand left (rest.flatMap Joined.pieces) =
      .ok (rest.foldl (Joined.tree value) left) := by
  induction rest generalizing left with
  | nil => simp [readConnective]
  | cons j rest ih =>
    obtain ⟨⟨found, connective, properRight⟩, properRest⟩ := List.forall_mem_cons.mp proper
    rw [List.flatMap_cons] at built ⊢
    have builtRight : ∀ t, .operand t ∈ j.right.pieces → operand t = .ok (value t) :=
      fun t member =>
        built t (List.mem_append_left _ (List.mem_cons_of_mem _ member))
    rw [Joined.pieces, List.cons_append, readConnective_connective found connective,
      readOperand_unary properRight builtRight]
    exact ih properRest (fun t member => built t (List.mem_append_right _ member))
      (Joined.tree value left j)

/-- The pieces of a proper chain whose operands can be built. -/
theorem readOperand_chain {c : Chain} (proper : c.Proper keywords)
    (built : ∀ t, .operand t ∈ c.pieces → operand t = .ok (value t)) :
    readOperand keywords fail operand none [] c.pieces = .ok (c.tree value) := by
  rw [Chain.pieces, readOperand_unary proper.1 fun t member =>
    built t (List.mem_append_left _ member)]
  exact readConnective_joined proper.2 (fun t member => built t (List.mem_append_right _ member)) _

/-- What has been read is an operand, or a connective, and a chain behind it. -/
theorem exists_chain_of_read (pieces : List Piece) :
    (∀ waiting nots e, readOperand keywords fail operand waiting nots pieces = .ok e →
      ∃ c : Chain, c.Proper keywords ∧ c.pieces = pieces ∧ ∀ t, .operand t ∈ pieces →
        ∃ e, operand t = .ok e) ∧
    ∀ left e, readConnective keywords fail operand left pieces = .ok e →
      ∃ rest : List Joined, (∀ j ∈ rest, j.Proper keywords) ∧ rest.flatMap Joined.pieces = pieces ∧
        ∀ t, .operand t ∈ pieces → ∃ e, operand t = .ok e := by
  induction pieces with
  | nil =>
    refine ⟨fun waiting nots e read => ?_, fun left e read => ⟨[], by simp, rfl, by simp⟩⟩
    rw [readOperand] at read
    cases read
  | cons piece pieces ih =>
    obtain ⟨ihOperand, ihConnective⟩ := ih
    cases piece with
    | operand text =>
      refine ⟨fun waiting nots e read => ?_, fun left e read => ?_⟩
      · rw [readOperand] at read
        split at read
        · cases read
        · next built =>
          obtain ⟨rest, proper, rfl, others⟩ := ihConnective _ _ read
          refine ⟨⟨.operand text, rest⟩, ⟨trivial, proper⟩, rfl, fun t member => ?_⟩
          rcases List.mem_cons.mp member with same | later
          · obtain rfl := Piece.operand.inj same
            exact ⟨_, built⟩
          · exact others t later
      · rw [readConnective] at read
        cases read
    | keyword n =>
      have others : ∀ {t}, (∀ t, .operand t ∈ pieces → ∃ e, operand t = .ok e) →
          Piece.operand t ∈ .keyword n :: pieces → ∃ e, operand t = .ok e := fun built member =>
        built _ ((List.mem_cons.mp member).resolve_left (by simp))
      refine ⟨fun waiting nots e read => ?_, fun left e read => ?_⟩
      · rw [readOperand] at read
        split at read
        · cases read
        · next isNot =>
          obtain ⟨⟨first, rest⟩, ⟨properFirst, properRest⟩, rfl, built⟩ := ihOperand _ _ _ read
          have proper : (Unary.negation n first).Proper keywords :=
            ⟨nthEntry_eq_ok_iff.mp isNot, properFirst⟩
          exact ⟨⟨.negation n first, rest⟩, ⟨proper, properRest⟩, rfl, fun t => others built⟩
        · cases read
      · rw [readConnective] at read
        split at read
        · cases read
        · cases read
        · next keyword connective found =>
          obtain ⟨⟨first, rest⟩, ⟨properFirst, properRest⟩, rfl, built⟩ := ihOperand _ _ _ read
          have proper : (Joined.mk keyword n first).Proper keywords := by
            refine ⟨nthEntry_eq_ok_iff.mp found, ?_, properFirst⟩
            rintro rfl
            exact connective rfl
          exact ⟨⟨keyword, n, first⟩ :: rest, List.forall_mem_cons.mpr ⟨proper, properRest⟩, rfl,
            fun t => others built⟩

/-- The pieces of a level are accepted exactly if they are those of a chain whose operands can be
built, and then the tree is that of the chain. -/
theorem readOperand_eq_ok_iff {pieces : List Piece} {e : Expr} :
    readOperand keywords fail operand none [] pieces = .ok e ↔
      ∃ (c : Chain) (value : Text → Expr), c.Proper keywords ∧ c.pieces = pieces ∧
        (∀ t, .operand t ∈ pieces → operand t = .ok (value t)) ∧ e = c.tree value := by
  constructor
  · intro read
    obtain ⟨c, proper, rfl, built⟩ := (exists_chain_of_read pieces).1 none [] e read
    have valued : ∀ t, .operand t ∈ c.pieces →
        operand t = .ok ((operand t).toOption.getD .hole) := by
      intro t member
      obtain ⟨e, given⟩ := built t member
      rw [given]
      rfl
    exact ⟨c, _, proper, rfl, valued,
      Except.ok.inj (read.symm.trans (readOperand_chain proper valued))⟩
  · rintro ⟨c, value, proper, rfl, built, rfl⟩
    exact readOperand_chain proper built

/-- If all operands can be built, pieces that are not those of a chain are a fault. -/
theorem exists_fault_of_not_chain {pieces : List Piece}
    (numbers : ∀ n, .keyword n ∈ pieces → n < keywords.length)
    (built : ∀ t, .operand t ∈ pieces → ∃ e, operand t = .ok e)
    (noChain : ¬ ∃ c : Chain, c.Proper keywords ∧ c.pieces = pieces) :
    ∃ fault, readOperand keywords fail operand none [] pieces = .error (fail fault) := by
  have fails : FailsWith (fun e => ∃ fault, e = fail fault)
      (readOperand keywords fail operand none [] pieces) := by
    refine (FailsWith.read (fun fault => ⟨fault, rfl⟩) (fun t member => ?_) fun n member => ?_).1
      none []
    · obtain ⟨e, given⟩ := built t member
      rw [given]
      exact .ok e
    · rw [nthEntry_eq_ok_iff.mpr (List.getElem?_eq_getElem (numbers n member))]
      exact .ok _
  cases read : readOperand keywords fail operand none [] pieces with
  | ok e =>
    obtain ⟨c, -, proper, same, -⟩ := readOperand_eq_ok_iff.mp read
    exact absurd ⟨c, proper, same⟩ noChain
  | error e =>
    obtain ⟨fault, rfl⟩ := fails e read
    exact ⟨fault, rfl⟩

end Reading

end PolicyRules
