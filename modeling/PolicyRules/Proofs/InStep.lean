import Mathlib.Data.List.Forall2
import PolicyRules.Tree.Level

/-!
# Readings in step

Two readings are in step if they succeed with related results or both fail; with which errors they
fail is left open. Two levels that have like operands and keywords at the same places are read in
step (`SetAside.Twins.inStep_parseWithin`). What makes operands like is a parameter, and so is how
the ordinals of keywords and the literals of the two trees are related.
-/

namespace PolicyRules

/-- Whether two computations succeed with results in a relation, or both fail. -/
inductive InStep {ε α β : Type} (R : α → β → Prop) : Except ε α → Except ε β → Prop
  | ok {a : α} {b : β} (related : R a b) : InStep R (.ok a) (.ok b)
  | error (e e' : ε) : InStep R (.error e) (.error e')

namespace InStep

variable {ε α β γ δ : Type} {R : α → β → Prop} {S : γ → δ → Prop} {x : Except ε α} {y : Except ε β}

/-- Two steps are in step if each of them is. -/
theorem bind {f : α → Except ε γ} {g : β → Except ε δ} (first : InStep R x y)
    (next : ∀ a b, R a b → InStep S (f a) (g b)) : InStep S (x >>= f) (y >>= g) := by
  cases first with
  | ok related => exact next _ _ related
  | error e e' => exact .error e e'

theorem refl {R : α → α → Prop} (related : ∀ a, R a a) (x : Except ε α) : InStep R x x := by
  cases x with
  | ok a => exact .ok (related a)
  | error e => exact .error e e

end InStep

theorem inStep_nthEntry {α β : Type} {R : α → β → Prop} {entries : List α} {entries' : List β}
    {n n' : Nat} (h : Option.Rel R entries[n]? entries'[n']?) :
    InStep R (nthEntry entries n) (nthEntry entries' n') := by
  unfold nthEntry
  generalize entries[n]? = found at h
  generalize entries'[n']? = found' at h
  cases h with
  | some related => exact .ok related
  | none => exact .error _ _

theorem rel_getElem? {α β : Type} {R : α → β → Prop} {xs : List α} {ys : List β}
    (h : List.Forall₂ R xs ys) (n : Nat) : Option.Rel R xs[n]? ys[n]? := by
  induction h generalizing n with
  | nil => exact .none
  | cons related _ ih =>
    cases n with
    | zero => exact .some related
    | succ n => exact ih n

/-- A token names entries in step. -/
theorem inStep_tokenEntry {α β : Type} {R : α → β → Prop} {entries : List α} {entries' : List β}
    (h : List.Forall₂ R entries entries') (digits : Text) :
    InStep R (tokenEntry entries digits) (tokenEntry entries' digits) := by
  apply (InStep.refl (fun _ => rfl) (tokenNumber digits)).bind
  rintro n _ rfl
  exact inStep_nthEntry (rel_getElem? h n)

section Trees

variable (ordinals : Int → Int → Prop) (literals : Literal → Literal → Prop)

/-- Whether two expressions differ at most in the ordinals of their keywords and in their literals,
and there as allowed. -/
inductive Expr.Alike : Expr → Expr → Prop
  | hole : Alike .hole .hole
  | literal {l l' : Literal} (h : literals l l') : Alike (.literal l) (.literal l')
  | name (w : Text) : Alike (.name w) (.name w)
  | mapped {key key' : Expr} (h : Alike key key') (tracker : Text) :
    Alike (.mapped key tracker) (.mapped key' tracker)
  | binary (op : Operator) {left left' right right' : Expr} (first : Alike left left')
    (second : Alike right right') :
    Alike (.binary op left right) (.binary op left' right')
  | logical (op : Keyword) {n n' : Int} {left left' right right' : Expr} (number : ordinals n n')
    (first : Alike left left') (second : Alike right right') :
    Alike (.logical op n left right) (.logical op n' left' right')
  | negation {n n' : Int} {e e' : Expr} (number : ordinals n n') (h : Alike e e') :
    Alike (.negation n e) (.negation n' e')
  | update (op : UpdateOperator) (tracker : Text) {value value' : Expr} (h : Alike value value') :
    Alike (.update op tracker value) (.update op tracker value')
  | updateMapped (op : UpdateOperator) {key key' : Expr} (tracker : Text) {value value' : Expr}
    (first : Alike key key') (second : Alike value value') :
    Alike (.updateMapped op key tracker value) (.updateMapped op key' tracker value')

/-- Whether two pieces of a level are like operands or keywords with related ordinals. -/
inductive Piece.Like (operands : Text → Text → Prop) : Piece → Piece → Prop
  | operand {t t' : Text} (h : operands t t') : Like operands (.operand t) (.operand t')
  | keyword {n n' : Nat} (h : ordinals n n') : Like operands (.keyword n) (.keyword n')

/-- Whether two left operands wait for their right ones at connectives with related ordinals. -/
structure Waiting.Alike (w w' : Waiting) : Prop where
  left : Expr.Alike ordinals literals w.left w'.left
  keyword : w.keyword = w'.keyword
  ordinal : ordinals w.ordinal w'.ordinal

end Trees

section Levels

variable {ordinals : Int → Int → Prop} {literals : Literal → Literal → Prop}
  {operands levels : Text → Text → Prop}

/-- Joining keeps expressions alike. -/
theorem Expr.Alike.join {waiting waiting' : Option Waiting} {e e' : Expr}
    (before : Option.Rel (Waiting.Alike ordinals literals) waiting waiting')
    (h : Alike ordinals literals e e') :
    Alike ordinals literals (Waiting.join waiting e) (Waiting.join waiting' e') := by
  cases before with
  | none => exact h
  | @some w w' before =>
    obtain ⟨left, keyword, ordinal⟩ := w
    obtain ⟨left', keyword', ordinal'⟩ := w'
    obtain ⟨first, rfl, number⟩ := before
    exact .logical _ number first h

theorem Expr.Alike.negate {nots nots' : List Nat} {e e' : Expr}
    (numbers : List.Forall₂ (fun n n' : Nat => ordinals n n') nots nots')
    (h : Alike ordinals literals e e') :
    Alike ordinals literals (PolicyRules.negate nots e) (PolicyRules.negate nots' e') := by
  induction numbers generalizing e e' with
  | nil => exact h
  | cons number _ ih => exact ih (.negation number h)

section Pieces

variable {keywords keywords' : List Keyword} {fail fail' : Fault → Error}
  {operand operand' : Text → Except Error Expr}

/-- Like pieces are read in step, wherever in an expression they stand. -/
theorem inStep_readPieces (same : ∀ n n' : Nat, ordinals n n' → keywords[n]? = keywords'[n']?)
    (read : ∀ t t', operands t t' → InStep (Expr.Alike ordinals literals) (operand t) (operand' t'))
    {pieces pieces' : List Piece}
    (like : List.Forall₂ (Piece.Like ordinals operands) pieces pieces') :
    (∀ waiting waiting' nots nots', Option.Rel (Waiting.Alike ordinals literals) waiting waiting' →
      List.Forall₂ (fun n n' : Nat => ordinals n n') nots nots' →
        InStep (Expr.Alike ordinals literals)
        (readOperand keywords fail operand waiting nots pieces)
          (readOperand keywords' fail' operand' waiting' nots' pieces')) ∧
    ∀ left left', Expr.Alike ordinals literals left left' →
      InStep (Expr.Alike ordinals literals) (readConnective keywords fail operand left pieces)
        (readConnective keywords' fail' operand' left' pieces') := by
  induction like with
  | nil =>
    refine ⟨fun _ _ _ _ _ _ => ?_, fun _ _ alike => ?_⟩
    · simp only [readOperand]
      exact .error _ _
    · simp only [readConnective]
      exact .ok alike
  | cons first _ ih =>
    obtain ⟨ihOperand, ihConnective⟩ := ih
    cases first with
    | @operand t t' related =>
      refine ⟨fun waiting waiting' nots nots' before numbers => ?_, fun _ _ _ => ?_⟩
      · simp only [readOperand]
        have here := read t t' related
        generalize operand t = x at here
        generalize operand' t' = x' at here
        cases here with
        | error e e' => exact .error e e'
        | ok alike => exact ihConnective _ _ (.join before (.negate numbers alike))
      · simp only [readConnective]
        exact .error _ _
    | @keyword n n' number =>
      have found : InStep Eq (nthEntry keywords n) (nthEntry keywords' n') := by
        apply inStep_nthEntry
        rw [same n n' number]
        cases keywords'[n']? with
        | none => exact .none
        | some keyword => exact .some rfl
      simp only [readOperand, readConnective]
      generalize nthEntry keywords n = entry at found
      generalize nthEntry keywords' n' = entry' at found
      cases found with
      | error e e' => exact ⟨fun _ _ _ _ _ _ => .error e e', fun _ _ _ => .error e e'⟩
      | @ok keyword _ same =>
        subst same
        cases keyword with
        | not =>
          exact ⟨fun _ _ _ _ before numbers => ihOperand _ _ _ _ before (.cons number numbers),
            fun _ _ _ => .error _ _⟩
        | and | or => exact ⟨fun _ _ _ _ _ _ => .error _ _,
            fun _ _ alike => ihOperand _ _ _ _ (.some ⟨alike, rfl, number⟩) .nil⟩

end Pieces

/-- Whether like levels are read in step with the parts that have been set aside: they have like
pieces, the groups are like levels, and operands are read in step. -/
structure SetAside.Twins (ordinals : Int → Int → Prop) (literals : Literal → Literal → Prop)
    (levels operands : Text → Text → Prop) (s s' : SetAside) : Prop where
  keywords : ∀ n n' : Nat, ordinals n n' → s.keywords[n]? = s'.keywords[n']?
  groups : List.Forall₂ levels s.groups s'.groups
  pieces : ∀ t t', levels t t' →
    InStep (List.Forall₂ (Piece.Like ordinals operands)) (Piece.ofText t) (Piece.ofText t')
  token : ∀ t t', operands t t' → groupToken? t = groupToken? t'
  leaf : ∀ t t',
    operands t t' → InStep (Expr.Alike ordinals literals) (s.parseOperand t) (s'.parseOperand t')

namespace SetAside.Twins

variable {s s' : SetAside} {t t' : Text}

/-- Levels of twins are read in step. -/
theorem inStep_parseWithin (h : Twins ordinals literals levels operands s s') (depth : Nat)
    (related : levels t t') :
    InStep (Expr.Alike ordinals literals) (s.parseWithin depth t) (s'.parseWithin depth t') := by
  induction depth generalizing t t' with
  | zero => exact .error _ _
  | succ depth ih =>
    simp only [parseWithin]
    apply (h.pieces t t' related).bind
    intro pieces pieces' like
    cases like with
    | nil =>
      simp only [List.isEmpty_nil, if_true]
      cases s.expand t <;> cases s'.expand t' <;> exact .error _ _
    | cons first later =>
      simp only [List.isEmpty_cons, Bool.false_eq_true, if_false]
      refine (inStep_readPieces h.keywords ?_ (.cons first later)).1 _ _ _ _ .none .nil
      intro u u' like
      rw [h.token u u' like]
      cases groupToken? u' with
      | none => exact h.leaf u u' like
      | some digits =>
        apply (inStep_tokenEntry h.groups digits).bind
        intro g g' inner
        exact ih inner

/-- Like levels are read in step. -/
theorem inStep_parseLevel (h : Twins ordinals literals levels operands s s')
    (related : levels t t') :
    InStep (Expr.Alike ordinals literals) (s.parseLevel t) (s'.parseLevel t') := by
  rw [parseLevel, parseLevel, depth, depth, h.groups.length_eq]
  exact h.inStep_parseWithin _ related

end SetAside.Twins

end Levels

end PolicyRules
