import PolicyRules.Leaf.Phrase
import PolicyRules.Proofs.Lexing

/-!
# Reading phrases

Every place of the grammar asks for a rank, and what binds less tightly stands in parentheses there.
Sums and products are read from left to right, so their right operands have to bind more tightly
than their left ones.

Main statements: what the reader does with an operand, a keyed access, a sum, a product, a
comparison, an update, and what stands in parentheses, each put together from what it does with the
parts.
-/

namespace PolicyRules

/-- How tightly an operator binds: products more than sums, and sums more than comparisons. -/
def Operator.rank (op : Operator) : Nat :=
  if op.isMultiplicative then 2 else if op.isAdditive then 1 else 0

/-- Whether an operator can be written between two operands. -/
def Operator.isInfix (op : Operator) : Bool :=
  op.isMultiplicative || op.isAdditive || op.isComparison

/-- The rank of an operand: of a name, a number, a string, or an expression in parentheses. -/
def operandRank : Nat := 4

/-- Puts lexemes into parentheses if they are needed. -/
def parenthesize (needed : Bool) (lexemes : List Lexeme) : List Lexeme :=
  if needed then .leftParen :: lexemes ++ [.rightParen] else lexemes

namespace Phrase

/-- Whether the words of a phrase have the forms of names, numbers and strings, and its operators
can be written between their operands. -/
def Spelled : Phrase → Prop
  | name text => IsName text
  | number text => IsNumber text
  | string text => IsQuoted text
  | mapped key tracker => key.Spelled ∧ IsName tracker
  | binary op left right => op.isInfix ∧ left.Spelled ∧ right.Spelled
  | update _ target value => IsName target ∧ value.Spelled
  | updateMapped _ key tracker value => key.Spelled ∧ IsName tracker ∧ value.Spelled

end Phrase

variable {r r' : Reader} {p : Phrase}

namespace Reader

theorem read_bar (r : Reader) :
    r.read .bar = r.stage.key?.map fun key => { r with stage := .tracker key } := by
  unfold read
  cases r.stage <;> rfl

theorem read_operator (r : Reader) (op : Operator) :
    r.read (.operator op) = r.stage.complete?.bind (r.readOperator · op) := by
  unfold read
  cases r.stage <;> rfl

theorem read_update (r : Reader) (op : UpdateOperator) : r.read (.update op) = r.readUpdate op := by
  unfold read
  cases r.stage <;> rfl

theorem read_rightParen (r : Reader) :
    r.read .rightParen = r.stage.complete?.bind r.closeParen := by
  unfold read
  cases r.stage <;> rfl

/-- Reads lexemes one after the other. -/
def run (r : Reader) (lexemes : List Lexeme) : Option Reader := lexemes.foldlM read r

@[simp] theorem run_nil (r : Reader) : r.run [] = some r := rfl

theorem run_cons (r : Reader) (lexeme : Lexeme) (lexemes : List Lexeme) :
    r.run (lexeme :: lexemes) = (r.read lexeme).bind (·.run lexemes) := rfl

/-- A run goes through two lists one after the other. -/
theorem run_append (r : Reader) (before after : List Lexeme) :
    r.run (before ++ after) = (r.run before).bind (·.run after) :=
  List.foldlM_append

theorem readAll_of_run {found : List (Nat × Lexeme)} {last : Nat}
    (run_eq : r.run (found.map Prod.snd) = some r') (finished : r'.finish? = some p) :
    r.readAll last none found = .ok p := by
  induction found generalizing r last with
  | nil =>
    cases run_eq
    simp [readAll, finished]
  | cons entry rest ih =>
    obtain ⟨position, lexeme⟩ := entry
    rw [List.map_cons, run_cons] at run_eq
    obtain ⟨r₁, read_eq, run_rest⟩ := Option.bind_eq_some_iff.mp run_eq
    rw [readAll, read_eq]
    exact ih run_rest

/-- Whether the reader is at a place that asks for a rank: no product has been begun where a product
is asked for, and so on. -/
structure Ready (asked : Nat) (r : Reader) : Prop where
  stage_eq : r.stage = .operand
  product : asked ≤ 2 → r.inner.product = none
  sum : asked ≤ 1 → r.inner.sum = none
  side : asked = 0 → r.inner.side = .none

theorem Ready.mono {asked asked' : Nat} (h : r.Ready asked) (le : asked ≤ asked') :
    r.Ready asked' :=
  ⟨h.stage_eq, fun low => h.product (by omega), fun low => h.sum (by omega),
    fun low => h.side (by omega)⟩

/-- What has been read from `r` to `r'` is a phrase of a rank, and what was there before is kept. -/
def HasRead (asked : Nat) (r : Reader) (p : Phrase) (r' : Reader) : Prop :=
  r'.outer = r.outer ∧
    match asked with
    | 0 => ∃ x, r'.stage.complete? = some x ∧ r'.inner.close x = p
    | 1 => r'.inner.side = r.inner.side ∧ ∃ x, r'.stage.complete? = some x ∧ r'.inner.closeSum x = p
    | 2 => r'.inner.side = r.inner.side ∧ r'.inner.sum = r.inner.sum ∧
      ∃ x, r'.stage.complete? = some x ∧ r'.inner.closeProduct x = p
    | 3 => r'.inner = r.inner ∧ r'.stage.complete? = some p
    | _ => r'.inner = r.inner ∧ r'.stage.key? = some p

theorem complete?_of_key? {stage : Stage} (h : stage.key? = some p) : stage.complete? = some p := by
  cases stage <;> simp_all [Stage.key?, Stage.complete?]

/-- What binds more tightly than asked can stand at a place. -/
theorem HasRead.weaken {asked : Nat} (ready : r.Ready asked)
    (h : HasRead (asked + 1) r p r') : HasRead asked r p r' := by
  obtain ⟨outer, h⟩ := h
  refine ⟨outer, ?_⟩
  match asked with
  | 0 =>
    obtain ⟨side, x, complete, closed⟩ := h
    refine ⟨x, complete, ?_⟩
    rw [Partial.close, side, ready.side rfl]
    exact closed
  | 1 =>
    obtain ⟨side, sum, x, complete, closed⟩ := h
    refine ⟨side, x, complete, ?_⟩
    rw [Partial.closeSum, sum, ready.sum (by omega), closed]
    rfl
  | 2 =>
    obtain ⟨inner, complete⟩ := h
    refine ⟨by rw [inner], by rw [inner], p, complete, ?_⟩
    rw [Partial.closeProduct, inner, ready.product (by omega)]
    rfl
  | 3 => exact ⟨h.1, complete?_of_key? h.2⟩
  | _ + 4 => exact h

/-- What is read as an expression is an operand when it stands in parentheses. -/
theorem run_paren {lexemes : List Lexeme}
    (read : ∀ r : Reader, r.Ready 0 → ∃ r', r.run lexemes = some r' ∧ HasRead 0 r p r')
    (ready : r.Ready operandRank) :
    ∃ r', r.run (.leftParen :: lexemes ++ [.rightParen]) = some r' ∧
      HasRead operandRank r p r' := by
  have opened : r.read .leftParen = some ⟨{}, r.inner :: r.outer, .operand⟩ := by
    simp [Reader.read, ready.stage_eq]
  obtain ⟨r', run_eq, outer, x, complete, closed⟩ :=
    read ⟨{}, r.inner :: r.outer, .operand⟩ ⟨rfl, fun _ => rfl, fun _ => rfl, fun _ => rfl⟩
  refine ⟨⟨r.inner, r.outer, .primary p⟩, ?_, rfl, rfl, rfl⟩
  rw [List.cons_append, run_cons, opened, Option.bind_some, run_append, run_eq, Option.bind_some,
    run_cons, read_rightParen, complete, Option.bind_some, closeParen, outer]
  simp [closed]

end Reader

namespace Phrase

open Reader

/-- A lexeme that is an operand by itself is read at every place. -/
theorem run_operand {lexeme : Lexeme} (stage : Stage)
    (read_eq : r.read lexeme = some { r with stage := stage }) (key_eq : stage.key? = some p) :
    ∃ r', r.run [lexeme] = some r' ∧ HasRead operandRank r p r' :=
  ⟨{ r with stage := stage }, by rw [run_cons, read_eq]; rfl, rfl, rfl, key_eq⟩

/-- A keyed access is read behind its key. -/
theorem run_keyed {key : Phrase} {lexemes : List Lexeme} (tracker : Text)
    (run_key : r.run lexemes = some r') (read_key : HasRead operandRank r key r') :
    r.run (lexemes ++ [.bar, .name tracker]) = some ⟨r.inner, r.outer, .mapped key tracker⟩ := by
  obtain ⟨inner, outer, stage⟩ := r'
  obtain ⟨rfl, rfl, key_eq⟩ := read_key
  rw [run_append, run_key, Option.bind_some, run_cons, read_bar, key_eq]
  rfl

section Operators

variable {op : Operator} {left right : Phrase} {lexemes lexemes' : List Lexeme} {r r₁ : Reader}

/-- A product is read on from its left factor. -/
theorem run_product (mult : op.isMultiplicative) (run_left : r.run lexemes = some r₁)
    (read_left : HasRead 2 r left r₁)
    (read_right : ∀ r : Reader, r.Ready 3 → ∃ r', r.run lexemes' = some r' ∧ HasRead 3 r right r') :
    ∃ r', r.run (lexemes ++ .operator op :: lexemes') = some r' ∧
      HasRead 2 r (.binary op left right) r' := by
  obtain ⟨outer, side, sum, x, complete, closed⟩ := read_left
  have operator : r₁.read (.operator op) =
      some ⟨⟨r₁.inner.side, r₁.inner.sum, some (left, op)⟩, r₁.outer, .operand⟩ := by
    rw [read_operator, complete, Option.bind_some, readOperator, if_pos mult, closed]
  obtain ⟨r₂, run_right, outer', inner', complete'⟩ :=
    read_right ⟨⟨r₁.inner.side, r₁.inner.sum, some (left, op)⟩, r₁.outer, .operand⟩
      ⟨rfl, by omega, by omega, by omega⟩
  refine ⟨r₂, ?_, outer'.trans outer, ?_, ?_, right, complete', ?_⟩
  · rw [run_append, run_left, Option.bind_some, run_cons, operator, Option.bind_some, run_right]
  · rw [inner', side]
  · rw [inner', sum]
  · rw [inner']
    rfl

/-- A sum is read on from its left summand. -/
theorem run_sum (additive : op.isAdditive) (not_mult : ¬ op.isMultiplicative)
    (run_left : r.run lexemes = some r₁) (read_left : HasRead 1 r left r₁)
    (read_right : ∀ r : Reader, r.Ready 2 → ∃ r', r.run lexemes' = some r' ∧ HasRead 2 r right r') :
    ∃ r', r.run (lexemes ++ .operator op :: lexemes') = some r' ∧
      HasRead 1 r (.binary op left right) r' := by
  obtain ⟨outer, side, x, complete, closed⟩ := read_left
  have operator : r₁.read (.operator op) =
      some ⟨⟨r₁.inner.side, some (left, op), none⟩, r₁.outer, .operand⟩ := by
    rw [read_operator, complete, Option.bind_some, readOperator, if_neg not_mult, if_pos additive,
      closed]
  obtain ⟨r₂, run_right, outer', side', sum', y, complete', closed'⟩ :=
    read_right ⟨⟨r₁.inner.side, some (left, op), none⟩, r₁.outer, .operand⟩
      ⟨rfl, fun _ => rfl, by omega, by omega⟩
  refine ⟨r₂, ?_, outer'.trans outer, ?_, y, complete', ?_⟩
  · rw [run_append, run_left, Option.bind_some, run_cons, operator, Option.bind_some, run_right]
  · rw [side', side]
  · rw [Partial.closeSum, sum', closed']
    rfl

/-- What follows the left side of an expression is a sum. -/
theorem run_rightSide {side : Side} {value : Phrase} {before lexemes : List Lexeme} {r : Reader}
    (run_before : r.run before = some ⟨⟨side, none, none⟩, r.outer, .operand⟩)
    (read_value : ∀ r : Reader, r.Ready 1 → ∃ r', r.run lexemes = some r' ∧ HasRead 1 r value r') :
    ∃ r', r.run (before ++ lexemes) = some r' ∧ r'.outer = r.outer ∧ r'.inner.side = side ∧
      ∃ x, r'.stage.complete? = some x ∧ r'.inner.closeSum x = value := by
  obtain ⟨r', run_eq, outer, side_eq, closed⟩ :=
    read_value ⟨⟨side, none, none⟩, r.outer, .operand⟩ ⟨rfl, fun _ => rfl, fun _ => rfl, by omega⟩
  exact ⟨r', by rw [run_append, run_before, Option.bind_some, run_eq], outer, side_eq, closed⟩

theorem run_comparison (comparison : op.isComparison)
    (not_mult : ¬ op.isMultiplicative) (not_additive : ¬ op.isAdditive)
    (fresh : r.inner.side = .none) (run_left : r.run lexemes = some r₁)
    (read_left : HasRead 1 r left r₁)
    (read_right : ∀ r : Reader, r.Ready 1 → ∃ r', r.run lexemes' = some r' ∧ HasRead 1 r right r') :
    ∃ r', r.run (lexemes ++ .operator op :: lexemes') = some r' ∧
      HasRead 0 r (.binary op left right) r' := by
  obtain ⟨outer, side, x, complete, closed⟩ := read_left
  have operator : r₁.read (.operator op) =
      some ⟨⟨.compare left op, none, none⟩, r₁.outer, .operand⟩ := by
    rw [read_operator, complete, Option.bind_some, readOperator, if_neg not_mult,
      if_neg not_additive, if_pos (by simp [comparison, side, fresh]), closed]
  have before : r.run (lexemes ++ [.operator op]) =
      some ⟨⟨.compare left op, none, none⟩, r.outer, .operand⟩ := by
    rw [run_append, run_left, Option.bind_some, run_cons, operator, outer]
    rfl
  obtain ⟨r₂, run_eq, outer', side', y, complete', closed'⟩ := run_rightSide before read_right
  refine ⟨r₂, by simpa using run_eq, outer', y, complete', ?_⟩
  rw [Partial.close, side', closed']

/-- An update of what has just been read, if nothing stands before it. -/
theorem run_update {op : UpdateOperator} {stage : Stage} {side : Side} {before : List Lexeme}
    {r : Reader} (ready : r.Ready 0) (run_target : r.run before = some ⟨r.inner, r.outer, stage⟩)
    (side_eq : stage.updateSide? op = some side) :
    r.run (before ++ [.update op]) = some ⟨⟨side, none, none⟩, r.outer, .operand⟩ := by
  have fresh : r.inner.isFresh := by
    simp [Partial.isFresh, ready.side rfl, ready.sum (by omega), ready.product (by omega)]
  rw [run_append, run_target, Option.bind_some, run_cons, read_update, readUpdate, if_pos fresh,
    side_eq]
  rfl

end Operators

end Phrase

/-- Whether each lexeme of a list is looked for at its place. -/
def Lexable : Expecting → List Lexeme → Prop
  | _, [] => True
  | expecting, x :: xs => x.FitsAt expecting ∧ Lexable (expecting.after x) xs

end PolicyRules
