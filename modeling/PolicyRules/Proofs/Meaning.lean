import PolicyRules.Proofs.Code

/-!
# The meaning of expressions and of their code

What the primitives of a rule do is left open: `Primitives` interprets them as functions that give a
value and change a state. An expression is evaluated directly, its operands from left to right
before the operation itself. Instructions are executed in order, each writing its value to the slot
that it owns; an instruction that reads a slot without a value, or that has not the arguments of its
opcode, is stuck.

Main statement: executing the instructions that lowering appends does what evaluating the expression
does, and leaves its value in the slot that lowering adds (`exec_lower`).
-/

namespace PolicyRules

variable {σ υ : Type}

/-- An interpretation of what a rule can do. Each primitive gives a value and a state. -/
structure Primitives (σ υ : Type) where
  /-- Loads a literal. -/
  literal : Literal → σ → υ × σ
  /-- Reads the placeholder at a place. -/
  placeholder : Int → σ → υ × σ
  /-- Reads the tracker with an id by a key. -/
  mapped : Int → υ → σ → υ × σ
  /-- Compares two values or computes with them. -/
  operator : Operator → υ → υ → σ → υ × σ
  /-- Connects two values. -/
  connective : Keyword → υ → υ → σ → υ × σ
  negation : υ → σ → υ × σ
  /-- Writes a value to the tracker with an id, at a key if there is one. The last number says how
  the tracker is stored. -/
  write : Int → υ → Option υ → Int → σ → υ × σ

namespace Primitives

/-- The value of a name: that of the placeholder to which it is bound, or the name itself. -/
def evalName (P : Primitives σ υ) (b : Bindings) (name : Text) (s : σ) : Option (υ × σ) :=
  match resolve b.components name with
  | none => some (P.literal (.ofUnbound name) s)
  | some c => do
    let place ← (Placeholder.ordinal b.placeholders b.source c).toOption
    some (P.placeholder place s)

/-- The value of an expression and the state after it, operands first and from left to right. There
is none if a name or a tracker is not bound. -/
def eval (P : Primitives σ υ) (b : Bindings) : Expr → σ → Option (υ × σ)
  | .hole, _ => none
  | .literal l, s => some (P.literal l s)
  | .name name, s => P.evalName b name s
  | .mapped key tracker, s => do
    let (k, s) ← P.eval b key s
    let (id, _) ← (b.trackerId tracker).toOption
    some (P.mapped id k s)
  | .binary op left right, s => do
    let (x, s) ← P.eval b left s
    let (y, s) ← P.eval b right s
    some (P.operator op x y s)
  | .logical op _ left right, s => do
    let (x, s) ← P.eval b left s
    let (y, s) ← P.eval b right s
    some (P.connective op x y s)
  | .negation _ operand, s => do
    let (x, s) ← P.eval b operand s
    some (P.negation x s)
  | .update op tracker value, s => do
    let (id, backed) ← (b.trackerId tracker).toOption
    let (old, s) ← P.evalName b tracker s
    let (x, s) ← P.eval b value s
    let (result, s) := P.operator op.arithmetic old x s
    some (P.write id result none (Instruction.flag backed) s)
  | .updateMapped op key tracker value, s => do
    let (id, backed) ← (b.trackerId tracker).toOption
    let (k, s) ← P.eval b key s
    let (old, s) := P.mapped id k s
    let (x, s) ← P.eval b value s
    let (result, s) := P.operator op.arithmetic old x s
    some (P.write id result (some k) (Instruction.flag backed) s)

/-- The value of an operation on two values: that of the operator or the keyword written so. -/
def compute (P : Primitives σ υ) (op : Operation) (x y : υ) (s : σ) : Option (υ × σ) :=
  match Operator.ofText? op.name, Keyword.ofText? op.name with
  | some operator, _ => some (P.operator operator x y s)
  | none, some keyword => some (P.connective keyword x y s)
  | none, none => none

end Primitives

/-- Slots with the values that they hold. -/
abbrev Memory (υ : Type) := Nat → Option υ

/-- The value of a slot. -/
def Memory.at (memory : Memory υ) : Int → Option υ
  | .ofNat slot => memory slot
  | .negSucc _ => none

namespace Primitives

/-- The value of an instruction and the state after it. -/
def perform (P : Primitives σ υ) (memory : Memory υ) (i : Instruction) (s : σ) : Option (υ × σ) :=
  match i.opcode, i.arguments with
  | .operation .literal, [.literal l] => some (P.literal l s)
  | .operation .placeholder, [.operand place] => some (P.placeholder place s)
  | .operation .mapped, [.operand id, .operand key] => do
    some (P.mapped id (← memory.at key) s)
  | .operation .write, [.operand id, .operand slot, .operand flag] => do
    some (P.write id (← memory.at slot) none flag s)
  | .operation .writeMapped, [.operand id, .operand slot, .operand key, .operand flag] => do
    some (P.write id (← memory.at slot) (some (← memory.at key)) flag s)
  | .operation .not, [.operand slot] => do
    some (P.negation (← memory.at slot) s)
  | .operation op, [.operand left, .operand right] => do
    P.compute op (← memory.at left) (← memory.at right) s
  | _, _ => none

/-- Executes instructions, of which the first owns a given slot and each other one the next. -/
def execute (P : Primitives σ υ) : Nat → List Instruction → Memory υ → σ → Option (Memory υ × σ)
  | _, [], memory, s => some (memory, s)
  | slot, i :: rest, memory, s => do
    let (x, s) ← P.perform memory i s
    P.execute (slot + 1) rest (Function.update memory slot (some x)) s

/-- Executes the instructions of a token list. -/
def executeTokens (P : Primitives σ υ) (slot : Nat) (tokens : List Token) (memory : Memory υ)
    (s : σ) : Option (Memory υ × σ) := do
  P.execute slot (← Instruction.ofTokens? tokens) memory s

variable (P : Primitives σ υ) (memory : Memory υ) (s : σ)

theorem perform_load (l : Literal) : P.perform memory (.load l) s = some (P.literal l s) := rfl

theorem perform_readMapped (id : Int) {key : Nat} {k : υ} (hk : memory key = some k) :
    P.perform memory (.readMapped id key) s = some (P.mapped id k s) := by
  change (memory key).bind _ = _
  rw [hk]
  rfl

theorem perform_write (id : Int) (backed : Bool) {slot : Nat} {x : υ} (hx : memory slot = some x) :
    P.perform memory (.write id slot backed) s =
      some (P.write id x none (Instruction.flag backed) s) := by
  change (memory slot).bind _ = _
  rw [hx]
  rfl

theorem perform_writeMapped (id : Int) (backed : Bool) {slot key : Nat} {x k : υ}
    (hx : memory slot = some x) (hk : memory key = some k) :
    P.perform memory (.writeMapped id slot key backed) s =
      some (P.write id x (some k) (Instruction.flag backed) s) := by
  change (memory slot).bind (fun x => (memory key).bind _) = _
  rw [hx, hk]
  rfl

theorem perform_not {slot : Nat} {x : υ} (hx : memory slot = some x) :
    P.perform memory (.compute .not [slot]) s = some (P.negation x s) := by
  change (memory slot).bind _ = _
  rw [hx]
  rfl

theorem perform_ofOperator (op : Operator) {left right : Nat} {x y : υ}
    (hx : memory left = some x) (hy : memory right = some y) :
    P.perform memory (.compute (.ofOperator op) [left, right]) s = some (P.operator op x y s) := by
  have computed : P.compute (.ofOperator op) x y s = some (P.operator op x y s) := by
    simp [compute, Operation.name_ofOperator, Operator.ofText?_text]
  have performed : P.perform memory (.compute (.ofOperator op) [left, right]) s =
      (memory left).bind fun x => (memory right).bind fun y => P.compute (.ofOperator op)
        x y s := by
    cases op <;> rfl
  rw [performed, hx, hy]
  exact computed

theorem perform_ofKeyword (op : Keyword) {left right : Nat} {x y : υ}
    (hx : memory left = some x) (hy : memory right = some y) :
    P.perform memory (.compute (.ofKeyword op) [left, right]) s = some (P.connective op x y s) := by
  -- No keyword is written like an operator, so the keyword is what the mnemonic stands for.
  have notOperator : Operator.ofText? op.text = none := by cases op <;> decide
  have computed : P.compute (.ofKeyword op) x y s = some (P.connective op x y s) := by
    simp [compute, Operation.name_ofKeyword, notOperator, Keyword.ofText?_text]
  have performed : P.perform memory (.compute (.ofKeyword op) [left, right]) s =
      (memory left).bind fun x => (memory right).bind fun y => P.compute (.ofKeyword op) x y s := by
    cases op <;> rfl
  rw [performed, hx, hy]
  exact computed

theorem execute_append (slot : Nat) (code code' : List Instruction) :
    P.execute slot (code ++ code') memory s =
      (P.execute slot code memory s).bind fun result =>
        P.execute (slot + code.length) code' result.1 result.2 := by
  induction code generalizing slot memory s with
  | nil => rfl
  | cons i code ih =>
    simp only [List.cons_append, execute]
    cases P.perform memory i s with
    | none => rfl
    | some result =>
      have next := ih (Function.update memory slot (some result.1)) result.2 (slot + 1)
      rw [Nat.add_right_comm, Nat.add_assoc] at next
      simpa using next

/-- Whether a code, whose first instruction owns slot `n`, ends with the value `x` in its last slot
`r`, and changes no slot before `n` or behind `r`. -/
structure Computes (n : Nat) (code : List Instruction) (r : Nat) (x : υ) (memory' : Memory υ)
    (s' : σ) : Prop where
  length : n + code.length = r + 1
  executed : P.execute n code memory s = some (memory', s')
  value : memory' r = some x
  before : ∀ slot < n, memory' slot = memory slot
  behind : ∀ slot, r < slot → memory' slot = memory slot

variable {P memory s} {n r r' : Nat} {code code' : List Instruction} {x y : υ}
  {memory' memory'' : Memory υ} {s' s'' : σ}

/-- A single instruction computes its own value. -/
theorem computes_one {i : Instruction} (h : P.perform memory i s = some (x, s')) :
    P.Computes memory s n [i] n x (Function.update memory n (some x)) s' where
  length := rfl
  executed := by simp [execute, h]
  value := by simp
  before slot below := Function.update_of_ne (by omega) _ _
  behind slot above := Function.update_of_ne (by omega) _ _

/-- Code that goes on from the slot behind a value. -/
theorem Computes.append (h : P.Computes memory s n code r x memory' s')
    (h' : P.Computes memory' s' (r + 1) code' r' y memory'' s'') :
    P.Computes memory s n (code ++ code') r' y memory'' s'' := by
  have first := h.length
  have second := h'.length
  refine ⟨?_, ?_, h'.value, ?_, ?_⟩
  · rw [List.length_append]
    omega
  · rw [execute_append, h.executed, h.length]
    exact h'.executed
  · intro slot below
    rw [h'.before slot (by omega), h.before slot below]
  · intro slot above
    rw [h'.behind slot above, h.behind slot (by omega)]

/-- Code that goes on behind a value keeps the value. -/
theorem Computes.kept (h : P.Computes memory s n code r x memory' s')
    (h' : P.Computes memory' s' (r + 1) code' r' y memory'' s'') : memory'' r = some x :=
  (h'.before r (Nat.lt_succ_self r)).trans h.value

/-- An instruction behind a code computes its value in the next slot. -/
theorem Computes.snoc {i : Instruction} (h : P.Computes memory s n code r x memory' s')
    (hi : P.perform memory' i s' = some (y, s'')) :
    P.Computes memory s n (code ++ [i]) (r + 1) y (Function.update memory' (r + 1) (some y)) s'' :=
  h.append (computes_one hi)

theorem evalName_of_code {b : Bindings} {name : Text} (h : Code b (.name name) n code r)
    (memory : Memory υ) (s : σ) :
    ∃ x s' memory', P.evalName b name s = some (x, s') ∧
      P.Computes memory s n code r x memory' s' := by
  cases h with
  | unbound _ free =>
    exact ⟨_, _, _, by simp [evalName, free], computes_one (perform_load P memory s _)⟩
  | bound _ found placed =>
    refine ⟨_, _, _, ?_, computes_one rfl⟩
    simp [evalName, found, placed, Except.toOption]

/-- Executing the code of an expression gives the value of the expression and the state after it. -/
theorem eval_of_code {b : Bindings} {e : Expr} (h : Code b e n code r) (memory : Memory υ) (s : σ) :
    ∃ x s' memory', P.eval b e s = some (x, s') ∧ P.Computes memory s n code r x memory' s' := by
  induction h generalizing memory s with
  | literal l n => exact ⟨_, _, _, rfl, computes_one (perform_load P memory s l)⟩
  | unbound n free => exact evalName_of_code (.unbound n free) memory s
  | bound n found placed => exact evalName_of_code (.bound n found placed) memory s
  | mapped known hk ih =>
    obtain ⟨k, s₁, memory₁, hkey, computed⟩ := ih memory s
    refine ⟨_, _, _, ?_, computed.snoc (perform_readMapped P memory₁ s₁ _ computed.value)⟩
    simp [eval, hkey, known, Except.toOption]
  | binary hl hr ihl ihr =>
    obtain ⟨x, s₁, memory₁, hleft, computed⟩ := ihl memory s
    obtain ⟨y, s₂, memory₂, hright, computed'⟩ := ihr memory₁ s₁
    have left := computed.kept computed'
    refine ⟨_, _, _, ?_, (computed.append computed').snoc
      (perform_ofOperator P memory₂ s₂ _ left computed'.value)⟩
    simp [eval, hleft, hright]
  | logical hl hr ihl ihr =>
    obtain ⟨x, s₁, memory₁, hleft, computed⟩ := ihl memory s
    obtain ⟨y, s₂, memory₂, hright, computed'⟩ := ihr memory₁ s₁
    have left := computed.kept computed'
    refine ⟨_, _, _, ?_, (computed.append computed').snoc
      (perform_ofKeyword P memory₂ s₂ _ left computed'.value)⟩
    simp [eval, hleft, hright]
  | negation ho ih =>
    obtain ⟨x, s₁, memory₁, hoperand, computed⟩ := ih memory s
    refine ⟨_, _, _, ?_, computed.snoc (perform_not P memory₁ s₁ computed.value)⟩
    simp [eval, hoperand]
  | @update op tracker value n r r' code code' id backed known ht hv iht ihv =>
    obtain ⟨old, s₁, memory₁, hname, computed⟩ := evalName_of_code ht memory s
    obtain ⟨x, s₂, memory₂, hvalue, computed'⟩ := ihv memory₁ s₁
    have target := computed.kept computed'
    have result := (computed.append computed').snoc
      (perform_ofOperator P memory₂ s₂ op.arithmetic target computed'.value)
    refine ⟨_, _, _, ?_, by simpa using result.snoc (perform_write P _ _ id backed result.value)⟩
    simp [eval, hname, hvalue, known, Except.toOption]
  | @updateMapped op key tracker value n k r code code' id backed known hk hv ihk ihv =>
    obtain ⟨keyValue, s₁, memory₁, hkey, computed⟩ := ihk memory s
    have read : P.Computes memory₁ s₁ (k + 1) [.readMapped id k] (k + 1) _ _ _ :=
      computes_one (perform_readMapped P memory₁ s₁ id computed.value)
    obtain ⟨x, s₃, memory₃, hvalue, computed'⟩ := ihv _ _
    have result := (read.append computed').snoc
      (perform_ofOperator P memory₃ s₃ op.arithmetic (read.kept computed') computed'.value)
    -- The key is in the slot before the read, which nothing from there on writes.
    have keyKept := computed.kept result
    refine ⟨_, _, _, ?_, by
      simpa using (computed.append result).snoc
        (perform_writeMapped P _ _ id backed result.value keyKept)⟩
    simp [eval, hkey, hvalue, known, Except.toOption]

end Primitives

/-- Executing the instructions that lowering appends, the first of which owns the next slot, ends in
the state in which evaluating the expression ends. No slot handed out before changes. Lowering adds
one slot to those still to be used, the last one that it hands out, and this slot holds the
value. -/
theorem exec_lower (P : Primitives σ υ) (b : Bindings) (keywords : List Keyword) (tree : Expr)
    (e e' : Emission) (tokens : List Token) (memory : Memory υ) (s : σ)
    (numbered : tree.Numbered keywords)
    (lowered : Emission.lower b keywords tree e = .ok tokens e') :
    ∃ x s' memory' r, P.eval b tree s = some (x, s') ∧
      P.executeTokens e.next (tokens.drop e.tokens.length) memory s = some (memory', s') ∧
      (∀ slot < e.next, memory' slot = memory slot) ∧
      e'.slots = e.slots ++ [r] ∧ e'.next = r + 1 ∧ memory' r = some x := by
  obtain ⟨earlier, code, r, hcode, restored, rfl, -, slots, next⟩ :=
    Emission.lower_eq_ok numbered lowered
  obtain ⟨x, s', memory', evaluated, computed⟩ := Primitives.eval_of_code hcode memory s
  have length : e.tokens.length = earlier.length := (mapM_eq_ok_iff.mp restored).length_eq
  have cut : Instruction.ofTokens? ((earlier ++ code.flatMap Instruction.tokens).drop
      e.tokens.length) =
      some code := by
    rw [length, List.drop_left, Instruction.ofTokens?_flatMap_tokens hcode.isComplete]
  refine ⟨x, s', memory', r, evaluated, ?_, computed.before, slots, next, computed.value⟩
  rw [Primitives.executeTokens, cut]
  exact computed.executed

/-- Whole numbers as values and one stored number as the state, which all trackers share. -/
def oneCell : Primitives Int Int where
  literal l s := (match l.value with | .int n => n | .text _ => 0, s)
  placeholder place s := (10 * place, s)
  mapped _ _ s := (s, s)
  operator op x y s := (match op with | .add => x + y | .sub => x - y | _ => y, s)
  connective _ x y s := (x * y, s)
  negation x s := (1 - x, s)
  write _ x _ _ _ := (x, x)

/-- A keyed update under a connective, behind a literal that was lowered before: the update adds one
to the stored number, and slot 0 keeps its value. -/
theorem exec_lower_keyed_update :
    let one : Literal := ⟨.int 1, .uint256, ['1']⟩
    let b : Bindings := {
      components := [.ofArgument ['k'] 0 "uint256".toList]
      placeholders := [⟨.uint256, 0, 0⟩]
      trackers := [⟨['t'], 4, .uint256⟩] }
    let keywords : List Keyword := [.or, .and, .not]
    let tree : Expr := .logical .and 1
      (.updateMapped .add (.name ['k']) "TRU:t".toList (.literal one)) (.negation 2 (.literal one))
    let e : Emission := { tokens := (Instruction.load one).tokens, slots := [0], next := 1 }
    ∃ e' tokens, Emission.lower b keywords tree e = .ok tokens e' ∧
      ∃ x s' memory' r, oneCell.eval b tree 5 = some (x, s') ∧
        oneCell.executeTokens e.next (tokens.drop e.tokens.length) (fun _ => some 8) 5 =
          some (memory', s') ∧
        (∀ slot < e.next, memory' slot = some 8) ∧
        e'.slots = e.slots ++ [r] ∧ e'.next = r + 1 ∧ memory' r = some x := by
  intro one b keywords tree e
  have succeeds : Attempt.succeeds (Emission.lower b keywords tree) e := by decide +kernel
  obtain ⟨tokens, e', lowered⟩ := Attempt.succeeds_iff.mp succeeds
  have numbered : tree.Numbered keywords :=
    ⟨⟨1, rfl, rfl⟩, ⟨trivial, trivial⟩, ⟨2, rfl, rfl⟩, trivial⟩
  exact ⟨e', tokens, lowered,
    exec_lower oneCell b keywords tree e e' tokens (fun _ => some 8) 5 numbered lowered⟩

end PolicyRules
