import PolicyRules.Program.Lower
import PolicyRules.Proofs.Instruction
import PolicyRules.Proofs.Success

/-!
# The code of an expression

`Code b e n code r` says that `code` is an instruction list for the expression `e` whose
instructions own the slots from `n` on, and that `r` is the slot of the value of `e`, which is the
last one. The relation has a rule for each kind of node; it knows nothing of the state in which
lowering keeps its slots.

Main statements: lowering an expression emits its code, or the expression has none and a name in it
is not bound (`ends_lowerExpr`). So a successful lowering appends the code of its expression and
adds one slot, that of the value, to those still to be used (`lower_eq_ok`), and an expression that
has code is lowered (`lower_of_code`).
-/

namespace PolicyRules

/-- Whether each logical node of an expression has the place of its own keyword in a keyword
list. -/
def Expr.Numbered (keywords : List Keyword) : Expr → Prop
  | .hole | .literal _ | .name _ => True
  | .mapped key _ => key.Numbered keywords
  | .binary _ left right => left.Numbered keywords ∧ right.Numbered keywords
  | .logical op ordinal left right =>
    (∃ n : Nat, ordinal = n ∧ keywords[n]? = some op) ∧
      left.Numbered keywords ∧ right.Numbered keywords
  | .negation ordinal operand =>
    (∃ n : Nat, ordinal = n ∧ keywords[n]? = some .not) ∧ operand.Numbered keywords
  | .update _ _ value => value.Numbered keywords
  | .updateMapped _ key _ value => key.Numbered keywords ∧ value.Numbered keywords

/-- Whether every place of an expression has an expression. -/
def Expr.Filled : Expr → Prop
  | .hole => False
  | .literal _ | .name _ => True
  | .mapped key _ => key.Filled
  | .binary _ left right | .logical _ _ left right => left.Filled ∧ right.Filled
  | .negation _ operand => operand.Filled
  | .update _ _ value => value.Filled
  | .updateMapped _ key _ value => key.Filled ∧ value.Filled

open Instruction in
/-- The code of an expression, from the slot of its first instruction to the slot of its value. -/
inductive Code (b : Bindings) : Expr → Nat → List Instruction → Nat → Prop
  | literal (l : Literal) (n : Nat) : Code b (.literal l) n [load l] n
  | unbound {name : Text} (n : Nat) (free : resolve b.components name = none) :
    Code b (.name name) n [load (.ofUnbound name)] n
  | bound {name : Text} {c : Component} {place : Nat} (n : Nat)
    (found : resolve b.components name = some c)
    (placed : Placeholder.ordinal b.placeholders b.source c = .ok place) :
    Code b (.name name) n [read place] n
  | mapped {key : Expr} {tracker : Text} {n k : Nat} {code : List Instruction} {id : Int}
    {backed : Bool} (known : b.trackerId tracker = .ok (id, backed)) (hk : Code b key n code k) :
    Code b (.mapped key tracker) n (code ++ [readMapped id k]) (k + 1)
  | binary {op : Operator} {left right : Expr} {n r r' : Nat} {code code' : List Instruction}
    (hl : Code b left n code r) (hr : Code b right (r + 1) code' r') :
    Code b (.binary op left right) n (code ++ code' ++ [compute (.ofOperator op) [r, r']]) (r' + 1)
  | logical {op : Keyword} {ordinal : Int} {left right : Expr} {n r r' : Nat}
    {code code' : List Instruction} (hl : Code b left n code r)
    (hr : Code b right (r + 1) code' r') :
    Code b (.logical op ordinal left right) n
      (code ++ code' ++ [compute (.ofKeyword op) [r, r']]) (r' + 1)
  | negation {ordinal : Int} {operand : Expr} {n r : Nat} {code : List Instruction}
    (ho : Code b operand n code r) :
    Code b (.negation ordinal operand) n (code ++ [compute .not [r]]) (r + 1)
  | update {op : UpdateOperator} {tracker : Text} {value : Expr} {n r r' : Nat}
    {code code' : List Instruction} {id : Int} {backed : Bool}
    (known : b.trackerId tracker = .ok (id, backed)) (ht : Code b (.name tracker) n code r)
    (hv : Code b value (r + 1) code' r') :
    Code b (.update op tracker value) n
      (code ++ code' ++ [compute (.ofOperator op.arithmetic) [r, r'], write id (r' + 1) backed])
      (r' + 2)
  | updateMapped {op : UpdateOperator} {key : Expr} {tracker : Text} {value : Expr} {n k r : Nat}
    {code code' : List Instruction} {id : Int} {backed : Bool}
    (known : b.trackerId tracker = .ok (id, backed)) (hk : Code b key n code k)
    (hv : Code b value (k + 2) code' r) :
    Code b (.updateMapped op key tracker value) n
      (code ++ [readMapped id k] ++ code' ++
        [compute (.ofOperator op.arithmetic) [k + 1, r], writeMapped id (r + 1) k backed]) (r + 2)

namespace Code

open Instruction

variable {b : Bindings} {e : Expr} {n r : Nat} {code : List Instruction}

/-- An expression has as many slots as instructions, and its value has the last of them. -/
theorem length_eq (h : Code b e n code r) : n + code.length = r + 1 := by
  induction h with
  | literal l n | unbound n free | bound n found placed => rfl
  | mapped known hk ih | binary hl hr ihl ihr | logical hl hr ihl ihr | negation ho ih
  | update known ht hv iht ihv | updateMapped known hk hv ihk ihv => simp; omega

/-- Code holds no pending keyword. -/
theorem isComplete (h : Code b e n code r) : ∀ i ∈ code, i.IsComplete := by
  induction h with
  | literal l n => simpa using isComplete_load l
  | unbound n free => simpa using isComplete_load _
  | bound n found placed => simpa using isComplete_read _
  | mapped known hk ih => simpa [or_imp, forall_and] using ⟨ih, isComplete_readMapped _ _⟩
  | binary hl hr ihl ihr | logical hl hr ihl ihr =>
    simpa [or_imp, forall_and] using ⟨ihl, ihr, isComplete_compute _ _⟩
  | negation ho ih => simpa [or_imp, forall_and] using ⟨ih, isComplete_compute _ _⟩
  | update known ht hv iht ihv =>
    simpa [or_imp, forall_and] using ⟨iht, ihv, isComplete_compute _ _, isComplete_write _ _ _⟩
  | updateMapped known hk hv ihk ihv =>
    simpa [or_imp, forall_and] using
      ⟨ihk, isComplete_readMapped _ _, ihv, isComplete_compute _ _, isComplete_writeMapped _ _ _ _⟩

/-- An expression has one code at most. -/
theorem unique {code' : List Instruction} {r' : Nat} (h : Code b e n code r)
    (h' : Code b e n code' r') : code = code' ∧ r = r' := by
  induction h generalizing code' r' with
  | literal l n =>
    cases h'
    exact ⟨rfl, rfl⟩
  | unbound n free =>
    cases h' with
    | unbound => exact ⟨rfl, rfl⟩
    | bound n found => exact absurd (found.symm.trans free) (by simp)
  | bound n found placed =>
    cases h' with
    | unbound n free => exact absurd (found.symm.trans free) (by simp)
    | bound n found' placed' =>
      obtain rfl := Option.some.inj (found.symm.trans found')
      obtain rfl := Except.ok.inj (placed.symm.trans placed')
      exact ⟨rfl, rfl⟩
  | mapped known hk ih =>
    cases h' with
    | mapped known' hk' =>
      obtain ⟨rfl, rfl⟩ := ih hk'
      obtain ⟨rfl, -⟩ := Prod.mk.inj (Except.ok.inj (known.symm.trans known'))
      exact ⟨rfl, rfl⟩
  | binary hl hr ihl ihr =>
    cases h' with
    | binary hl' hr' =>
      obtain ⟨rfl, rfl⟩ := ihl hl'
      obtain ⟨rfl, rfl⟩ := ihr hr'
      exact ⟨rfl, rfl⟩
  | logical hl hr ihl ihr =>
    cases h' with
    | logical hl' hr' =>
      obtain ⟨rfl, rfl⟩ := ihl hl'
      obtain ⟨rfl, rfl⟩ := ihr hr'
      exact ⟨rfl, rfl⟩
  | negation ho ih =>
    cases h' with
    | negation ho' =>
      obtain ⟨rfl, rfl⟩ := ih ho'
      exact ⟨rfl, rfl⟩
  | update known ht hv iht ihv =>
    cases h' with
    | update known' ht' hv' =>
      obtain ⟨rfl, rfl⟩ := iht ht'
      obtain ⟨rfl, rfl⟩ := ihv hv'
      obtain ⟨rfl, rfl⟩ := Prod.mk.inj (Except.ok.inj (known.symm.trans known'))
      exact ⟨rfl, rfl⟩
  | updateMapped known hk hv ihk ihv =>
    cases h' with
    | updateMapped known' hk' hv' =>
      obtain ⟨rfl, rfl⟩ := ihk hk'
      obtain ⟨rfl, rfl⟩ := ihv hv'
      obtain ⟨rfl, rfl⟩ := Prod.mk.inj (Except.ok.inj (known.symm.trans known'))
      exact ⟨rfl, rfl⟩

end Code

/-- Why an expression is not lowered: it has no code, since a place of it has no expression or a
name in it is not bound. -/
structure Blocked (b : Bindings) (tree : Expr) (error : Error) : Prop where
  noCode : ∀ n code r, ¬ Code b tree n code r
  reason : tree.Filled → (∃ tracker, b.trackerId tracker = .error error) ∨
    ∃ name c, resolve b.components name = some c ∧
    Placeholder.ordinal b.placeholders b.source c = .error error

variable {b : Bindings} {tree : Expr} {keywords : List Keyword} {code : List Instruction}

/-- What blocks a part of an expression that code is made of blocks the expression. -/
theorem Blocked.of_part {part : Expr} {error : Error} (h : Blocked b part error)
    (code : ∀ n code r, Code b tree n code r → ∃ n code r, Code b part n code r)
    (filled : tree.Filled → part.Filled) : Blocked b tree error where
  noCode := by
    intro n c r whole
    obtain ⟨n', c', r', inner⟩ := code n c r whole
    exact h.noCode n' c' r' inner
  reason := h.reason ∘ filled

/-- What refers to no tracker blocks an expression whose code needs the tracker. -/
theorem Blocked.of_trackerId {tracker : Text} {error : Error}
    (failed : b.trackerId tracker = .error error)
    (code : ∀ n code r, Code b tree n code r → ∃ x, b.trackerId tracker = .ok x) :
    Blocked b tree error where
  noCode := by
    intro n c r whole
    obtain ⟨x, known⟩ := code n c r whole
    cases failed.symm.trans known
  reason := fun _ => .inl ⟨tracker, failed⟩

/-- Whether an attempt ends with a result and a state in some relation, or with an error of some
kind. -/
inductive Attempt.Ends {σ α : Type} (done : α → σ → Prop) (refused : Error → Prop) :
    EStateM.Result Error σ α → Prop
  | ok {a : α} {s : σ} (h : done a s) : Ends done refused (.ok a s)
  | error {e : Error} {s : σ} (h : refused e) : Ends done refused (.error e s)

namespace Attempt.Ends

variable {σ α β : Type} {done : α → σ → Prop} {refused refused' : Error → Prop} {x : Attempt σ α}
  {s s' : σ} {a : α} {result : EStateM.Result Error σ α}

theorem of_ok (h : result = .ok a s') (holds : done a s') : Ends done refused result :=
  h ▸ .ok holds

theorem holds (h : Ends done refused (.ok a s)) : done a s := by
  cases h
  assumption

theorem refused_of_error {e : Error} (h : Ends done refused (.error e s)) : refused e := by
  cases h
  assumption

theorem exists_done (h : Ends done refused result) (never : ∀ e, ¬ refused e) :
    ∃ a s', result = .ok a s' ∧ done a s' := by
  cases h with
  | ok h => exact ⟨_, _, rfl, h⟩
  | error h => exact absurd h (never _)

theorem imp {done' : α → σ → Prop} (h : Ends done refused result)
    (stronger : ∀ a s', done a s' → done' a s') (weaker : ∀ e, refused e → refused' e) :
    Ends done' refused' result := by
  cases h with
  | ok h => exact .ok (stronger _ _ h)
  | error h => exact .error (weaker _ h)

theorem bind {done' : β → σ → Prop} {f : α → Attempt σ β} (first : Ends done refused (x s))
    (weaker : ∀ e, refused e → refused' e)
    (next : ∀ a s', done a s' → Ends done' refused' (f a s')) :
    Ends done' refused' ((x >>= f) s) := by
  change Ends done' refused' (EStateM.bind x f s)
  unfold EStateM.bind
  generalize x s = result at first
  cases first with
  | ok h => exact next _ _ h
  | error h => exact .error (weaker _ h)

theorem discard (h : Ends done refused (x s)) :
    Ends (fun _ s' => ∃ a, done a s') refused ((discard x : Attempt σ PUnit) s) := by
  change Ends _ refused (EStateM.map _ x s)
  unfold EStateM.map
  generalize x s = result at h
  cases h with
  | ok h => exact .ok ⟨_, h⟩
  | error h => exact .error h

end Attempt.Ends

namespace Emission

open Instruction Attempt

/-- Whether an emission has grown by some tokens and by one value, which is in slot `r`. -/
structure Grows (e : Emission) (tokens : List Token) (r : Nat) (e' : Emission) : Prop where
  tokens_eq : e'.tokens = e.tokens ++ tokens
  slots_eq : e'.slots = e.slots ++ [r]
  next_eq : e'.next = r + 1

theorem ends_trackerId (b : Bindings) (tracker : Text) (e : Emission) :
    Ends (fun x e' => b.trackerId tracker = .ok x ∧ e' = e)
      (fun error => b.trackerId tracker = .error error)
      (Attempt.ofExcept (b.trackerId tracker) e) := by
  cases b.trackerId tracker with
  | ok x => exact .ok ⟨rfl, rfl⟩
  | error error => exact .error rfl

/-- A name is read as its code, or it is bound to what has no place. -/
theorem ends_readName (b : Bindings) (name : Text) (e : Emission) :
    Ends (fun _ e' => ∃ code, Code b (.name name) e.next code e.next ∧
      e.Grows (code.flatMap Instruction.tokens) e.next e') (Blocked b (.name name))
      (readName b name e) := by
  unfold readName
  cases found : resolve b.components name with
  | none =>
    refine .of_ok rfl ?_
    exact ⟨_, .unbound e.next found, rfl, rfl, rfl⟩
  | some c =>
    dsimp only
    cases placed : Placeholder.ordinal b.placeholders b.source c with
    | ok place =>
      refine .of_ok rfl ?_
      exact ⟨_, .bound e.next found placed, rfl, rfl, rfl⟩
    | error error =>
      refine .error ⟨?_, fun _ => .inr ⟨name, c, found, placed⟩⟩
      rintro _ _ _ (_ | ⟨_, free⟩ | ⟨_, found', placed'⟩)
      · cases found.symm.trans free
      · obtain rfl := Option.some.inj (found.symm.trans found')
        cases placed.symm.trans placed'

section Growth

variable {e e' e'' : Emission} {raw raw' : List Token} {r r' k : Nat}

/-- Reading by key takes the key that was produced last and gives its slot. -/
theorem Grows.ends_readMapped (hk : e.Grows raw k e') (b : Bindings) (tracker : Text) :
    Ends (fun key e'' => key = k ∧ ∃ id backed, b.trackerId tracker = .ok (id, backed) ∧
      e.Grows (raw ++ (Instruction.readMapped id k).tokens) (k + 1) e'')
      (fun error => b.trackerId tracker = .error error) (Emission.readMapped b tracker e') := by
  have popped : Ends (fun slot e₁ => slot = k ∧ e₁ = { e' with slots := e.slots })
      (fun error => b.trackerId tracker = .error error) (pop e') :=
    .of_ok (pop_append e.slots k e' hk.slots_eq) ⟨rfl, rfl⟩
  refine popped.bind (fun _ => id) ?_
  rintro _ _ ⟨rfl, rfl⟩
  cases known : b.trackerId tracker with
  | error error => exact .error rfl
  | ok entry =>
    refine .of_ok rfl ⟨rfl, entry.1, entry.2, rfl, ?_, ?_, ?_⟩
    · simp [hk.tokens_eq, Instruction.tokens, Instruction.readMapped, Token.operation]
    · simp [hk.next_eq]
    · simp [hk.next_eq]

/-- An operator takes the slots that were added last, and its value has the next slot. -/
theorem emitOperator_eq (op : Opcode) {e : Emission} (kept taken : List Nat)
    (arity : 0 < taken.length) (h : e.slots = kept ++ taken) :
    emitOperator op taken.length e =
      .ok () { e with
        tokens := e.tokens ++ .opcode op :: taken.map fun (slot : Nat) => .operand slot
        slots := kept ++ [e.next]
        next := e.next + 1 } := by
  have enough : ¬ (e.slots.length : Int) < (taken.length : Int) := by
    rw [h, List.length_append]
    omega
  have keeps : keptBy e.slots.length (taken.length : Int) = kept.length := by
    rw [keptBy_of_pos arity, h, List.length_append]
    omega
  have consumed := consume_eq (taken.length : Int) e
  rw [if_neg enough, keeps] at consumed
  simp only [h, List.drop_left, List.take_left] at consumed
  simp [emitOperator, bind, EStateM.bind, consumed, emit_eq, push_eq, discard, Functor.discard,
    Functor.mapConst, EStateM.map]

theorem Grows.operator₁ (ho : e.Grows raw r e') (op : Opcode) :
    ∃ e'', emitOperator op 1 e' = .ok () e'' ∧
      e.Grows (raw ++ [.opcode op, .operand r]) (r + 1) e'' := by
  refine ⟨_, emitOperator_eq op e.slots [r] (by simp) ho.slots_eq, ?_⟩
  exact ⟨by simp [ho.tokens_eq], by simp [ho.next_eq], by simp [ho.next_eq]⟩

theorem Grows.operator₂ (hl : e.Grows raw r e') (hr : e'.Grows raw' r' e'') (op : Opcode) :
    ∃ e₁, emitOperator op 2 e'' = .ok () e₁ ∧
      e.Grows (raw ++ raw' ++ [.opcode op, .operand r, .operand r']) (r' + 1) e₁ := by
  have slots : e''.slots = e.slots ++ [r, r'] := by rw [hr.slots_eq, hl.slots_eq]; simp
  refine ⟨_, emitOperator_eq op e.slots [r, r'] (by simp) slots, ?_⟩
  exact ⟨by simp [hr.tokens_eq, hl.tokens_eq], by simp [hr.next_eq], by simp [hr.next_eq]⟩

/-- A write takes the value that was produced last, and the key if there is one. -/
theorem Grows.write (hr : e.Grows raw r e') (tracker : Text) (id : Int) (backed : Bool)
    (key : Option Nat) :
    ∃ e'', writeTracker tracker id backed key e' = .ok () e'' ∧
      e.Grows (raw ++ (key.elim (Instruction.write id r backed)
        (Instruction.writeMapped id r · backed)).tokens) (r + 1) e'' := by
  cases key with
  | none =>
    refine ⟨_, Attempt.bind_eq_ok_iff.mpr ⟨r, _, pop_append e.slots r e' hr.slots_eq, rfl⟩,
      ?_, ?_, ?_⟩
    · simp [hr.tokens_eq, Instruction.tokens, Instruction.write, Instruction.flag, Token.operation]
    · simp [hr.next_eq]
    · simp [hr.next_eq]
  | some k =>
    refine ⟨_, Attempt.bind_eq_ok_iff.mpr ⟨r, _, pop_append e.slots r e' hr.slots_eq, rfl⟩,
      ?_, ?_, ?_⟩
    · simp [hr.tokens_eq, Instruction.tokens, Instruction.writeMapped, Instruction.flag,
        Token.operation]
    · simp [hr.next_eq]
    · simp [hr.next_eq]

end Growth

end Emission

/-- Whether tokens become those of a code when the pending keywords are put in their places. -/
def Restores (keywords : List Keyword) (raw : List Token) (code : List Instruction) : Prop :=
  raw.mapM (Token.restore keywords) = .ok (code.flatMap Instruction.tokens)

theorem Restores.append {raw raw' : List Token} {code' : List Instruction}
    (h : Restores keywords raw code) (h' : Restores keywords raw' code') :
    Restores keywords (raw ++ raw') (code ++ code') := by
  unfold Restores
  rw [List.flatMap_append, mapM_append_eq_ok_iff]
  exact ⟨_, _, h, h', rfl⟩

/-- Instructions without pending keywords stay as they are. -/
theorem restores_self (keywords : List Keyword) (complete : ∀ i ∈ code, i.IsComplete) :
    Restores keywords (code.flatMap Instruction.tokens) code := by
  unfold Restores
  rw [mapM_eq_ok_iff, List.forall₂_same]
  intro token member
  obtain ⟨i, hi, htoken⟩ := List.mem_flatMap.mp member
  obtain ⟨⟨op, hop⟩, closed⟩ := complete i hi
  rcases List.mem_cons.mp htoken with rfl | harg
  · rw [hop]
    rfl
  · have notOpcode := closed token harg
    cases token with
    | opcode op => simp [Token.isOpcode] at notOpcode
    | operand n => rfl
    | literal l => rfl

theorem restores_one (keywords : List Keyword) {i : Instruction} (complete : i.IsComplete) :
    Restores keywords i.tokens [i] := by
  have alone : ∀ j ∈ [i], j.IsComplete := by simpa using complete
  simpa using restores_self keywords alone

/-- A pending keyword is put in the place of its ordinal. -/
theorem restores_pending {ordinal : Int} {keyword : Keyword}
    (numbered : ∃ n : Nat, ordinal = n ∧ keywords[n]? = some keyword) (slots : List Nat) :
    Restores keywords (.opcode (.pending ordinal) :: slots.map fun (slot : Nat) => .operand slot)
      [.compute (.ofKeyword keyword) slots] := by
  obtain ⟨n, rfl, found⟩ := numbered
  have first : Token.restore keywords (.opcode (.pending (n : Int))) =
      .ok (.operation (.ofKeyword keyword)) := by
    change (nthEntry keywords n).map _ = _
    rw [nthEntry_eq_ok_iff.mpr found]
    rfl
  have rest : (slots.map fun (slot : Nat) => Token.operand slot).mapM (Token.restore keywords) =
      .ok (slots.map fun (slot : Nat) => Token.operand slot) := by
    rw [mapM_eq_ok_iff, List.forall₂_same]
    simp [Token.restore]
  unfold Restores
  rw [List.mapM_cons, first, bind_eq_ok_iff]
  refine ⟨_, rfl, ?_⟩
  rw [rest, bind_eq_ok_iff]
  exact ⟨_, rfl, by simp [pure_eq_ok_iff, Instruction.tokens, Instruction.compute, Token.operation]⟩

namespace Emission

open Instruction Attempt

/-- Lowering an expression emits its code, up to the keywords that are put in their places later, or
the expression has no code. -/
theorem ends_lowerExpr (numbered : tree.Numbered keywords) (b : Bindings) (e : Emission) :
    Ends
      (fun _ e' => ∃ raw code r, Code b tree e.next code r ∧ Restores keywords raw code ∧
        e.Grows raw r e') (Blocked b tree) (lowerExpr b tree e) := by
  induction tree generalizing e with
  | hole => exact .error ⟨by rintro _ _ _ ⟨⟩, False.elim⟩
  | literal l =>
    exact .of_ok rfl ⟨_, _, _, .literal l e.next, restores_one keywords (isComplete_load l),
      rfl, rfl, rfl⟩
  | name name =>
    refine (ends_readName b name e).imp ?_ fun _ => id
    rintro _ e' ⟨code, hcode, grows⟩
    exact ⟨_, code, _, hcode, restores_self keywords hcode.isComplete, grows⟩
  | mapped key tracker ih =>
    refine (ih numbered e).bind (fun _ h => h.of_part (by rintro _ _ _ ⟨⟩; exact ⟨_, _, _, ‹_›⟩) id)
      ?_
    rintro _ e₁ ⟨raw, code, k, hcode, restores, grows⟩
    refine (grows.ends_readMapped b tracker).discard.imp ?_ fun _ failed => .of_trackerId failed ?_
    · rintro _ e₂ ⟨_, rfl, id, backed, known, grows'⟩
      exact ⟨_, _, _, .mapped known hcode,
        restores.append (restores_one keywords (isComplete_readMapped _ _)), grows'⟩
    · rintro _ _ _ ⟨⟩
      exact ⟨_, ‹_›⟩
  | binary op left right ihl ihr =>
    refine (ihl numbered.1 e).bind
      (fun _ h => h.of_part (by rintro _ _ _ ⟨⟩; exact ⟨_, _, _, ‹_›⟩) And.left) ?_
    rintro _ e₁ ⟨raw, code, r, hcode, restores, grows⟩
    refine (ihr numbered.2 e₁).bind
      (fun _ h => h.of_part (by rintro _ _ _ ⟨⟩; exact ⟨_, _, _, ‹_›⟩) And.right) ?_
    rintro _ e₂ ⟨raw', code', r', hcode', restores', grows'⟩
    rw [grows.next_eq] at hcode'
    obtain ⟨e₃, emitted, computed⟩ := grows.operator₂ grows' (.operation (.ofOperator op))
    exact .of_ok emitted ⟨_, _, _, .binary hcode hcode',
      (restores.append restores').append (restores_one keywords (isComplete_compute _ _)), computed⟩
  | logical op ordinal left right ihl ihr =>
    refine (ihl numbered.2.1 e).bind
      (fun _ h => h.of_part (by rintro _ _ _ ⟨⟩; exact ⟨_, _, _, ‹_›⟩) And.left) ?_
    rintro _ e₁ ⟨raw, code, r, hcode, restores, grows⟩
    refine (ihr numbered.2.2 e₁).bind
      (fun _ h => h.of_part (by rintro _ _ _ ⟨⟩; exact ⟨_, _, _, ‹_›⟩) And.right) ?_
    rintro _ e₂ ⟨raw', code', r', hcode', restores', grows'⟩
    rw [grows.next_eq] at hcode'
    obtain ⟨e₃, emitted, computed⟩ := grows.operator₂ grows' (.pending ordinal)
    exact .of_ok emitted ⟨_, _, _, .logical hcode hcode',
      (restores.append restores').append (restores_pending numbered.1 [r, r']), computed⟩
  | negation ordinal operand ih =>
    refine (ih numbered.2 e).bind
      (fun _ h => h.of_part (by rintro _ _ _ ⟨⟩; exact ⟨_, _, _, ‹_›⟩) id) ?_
    rintro _ e₁ ⟨raw, code, r, hcode, restores, grows⟩
    obtain ⟨e₂, emitted, computed⟩ := grows.operator₁ (.pending ordinal)
    exact .of_ok emitted
      ⟨_, _, _, .negation hcode, restores.append (restores_pending numbered.1 [r]), computed⟩
  | update op tracker value ih =>
    have located := ends_trackerId b tracker e
    refine located.bind (fun _ failed => .of_trackerId failed (by rintro _ _ _ ⟨⟩; exact ⟨_, ‹_›⟩))
      ?_
    rintro ⟨id, backed⟩ e ⟨known, rfl⟩
    refine (ends_readName b tracker e).bind
      (fun _ h => h.of_part (by rintro _ _ _ ⟨⟩; exact ⟨_, _, _, ‹_›⟩) fun _ => trivial) ?_
    rintro _ e₁ ⟨code, hcode, grows⟩
    refine (ih numbered e₁).bind
      (fun _ h => h.of_part (by rintro _ _ _ ⟨⟩; exact ⟨_, _, _, ‹_›⟩) fun filled => filled) ?_
    rintro _ e₂ ⟨raw', code', r', hcode', restores', grows'⟩
    rw [grows.next_eq] at hcode'
    obtain ⟨e₃, emitted, computed⟩ :=
      grows.operator₂ grows' (.operation (.ofOperator op.arithmetic))
    obtain ⟨e₄, written, grown⟩ := computed.write tracker id backed none
    refine .of_ok (Attempt.bind_eq_ok_iff.mpr ⟨_, _, emitted, written⟩)
      ⟨_, _, _, .update known hcode hcode',
        ((restores_self keywords hcode.isComplete).append restores').append
          (restores_self keywords (by simp [isComplete_compute, isComplete_write])), ?_⟩
    simpa [Instruction.tokens, compute] using grown
  | updateMapped op key tracker value ihk ihv =>
    have located := ends_trackerId b tracker e
    refine located.bind (fun _ failed => .of_trackerId failed (by rintro _ _ _ ⟨⟩; exact ⟨_, ‹_›⟩))
      ?_
    rintro ⟨id, backed⟩ e ⟨known, rfl⟩
    refine (ihk numbered.1 e).bind
      (fun _ h => h.of_part (by rintro _ _ _ ⟨⟩; exact ⟨_, _, _, ‹_›⟩) And.left) ?_
    rintro _ e₁ ⟨raw, code, k, hcode, restores, grows⟩
    refine (grows.ends_readMapped b tracker).bind
      (fun _ failed => .of_trackerId failed (by rintro _ _ _ ⟨⟩; exact ⟨_, ‹_›⟩)) ?_
    rintro _ e₂ ⟨rfl, id', backed', known', grows'⟩
    obtain ⟨rfl, rfl⟩ : id = id' ∧ backed = backed' := by simpa [known] using known'
    refine (ihv numbered.2 e₂).bind
      (fun _ h => h.of_part (by rintro _ _ _ ⟨⟩; exact ⟨_, _, _, ‹_›⟩) And.right) ?_
    rintro _ e₃ ⟨raw', code', r, hcode', restores', grows''⟩
    rw [grows'.next_eq] at hcode'
    obtain ⟨e₄, emitted, computed⟩ :=
      grows'.operator₂ grows'' (.operation (.ofOperator op.arithmetic))
    obtain ⟨e₅, written, grown⟩ := computed.write tracker id backed (some _)
    refine .of_ok (Attempt.bind_eq_ok_iff.mpr ⟨_, _, emitted, written⟩)
      ⟨_, _, _, .updateMapped known hcode hcode',
        ((restores.append (restores_one keywords (isComplete_readMapped _ _))).append
          restores').append (restores_self keywords
            (by simp [isComplete_compute, isComplete_writeMapped])), ?_⟩
    simpa [Instruction.tokens, compute] using grown

/-- A successful lowering appends the code of its expression to the tokens emitted before, in which
pending keywords are put in their places too, and adds the slot of the value to those still to be
used. -/
theorem lower_eq_ok {e e' : Emission} {tokens : List Token} (numbered : tree.Numbered keywords)
    (h : lower b keywords tree e = .ok tokens e') :
    ∃ earlier code r, Code b tree e.next code r ∧
      e.tokens.mapM (Token.restore keywords) = .ok earlier ∧
      tokens = earlier ++ code.flatMap Instruction.tokens ∧
      e'.tokens = tokens ∧ e'.slots = e.slots ++ [r] ∧ e'.next = r + 1 := by
  simp only [lower, restoreKeywords, Attempt.bind_eq_ok_iff, Attempt.ofExcept_eq_ok_iff,
    Attempt.get_eq_ok_iff, Attempt.modify_eq_ok_iff, Attempt.pure_eq_ok_iff] at h
  obtain ⟨_, e₁, hlower, _, _, ⟨_, _, ⟨rfl, rfl⟩, restored, _, ⟨hrestore, rfl⟩, rfl⟩, _, _,
    ⟨rfl, rfl⟩, rfl, rfl⟩ := h
  obtain ⟨raw, code, r, hcode, restores, grows⟩ := (hlower ▸ ends_lowerExpr numbered b e).holds
  rw [grows.tokens_eq, mapM_append_eq_ok_iff] at hrestore
  obtain ⟨earlier, appended, hearlier, happended, rfl⟩ := hrestore
  obtain rfl : appended = code.flatMap Instruction.tokens := by
    simpa using happended.symm.trans restores
  exact ⟨earlier, code, r, hcode, hearlier, rfl, rfl, grows.slots_eq, grows.next_eq⟩

/-- An expression that has code is lowered to it, if the keywords of earlier instructions can be put
in their places. -/
theorem lower_of_code {e : Emission} {r : Nat} {earlier : List Token}
    (numbered : tree.Numbered keywords) (h : Code b tree e.next code r)
    (restored : e.tokens.mapM (Token.restore keywords) = .ok earlier) :
    ∃ e', lower b keywords tree e = .ok (earlier ++ code.flatMap Instruction.tokens) e' := by
  obtain ⟨_, e₁, lowered, raw, code', r', hcode, restores, grows⟩ :=
    (ends_lowerExpr numbered b e).exists_done fun _ blocked => blocked.noCode _ _ _ h
  obtain ⟨rfl, rfl⟩ := h.unique hcode
  have all : e₁.tokens.mapM (Token.restore keywords) = .ok
      (earlier ++ code.flatMap Instruction.tokens) := by
    rw [grows.tokens_eq, mapM_append_eq_ok_iff]
    exact ⟨earlier, _, restored, restores, rfl⟩
  simp only [lower, restoreKeywords, Attempt.bind_eq_ok_iff, Attempt.ofExcept_eq_ok_iff,
    Attempt.get_eq_ok_iff, Attempt.modify_eq_ok_iff, Attempt.pure_eq_ok_iff]
  exact ⟨_, (), e₁, lowered, (), _, ⟨_, _, ⟨rfl, rfl⟩, _, _, ⟨all, rfl⟩, rfl⟩, _, _, ⟨rfl, rfl⟩,
    rfl, rfl⟩

end Emission

end PolicyRules
