import PolicyRules.Proofs.Code

/-!
# The flow of values between slots

The instruction at a place of an instruction list owns the slot of that place. This module says
which instructions read a slot, and how the code of an expression hands its values on: what lowering
keeps as slots to be used are the slots that no instruction has read yet. Each of them is read once
later, by the instruction that takes it. Only the key of an update by key is read twice, for the
value at the key and for the write to it.

Main statement: `Code.block`, for the readers of slots and the form of instructions.
-/

namespace PolicyRules

namespace Operation

/-- Whether an operation takes two operands: a comparison, arithmetic, an assignment, or a
connective. -/
def isBinary : Operation → Bool
  | literal | not | placeholder | mapped | write | writeMapped => false
  | _ => true

@[simp] theorem isBinary_ofOperator (op : Operator) : (ofOperator op).isBinary := by
  cases op <;> rfl

theorem isBinary_ofKeyword {keyword : Keyword} (h : keyword ≠ .not) :
    (ofKeyword keyword).isBinary := by
  cases keyword with
  | and => rfl
  | or => rfl
  | not => exact absurd rfl h

end Operation

variable {n places : Nat} {code code' : List Instruction} {i : Instruction}

namespace Instruction

/-- The instructions that read a slot, with their own slots. The first instruction owns slot `n`. -/
def readers (n : Nat) (code : List Instruction) (slot : Nat) : List (Instruction × Nat) :=
  (code.zipIdx n).filter fun entry => entry.1.reads.contains (slot : Int)

@[simp] theorem readers_nil (n slot : Nat) : readers n [] slot = [] := rfl

theorem readers_append (n : Nat) (code code' : List Instruction) (slot : Nat) :
    readers n (code ++ code') slot = readers n code slot ++
      readers (n + code.length) code' slot := by
  simp [readers, List.zipIdx_append, List.filter_append]

theorem readers_singleton (n : Nat) (i : Instruction) (slot : Nat) :
    readers n [i] slot = if (slot : Int) ∈ i.reads then [(i, n)] else [] := by
  simp [readers, List.filter_cons]

/-- An operation on two operands reads all slots that it is given. -/
theorem reads_compute {op : Operation} (binary : op.isBinary) (slots : List Nat) :
    (compute op slots).reads = slots.map fun (slot : Nat) => (slot : Int) := by
  rw [← operands_compute op]
  cases op with
  | literal | not | placeholder | mapped | write | writeMapped => cases binary
  | _ => rfl

/-- How a slot is used by the instructions that own the slots from `n` on. -/
inductive Used (n : Nat) (code : List Instruction) (slot : Nat) : Prop
  /-- One later instruction reads it, and not as the key of a write. -/
  | once {i : Instruction} {p : Nat} (later : slot < p) (read : readers n code slot = [(i, p)])
    (value : ∀ id result backed, i ≠ writeMapped id result slot backed)
  /-- It is the key of an update: its readers are the read of the tracker at the key and the write
  of the result that is computed from that read. -/
  | key {id : Int} {p q : Nat} {op : Operation} {value : Nat} {backed : Bool} (later : slot < p)
    (result : (compute op [p, value], q) ∈ code.zipIdx n)
    (read : readers n code slot = [(readMapped id slot, p), (writeMapped id q slot backed, q + 1)])

/-- A slot is used in the same way in code that has the same readers of it. -/
theorem Used.mono {n' : Nat} {slot : Nat} (h : Used n code slot)
    (readers_eq : readers n' code' slot = readers n code slot)
    (within : ∀ entry ∈ code.zipIdx n, entry ∈ code'.zipIdx n') : Used n' code' slot := by
  cases h with
  | once later read value => exact .once later (readers_eq.trans read) value
  | key later result read => exact .key later (within _ result) (readers_eq.trans read)

/-- Whether the instructions that own the slots from `n` on read only their own slots, `waiting` are
the slots that none of them reads, and all others are used. -/
structure Flow (n : Nat) (code : List Instruction) (waiting : List Nat) : Prop where
  unread : ∀ slot, slot < n ∨ n + code.length ≤ slot ∨ slot ∈ waiting → readers n code slot = []
  used : ∀ slot, n ≤ slot → slot < n + code.length → slot ∉ waiting → Used n code slot
  own : ∀ slot ∈ waiting, n ≤ slot ∧ slot < n + code.length

namespace Flow

variable {n : Nat} {code code' : List Instruction} {waiting waiting' : List Nat}

/-- What is waiting after code that reads nothing of the code before it. -/
theorem append (h : Flow n code waiting) (h' : Flow (n + code.length) code' waiting') :
    Flow n (code ++ code') (waiting ++ waiting') := by
  refine ⟨fun slot outside => ?_, fun slot low high inside => ?_, fun slot member => ?_⟩
  · rw [List.length_append, List.mem_append] at outside
    have first : readers n code slot = [] := by
      apply h.unread
      rcases outside with low | high | here | there
      · exact .inl low
      · exact .inr (.inl (by omega))
      · exact .inr (.inr here)
      · exact .inr (.inl (h'.own slot there).1)
    have second : readers (n + code.length) code' slot = [] := by
      apply h'.unread
      rcases outside with low | high | here | there
      · exact .inl (by omega)
      · exact .inr (.inl (by omega))
      · exact .inl (h.own slot here).2
      · exact .inr (.inr there)
    rw [readers_append, first, second, List.append_nil]
  · rw [List.length_append] at high
    rw [List.mem_append, not_or] at inside
    by_cases left : slot < n + code.length
    · refine (h.used slot low left inside.1).mono ?_ ?_
      · rw [readers_append, h'.unread slot (.inl left), List.append_nil]
      · intro entry member
        rw [List.zipIdx_append]
        exact List.mem_append_left _ member
    · refine (h'.used slot (by omega) (by omega) inside.2).mono ?_ ?_
      · rw [readers_append, h.unread slot (.inr (.inl (by omega))), List.nil_append]
      · intro entry member
        rw [List.zipIdx_append]
        exact List.mem_append_right _ member
  · rw [List.length_append]
    rcases List.mem_append.mp member with here | there
    · have := h.own slot here
      omega
    · have := h'.own slot there
      omega

/-- An instruction that reads all waiting slots leaves its own. -/
theorem snoc (h : Flow n code waiting)
    (reads_eq : i.reads = waiting.map fun (slot : Nat) => (slot : Int))
    (opcode_ne : i.opcode ≠ .operation .writeMapped) : Flow n (code ++ [i]) [n + code.length] := by
  have reads_iff : ∀ slot : Nat, (slot : Int) ∈ i.reads ↔ slot ∈ waiting := by
    rw [reads_eq]
    exact fun slot => List.mem_map_of_injective fun _ _ => Int.ofNat.inj
  refine ⟨fun slot outside => ?_, fun slot low high inside => ?_, by simp⟩
  · simp only [List.length_append, List.length_singleton, List.mem_singleton] at outside
    have notWaiting : slot ∉ waiting := by
      intro member
      have bounds := h.own slot member
      omega
    rw [readers_append, h.unread slot (by omega), readers_singleton, if_neg (by rwa [reads_iff]),
      List.append_nil]
  · simp only [List.length_append, List.length_singleton, List.mem_singleton] at high inside
    by_cases member : slot ∈ waiting
    · refine .once (i := i) (p := n + code.length) (by omega) ?_ ?_
      · rw [readers_append, h.unread slot (.inr (.inr member)), readers_singleton,
          if_pos ((reads_iff slot).mpr member), List.nil_append]
      · rintro id result backed rfl
        exact opcode_ne rfl
    · refine (h.used slot low (by omega) member).mono ?_ ?_
      · rw [readers_append, readers_singleton, if_neg (by rwa [reads_iff]), List.append_nil]
      · intro entry here
        rw [List.zipIdx_append]
        exact List.mem_append_left _ here

/-- An instruction that reads no slot leaves its own. -/
theorem single (n : Nat) (reads_eq : i.reads = [])
    (opcode_ne : i.opcode ≠ .operation .writeMapped) : Flow n [i] [n] := by
  have nil : Flow n [] [] := ⟨by simp, by simp; omega, by simp⟩
  exact nil.snoc reads_eq opcode_ne

/-- The write of an update by key reads the key again. Its other operand is the result, which was
computed last from the read of the tracker at the key. -/
theorem snoc_writeMapped {id : Int} {p q key value : Nat} {op : Operation} (backed : Bool)
    (h : Flow n code [q]) (last : q + 1 = n + code.length) (own : n ≤ key) (earlier : key < p)
    (before : p < q) (result : (compute op [p, value], q) ∈ code.zipIdx n)
    (read : readers n code key = [(readMapped id key, p)]) :
    Flow n (code ++ [writeMapped id q key backed]) [n + code.length] := by
  have grown : ∀ entry ∈ code.zipIdx n,
      entry ∈ (code ++ [writeMapped id q key backed]).zipIdx n := by
    intro entry member
    rw [List.zipIdx_append]
    exact List.mem_append_left _ member
  have readers_of_ne : ∀ slot, slot ≠ q → slot ≠ key →
      readers n (code ++ [writeMapped id q key backed]) slot = readers n code slot := by
    intro slot notResult notKey
    rw [readers_append, readers_singleton, if_neg (by simp; omega), List.append_nil]
  refine ⟨fun slot outside => ?_, fun slot low high inside => ?_, by simp⟩
  · simp only [List.length_append, List.length_singleton, List.mem_singleton] at outside
    rw [readers_of_ne slot (by omega) (by omega)]
    exact h.unread slot (by omega)
  · simp only [List.length_append, List.length_singleton, List.mem_singleton] at high inside
    by_cases isKey : slot = key
    · subst isKey
      have both : readers n (code ++ [writeMapped id q slot backed]) slot =
          [(readMapped id slot, p), (writeMapped id q slot backed, q + 1)] := by
        rw [readers_append, read, readers_singleton, if_pos (by simp), ← last]
        rfl
      exact .key earlier (grown _ result) both
    · by_cases isResult : slot = q
      · subst isResult
        refine .once (i := writeMapped id slot key backed) (p := n + code.length) (by omega) ?_ ?_
        · rw [readers_append, h.unread slot (by simp), readers_singleton, if_pos (by simp),
            List.nil_append]
        · intro id' result' backed' same
          simp [writeMapped] at same
          omega
      · exact (h.used slot low (by omega) (by simpa using isResult)).mono
          (readers_of_ne slot isResult isKey) grown

end Flow

/-- Whether an instruction has one of the forms that the interpreter knows. It owns `slot` and reads
earlier slots only, and there are `places` placeholders. -/
inductive WellFormed (places slot : Nat) : Instruction → Prop
  | load (l : Literal) : WellFormed places slot (load l)
  | read {place : Nat} (known : place < places) : WellFormed places slot (read place)
  | readMapped (id : Int) {key : Nat} (earlier : key < slot) :
    WellFormed places slot (readMapped id key)
  | compute {op : Operation} {left right : Nat} (binary : op.isBinary) (ordered : left < right)
    (earlier : right < slot) : WellFormed places slot (compute op [left, right])
  | negate {operand : Nat} (earlier : operand < slot) :
    WellFormed places slot (compute .not [operand])
  | write (id : Int) {value : Nat} (backed : Bool) (earlier : value < slot) :
    WellFormed places slot (write id value backed)
  | writeMapped (id : Int) {value key : Nat} (backed : Bool) (earlier : value < slot)
    (earlierKey : key < slot) : WellFormed places slot (writeMapped id value key backed)

/-- Whether the instructions that own the slots from `n` on are well formed. -/
def AllWellFormed (places n : Nat) (code : List Instruction) : Prop :=
  ∀ entry ∈ code.zipIdx n, entry.1.WellFormed places entry.2

theorem AllWellFormed.append (h : AllWellFormed places n code)
    (h' : AllWellFormed places (n + code.length) code') :
    AllWellFormed places n (code ++ code') := by
  intro entry member
  rw [List.zipIdx_append] at member
  rcases List.mem_append.mp member with here | there
  · exact h entry here
  · exact h' entry there

theorem allWellFormed_singleton : AllWellFormed places n [i] ↔ i.WellFormed places n := by
  simp [AllWellFormed]

/-- Whether code that owns the slots from `n` on has its value in `r`, which is the last of them.
All other slots are used, and the instructions are well formed. -/
structure Block (places n : Nat) (code : List Instruction) (r : Nat) : Prop where
  length_eq : n + code.length = r + 1
  flow : Flow n code [r]
  wellFormed : AllWellFormed places n code

namespace Block

variable {r r' : Nat}

theorem single (n : Nat) (formed : i.WellFormed places n) (reads_eq : i.reads = [])
    (opcode_ne : i.opcode ≠ .operation .writeMapped) : Block places n [i] n :=
  ⟨rfl, .single n reads_eq opcode_ne, allWellFormed_singleton.mpr formed⟩

/-- An instruction on the value of a piece of code. -/
theorem snoc (h : Block places n code r) (formed : i.WellFormed places (r + 1))
    (reads_eq : i.reads = [(r : Int)]) (opcode_ne : i.opcode ≠ .operation .writeMapped) :
    Block places n (code ++ [i]) (r + 1) := by
  obtain ⟨length_eq, flow, wellFormed⟩ := h
  refine ⟨?_, length_eq ▸ flow.snoc reads_eq opcode_ne, wellFormed.append ?_⟩
  · rw [List.length_append, List.length_singleton]
    omega
  · rwa [length_eq, allWellFormed_singleton]

/-- An operation on the values of two pieces of code. -/
theorem compute {op : Operation} (h : Block places n code r) (h' : Block places (r + 1) code' r')
    (binary : op.isBinary) :
    Block places n (code ++ code' ++ [Instruction.compute op [r, r']]) (r' + 1) := by
  have ordered : r < r' := (h'.flow.own r' (by simp)).1
  obtain ⟨length_eq, flow, wellFormed⟩ := h
  obtain ⟨length_eq', flow', wellFormed'⟩ := h'
  rw [← length_eq] at flow' wellFormed'
  have last : n + (code ++ code').length = r' + 1 := by
    rw [List.length_append]
    omega
  refine ⟨?_, last ▸ (flow.append flow').snoc (reads_compute binary [r, r']) ?_,
    (wellFormed.append wellFormed').append ?_⟩
  · rw [List.length_append, List.length_singleton]
    omega
  · rintro ⟨⟩
    cases binary
  · rw [last, allWellFormed_singleton]
    exact .compute binary ordered (Nat.lt_succ_self r')

/-- The update of a tracker by key. The key is read twice: for the value at the key, and for the
write. -/
theorem updateMapped {op : Operation} {k : Nat} (h : Block places n code k)
    (h' : Block places (k + 2) code' r) (binary : op.isBinary) (id : Int) (backed : Bool) :
    Block places n (code ++ [readMapped id k] ++ code' ++ [Instruction.compute op [k + 1, r]] ++
      [writeMapped id (r + 1) k backed]) (r + 2) := by
  have opened := h.snoc (.readMapped id (Nat.lt_succ_self k)) rfl (by simp [readMapped])
  have result := opened.compute h' binary
  have own : n ≤ k := (h.flow.own k (by simp)).1
  have ordered : k + 2 ≤ r := (h'.flow.own r (by simp)).1
  have length : n + (code ++ [readMapped id k] ++ code').length = r + 1 := by
    have := h.length_eq
    have := h'.length_eq
    simp only [List.length_append, List.length_singleton]
    omega
  have placed : (Instruction.compute op [k + 1, r], r + 1) ∈
      (code ++ [readMapped id k] ++ code' ++ [Instruction.compute op [k + 1, r]]).zipIdx n := by
    rw [List.zipIdx_append, length]
    simp
  have opening : readers n (code ++ [readMapped id k]) k = [(readMapped id k, k + 1)] := by
    rw [readers_append, h.flow.unread k (by simp), h.length_eq, readers_singleton, if_pos (by simp)]
    rfl
  have read :
      readers n (code ++ [readMapped id k] ++ code' ++ [Instruction.compute op [k + 1, r]]) k =
        [(readMapped id k, k + 1)] := by
    rw [readers_append, readers_append, opening, opened.length_eq, h'.flow.unread k (by omega),
      readers_singleton, reads_compute binary, if_neg (by simp; omega)]
    rfl
  refine ⟨?_, result.length_eq ▸ result.flow.snoc_writeMapped backed result.length_eq.symm own
    (by omega) (by omega) placed read, result.wellFormed.append ?_⟩
  · rw [List.length_append, ← Nat.add_assoc, result.length_eq]
    rfl
  · rw [result.length_eq, allWellFormed_singleton]
    exact .writeMapped id backed (by omega) (by omega)

end Block

end Instruction

namespace Placeholder

theorem ordinalFrom_eq_ok {c : Component} {start place : Nat} {placeholders : List Placeholder}
    (h : ordinalFrom c start placeholders = .ok (some place)) :
    ∃ k p, place = start + k ∧ placeholders[k]? = some p ∧ p.binds c = .ok true := by
  induction placeholders generalizing start with
  | nil => cases h
  | cons p rest ih =>
    obtain ⟨found, hfound, h⟩ := bind_eq_ok_iff.mp h
    cases found with
    | true =>
      cases h
      exact ⟨0, p, rfl, rfl, hfound⟩
    | false =>
      obtain ⟨k, q, rfl, hq, binds⟩ := ih h
      exact ⟨k + 1, q, by omega, hq, binds⟩

/-- The place of a placeholder is that of one which binds the component. -/
theorem ordinal_eq_ok {placeholders : List Placeholder} {source : Text} {c : Component}
    {place : Nat} (h : ordinal placeholders source c = .ok place) :
    ∃ p, placeholders[place]? = some p ∧ p.binds c = .ok true := by
  obtain ⟨found, hfound, h⟩ := bind_eq_ok_iff.mp h
  cases found with
  | none => cases h
  | some n =>
    cases h
    obtain ⟨k, p, rfl, hp, binds⟩ := ordinalFrom_eq_ok hfound
    exact ⟨p, by simpa using hp, binds⟩

end Placeholder

/-- Whether each logical node of an expression that has two operands has a keyword that takes
two. -/
def Expr.Connected : Expr → Prop
  | .hole | .literal _ | .name _ => True
  | .mapped key _ => key.Connected
  | .binary _ left right => left.Connected ∧ right.Connected
  | .logical op _ left right => op ≠ .not ∧ left.Connected ∧ right.Connected
  | .negation _ operand => operand.Connected
  | .update _ _ value => value.Connected
  | .updateMapped _ key _ value => key.Connected ∧ value.Connected

namespace Code

open Instruction

variable {b : Bindings} {e : Expr} {n r : Nat} {code : List Instruction}

/-- In the code of an expression every slot is used, but for the last one, which has the value, and
the instructions are well formed. -/
theorem block (h : Code b e n code r) (connected : e.Connected) :
    Block b.placeholders.length n code r := by
  induction h with
  | literal l n => exact .single n (.load l) rfl (by simp [load])
  | unbound n free => exact .single n (.load _) rfl (by simp [load])
  | bound n found placed =>
    obtain ⟨p, hp, -⟩ := Placeholder.ordinal_eq_ok placed
    exact .single n (.read (List.getElem?_eq_some_iff.mp hp).1) rfl (by simp [Instruction.read])
  | mapped known hk ih =>
    exact (ih connected).snoc (.readMapped _ (Nat.lt_succ_self _)) rfl (by simp [readMapped])
  | binary hl hr ihl ihr => exact (ihl connected.1).compute (ihr connected.2) (by simp)
  | logical hl hr ihl ihr =>
    obtain ⟨connective, left, right⟩ := connected
    exact (ihl left).compute (ihr right) (Operation.isBinary_ofKeyword connective)
  | negation ho ih =>
    exact (ih connected).snoc (.negate (Nat.lt_succ_self _)) rfl (by simp [compute])
  | @update op tracker value n r r' code code' id backed known ht hv iht ihv =>
    have result :=
      (iht trivial).compute (ihv connected) (Operation.isBinary_ofOperator op.arithmetic)
    simpa using result.snoc (.write id backed (Nat.lt_succ_self _)) rfl (by simp [write])
  | @updateMapped op key tracker value n k r code code' id backed known hk hv ihk ihv =>
    have binary := Operation.isBinary_ofOperator op.arithmetic
    simpa using (ihk connected.1).updateMapped (ihv connected.2) binary id backed

end Code

end PolicyRules
