import PolicyRules.Program.Emission

/-!
# Handing out slots

Instructions are emitted by pushing slots, taking slots and appending tokens, in any order and with
any counts. Every slot is handed out once and taken at most once: at each point the slots that have
been taken, together with those that are still there, are all slots handed out so far.

Main statement: `SlotHistory.slots_of_steps`.
-/

namespace PolicyRules

/-- A step of emitting instructions. -/
inductive SlotStep where
  | push
  | consume (count : Int)
  | emit (tokens : List Token)
  deriving DecidableEq, Repr

/-- Takes a step and gives the slots that it takes. -/
def SlotStep.run : SlotStep → Attempt Emission (List Nat)
  | push => do
    discard Emission.push
    return []
  | consume count => Emission.consume count
  | emit tokens => do
    Emission.emit tokens
    return []

/-- What has come of the steps so far. -/
structure SlotHistory where
  emission : Emission := {}
  /-- The slots that have been taken, in the order in which they were. -/
  taken : List Nat := []
  deriving DecidableEq, Repr

namespace SlotHistory

/-- Takes one more step. A step that fails takes no slots, and the steps go on from what it
leaves. -/
def step (h : SlotHistory) (s : SlotStep) : SlotHistory :=
  match s.run h.emission with
  | .ok slots e => ⟨e, h.taken ++ slots⟩
  | .error _ e => ⟨e, h.taken⟩

/-- What comes of steps that begin with nothing emitted. -/
def ofSteps (steps : List SlotStep) : SlotHistory := steps.foldl step {}

variable {h : SlotHistory}

theorem step_push : h.step .push = ⟨{ h.emission with
    slots := h.emission.slots ++ [h.emission.next], next := h.emission.next + 1 }, h.taken⟩ :=
  congrArg (SlotHistory.mk _) (List.append_nil h.taken)

theorem step_emit (tokens : List Token) :
    h.step (.emit tokens) = ⟨{ h.emission with tokens := h.emission.tokens ++ tokens }, h.taken⟩ :=
  congrArg (SlotHistory.mk _) (List.append_nil h.taken)

/-- Slots that are taken are cut off from those that are there. Too many are not taken. -/
theorem step_consume (count : Int) : h.step (.consume count) = h ∨
    ∃ kept taken, h.emission.slots = kept ++ taken ∧
      h.step (.consume count) = ⟨{ h.emission with slots := kept }, h.taken ++ taken⟩ := by
  rw [step, SlotStep.run, Emission.consume_eq]
  by_cases short : (h.emission.slots.length : Int) < count
  · rw [if_pos short]
    exact .inl rfl
  · rw [if_neg short]
    exact .inr ⟨_, _, (List.take_append_drop _ _).symm, rfl⟩

/-- What holds of the slots after any steps. -/
structure Sound (h : SlotHistory) : Prop where
  increasing : h.emission.slots.Pairwise (· < ·)
  once : (h.taken ++ h.emission.slots).Perm (List.range h.emission.next)

theorem Sound.lt_next (sound : h.Sound) {slot : Nat} (member : slot ∈ h.emission.slots) :
    slot < h.emission.next :=
  List.mem_range.mp (sound.once.subset (List.mem_append_right _ member))

/-- One step keeps the allocation of slots sound. -/
theorem Sound.step (sound : h.Sound) (s : SlotStep) : (h.step s).Sound := by
  cases s with
  | push =>
    rw [step_push]
    refine ⟨List.pairwise_append.mpr ⟨sound.increasing, List.pairwise_singleton _ _, ?_⟩, ?_⟩
    · intro slot member new isNew
      rw [List.mem_singleton.mp isNew]
      exact sound.lt_next member
    · rw [← List.append_assoc, List.range_succ]
      exact sound.once.append_right _
  | consume count =>
    rcases h.step_consume count with same | ⟨kept, taken, slots, after⟩
    · rw [same]
      exact sound
    · obtain ⟨increasing, once⟩ := sound
      rw [slots] at increasing once
      rw [after]
      refine ⟨(List.pairwise_append.mp increasing).1, ?_⟩
      rw [List.append_assoc]
      exact (List.perm_append_comm.append_left h.taken).trans once
  | emit tokens =>
    rw [step_emit]
    exact ⟨sound.increasing, sound.once⟩

theorem Sound.foldl_step (sound : h.Sound) (steps : List SlotStep) :
    (steps.foldl SlotHistory.step h).Sound := by
  induction steps generalizing h with
  | nil => exact sound
  | cons s steps ih => exact ih (sound.step s)

theorem sound_ofSteps (steps : List SlotStep) : (ofSteps steps).Sound := by
  have fresh : Sound {} := ⟨.nil, .nil⟩
  exact fresh.foldl_step steps

theorem next_step (s : SlotStep) :
    (h.step s).emission.next = h.emission.next + if s = .push then 1 else 0 := by
  cases s with
  | push => rfl
  | consume count =>
    rcases h.step_consume count with same | ⟨kept, taken, -, after⟩
    · rw [same]
      rfl
    · rw [after]
      rfl
  | emit tokens => rfl

/-- Each push takes the next slot. -/
theorem next_foldl_step (steps : List SlotStep) :
    (steps.foldl step h).emission.next = h.emission.next + steps.count .push := by
  induction steps generalizing h with
  | nil => rfl
  | cons s steps ih =>
    rw [List.foldl_cons, ih, next_step, List.count_cons]
    simp only [beq_iff_eq]
    omega

/-- The next slot is the number of slots pushed. -/
theorem next_ofSteps (steps : List SlotStep) :
    (ofSteps steps).emission.next = steps.count .push := by
  rw [ofSteps, next_foldl_step, Nat.zero_add]

end SlotHistory

namespace Emission

/-- Taking slots that are there takes the latest ones, the oldest of them first. -/
theorem consume_eq_ok {count : Int} {e : Emission} (positive : 1 ≤ count)
    (enough : count ≤ e.slots.length) :
    ∃ kept taken, e.slots = kept ++ taken ∧ (taken.length : Int) = count ∧
      consume count e = .ok taken { e with slots := kept } := by
  have keeps : keptBy e.slots.length count = e.slots.length - count.toNat := if_pos (by omega)
  refine ⟨_, _, (List.take_append_drop (keptBy e.slots.length count) e.slots).symm, ?_, ?_⟩
  · rw [List.length_drop, keeps]
    omega
  · rw [consume_eq, if_neg (by omega)]

/-- Slots are not taken exactly if there are too few, and then all stays as it was. -/
theorem consume_eq_error_iff {count : Int} {e e' : Emission} {error : Error} :
    consume count e = .error error e' ↔
      (e.slots.length : Int) < count ∧ error = .operandShortage count e.slots.length ∧ e' = e := by
  rw [consume_eq]
  split
  · next short => simp [short, eq_comm]
  · next enough => simp [enough]

end Emission

/-- Each slot is handed out once. After any steps the slots that are there are increasing and below
the next one, which counts the slots pushed; together with the slots taken they are all slots below
the next one, each once. Of slots that are there the latest are taken, the oldest of them first; too
many are not taken, and that changes nothing. -/
theorem SlotHistory.slots_of_steps (steps : List SlotStep) :
    (ofSteps steps).emission.slots.Pairwise (· < ·) ∧
    (∀ slot ∈ (ofSteps steps).emission.slots, slot < (ofSteps steps).emission.next) ∧
    (ofSteps steps).emission.next = steps.count .push ∧
    ((ofSteps steps).taken ++ (ofSteps steps).emission.slots).Perm
      (List.range (ofSteps steps).emission.next) ∧
    (∀ count : Int, 1 ≤ count → count ≤ (ofSteps steps).emission.slots.length →
      ∃ kept taken, (ofSteps steps).emission.slots = kept ++ taken ∧ (taken.length : Int) = count ∧
        Emission.consume count (ofSteps steps).emission =
          .ok taken { (ofSteps steps).emission with slots := kept }) ∧
    ∀ count error e, Emission.consume count (ofSteps steps).emission = .error error e ↔
      ((ofSteps steps).emission.slots.length : Int) < count ∧
        error = .operandShortage count (ofSteps steps).emission.slots.length ∧
        e = (ofSteps steps).emission := by
  have sound := sound_ofSteps steps
  exact ⟨sound.increasing, fun slot => sound.lt_next, next_ofSteps steps, sound.once,
    fun count => Emission.consume_eq_ok, fun count error e => Emission.consume_eq_error_iff⟩

/-- Steps that take all slots but one, fail to take nine, and push two more. -/
def mixedSteps : List SlotStep :=
  [.push, .push, .push, .consume (-1), .emit [.operation .and], .consume 9, .push, .push]

theorem SlotHistory.slots_of_steps_mixed :
    [1, 2, 0, 3, 4].Perm (List.range 5) ∧
    Emission.consume 2 (ofSteps mixedSteps).emission =
      .ok [3, 4] { (ofSteps mixedSteps).emission with slots := [0] } ∧
    Emission.consume 9 (ofSteps mixedSteps).emission =
      .error (.operandShortage 9 3) (ofSteps mixedSteps).emission := by
  obtain ⟨-, -, -, once, takes, fails⟩ := slots_of_steps mixedSteps
  refine ⟨once, ?_, (fails 9 _ _).mpr ⟨by decide, rfl, rfl⟩⟩
  obtain ⟨kept, taken, slots, length, consumed⟩ := takes 2 (by decide) (by decide)
  have cut : [0] ++ [3, 4] = kept ++ taken := slots
  obtain ⟨rfl, rfl⟩ := List.append_inj' cut (show 2 = taken.length by omega)
  exact consumed

end PolicyRules
