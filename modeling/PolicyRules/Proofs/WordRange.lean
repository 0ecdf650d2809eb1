import PolicyRules.Proofs.SharedEffects
import PolicyRules.Proofs.StringData
import PolicyRules.Proofs.Workspaces

/-!
# Integers in compiled rules

The numbers of conditions and of effects that are expressions are read by the leaf reader, which
refuses a number that does not fit into a word. The number that an event is emitted with is read on
its own and has no such bound.

Main statement: `Policy.integers_of_compiled`.
-/

namespace PolicyRules

/-- Whether an integer fits into a word. -/
def InWord (n : Int) : Prop := 0 ≤ n ∧ n ≤ maxWord

instance (n : Int) : Decidable (InWord n) := inferInstanceAs (Decidable (_ ∧ _))

/-- The integers in raw data. -/
def integers (data : List RawDatum) : List Int :=
  data.filterMap fun datum =>
    match datum.value with
    | .int n => some n
    | .text _ => none

/-- The integers that a compiled effect carries. -/
def Effect.integers : Effect → List Int
  | .event _ (some (.number n)) => [n]
  | .expression _ data => PolicyRules.integers data
  | _ => []

/-- Whether a text has a number in it that does not fit into a word, and no token runs together with
another. -/
def Text.HasLargeNumber (t : Text) : Prop :=
  t.Separable ∧ ∃ w ∈ t.tokens, IsNumber w ∧ maxWord < numeralValue w

section Expressions

variable {b : Bindings} {strict : Bool} {t w : Text} {e : Expr} {tokens : List Token}
  {data : List RawDatum}

theorem mem_integers_iff {n : Int} : n ∈ integers data ↔ ∃ datum ∈ data, datum.value = .int n := by
  rw [integers, List.mem_filterMap]
  refine exists_congr fun datum => and_congr_right fun _ => ?_
  cases datum.value <;> simp

/-- The values of raw data are those of literals. -/
theorem exists_literal_of_mem_rawDataFrom {position : Nat}
    (h : rawDataFrom strict position tokens = .ok data) {datum : RawDatum} (member : datum ∈ data) :
    ∃ l, .literal l ∈ tokens ∧ datum.value = l.value := by
  induction tokens generalizing position data with
  | nil =>
    cases h
    cases member
  | cons token rest ih =>
    cases token with
    | literal l =>
      rw [rawDataFrom] at h
      split at h
      · cases h
      · split at h
        · next more read =>
          cases h
          rcases List.mem_cons.mp member with rfl | later
          · exact ⟨l, by simp, rfl⟩
          · obtain ⟨l', listed, same⟩ := ih read later
            exact ⟨l', List.mem_cons_of_mem _ listed, same⟩
        · cases h
    | opcode op | operand n =>
      obtain ⟨l', listed, same⟩ := ih h member
      exact ⟨l', List.mem_cons_of_mem _ listed, same⟩

/-- The integers in the raw data of a text fit into words. -/
theorem inWord_of_rawData (converted : convertText b t = .ok tokens)
    (raw : rawData strict tokens = .ok data) : ∀ n ∈ integers data, InWord n := by
  obtain ⟨w, converted⟩ := Policy.convertText_eq_ok_iff.mp converted
  have known := Workspace.sound_empty.finished_of_convert converted
  intro n member
  obtain ⟨datum, listed, value⟩ := mem_integers_iff.mp member
  obtain ⟨l, inTokens, same⟩ := exists_literal_of_mem_rawDataFrom raw listed
  rw [value] at same
  cases known _ inTokens with
  | written written =>
    cases written with
    | word value' nonneg fits =>
      obtain rfl := Value.int.inj (same.trans value')
      exact ⟨nonneg, fits⟩
    | quoted h => cases same
  | unbound name => cases same

/-- A number among the tokens of an expression fits into a word. -/
theorem IsToken.fits (h : IsToken w) (number : IsNumber w) : (numeralValue w : Int) ≤ maxWord := by
  obtain ⟨c, cs, same, digit⟩ := number.head
  cases h with
  | name h =>
    obtain ⟨d, ds, same', start⟩ := h.head
    obtain rfl : c = d := (List.cons.inj (same.symm.trans same')).1
    rw [isNameStart_eq_false_of_isDigit digit] at start
    cases start
  | number h fits => exact fits
  | string h =>
    obtain ⟨d, ds, same', -, other⟩ := h.head
    obtain rfl : c = d := (List.cons.inj (same.symm.trans same')).1
    rw [digit] at other
    cases other
  | operator op | update op => cases op <;> cases same <;> cases digit
  | keyword k => cases k <;> cases same <;> cases digit

/-- A text with a number that does not fit into a word is not converted. -/
theorem convertText_ne_ok_of_hasLargeNumber (large : t.HasLargeNumber) :
    convertText b t ≠ .ok tokens := by
  intro converted
  obtain ⟨separable, w, listed, number, exceeds⟩ := large
  obtain ⟨w', converted⟩ := Policy.convertText_eq_ok_iff.mp converted
  obtain ⟨tree, s, e, built, -, -⟩ := Workspace.convert_eq_ok converted
  have sound := (SetAside.sound_build t Workspace.sound_empty.setAside).2.2 tree s built
  rw [← SetAside.tokens_build separable built] at listed
  exact absurd ((sound.tokenised w listed).fits number) (Int.not_le.mpr exceeds)

end Expressions

section Effects

variable {b : Bindings} {strict : Bool} {t : Text} {effect : Effect}

/-- A text of digits is not read as a negative number. -/
theorem nonneg_of_read_of_digits {n : Int} (digits : t.all isDigitChar)
    (read : Radix.decimal.read t = .ok n) : 0 ≤ n := by
  have unsigned : Radix.signed t = (1, t) := by
    unfold Radix.signed
    split
    · exact absurd (List.all_eq_true.mp digits '+' (by simp)) (by decide)
    · exact absurd (List.all_eq_true.mp digits '-' (by simp)) (by decide)
    · rfl
  simp only [Radix.read, unsigned] at read
  split at read
  · cases read
  · split at read
    · cases read
    · split at read
      · obtain rfl := Except.ok.inj read
        simp
      · cases read

/-- The integers of an effect: those of an expression fit into words, and that of an event is the
number that is written behind the name of the event. -/
structure Effect.Carries (t : Text) (effect : Effect) : Prop where
  expression : Effect.IsExpression t → ∀ n ∈ effect.integers, InWord n
  event : ∀ body, Effect.eventBody? t = some body →
    ∀ n ∈ effect.integers, 0 ≤ n ∧ Radix.decimal.read (Text.strip (Text.after ',' body)) = .ok n

theorem Parameter.read_of_ofText {n : Int} (h : Parameter.ofText b t = .ok (.number n)) :
    0 ≤ n ∧ Radix.decimal.read t = .ok n := by
  unfold Parameter.ofText at h
  split at h
  · simp only [bind_eq_ok_iff, pure_eq_ok_iff] at h
    obtain ⟨place, -, same⟩ := h
    cases same
  · split at h
    · cases h
    · split at h
      · next digits =>
        split at h
        · next n' read =>
          cases h
          exact ⟨nonneg_of_read_of_digits digits read, read⟩
        · cases h
      · cases h

theorem Effect.carries_of_ofText (h : Effect.ofText b strict t = .ok effect) :
    effect.Carries t := by
  refine ⟨fun isExpression n member => ?_, fun body event n member => ?_⟩
  · rw [ofText_of_isExpression isExpression, ofExpression] at h
    simp only [bind_eq_ok_iff, pure_eq_ok_iff] at h
    obtain ⟨tokens, converted, data, raw, rfl⟩ := h
    exact inWord_of_rawData converted raw n member
  · rw [ofText_of_event event, ofEvent_eq_ok_iff] at h
    obtain ⟨-, ⟨-, rfl⟩ | ⟨-, parameter, given, rfl⟩⟩ := h
    · cases member
    · cases parameter with
      | number m =>
        obtain rfl := List.mem_singleton.mp member
        exact Parameter.read_of_ofText given
      | _ => cases member

end Effects

namespace Policy

variable {p : Policy} {sources : List Text} {shared : Effects}

theorem carries_of_compileEffects (h : p.compileEffects sources = .ok shared) :
    List.Forall₂ (fun source effect => effect.Carries (p.normalize source)) sources
      shared.effects := by
  obtain ⟨extracts, processed, -, compiled⟩ := compileEffects_eq_ok_iff.mp h
  refine forall₂_of_mapM_eq_ok processed compiled fun source _ extracted _ effect own given => ?_
  obtain ⟨order, -, f, rfl⟩ := process_eq_ok_iff.mp own
  exact Effect.carries_of_ofText given

theorem compileEffects_ne_ok_of_hasLargeNumber {source : Text} (member : source ∈ sources)
    (isExpression : Effect.IsExpression (p.normalize source))
    (large : (Text.strip (p.normalize source)).HasLargeNumber) :
    p.compileEffects sources ≠ .ok shared := by
  intro h
  obtain ⟨extracts, processed, -, compiled⟩ := compileEffects_eq_ok_iff.mp h
  obtain ⟨extracted, listed, own⟩ := exists_of_mapM_eq_ok processed member
  obtain ⟨effect, -, given⟩ := exists_of_mapM_eq_ok compiled listed
  obtain ⟨order, -, f, rfl⟩ := process_eq_ok_iff.mp own
  rw [Effect.ofText_of_isExpression isExpression, Effect.ofExpression] at given
  obtain ⟨tokens, converted, -⟩ := bind_eq_ok_iff.mp given
  exact convertText_ne_ok_of_hasLargeNumber large converted

theorem compileRule_eq_ok_iff {rule : RuleText} {r : Rule} : p.compileRule rule = .ok r ↔
    p.compileCondition rule.condition = .ok r.condition ∧
    p.compileEffects rule.positive = .ok r.positive ∧
      p.compileEffects rule.negative = .ok r.negative := by
  simp only [compileRule, bind_eq_ok_iff, pure_eq_ok_iff]
  constructor
  · rintro ⟨condition, compiled, positive, compiled', negative, compiled'', rfl⟩
    exact ⟨compiled, compiled', compiled''⟩
  · rintro ⟨compiled, compiled', compiled''⟩
    exact ⟨_, compiled, _, compiled', _, compiled'', rfl⟩

/-- Every integer in the condition of a compiled rule and in its effects that are expressions fits
into a word, and the integer that an event is emitted with is the number written in the effect. A
larger number in the condition or in an effect that is an expression is refused. -/
theorem integers_of_compiled (p : Policy) (rule : RuleText) :
    (∀ r, p.compileRule rule = .ok r →
      (∀ n ∈ integers r.condition.data, InWord n) ∧
      List.Forall₂ (fun source effect => effect.Carries (p.normalize source))
        rule.positive r.positive.effects ∧
      List.Forall₂ (fun source effect => effect.Carries (p.normalize source))
        rule.negative r.negative.effects) ∧
    ((p.normalize rule.condition).HasLargeNumber ∨
      (∃ source ∈ rule.positive ++ rule.negative, Effect.IsExpression (p.normalize source) ∧
        (Text.strip (p.normalize source)).HasLargeNumber) →
      ∃ e, p.compileRule rule = .error e) := by
  constructor
  · intro r compiled
    obtain ⟨condition, positive, negative⟩ := compileRule_eq_ok_iff.mp compiled
    refine ⟨?_, carries_of_compileEffects positive, carries_of_compileEffects negative⟩
    simp only [compileCondition, bind_eq_ok_iff, pure_eq_ok_iff] at condition
    obtain ⟨e, -, placeholders, -, tokens, converted, data, raw, same⟩ := condition
    rw [← same]
    exact inWord_of_rawData converted raw
  · intro large
    cases compiled : p.compileRule rule with
    | error e => exact ⟨e, rfl⟩
    | ok r =>
      obtain ⟨condition, positive, negative⟩ := compileRule_eq_ok_iff.mp compiled
      exfalso
      rcases large with large | ⟨source, member, isExpression, large⟩
      · simp only [compileCondition, bind_eq_ok_iff] at condition
        obtain ⟨e, processed, placeholders, -, tokens, converted, -⟩ := condition
        obtain ⟨order, -, f, rfl⟩ := process_eq_ok_iff.mp processed
        exact convertText_ne_ok_of_hasLargeNumber large converted
      · rcases List.mem_append.mp member with first | second
        · exact compileEffects_ne_ok_of_hasLargeNumber first isExpression large positive
        · exact compileEffects_ne_ok_of_hasLargeNumber second isExpression large negative

/-- The first number that does not fit into a word. -/
def pastWord : Text :=
  "115792089237316195423570985008687907853269984665640564039457584007913129639936".toList

/-- An effect that emits an event with a number past a word. -/
def largeEvent : Text := "emit paid, ".toList ++ pastWord

/-- A condition that compares an argument with a number past a word. -/
def largeCondition : Text := "value > (1 + ".toList ++ pastWord ++ [')']

theorem integers_of_compiled_large : let rule : RuleText :=
  ⟨"value > 0x1F".toList, [largeEvent], ["TRU:limit += [2 * value]".toList]⟩
    (∃ r, payments.compileRule rule = .ok r ∧ integers r.condition.data = [31] ∧
      r.positive.effects.map Effect.integers = [[maxWord + 1]] ∧
      r.negative.effects.map Effect.integers = [[2]] ∧
      (∀ n ∈ integers r.condition.data, InWord n) ∧
      List.Forall₂ (fun source effect => effect.Carries (payments.normalize source)) rule.positive
        r.positive.effects ∧
      List.Forall₂ (fun source effect => effect.Carries (payments.normalize source)) rule.negative
        r.negative.effects) ∧
    (payments.normalize largeCondition).HasLargeNumber ∧
      ∃ e, payments.compileRule { condition := largeCondition } = .error e := by
  intro rule
  constructor
  · have compiled : (payments.compileRule rule).toOption.map (fun r => (integers r.condition.data,
        r.positive.effects.map Effect.integers, r.negative.effects.map Effect.integers)) =
          some ([31], [[maxWord + 1]], [[2]]) := by
      simp only [compileRule, compileCondition, compileEffects, rule, List.mapM_cons, process,
        dependencyOrder_of_callNames_eq_nil (show callNames "value > 0x1F".toList =
          [] by decide +kernel),
        dependencyOrder_of_callNames_eq_nil (show callNames largeEvent = [] by decide +kernel),
        dependencyOrder_of_callNames_eq_nil
          (show callNames "TRU:limit += [2 * value]".toList = [] by decide +kernel)]
      decide +kernel
    obtain ⟨r, accepted, same⟩ := map_toOption_eq_some_iff.mp compiled
    simp only [Prod.mk.injEq] at same
    obtain ⟨condition, positive, negative⟩ := same
    exact ⟨r, accepted, condition, positive, negative,
      (integers_of_compiled payments rule).1 r accepted⟩
  · have separable : largeCondition.Separable := by
      refine ⟨⟨fun kind => ?_, by decide +kernel⟩, by decide +kernel, by decide +kernel⟩
      cases kind <;> decide +kernel
    have large : (payments.normalize largeCondition).HasLargeNumber := by
      rw [show payments.normalize largeCondition = largeCondition by decide +kernel]
      exact ⟨separable, pastWord, by decide +kernel, .decimal (by decide) (List.all_eq_true.mp
        (by decide +kernel)), by decide +kernel⟩
    exact ⟨large, (integers_of_compiled payments { condition := largeCondition }).2 (.inl large)⟩

end Policy

end PolicyRules
