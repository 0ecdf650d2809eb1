import PolicyRules.Policy
import PolicyRules.Proofs.DependencyOrder
import Mathlib.Data.List.ReduceOption

/-!
# Where the values of a call come from

The values that a call is given are read twice: for the calls and trackers they name, when the order
of dependencies is made, and for their sources, when the call is encoded. The first reading stops at
a parenthesis and the second does not. So both agree on a value that is a bare reference, whatever
blanks stand around it, and a value that gives arguments to the call it names has no source.

Main statement: `Policy.callSources_of_dependsOn`.
-/

namespace PolicyRules

/-- Whether a value depends on a call or a tracker of the tables, and the code and the id by which
that call or tracker is a source. -/
inductive Tables.DependsOn (tables : Tables) (value : Text) : Nat → Int → Prop where
  | call {name : Text} {call : ForeignCall} (reference : valueReference value = callPrefix ++ name)
      (found : tables.call? name = some call) : tables.DependsOn value 1 call.id
  | tracker {name : Text} {tracker : Tracker}
      (reference : valueReference value = trackerPrefix ++ name)
      (found : tables.tracker? name = some tracker) :
      tables.DependsOn value (if tracker.type = .string then 4 else 2) tracker.id

/-- Whether no call and no tracker has a parenthesis in its name. -/
structure Tables.PlainNames (tables : Tables) : Prop where
  calls : ∀ call ∈ tables.calls, '(' ∉ call.name
  trackers : ∀ tracker ∈ tables.trackers, '(' ∉ tracker.name

/-! ### References in tables -/

section Table

variable {α β : Type}

/-- Values made from the entries of a table are found as the entries are. -/
theorem Table.value?_map (name : α → Text) (make : α → β) (key : Text) (entries : List α) :
    Table.value? key (entries.map fun a => (name a, make a)) =
      (Table.find? name key entries).map make := by
  simp [Table.value?, Table.find?, ← List.map_reverse, List.find?_map, Function.comp_def]

/-- An entry is found by its reference as by its name. -/
theorem Table.find?_append_name (start : Text) (name : α → Text) (key : Text) (entries : List α) :
    Table.find? (fun a => start ++ name a) (start ++ key) entries =
      Table.find? name key entries := by
  simp [Table.find?, Bool.beq_eq_decide_eq]

end Table

/-! ### Parentheses in values -/

theorem mem_strip_iff_of_not_isBlank {c : Char} (visible : isBlank c = false) (t : Text) :
    c ∈ Text.strip t ↔ c ∈ t := by
  obtain ⟨before, behind, same, blank, blank'⟩ := Text.exists_append_strip t
  constructor
  · intro member
    rw [same]
    simp [member]
  · intro member
    rw [same, List.mem_append, List.mem_append] at member
    rcases member with member | member | member
    · simp [blank c member] at visible
    · exact member
    · simp [blank' c member] at visible

/-- A value without a parenthesis is its own reference. -/
theorem valueReference_of_not_mem {value : Text} (bare : '(' ∉ value) :
    valueReference value = Text.strip value := by
  rw [← mem_strip_iff_of_not_isBlank (by decide)] at bare
  rw [valueReference, Text.before, List.takeWhile_eq_self_iff]
  intro c member
  simpa using ne_of_mem_of_not_mem member bare

theorem isPrefix_of_valueReference {start value name : Text}
    (h : valueReference value = start ++ name) : start <+: Text.strip value :=
  (List.prefix_append start name).trans (h ▸ List.takeWhile_prefix _)

/-- No name without parentheses is found by a reference with arguments. -/
theorem Table.find?_eq_none_of_mem {α : Type} {start : Text} {name : α → Text} {entries : List α}
    {key : Text} (open_mem : '(' ∈ key) (start_bare : '(' ∉ start)
    (bare : ∀ a ∈ entries, '(' ∉ name a) :
    Table.find? (fun a => start ++ name a) key entries = none := by
  rw [Table.find?, List.find?_eq_none]
  intro a member same
  rw [beq_iff_eq] at same
  rw [← same, List.mem_append] at open_mem
  exact open_mem.elim start_bare (bare a (List.mem_reverse.mp member))

/-! ### The source of a value -/

namespace ValueSource

variable {arguments : List Component} {trackers : List Tracker} {calls : List ForeignCall}
  {value : Text}

theorem of?_call (h : callPrefix <+: Text.strip value) : of? arguments trackers calls value =
    (Table.find? ForeignCall.reference (Text.strip value) calls).map fun call =>
      ⟨.foreignCall, call.id⟩ := by
  rw [of?]
  exact if_pos (Text.startsWith_iff_isPrefix.mpr h)

theorem of?_tracker (h : trackerPrefix <+: Text.strip value) : of? arguments trackers calls value =
    (Table.find? Tracker.reference (Text.strip value) trackers).map fun tracker =>
      ⟨if tracker.type = .string then .placeholderTracker else .tracker, tracker.id⟩ := by
  have other : ¬ Text.startsWith callPrefix (Text.strip value) := by
    rw [Text.startsWith_iff_isPrefix]
    exact IsTrackerReference.not_call h
  rw [of?]
  exact (if_neg other).trans (if_pos (Text.startsWith_iff_isPrefix.mpr h))

end ValueSource

namespace Tables.DependsOn

variable {tables : Tables} {value : Text} {code : Nat} {id : Int}

/-- A bare value that depends on a call or a tracker has it as its source. -/
theorem exists_source (h : tables.DependsOn value code id) (bare : '(' ∉ value) :
    ∃ source, ValueSource.of? tables.arguments tables.trackers tables.calls value = some source ∧
      source.kind.code = code ∧ source.index = id := by
  cases h with
  | @call name call reference found =>
    refine ⟨⟨.foreignCall, call.id⟩, ?_, rfl, rfl⟩
    rw [ValueSource.of?_call (isPrefix_of_valueReference reference),
      ← valueReference_of_not_mem bare, reference]
    exact congrArg _ ((Table.find?_append_name ..).trans found)
  | @tracker name tracker reference found =>
    refine ⟨⟨if tracker.type = .string then .placeholderTracker else .tracker, tracker.id⟩,
      ?_, ?_, rfl⟩
    · rw [ValueSource.of?_tracker (isPrefix_of_valueReference reference),
        ← valueReference_of_not_mem bare, reference]
      exact congrArg _ ((Table.find?_append_name ..).trans found)
    · by_cases string : tracker.type = .string <;> simp [string, SourceKind.code]

/-- A value with arguments has no source, although it depends on a call or a tracker. -/
theorem source_eq_none (h : tables.DependsOn value code id) (open_mem : '(' ∈ value)
    (plain : tables.PlainNames) :
    ValueSource.of? tables.arguments tables.trackers tables.calls value = none := by
  have open_mem := (mem_strip_iff_of_not_isBlank (c := '(') (by decide) value).mpr open_mem
  cases h with
  | call reference found =>
    rw [ValueSource.of?_call (isPrefix_of_valueReference reference)]
    exact Option.map_eq_none_iff.mpr (Table.find?_eq_none_of_mem open_mem (by decide) plain.calls)
  | tracker reference found =>
    rw [ValueSource.of?_tracker (isPrefix_of_valueReference reference)]
    exact Option.map_eq_none_iff.mpr
      (Table.find?_eq_none_of_mem open_mem (by decide) plain.trackers)

end Tables.DependsOn

/-! ### The sources of a call -/

theorem Policy.value?_callSources (p : Policy) (name : Text) :
    Table.value? name p.callSources = (p.call? name).map fun call =>
      ⟨call.sources p.arguments p.trackers p.calls,
        call.keySources p.arguments p.trackers p.calls⟩ :=
  Table.value?_map ..

/-- The encoded values of a call are, in the order in which the call is given them, the sources that
its values have. Of the values that depend on a call or a tracker of the tables, the bare references
have it as their source, and those with arguments are left out. -/
theorem Policy.callSources_of_dependsOn {p : Policy} {name : Text} {call : ForeignCall}
    (found : p.call? name = some call) :
    ∃ slots : List (Option ValueSource),
      (Table.value? name p.callSources).map CallSources.values = some slots.reduceOption ∧
      List.Forall₂ (fun value slot => ∀ code id, p.DependsOn value code id →
        ('(' ∉ value →
          ∃ source, slot = some source ∧ source.kind.code = code ∧ source.index = id) ∧
        ('(' ∈ value → p.PlainNames → slot = none)) call.values slots := by
  refine ⟨call.values.map (ValueSource.of? p.arguments p.trackers p.calls), ?_, ?_⟩
  · rw [p.value?_callSources, found]
    simp [ForeignCall.sources, List.reduceOption, List.filterMap_map]
  · rw [List.forall₂_map_right_iff, List.forall₂_same]
    intro value _ code id depends
    exact ⟨depends.exists_source, depends.source_eq_none⟩

/-- A policy with a call that is given a call with arguments, a string tracker and a bare call. -/
def nestedCalls : Policy where
  trackers := [⟨['t'], 7, .string⟩]
  calls :=
    [{ name := ['f'], id := 1, values := ["FC:g(x)".toList, " TR:t".toList, "FC:g ".toList] },
      { name := ['g'], id := 2 }]

theorem Policy.callSources_of_dependsOn_nestedCalls :
    nestedCalls.DependsOn "FC:g(x)".toList 1 2 ∧ nestedCalls.DependsOn " TR:t".toList 4 7 ∧
      nestedCalls.DependsOn "FC:g ".toList 1 2 ∧
      ∃ first second third : Option ValueSource,
        (Table.value? ['f'] nestedCalls.callSources).map CallSources.values =
          some [first, second, third].reduceOption ∧
        first = none ∧
        (∃ source, second = some source ∧ source.kind.code = 4 ∧ source.index = 7) ∧
        ∃ source, third = some source ∧ source.kind.code = 1 ∧ source.index = 2 := by
  have call : nestedCalls.DependsOn "FC:g(x)".toList 1 2 :=
    @Tables.DependsOn.call _ _ ['g'] { name := ['g'], id := 2 } (by decide) rfl
  have tracker : nestedCalls.DependsOn " TR:t".toList 4 7 :=
    @Tables.DependsOn.tracker _ _ ['t'] ⟨['t'], 7, .string⟩ (by decide) rfl
  have bare : nestedCalls.DependsOn "FC:g ".toList 1 2 :=
    @Tables.DependsOn.call _ _ ['g'] { name := ['g'], id := 2 } (by decide) rfl
  refine ⟨call, tracker, bare, ?_⟩
  obtain ⟨slots, same, aligned⟩ := Policy.callSources_of_dependsOn
    (show nestedCalls.call? ['f'] = some (nestedCalls.calls.head (by decide)) from rfl)
  obtain ⟨first, rest, ofFirst, others, rfl⟩ := List.forall₂_cons_left_iff.mp aligned
  obtain ⟨second, rest, ofSecond, others', rfl⟩ := List.forall₂_cons_left_iff.mp others
  obtain ⟨third, rest, ofThird, ended, rfl⟩ := List.forall₂_cons_left_iff.mp others'
  obtain rfl := List.forall₂_nil_left_iff.mp ended
  exact ⟨first, second, third, same, (ofFirst 1 2 call).2 (by decide) ⟨by decide, by decide⟩,
    (ofSecond 4 7 tracker).1 (by decide), (ofThird 1 2 bare).1 (by decide)⟩

end PolicyRules
