import Mathlib.Data.List.Chain
import PolicyRules.Proofs.DependencyPaths

/-!
# Cycles between foreign calls

The search for the dependencies of a text fails exactly if it has to: a path leads from a call that
the text names into a cycle of calls that need each other's results, or to a call that is not in the
table. The chain of calls that wait for each other is a path without repetition, so it cannot be
longer than the table, and where it meets itself it closes a cycle. A search that comes to its end
has put every call behind the calls that it is given, which no cycle allows.

Main statement: `dependencyOrder_fails_iff`.
-/

namespace PolicyRules

/-- Whether a call is given the result of another call. -/
def IsGiven (calls : List ForeignCall) (name other : Text) : Prop :=
  ∃ call value, Table.find? ForeignCall.name name calls = some call ∧ value ∈ call.values ∧
    valueReference value = callPrefix ++ other

/-- Whether a text needs a call: it names a call from which a path leads to that one. -/
def Reaches (calls : List ForeignCall) (source name : Text) : Prop :=
  ∃ root ∈ callNames source, Relation.ReflTransGen (IsGiven calls) root name

/-- Whether a list of names goes once around a cycle of calls that a text needs. The last name is
the first one again. -/
structure IsCycle (calls : List ForeignCall) (source : Text) (chain : List Text) : Prop where
  long : 2 ≤ chain.length
  closed : chain.head? = chain.getLast?
  distinct : chain.dropLast.Nodup
  linked : chain.IsChain (IsGiven calls)
  reached : ∀ name ∈ chain, Reaches calls source name

/-- Each call of a cycle is given its own result through the others. -/
theorem IsCycle.exists_transGen {calls : List ForeignCall} {source : Text} {chain : List Text}
    (h : IsCycle calls source chain) :
    ∃ name, Reaches calls source name ∧ Relation.TransGen (IsGiven calls) name name := by
  obtain ⟨long, closed, -, linked, reached⟩ := h
  cases chain with
  | nil => cases long
  | cons name rest =>
    refine ⟨name, reached name List.mem_cons_self, ?_⟩
    cases rest with
    | nil => exact absurd long (by simp)
    | cons next rest =>
      obtain ⟨given, later⟩ := List.isChain_cons_cons.mp linked
      have last : (next :: rest).getLast (List.cons_ne_nil _ _) = name := by
        rw [List.head?_cons, List.getLast?_cons_cons,
          List.getLast?_eq_getLast_of_ne_nil (List.cons_ne_nil _ _)] at closed
        exact (Option.some.inj closed).symm
      have path := List.relationReflTransGen_of_exists_isChain_cons rest later last
      exact .head' given path

/-- Whether a list of names is a path between calls that a text needs. -/
structure IsTrail (calls : List ForeignCall) (source : Text) (chain : List Text) : Prop where
  linked : chain.IsChain (IsGiven calls)
  reached : ∀ name ∈ chain, Reaches calls source name

/-- Why a search fails: it has gone around a cycle, or it has come to a call that is not in the
table. -/
inductive Thwarts (calls : List ForeignCall) (source : Text) : Error → Prop
  | cycle {chain : List Text} (h : IsCycle calls source chain) :
    Thwarts calls source (.cyclicCalls chain)
  | unknown {name : Text} (reached : Reaches calls source name)
    (missing : Table.find? ForeignCall.name name calls = none) :
    Thwarts calls source (.unknown (callPrefix ++ name) source)

section Failure

variable {calls : List ForeignCall} {source : Text} {chain : List Text} {name other : Text}

namespace IsTrail

theorem single (named : name ∈ callNames source) : IsTrail calls source [name] := by
  refine ⟨List.isChain_singleton name, ?_⟩
  intro x member
  rw [List.mem_singleton.mp member]
  exact ⟨name, named, .refl⟩

/-- A path goes on to what its last call is given. -/
theorem concat (h : IsTrail calls source (chain ++ [name])) (given : IsGiven calls name other) :
    IsTrail calls source (chain ++ [name] ++ [other]) := by
  constructor
  · apply List.isChain_append.mpr
    refine ⟨h.linked, List.isChain_singleton other, ?_⟩
    intro x last y first
    obtain rfl : name = x := by simpa using last
    obtain rfl : other = y := by simpa using first
    exact given
  · intro x member
    rcases List.mem_append.mp member with earlier | last
    · exact h.reached x earlier
    · rw [List.mem_singleton.mp last]
      obtain ⟨root, named, path⟩ := h.reached name (by simp)
      exact ⟨root, named, path.tail given⟩

/-- A path that comes back to one of its calls closes a cycle. -/
theorem isCycle (h : IsTrail calls source (chain ++ [name])) (distinct : chain.Nodup)
    (again : name ∈ chain) : IsCycle calls source (chain.dropWhile (· != name) ++ [name]) := by
  obtain ⟨before, behind, rfl, first⟩ := List.eq_append_cons_of_mem again
  have dropped : (before ++ name :: behind).dropWhile (· != name) = name :: behind := by
    have skipped : ∀ x ∈ before, (x != name) := by
      intro x member
      simpa using ne_of_mem_of_not_mem member first
    rw [List.dropWhile_append_of_pos skipped]
    simp
  have suffix : name :: behind ++ [name] <:+ before ++ name :: behind ++ [name] := ⟨before, by simp⟩
  rw [dropped]
  refine ⟨by simp, ?_, ?_, h.linked.suffix suffix,
    fun x member => h.reached x (suffix.subset member)⟩
  · rw [List.getLast?_concat]
    rfl
  · rw [List.dropLast_concat]
    exact distinct.of_append_right

end IsTrail

/-- Placing a call, or the values given to a call, fails only because of a cycle or an unknown call.
The calls that wait are a path without repetition. -/
theorem thwarts_place (calls : List ForeignCall) (source : Text) :
    (∀ chain order name, ∀ e, placeCall calls source chain order name = .error e → chain.Nodup →
      IsTrail calls source (chain ++ [name]) → Thwarts calls source e) ∧
    ∀ chain order values, ∀ e, placeValues calls source chain order values = .error e →
      chain.Nodup →
      (∀ value ∈ values, ∀ other, valueReference value = callPrefix ++ other →
        IsTrail calls source (chain ++ [other])) → Thwarts calls source e := by
  apply search_induction calls
  case waiting =>
    intro chain order name waits e h distinct trail
    rw [placeCall_of_waiting waits] at h
    cases h
    exact .cycle (trail.isCycle distinct waits)
  case placed =>
    intro chain order name fresh listed e h
    rw [placeCall_of_placed fresh listed] at h
    cases h
  case missing =>
    intro chain order name fresh unlisted unknown e h distinct trail
    rw [placeCall_of_missing fresh unlisted unknown] at h
    cases h
    exact .unknown (trail.reached name (by simp)) unknown
  case call =>
    intro chain order name c fresh unlisted found ih e h distinct trail
    rw [placeCall_of_found fresh unlisted found] at h
    have longer : (chain ++ [name]).Nodup := by
      apply List.nodup_append.mpr
      refine ⟨distinct, by simp, ?_⟩
      intro x member y last
      rw [List.mem_singleton.mp last]
      exact ne_of_mem_of_not_mem member fresh
    exact ih e (map_eq_error_iff.mp h) longer fun value given other isCall =>
      trail.concat ⟨c, value, found, given, isCall⟩
  case nil =>
    intro chain order e h
    rw [placeValues_nil] at h
    cases h
  case callValue =>
    intro chain order value values name isCall first later e h distinct trails
    rw [placeValues_call isCall] at h
    rcases bind_eq_error_iff.mp h with failed | ⟨order₁, -, failed⟩
    · exact first e failed distinct (trails value List.mem_cons_self name isCall)
    · exact later order₁ e failed distinct fun other member => trails other
        (List.mem_cons_of_mem _ member)
  case trackerValue =>
    intro chain order value values isTracker unlisted later e h distinct trails
    rw [placeValues_tracker isTracker unlisted] at h
    exact later e h distinct fun other member => trails other (List.mem_cons_of_mem _ member)
  case otherValue =>
    intro chain order value values noCall known later e h distinct trails
    rw [placeValues_other noCall known] at h
    exact later e h distinct fun other member => trails other (List.mem_cons_of_mem _ member)

/-- A search that fails has met a cycle or an unknown call. -/
theorem thwarts_of_dependencyOrder {e : Error} (h : dependencyOrder calls source = .error e) :
    Thwarts calls source e := by
  have run : ∀ (names start : List Text), (∀ name ∈ names, name ∈ callNames source) →
      names.foldlM (placeCall calls source []) start = .error e → Thwarts calls source e := by
    intro names
    induction names with
    | nil =>
      intro start _ h
      cases h
    | cons name names ih =>
      intro start named h
      rw [List.foldlM_cons] at h
      rcases bind_eq_error_iff.mp h with failed | ⟨middle, -, failed⟩
      · exact (thwarts_place calls source).1 [] start name e failed List.nodup_nil
          (.single (named name List.mem_cons_self))
      · exact ih middle (fun other member => named other (List.mem_cons_of_mem _ member)) failed
  exact run (callNames source) [] (fun _ member => member) h

end Failure

section Success

variable {calls : List ForeignCall} {source : Text} {order : List Text} {name other : Text}

/-- What a listed call is given is listed before it. -/
theorem idxOf_lt_of_isGiven (good : IsOrder calls order) (listed : callPrefix ++ name ∈ order)
    (given : IsGiven calls name other) :
    callPrefix ++ other ∈ order ∧ order.idxOf (callPrefix ++ other) <
      order.idxOf (callPrefix ++ name) := by
  obtain ⟨call, value, found, member, isCall⟩ := given
  obtain ⟨before, behind, rfl, first⟩ := List.eq_append_cons_of_mem listed
  have isReference : IsCallReference (valueReference value) := isCall ▸ isCallReference_append other
  have earlier : valueReference value ∈ before :=
    good.inOrder name call found before behind rfl value member (.inl isReference)
  rw [isCall] at earlier
  refine ⟨List.mem_append_left _ earlier, ?_⟩
  rw [List.idxOf_append_of_mem earlier, List.idxOf_append_of_notMem first, List.idxOf_cons_self]
  exact Nat.lt_of_lt_of_le (List.idxOf_lt_length_of_mem earlier) (Nat.le_add_right _ _)

/-- A path leads from a listed call to listed calls only, and to earlier places of the order. -/
theorem idxOf_lt_of_transGen (good : IsOrder calls order) (listed : callPrefix ++ name ∈ order)
    (path : Relation.TransGen (IsGiven calls) name other) :
    callPrefix ++ other ∈ order ∧ order.idxOf (callPrefix ++ other) <
      order.idxOf (callPrefix ++ name) := by
  induction path with
  | single given => exact idxOf_lt_of_isGiven good listed given
  | tail _ given ih =>
    obtain ⟨here, further⟩ := idxOf_lt_of_isGiven good ih.1 given
    exact ⟨here, Nat.lt_trans further ih.2⟩

/-- A search that comes to its end has listed every call that the text needs. -/
theorem mem_of_reaches (h : dependencyOrder calls source = .ok order)
    (reached : Reaches calls source name) : callPrefix ++ name ∈ order := by
  obtain ⟨good, named⟩ := dependencyOrder_isOrder h
  obtain ⟨root, member, path⟩ := reached
  rcases Relation.reflTransGen_iff_eq_or_transGen.mp path with rfl | path
  · exact named name member
  · exact (idxOf_lt_of_transGen good (named root member) path).1

end Success

/-- The search for the dependencies of a text fails exactly if the calls that the text needs have a
cycle among them or one of them is unknown. A chain that is reported goes once around such a cycle,
and a reference that is reported is that of such a call. -/
theorem dependencyOrder_fails_iff (calls : List ForeignCall) (source : Text) :
    ((∃ e, dependencyOrder calls source = .error e) ↔
      (∃ name, Reaches calls source name ∧ Relation.TransGen (IsGiven calls) name name) ∨
        ∃ name, Reaches calls source name ∧ Table.find? ForeignCall.name name calls = none) ∧
    ∀ e, dependencyOrder calls source = .error e →
      (∃ chain, e = .cyclicCalls chain ∧ IsCycle calls source chain) ∨
        ∃ name, e = .unknown (callPrefix ++ name) source ∧ Reaches calls source name ∧
          Table.find? ForeignCall.name name calls = none := by
  refine ⟨⟨?_, ?_⟩, ?_⟩
  · rintro ⟨e, failed⟩
    cases thwarts_of_dependencyOrder failed with
    | cycle isCycle =>
      obtain ⟨name, reached, path⟩ := isCycle.exists_transGen
      exact .inl ⟨name, reached, path⟩
    | unknown reached missing => exact .inr ⟨_, reached, missing⟩
  · intro thwarted
    cases h : dependencyOrder calls source with
    | error e => exact ⟨e, rfl⟩
    | ok order =>
      exfalso
      rcases thwarted with ⟨name, reached, path⟩ | ⟨name, reached, missing⟩
      · have further :=
          (idxOf_lt_of_transGen (dependencyOrder_isOrder h).1 (mem_of_reaches h reached) path).2
        exact Nat.lt_irrefl _ further
      · obtain ⟨call, found⟩ :=
          (searched_foldlM [] order h .nil).1.known name (mem_of_reaches h reached)
        rw [missing] at found
        cases found
  · intro e failed
    cases thwarts_of_dependencyOrder failed with
    | cycle isCycle => exact .inl ⟨_, rfl, isCycle⟩
    | unknown reached missing => exact .inr ⟨_, rfl, reached, missing⟩

/-- Two calls that need each other's results, a third one that needs the first, and one that needs
an unknown call. -/
def entangledCalls : List ForeignCall := [
  { name := "rate".toList, id := 1, values := ["x".toList, " FC:limit(x) ".toList] },
  { name := "limit".toList, id := 2, values := ["TR:cap".toList, "FC:rate".toList] },
  { name := "score".toList, id := 3, values := ["FC:rate".toList] },
  { name := "stale".toList, id := 4, values := ["FC:gone".toList] }]

/-- The chain begins where the cycle is entered, not at the call that the text names. -/
theorem dependencyOrder_fails_entangled :
    dependencyOrder entangledCalls "FC:score > 1".toList =
        .error (.cyclicCalls ["rate".toList, "limit".toList, "rate".toList]) ∧
      IsCycle entangledCalls "FC:score > 1".toList ["rate".toList, "limit".toList, "rate".toList] ∧
      dependencyOrder entangledCalls "FC:stale > 1".toList =
        .error (.unknown "FC:gone".toList "FC:stale > 1".toList) ∧
      Reaches entangledCalls "FC:stale > 1".toList "gone".toList := by
  have cyclic : dependencyOrder entangledCalls "FC:score > 1".toList =
      .error (.cyclicCalls ["rate".toList, "limit".toList, "rate".toList]) := by
    rw [dependencyOrder, show callNames "FC:score > 1".toList = ["score".toList] by decide +kernel]
    cbv
  have unknown : dependencyOrder entangledCalls "FC:stale > 1".toList =
      .error (.unknown "FC:gone".toList "FC:stale > 1".toList) := by
    rw [dependencyOrder, show callNames "FC:stale > 1".toList = ["stale".toList] by decide +kernel]
    cbv
  refine ⟨cyclic, ?_, unknown, ?_⟩
  · rcases (dependencyOrder_fails_iff _ _).2 _ cyclic with ⟨chain, same, isCycle⟩ |
      ⟨name, same, -, -⟩
    · cases same
      exact isCycle
    · cases same
  · rcases (dependencyOrder_fails_iff _ _).2 _ unknown with ⟨chain, same, -⟩ |
      ⟨name, same, reached, -⟩
    · cases same
    · obtain ⟨reference, -, -⟩ := Error.unknownReference.inj same
      have same : callPrefix ++ "gone".toList = callPrefix ++ name := reference
      rwa [List.append_cancel_left same]

end PolicyRules
