import Mathlib.Data.List.Permutation
import Mathlib.Logic.Relation
import PolicyRules.Proofs.DependencyOrder

/-!
# Paths between dependencies

The order of a text's dependencies is a search along the values that calls are given. It has exactly
the references that a path leads to from a call that the text names, each of them once, and every
call stands behind what it is given.

The search keeps the chain of calls that wait for each other. A call that waits is not in the order
yet, and it cannot be met again without a cycle, so it is listed only once.

Main statement: `dependencyOrder_topological`.
-/

namespace PolicyRules

/-- Whether a reference is that of a call which is given the other reference. -/
def Needs (calls : List ForeignCall) (reference needed : Text) : Prop :=
  ∃ name call value, reference = callPrefix ++ name ∧ Table.find? ForeignCall.name name calls =
    some call ∧
    value ∈ call.values ∧ needed = valueReference value ∧
    (IsCallReference needed ∨ IsTrackerReference needed)

/-- Whether a path leads from one reference to another along what calls are given. -/
def Leads (calls : List ForeignCall) : Text → Text → Prop := Relation.ReflTransGen (Needs calls)

/-- The state of the search: nothing is listed twice, no call that waits is listed, and each listed
call is known. -/
structure Searched (calls : List ForeignCall) (chain order : List Text) : Prop where
  nodup : order.Nodup
  waiting : ∀ name ∈ chain, callPrefix ++ name ∉ order
  known : ∀ name, callPrefix ++ name ∈ order →
    ∃ call, Table.find? ForeignCall.name name calls = some call

namespace Searched

variable {calls : List ForeignCall} {chain order : List Text} {name x : Text} {c : ForeignCall}

theorem nil : Searched calls [] [] := ⟨List.nodup_nil, by simp, by simp⟩

theorem wait (h : Searched calls chain order) (unlisted : callPrefix ++ name ∉ order) :
    Searched calls (chain ++ [name]) order := by
  refine ⟨h.nodup, ?_, h.known⟩
  intro other member
  rcases List.mem_append.mp member with earlier | last
  · exact h.waiting other earlier
  · exact List.mem_singleton.mp last ▸ unlisted

theorem concat (h : Searched calls chain order) (unlisted : x ∉ order)
    (apart : ∀ name ∈ chain, callPrefix ++ name ≠ x)
    (known : ∀ name, callPrefix ++ name = x → ∃ call, Table.find? ForeignCall.name name calls =
      some call) : Searched calls chain (order ++ [x]) := by
  have distinct : ∀ y ∈ order, ∀ z ∈ [x], y ≠ z := by
    intro y member z same
    exact List.mem_singleton.mp same ▸ ne_of_mem_of_not_mem member unlisted
  refine ⟨List.nodup_append.mpr ⟨h.nodup, by simp, distinct⟩, ?_, ?_⟩
  · intro name waits listed
    rcases List.mem_append.mp listed with earlier | last
    · exact h.waiting name waits earlier
    · exact apart name waits (List.mem_singleton.mp last)
  · intro name listed
    rcases List.mem_append.mp listed with earlier | last
    · exact h.known name earlier
    · exact known name (List.mem_singleton.mp last)

/-- A call that has waited is listed behind all that it is given. -/
theorem call (h : Searched calls (chain ++ [name]) order) (fresh : name ∉ chain)
    (found : Table.find? ForeignCall.name name calls = some c) :
    Searched calls chain (order ++ [callPrefix ++ name]) := by
  have kept : Searched calls chain order :=
    ⟨h.nodup, fun other waits => h.waiting other (List.mem_append_left _ waits), h.known⟩
  apply kept.concat (h.waiting name (by simp))
  · intro other waits same
    exact fresh (List.append_cancel_left same ▸ waits)
  · intro other same
    exact ⟨c, List.append_cancel_left same ▸ found⟩

theorem tracker (h : Searched calls chain order) (isTracker : IsTrackerReference x)
    (unlisted : x ∉ order) : Searched calls chain (order ++ [x]) := by
  have noCall : ∀ name, callPrefix ++ name ≠ x := fun name same =>
    isTracker.not_call (same ▸ isCallReference_append name)
  exact h.concat unlisted (fun name _ => noCall name) fun name same => absurd same (noCall name)

end Searched

/-- Placing keeps the state of the search. -/
theorem searched_place (calls : List ForeignCall) (source : Text) :
    (∀ chain order name, ∀ order', placeCall calls source chain order name = .ok order' →
      Searched calls chain order → Searched calls chain order') ∧
    ∀ chain order values, ∀ order', placeValues calls source chain order values = .ok order' →
      Searched calls chain order → Searched calls chain order' := by
  apply place_induction
  case placed => exact fun chain order name _ _ h => h
  case call =>
    intro chain order name c order' fresh unlisted found supplied h
    exact (supplied (h.wait unlisted)).call fresh found
  case nil => exact fun chain order h => h
  case callValue =>
    exact fun chain order value values name order₁ order' _ first later h => later (first h)
  case trackerValue =>
    intro chain order value values order' isTracker unlisted later h
    exact later (h.tracker isTracker unlisted)
  case otherValue => exact fun chain order value values order' _ _ later h => later h

/-- A path leads to each reference that placing adds to the order. -/
theorem leads_place (calls : List ForeignCall) (source : Text) :
    (∀ chain order name, ∀ order', placeCall calls source chain order name = .ok order' →
      ∀ x ∈ order', x ∈ order ∨ Leads calls (callPrefix ++ name) x) ∧
    ∀ chain order values, ∀ order', placeValues calls source chain order values = .ok order' →
      ∀ x ∈ order', x ∈ order ∨ ∃ value ∈ values, (IsCallReference (valueReference value) ∨
        IsTrackerReference (valueReference value)) ∧ Leads calls (valueReference value) x := by
  apply place_induction
  case placed => exact fun chain order name _ _ x listed => .inl listed
  case call =>
    intro chain order name c order' _ _ found supplied x listed
    rcases List.mem_append.mp listed with earlier | last
    · rcases supplied x earlier with old | ⟨value, given, isReference, path⟩
      · exact .inl old
      · exact .inr (path.head ⟨name, c, value, rfl, found, given, rfl, isReference⟩)
    · rw [List.mem_singleton.mp last]
      exact .inr .refl
  case nil => exact fun chain order x listed => .inl listed
  case callValue =>
    intro chain order value values name order₁ order' isCall first later x listed
    rcases later x listed with early | ⟨other, given, isReference, path⟩
    · rcases first x early with old | path
      · exact .inl old
      · have isReference : IsCallReference (valueReference value) :=
          isCall ▸ isCallReference_append name
        exact .inr ⟨value, List.mem_cons_self, .inl isReference, isCall ▸ path⟩
    · exact .inr ⟨other, List.mem_cons_of_mem _ given, isReference, path⟩
  case trackerValue =>
    intro chain order value values order' isTracker _ later x listed
    rcases later x listed with early | ⟨other, given, isReference, path⟩
    · rcases List.mem_append.mp early with old | new
      · exact .inl old
      · rw [List.mem_singleton.mp new]
        exact .inr ⟨value, List.mem_cons_self, .inr isTracker, .refl⟩
    · exact .inr ⟨other, List.mem_cons_of_mem _ given, isReference, path⟩
  case otherValue =>
    intro chain order value values order' _ _ later x listed
    rcases later x listed with old | ⟨other, given, isReference, path⟩
    · exact .inl old
    · exact .inr ⟨other, List.mem_cons_of_mem _ given, isReference, path⟩

/-- Placing the calls of a list, one after the other, adds nothing but what paths lead to from
them. -/
theorem searched_foldlM {calls : List ForeignCall} {source : Text} {names : List Text} :
    ∀ start order, names.foldlM (placeCall calls source []) start = .ok order →
      Searched calls [] start →
      Searched calls [] order ∧
        ∀ x ∈ order, x ∈ start ∨ ∃ name ∈ names, Leads calls (callPrefix ++ name) x := by
  induction names with
  | nil =>
    intro start order h searched
    cases h
    exact ⟨searched, fun x listed => .inl listed⟩
  | cons name names ih =>
    intro start order h searched
    obtain ⟨middle, first, rest⟩ := bind_eq_ok_iff.mp h
    have kept := (searched_place calls source).1 _ _ _ _ first searched
    obtain ⟨searched', paths⟩ := ih middle order rest kept
    refine ⟨searched', ?_⟩
    intro x listed
    rcases paths x listed with early | ⟨other, member, path⟩
    · rcases (leads_place calls source).1 _ _ _ _ first x early with old | path
      · exact .inl old
      · exact .inr ⟨name, List.mem_cons_self, path⟩
    · exact .inr ⟨other, List.mem_cons_of_mem _ member, path⟩

/-- The order of a text's dependencies lists nothing twice. It has every call that the text names,
and a path leads from one of these to everything that it has. Each call in it is known, and each
call or tracker that it is given stands at an earlier place. -/
theorem dependencyOrder_topological {calls : List ForeignCall} {source : Text} {order : List Text}
    (h : dependencyOrder calls source = .ok order) :
    order.Nodup ∧ (∀ name ∈ callNames source, callPrefix ++ name ∈ order) ∧
      (∀ (i : Nat) (name : Text), order[i]? = some (callPrefix ++ name) →
        ∃ call, Table.find? ForeignCall.name name calls = some call ∧
          ∀ value ∈ call.values,
            IsCallReference (valueReference value) ∨ IsTrackerReference (valueReference value) →
              ∃ j < i, order[j]? = some (valueReference value)) ∧
      ∀ x ∈ order, ∃ name ∈ callNames source, Leads calls (callPrefix ++ name) x := by
  obtain ⟨good, named⟩ := dependencyOrder_isOrder h
  obtain ⟨searched, paths⟩ := searched_foldlM [] order h .nil
  refine ⟨searched.nodup, named, ?_, ?_⟩
  · intro i name here
    obtain ⟨call, found⟩ := searched.known name (List.mem_of_getElem? here)
    refine ⟨call, found, ?_⟩
    intro value given isReference
    obtain ⟨below, same⟩ := List.getElem?_eq_some_iff.mp here
    have cut : order = order.take i ++ (callPrefix ++ name) :: order.drop (i + 1) := by
      rw [← same, List.getElem_cons_drop, List.take_append_drop]
    have earlier : valueReference value ∈ order.take i :=
      good.inOrder name call found _ _ cut value given isReference
    obtain ⟨j, place⟩ := List.mem_iff_getElem?.mp earlier
    rw [List.getElem?_take, Option.ite_none_right_eq_some] at place
    exact ⟨j, place⟩
  · intro x listed
    exact (paths x listed).resolve_left (by simp)

/-- Four calls, of which two share what they are given, and a tracker that is given twice. -/
def sharedCalls : List ForeignCall := [
  { name := "top".toList, id := 1, values := [" FC:left(x) ".toList, "FC:right".toList] },
  { name := "left".toList, id := 2, values := ["FC:base".toList, "TR:limit".toList] },
  { name := "right".toList, id := 3, values := ["TR:limit".toList, "FC:base".toList, "x".toList] },
  { name := "base".toList, id := 4 }]

theorem dependencyOrder_topological_shared : ∃ order,
    order = ["FC:base".toList, "TR:limit".toList, "FC:left".toList, "FC:right".toList,
      "FC:top".toList] ∧
      dependencyOrder sharedCalls "FC:top(x) > FC:right".toList = .ok order ∧ order.Nodup ∧
      (∀ name ∈ callNames "FC:top(x) > FC:right".toList, callPrefix ++ name ∈ order) ∧
      (∃ call, Table.find? ForeignCall.name "top".toList sharedCalls = some call ∧
        ∀ value ∈ call.values,
          IsCallReference (valueReference value) ∨ IsTrackerReference (valueReference value) →
            ∃ j < 4, order[j]? = some (valueReference value)) ∧
      ∃ name ∈ callNames "FC:top(x) > FC:right".toList,
        Leads sharedCalls (callPrefix ++ name) "TR:limit".toList := by
  have ordered : dependencyOrder sharedCalls "FC:top(x) > FC:right".toList =
      .ok ["FC:base".toList, "TR:limit".toList, "FC:left".toList, "FC:right".toList,
        "FC:top".toList] := by
    rw [dependencyOrder, show callNames "FC:top(x) > FC:right".toList = ["top".toList,
      "right".toList] by decide +kernel]
    cbv
  obtain ⟨nodup, named, earlier, paths⟩ := dependencyOrder_topological ordered
  exact ⟨_, rfl, ordered, nodup, named, earlier 4 "top".toList rfl,
    paths "TR:limit".toList (by simp)⟩

end PolicyRules
