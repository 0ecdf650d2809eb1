import Mathlib.Data.List.Induction
import Mathlib.Data.List.Nodup
import Mathlib.Data.List.Permutation
import PolicyRules.Policy
import PolicyRules.Proofs.DependencyOrder
import PolicyRules.Proofs.Extraction

/-!
# The inputs of foreign calls

When a rule runs, its placeholders are bound one after the other. A foreign call that is bound needs
the results of other calls and the values of trackers. In every list of placeholders that is made
for a condition or for the effects of a case, the calls whose results a call needs have placeholders
before its own, and the trackers that it needs have placeholders too (`inputsBound_of_compiled`).

The order of the dependencies is carried over from list to list: to the components of one text, to
those of several texts merged, and to the placeholders.
-/

namespace PolicyRules

/-- Whether the trackers that the calls in a list of names are given are listed too. -/
def HasTrackers (calls : List ForeignCall) (names : List Text) : Prop :=
  ∀ name call, Table.find? ForeignCall.name name calls = some call → callPrefix ++ name ∈ names →
    ∀ value ∈ call.values, IsTrackerReference (valueReference value) → valueReference value ∈ names

variable {calls : List ForeignCall} {names : List Text} {name x declaration : Text}
  {acc : List Component} {c : Component}

theorem HasTrackers.append {others : List Text}
    (h : HasTrackers calls names) (h' : HasTrackers calls others) :
    HasTrackers calls (names ++ others) := by
  intro name call found member value given isTracker
  rcases List.mem_append.mp member with first | second
  · exact List.mem_append_left _ (h name call found first value given isTracker)
  · exact List.mem_append_right _ (h' name call found second value given isTracker)

theorem HasTrackers.of_mem_iff {others : List Text}
    (same : ∀ x, x ∈ others ↔ x ∈ names) (h : HasTrackers calls names) :
    HasTrackers calls others := by
  intro name call found member value given isTracker
  exact (same _).mpr (h name call found ((same _).mp member) value given isTracker)

/-- Adds a name unless it is there. -/
def addName (names : List Text) (name : Text) : List Text :=
  if names.contains name then names else names ++ [name]

theorem mem_addName : x ∈ addName names name ↔ x ∈ names ∨ x = name := by
  unfold addName
  split
  · next known =>
    rw [List.contains_iff_mem] at known
    grind
  · simp

/-- Adding names one by one adds each of them. -/
theorem mem_foldl_addName {acc : List Text} :
    x ∈ names.foldl addName acc ↔ x ∈ acc ∨ x ∈ names := by
  induction names generalizing acc with
  | nil => simp
  | cons name names ih => rw [List.foldl_cons, ih, mem_addName, List.mem_cons, or_assoc]

/-- Names that are kept at their first places stay in order. -/
theorem InOrder.foldl_addName {needed : Text → Prop}
    (h : InOrder calls needed names) : InOrder calls needed (names.foldl addName []) := by
  induction names using List.reverseRecOn with
  | nil => exact .nil
  | append_singleton names name ih =>
    have kept : InOrder calls needed (names.foldl addName []) := ih h.of_append
    rw [List.foldl_append, List.foldl_cons, List.foldl_nil, addName]
    split
    · exact kept
    · refine kept.concat fun n call found same value given need => ?_
      have supplied : valueReference value ∈ names := h.supplied n call found same value given need
      simpa [mem_foldl_addName] using supplied

theorem contains_map_name (acc : List Component) (name : Text) :
    (acc.map Component.name).contains name = acc.any (·.name == name) := by
  rw [Bool.eq_iff_iff, List.contains_iff_mem]
  simp

/-- Adding a component adds its name. -/
theorem map_name_addComponent (acc : List Component) (c : Component) :
    (addComponent acc c).map Component.name = addName (acc.map Component.name) c.name := by
  rw [addComponent, addName, contains_map_name]
  split <;> simp

/-- So does merging it, in place or at the end. -/
theorem map_name_mergeComponent (acc : List Component) (c : Component) :
    (mergeComponent acc c).map Component.name = addName (acc.map Component.name) c.name := by
  rw [mergeComponent, addName, contains_map_name]
  split
  · rw [List.map_map]
    refine List.map_congr_left fun m _ => ?_
    simp only [Function.comp_apply]
    split
    · next replaced => exact replaced.1.symm
    · rfl
  · simp

/-- Both ways of adding components keep names at their first places. -/
theorem map_name_foldl {add : List Component → Component → List Component}
    (adds : ∀ acc c, (add acc c).map Component.name = addName (acc.map Component.name) c.name)
    (l acc : List Component) : (l.foldl add acc).map Component.name =
      (l.map Component.name).foldl addName (acc.map Component.name) := by
  induction l generalizing acc with
  | nil => rfl
  | cons c l ih => rw [List.foldl_cons, ih, adds, List.map_cons, List.foldl_cons]

theorem addComponent_of_new (new : c.name ∉ acc.map Component.name) :
    addComponent acc c = acc ++ [c] := by
  rw [addComponent, ← contains_map_name, if_neg]
  simpa using new

theorem mergeComponent_of_new (new : c.name ∉ acc.map Component.name) :
    mergeComponent acc c = acc ++ [c] := by
  rw [mergeComponent, ← contains_map_name, if_neg]
  simpa using new

/-- Both ways of adding components add all those of new and distinct names. -/
theorem foldl_eq_append_of_nodup {add : List Component → Component → List Component}
    (adds : ∀ {acc c}, c.name ∉ acc.map Component.name → add acc c = acc ++ [c])
    {l : List Component} (distinct : ((acc ++ l).map Component.name).Nodup) :
    l.foldl add acc = acc ++ l := by
  induction l generalizing acc with
  | nil => simp
  | cons c l ih =>
    have new : c.name ∉ acc.map Component.name := by
      rw [List.map_append, List.map_cons, List.nodup_append'] at distinct
      exact fun member => distinct.2.2 member List.mem_cons_self
    rw [List.foldl_cons, adds new, ih (by simpa using distinct), List.append_assoc,
      List.singleton_append]

/-- The names of a list of components are in order, with the trackers that the calls are given. -/
structure Arranged (calls : List ForeignCall) (names : List Text) : Prop where
  inOrder : InOrder calls IsCallReference names
  hasTrackers : HasTrackers calls names

namespace Arranged

variable {calls : List ForeignCall} {names : List Text}

/-- Leaving out what is listed twice keeps the arrangement. -/
theorem foldl_addName (h : Arranged calls names) : Arranged calls (names.foldl addName []) where
  inOrder := h.inOrder.foldl_addName
  hasTrackers := h.hasTrackers.of_mem_iff fun x => by simp [mem_foldl_addName]

/-- Arranged lists are arranged one behind the other. -/
theorem flatten {lists : List (List Text)} (h : ∀ names ∈ lists, Arranged calls names) :
    Arranged calls lists.flatten := by
  induction lists with
  | nil => exact ⟨.nil, fun name call _ member => absurd member (by simp)⟩
  | cons names lists ih =>
    have first := h names List.mem_cons_self
    have rest := ih fun l member => h l (List.mem_cons_of_mem _ member)
    exact ⟨first.inOrder.append rest.inOrder, first.hasTrackers.append rest.hasTrackers⟩

end Arranged

theorem after_callPrefix (name : Text) : Text.after ':' (callPrefix ++ name) = name := rfl

theorem after_trackerPrefix (name : Text) : Text.after ':' (trackerPrefix ++ name) = name := rfl

theorem isTrackerDependency_tracker (name : Text) :
    Tables.isTrackerDependency (trackerPrefix ++ name) := rfl

namespace Tables.Findings

variable {tables : Tables} {source : Text} {order : List Text}

/-- The calls among the dependencies, listed under their references. -/
theorem map_reference_needed (good : IsOrder tables.calls order)
    (f : Findings tables source order) :
    f.needed.map ForeignCall.reference = order.filter (! isTrackerDependency ·) := by
  have pairs := mapM_eq_ok_iff.mp f.needed_eq
  have listed : ∀ x ∈ order.filter (! isTrackerDependency ·), IsCallReference x := by
    intro x member
    obtain ⟨inOrder, notTracker⟩ := List.mem_filter.mp member
    rcases good.known x inOrder with isCall | ⟨name, rfl⟩
    · exact isCall
    · rw [isTrackerDependency_tracker] at notTracker
      cases notTracker
  generalize order.filter (! isTrackerDependency ·) = references at pairs listed ⊢
  generalize f.needed = needed at pairs
  induction pairs with
  | nil => rfl
  | cons first rest ih =>
    rw [List.map_cons, ih fun x member => listed x (List.mem_cons_of_mem _ member)]
    congr 1
    obtain ⟨name, rfl⟩ := listed _ List.mem_cons_self
    rw [require_eq_ok_iff, after_callPrefix] at first
    rw [ForeignCall.reference, call?_name first]

/-- The calls among the components of a text are among its dependencies. -/
theorem mem_order_of_call (plain : tables.PlainArguments)
    (h : dependencyOrder tables.calls source = .ok order) (f : Findings tables source order)
    (listed : x ∈ f.components.map Component.name) (isCall : IsCallReference x) : x ∈ order := by
  obtain ⟨good, named⟩ := dependencyOrder_isOrder h
  obtain ⟨c, member, rfl⟩ := List.mem_map.mp listed
  rcases f.mem_components.mp member with ⟨argument, -⟩ | ⟨call, inNeeded, rfl⟩ |
    ⟨call, inNamed, rfl⟩ | ⟨tracker, -, rfl⟩ | ⟨tracker, -, rfl⟩ | ⟨g, inGlobals, rfl⟩
  · obtain ⟨rest, same⟩ := isCall
    refine absurd ?_ (plain c argument).2
    rw [← same]
    exact List.mem_append_left _ (by decide)
  · have reference : call.reference ∈ f.needed.map ForeignCall.reference :=
      List.mem_map_of_mem inNeeded
    rw [f.map_reference_needed good] at reference
    exact (List.mem_filter.mp reference).1
  · obtain ⟨name, marked, found⟩ := f.mem_named.mp inNamed
    change callPrefix ++ call.name ∈ order
    rw [call?_name found]
    exact named name (mem_callNames_of_mem_unquotedMarks marked)
  · exact absurd isCall (IsTrackerReference.not_call ⟨tracker.name, rfl⟩)
  · exact absurd isCall (IsTrackerReference.not_call ⟨tracker.name, rfl⟩)
  · obtain ⟨reference, -, found⟩ := f.mem_globals.mp inGlobals
    obtain ⟨rest, same⟩ := isCall
    have none : Text.dropStart? callPrefix g.component.name = none :=
      (dropStart?_reference (mem_of_globalVariable? found)).1
    rw [Text.dropStart?_eq_some_iff.mpr same.symm] at none
    cases none

/-- The components of a text come in the order of its dependencies. -/
theorem arranged (plain : tables.PlainArguments)
    (h : dependencyOrder tables.calls source = .ok order) (f : Findings tables source order) :
    Arranged tables.calls (f.components.map Component.name) := by
  have good := (dependencyOrder_isOrder h).1
  have dependencies : f.needed.map (fun call => (call.component
      (if f.named.any (·.name == call.name) then some call.token else none)).name) =
      order.filter (! isTrackerDependency ·) := f.map_reference_needed good
  obtain ⟨others, names⟩ : ∃ others, f.components.map Component.name =
      ((tables.arguments.filter fun argument => mentions argument.name (Text.clean source)).map
        Component.name ++ order.filter (! isTrackerDependency ·)) ++ others := by
    simp only [components, callComponents, List.map_append, List.map_map, Function.comp_def,
      dependencies, List.append_assoc]
    exact ⟨_, rfl⟩
  have kept : ∀ x, IsCallReference x → (! isTrackerDependency x) := by
    rintro _ ⟨name, rfl⟩
    rfl
  constructor
  · rw [names]
    refine InOrder.append_known (.append (.of_forall_not_call ?_) (good.inOrder.filter ?_)) ?_
    · rintro x member ⟨rest, rfl⟩
      obtain ⟨c, listed, same⟩ := List.mem_map.mp member
      refine (plain c (List.mem_filter.mp listed).1).2 ?_
      rw [same]
      exact List.mem_append_left _ (by decide)
    · exact fun x isCall => ⟨.inl isCall, kept x isCall⟩
    · intro x member isCall
      have listed : x ∈ f.components.map Component.name := names ▸ List.mem_append_right _ member
      exact List.mem_append_right _
        (List.mem_filter.mpr ⟨f.mem_order_of_call plain h listed isCall, kept x isCall⟩)
  · intro name call found member value given isTracker
    have placed := f.mem_order_of_call plain h member (isCallReference_append name)
    obtain ⟨before, behind, rfl⟩ := List.append_of_mem placed
    have needed := good.inOrder.supplied name call found rfl value given (.inr isTracker)
    obtain ⟨trackerName, same⟩ := isTracker
    rw [← same] at needed ⊢
    obtain ⟨tracker, inNeeded, required⟩ := exists_of_mapM_eq_ok f.neededTrackers_eq
      (List.mem_filter.mpr ⟨List.mem_append_left _ needed, isTrackerDependency_tracker trackerName⟩)
    rw [after_trackerPrefix, require_eq_ok_iff] at required
    refine List.mem_map.mpr ⟨tracker.read, f.mem_components.mpr ?_, ?_⟩
    · exact .inr (.inr (.inr (.inl ⟨tracker, .inr inNeeded, rfl⟩)))
    · change trackerPrefix ++ tracker.name = _
      rw [tracker?_name required]

end Tables.Findings

namespace Placeholder

/-- Whether two placeholders have one index and flag. -/
def Same (p q : Placeholder) : Prop := p.index = q.index ∧ p.flag = q.flag

theorem exists_same_of_addTo (list : List Placeholder) (p : Placeholder) :
    ∃ q ∈ addTo list p, q.Same p := by
  unfold addTo
  split
  · next known =>
    obtain ⟨q, member, same⟩ := List.any_eq_true.mp known
    exact ⟨q, member, by simpa [Same] using same⟩
  · exact ⟨p, by simp, rfl, rfl⟩

theorem subset_addTo (list : List Placeholder) (p : Placeholder) : list ⊆ addTo list p := by
  unfold addTo
  split
  · exact fun _ => id
  · exact List.subset_append_left _ _

/-- Every placeholder has a place, or one with its index and flag has. -/
theorem exists_same_of_foldl {list : List Placeholder} {p : Placeholder} (h : p ∈ list) :
    ∃ q ∈ list.foldl addTo [], q.Same p := by
  induction list using List.reverseRecOn with
  | nil => cases h
  | append_singleton list r ih =>
    rw [List.foldl_append, List.foldl_cons, List.foldl_nil]
    rcases List.mem_append.mp h with earlier | last
    · obtain ⟨q, member, same⟩ := ih earlier
      exact ⟨q, subset_addTo _ _ member, same⟩
    · rw [List.mem_singleton.mp last]
      exact exists_same_of_addTo _ _

/-- A placeholder of the list stands behind those that come before it. -/
theorem exists_of_foldl_addTo {list before behind : List Placeholder} {q : Placeholder}
    (h : list.foldl addTo [] = before ++ q :: behind) :
    ∃ earlier later, list = earlier ++ q :: later ∧ before = earlier.foldl addTo [] := by
  induction list using List.reverseRecOn generalizing behind with
  | nil => simp at h
  | append_singleton list p ih =>
    rw [List.foldl_append, List.foldl_cons, List.foldl_nil, addTo] at h
    split at h
    · obtain ⟨earlier, later, rfl, same⟩ := ih h
      exact ⟨earlier, later ++ [p], by simp, same⟩
    · rcases List.eq_nil_or_concat behind with rfl | ⟨rest, last, rfl⟩
      · obtain ⟨same, only⟩ := List.append_inj' h rfl
        exact ⟨list, [], by rw [(List.cons.inj only).1], same.symm⟩
      · have reordered : list.foldl addTo [] ++ [p] = (before ++ q :: rest) ++ [last] := by simp [h]
        obtain ⟨split, -⟩ := List.append_inj' reordered rfl
        obtain ⟨earlier, later, rfl, same⟩ := ih split
        exact ⟨earlier, later ++ [p], by simp, same⟩

/-- Whether a placeholder binds the result of a foreign call. -/
def BindsCall (p : Placeholder) (call : ForeignCall) : Prop := p.index = call.id ∧ p.flag = 1

/-- Whether a placeholder binds a tracker. -/
def BindsTracker (p : Placeholder) (tracker : Tracker) : Prop := p.index = tracker.id ∧ p.flag = 2

end Placeholder

namespace Tables

variable {tables : Tables} {components : List Component} {placeholders : List Placeholder}

theorem mem_calls {call : ForeignCall} (h : tables.call? name = some call) : call ∈ tables.calls :=
  Table.mem_of_find? h

/-- The component of a placeholder that binds a call. -/
theorem Gives.call_of_bindsCall (plain : tables.PlainArguments)
    (ids : (tables.calls.map ForeignCall.id).Nodup) (h : tables.Gives c) {q : Placeholder}
    (bound : Placeholder.ofComponent c = .ok q) {call : ForeignCall} (member : call ∈ tables.calls)
    (binds : q.BindsCall call) : c.name = call.reference := by
  cases h with
  | argument first =>
    have family := (plain c (List.mem_of_find?_eq_some first)).1
    simp only [Placeholder.ofComponent, Component.flag, family] at bound
    cases bound
    cases binds.2
  | @call call' found token own =>
    cases bound
    have same : call' = call := List.inj_on_of_nodup_map ids (mem_calls found) member binds.1
    rw [same]
    rfl
  | read | updated =>
    cases bound
    cases binds.2
  | @global g found =>
    have flags : ∀ g ∈ globalVariables, g.flag ≠ 1 := by decide
    simp only [Placeholder.ofComponent, Component.flag, GlobalVariable.component, found] at bound
    cases bound
    exact absurd (Int.ofNat.inj binds.2) (flags g (mem_of_globalVariable? found))

/-- The call that a component under a call's reference is for. -/
theorem Gives.exists_call (plain : tables.PlainArguments) (h : tables.Gives c)
    (same : c.name = callPrefix ++ name) :
    ∃ call q, tables.call? name = some call ∧ Placeholder.ofComponent c = .ok q ∧
      q.BindsCall call := by
  obtain ⟨q, found, bound⟩ := h.ofComponent_eq plain
  have start : Text.dropStart? callPrefix c.name = some name := Text.dropStart?_eq_some_iff.mpr same
  simp only [placeholder?, start, Option.map_eq_some_iff] at found
  obtain ⟨call, known, rfl⟩ := found
  exact ⟨call, _, known, bound, rfl, rfl⟩

/-- The tracker that a component under a tracker's reference is for. -/
theorem Gives.exists_tracker (plain : tables.PlainArguments) (h : tables.Gives c)
    (same : c.name = trackerPrefix ++ name) :
    ∃ tracker q, tables.tracker? name = some tracker ∧ Placeholder.ofComponent c = .ok q ∧
      q.BindsTracker tracker := by
  obtain ⟨q, found, bound⟩ := h.ofComponent_eq plain
  have start : Text.dropStart? trackerPrefix c.name = some name :=
    Text.dropStart?_eq_some_iff.mpr same
  have noCall : Text.dropStart? callPrefix c.name = none := by rw [same]; rfl
  simp only [placeholder?, noCall, start, Option.map_eq_some_iff] at found
  obtain ⟨tracker, known, rfl⟩ := found
  exact ⟨tracker, _, known, bound, rfl, rfl⟩

/-- Whether each call that a list of placeholders binds has its inputs bound: the calls whose
results it needs before itself, the trackers anywhere. -/
def InputsBound (tables : Tables) (placeholders : List Placeholder) : Prop :=
  ∀ call ∈ tables.calls, ∀ (n : Nat) (q : Placeholder), placeholders[n]? = some q →
    q.BindsCall call →
    ∀ value ∈ call.values,
      (∀ name, valueReference value = callPrefix ++ name → ∃ input, tables.call? name = some input ∧
        ∃ m < n, ∃ q' : Placeholder, placeholders[m]? = some q' ∧ q'.BindsCall input) ∧
      ∀ name, valueReference value = trackerPrefix ++ name →
      ∃ tracker, tables.tracker? name = some tracker ∧
        ∃ (m : Nat) (q' : Placeholder), placeholders[m]? = some q' ∧ q'.BindsTracker tracker

/-- The steps before a result are those for the entries before its own. -/
theorem exists_of_mapM_eq_append {ε α β : Type} {f : α → Except ε β} {xs : List α} {ys zs : List β}
    {y : β} (h : xs.mapM f = .ok (ys ++ y :: zs)) :
    ∃ before x behind, xs = before ++ x :: behind ∧ before.mapM f = .ok ys ∧ f x = .ok y := by
  induction ys generalizing xs with
  | nil =>
    obtain ⟨x, rest, first, -, rfl⟩ := List.forall₂_cons_right_iff.mp (mapM_eq_ok_iff.mp h)
    exact ⟨[], x, rest, rfl, rfl, first⟩
  | cons y' ys ih =>
    obtain ⟨x', rest, first, others, rfl⟩ := List.forall₂_cons_right_iff.mp (mapM_eq_ok_iff.mp h)
    obtain ⟨before, x, behind, rfl, earlier, found⟩ := ih (mapM_eq_ok_iff.mpr others)
    exact ⟨x' :: before, x, behind, rfl,
      mapM_eq_ok_iff.mpr (.cons first (mapM_eq_ok_iff.mp earlier)), found⟩

/-- Placeholders of components that come in the order of their dependencies have their inputs
bound. -/
theorem inputsBound_of_arranged (plain : tables.PlainArguments)
    (names : (tables.calls.map ForeignCall.name).Nodup)
    (ids : (tables.calls.map ForeignCall.id).Nodup) (gives : ∀ c ∈ components, tables.Gives c)
    (arranged : Arranged tables.calls (components.map Component.name))
    (h : Placeholder.ofComponents components = .ok placeholders) :
    tables.InputsBound placeholders := by
  obtain ⟨bound, each, same⟩ := bind_eq_ok_iff.mp h
  obtain rfl := pure_eq_ok_iff.mp same
  intro call member n q at_n binds value given
  obtain ⟨inRange, here⟩ := List.getElem?_eq_some_iff.mp at_n
  have split := List.take_append_drop n (bound.foldl Placeholder.addTo [])
  rw [← List.getElem_cons_drop inRange, here] at split
  obtain ⟨earlier, later, parts, before⟩ := Placeholder.exists_of_foldl_addTo split.symm
  obtain ⟨first, c, rest, rfl, made, found⟩ := exists_of_mapM_eq_append (parts ▸ each)
  have isCall : c.name = call.reference :=
    (gives c (by simp)).call_of_bindsCall plain ids found member binds
  have known : Table.find? ForeignCall.name call.name tables.calls = some call :=
    Table.find?_eq_some_of_mem names member
  constructor
  · intro name same
    have inOrder : InOrder tables.calls IsCallReference
        (first.map Component.name ++ c.name :: rest.map Component.name) := by
      simpa using arranged.inOrder
    have listed := inOrder.supplied call.name call known isCall value given ⟨name, same.symm⟩
    obtain ⟨c', inFirst, named⟩ := List.mem_map.mp listed
    obtain ⟨input, q', isInput, made', binds'⟩ :=
      (gives c' (List.mem_append_left _ inFirst)).exists_call plain (named.trans same)
    obtain ⟨q'', inBefore, same''⟩ :=
      Placeholder.exists_same_of_foldl ((mem_of_mapM_eq_ok made).mpr ⟨c', inFirst, made'⟩)
    rw [← before] at inBefore
    obtain ⟨m, at_m⟩ := List.mem_iff_getElem?.mp inBefore
    rw [List.getElem?_take, Option.ite_none_right_eq_some] at at_m
    exact ⟨input, isInput, m, at_m.1, q'', at_m.2, same''.1.trans binds'.1, same''.2.trans binds'.2⟩
  · intro name same
    have listed : valueReference value ∈ (first ++ c :: rest).map Component.name := by
      refine arranged.hasTrackers call.name call known ?_ value given ⟨name, same.symm⟩
      exact List.mem_map.mpr ⟨c, by simp, isCall⟩
    obtain ⟨c', inAll, named⟩ := List.mem_map.mp listed
    obtain ⟨tracker, q', isTracker, made', binds'⟩ :=
      (gives c' inAll).exists_tracker plain (named.trans same)
    obtain ⟨q'', inList, same''⟩ :=
      Placeholder.exists_same_of_foldl ((mem_of_mapM_eq_ok each).mpr ⟨c', inAll, made'⟩)
    obtain ⟨m, at_m⟩ := List.mem_iff_getElem?.mp inList
    exact ⟨tracker, isTracker, m, q'', at_m, same''.1.trans binds'.1, same''.2.trans binds'.2⟩

end Tables

theorem IsTableName.colon_not_mem (h : IsTableName name) : ':' ∉ name := by
  intro member
  exact absurd (h.isWordChar ':' member) (by decide)

/-- The argument of a field of a declaration has the place of the field. -/
theorem argumentOf_eq_ok {field : Text} {keep : Text → Bool} {position : Nat}
    (h : argumentOf declaration keep field position = .ok (some c)) :
    ∃ typeName, c = .ofArgument c.name position typeName := by
  unfold argumentOf at h
  split at h
  · split at h
    · cases h
      exact ⟨_, rfl⟩
    · cases h
  · cases h

/-- The arguments of a declaration are listed as such, each with a place of its own. -/
theorem exists_positions_of_declaredArguments {arguments : List Component}
    (h : declaredArguments declaration = .ok arguments) :
    ∃ positions : List Nat, positions.Nodup ∧
      List.Forall₂ (fun c position => ∃ typeName, c = .ofArgument c.name position typeName)
        arguments positions := by
  unfold declaredArguments at h
  split at h
  · cases h
    exact ⟨[], .nil, .nil⟩
  · obtain ⟨entries, each, same⟩ := bind_eq_ok_iff.mp h
    obtain rfl := pure_eq_ok_iff.mp same
    have pairs := mapM_eq_ok_iff.mp each
    have distinct : ((Text.commaFields declaration).zipIdx.map Prod.snd).Nodup := by
      rw [List.zipIdx_map_snd]
      exact List.nodup_range'
    clear each h same
    generalize (Text.commaFields declaration).zipIdx = fields at pairs distinct
    suffices ∃ positions : List Nat, positions.Sublist (fields.map Prod.snd) ∧
        List.Forall₂ (fun c position => ∃ typeName, c = .ofArgument c.name position typeName)
          entries.reduceOption positions by
      obtain ⟨positions, sublist, listed⟩ := this
      exact ⟨positions, distinct.sublist sublist, listed⟩
    clear distinct
    induction pairs with
    | nil => exact ⟨[], .slnil, .nil⟩
    | @cons entry field fields entries first rest ih =>
      obtain ⟨positions, sublist, listed⟩ := ih
      cases field with
      | none => exact ⟨positions, sublist.cons _, listed⟩
      | some c =>
        exact ⟨entry.2 :: positions, sublist.cons_cons _, .cons (argumentOf_eq_ok first) listed⟩

/-- Every argument of a declaration is listed as such. -/
theorem exists_ofArgument_of_mem {arguments : List Component}
    (h : declaredArguments declaration = .ok arguments) (member : c ∈ arguments) :
    ∃ position typeName, c = .ofArgument c.name position typeName := by
  obtain ⟨positions, -, listed⟩ := exists_positions_of_declaredArguments h
  clear h
  induction listed with
  | nil => cases member
  | cons first rest ih =>
    rcases List.mem_cons.mp member with rfl | later
    · exact ⟨_, first⟩
    · exact ih later

namespace Policy

variable {p : Policy} {declaration : Text} {trackers : List Tracker} {calls : List ForeignCall}
  {settings : Settings}

/-- A policy is made of the arguments that are declared, and the tables. -/
theorem ofDeclaration_eq_ok_iff : ofDeclaration declaration trackers calls settings = .ok p ↔
    ∃ arguments, declaredArguments declaration = .ok arguments ∧
      p = ⟨⟨arguments, trackers, calls⟩, settings⟩ := by
  simp only [ofDeclaration, bind_eq_ok_iff, pure_eq_ok_iff]
  exact exists_congr fun arguments => and_congr_right fun _ => eq_comm

theorem plainArguments (made : ofDeclaration declaration trackers calls settings = .ok p)
    (names : ∀ c ∈ p.arguments, IsTableName c.name) : p.PlainArguments := by
  obtain ⟨arguments, declared, rfl⟩ := ofDeclaration_eq_ok_iff.mp made
  intro c member
  obtain ⟨position, typeName, same⟩ := exists_ofArgument_of_mem declared member
  exact ⟨by rw [same]; rfl, (names c member).colon_not_mem⟩

/-- A text is processed if its dependencies have an order and all is found. -/
theorem process_eq_ok_iff {source : Text} {e : Extract} : p.process source = .ok e ↔
    ∃ order, dependencyOrder p.calls source = .ok order ∧
      ∃ f : Tables.Findings p.toTables source order,
        e = ⟨p.normalize source, f.components.foldl addComponent []⟩ := by
  simp only [process, bind_eq_ok_iff, Tables.extract_eq_ok_iff]

/-- The components of one text are given by the tables, in the order of their dependencies. -/
theorem process_arranged (plain : p.PlainArguments) {source : Text} {e : Extract}
    (h : p.process source = .ok e) :
    (∀ c ∈ e.components, p.Gives c) ∧ Arranged p.calls (e.components.map Component.name) := by
  obtain ⟨order, ordered, f, rfl⟩ := process_eq_ok_iff.mp h
  refine ⟨fun c => f.gives, ?_⟩
  change Arranged p.calls ((f.components.foldl addComponent []).map Component.name)
  rw [map_name_foldl map_name_addComponent]
  exact (f.arranged plain ordered).foldl_addName

theorem mem_foldl_mergeComponent {l : List Component} (h : c ∈ l.foldl mergeComponent acc) :
    c ∈ acc ∨ c ∈ l := by
  induction l generalizing acc with
  | nil => exact .inl h
  | cons d l ih =>
    rw [List.foldl_cons] at h
    rcases ih h with kept | later
    · unfold mergeComponent at kept
      split at kept
      · obtain ⟨m, member, same⟩ := List.mem_map.mp kept
        split at same
        · exact .inr (same ▸ List.mem_cons_self)
        · exact .inl (same ▸ member)
      · rcases List.mem_append.mp kept with inAcc | last
        · exact .inl inAcc
        · exact .inr (List.mem_singleton.mp last ▸ List.mem_cons_self)
    · exact .inr (List.mem_cons_of_mem _ later)

/-- So are the components of several texts, merged. -/
theorem merge_arranged (plain : p.PlainArguments) {sources : List Text} {extracts : List Extract}
    (h : sources.mapM p.process = .ok extracts) :
    (∀ c ∈ mergeComponents (extracts.map (·.components)), p.Gives c) ∧
      Arranged p.calls ((mergeComponents (extracts.map (·.components))).map Component.name) := by
  have each : ∀ e ∈ extracts, (∀ c ∈ e.components, p.Gives c) ∧
      Arranged p.calls (e.components.map Component.name) := by
    intro e member
    obtain ⟨source, -, processed⟩ := (mem_of_mapM_eq_ok h).mp member
    exact process_arranged plain processed
  constructor
  · intro c member
    rcases mem_foldl_mergeComponent member with none | listed
    · cases none
    · obtain ⟨components, inLists, here⟩ := List.mem_flatten.mp listed
      obtain ⟨e, inExtracts, rfl⟩ := List.mem_map.mp inLists
      exact (each e inExtracts).1 c here
  · rw [mergeComponents, map_name_foldl map_name_mergeComponent, List.map_flatten, List.map_map]
    refine (Arranged.flatten fun names member => ?_).foldl_addName
    obtain ⟨e, inExtracts, rfl⟩ := List.mem_map.mp member
    exact (each e inExtracts).2

/-- In the placeholders of every condition, and of the effects of every case, the inputs of a
foreign call are bound, and the calls among them before the call itself. -/
theorem inputsBound_of_compiled (made : ofDeclaration declaration trackers calls settings = .ok p)
    (arguments : ∀ c ∈ p.arguments, IsTableName c.name) (names : (calls.map ForeignCall.name).Nodup)
    (ids : (calls.map ForeignCall.id).Nodup) :
    (∀ source condition, p.compileCondition source = .ok condition →
      p.InputsBound condition.placeholders) ∧
    ∀ sources effects, p.compileEffects sources = .ok effects →
      p.InputsBound effects.placeholders := by
  have plain := plainArguments made arguments
  obtain ⟨_, _, rfl⟩ := ofDeclaration_eq_ok_iff.mp made
  constructor
  · intro source condition h
    simp only [compileCondition, bind_eq_ok_iff, pure_eq_ok_iff] at h
    obtain ⟨e, processed, placeholders, bound, -, -, -, -, rfl⟩ := h
    obtain ⟨gives, arranged⟩ := process_arranged plain processed
    exact Tables.inputsBound_of_arranged plain names ids gives arranged bound
  · intro sources effects h
    simp only [compileEffects, bind_eq_ok_iff, pure_eq_ok_iff] at h
    obtain ⟨extracts, processed, placeholders, bound, -, -, rfl⟩ := h
    obtain ⟨gives, arranged⟩ := merge_arranged plain processed
    exact Tables.inputsBound_of_arranged plain names ids gives arranged bound

/-- A policy with a call that is given the result of another call and a tracker. -/
def scoring : Policy where
  arguments := [.ofArgument "value".toList 0 "uint256".toList]
  trackers := [⟨"limit".toList, 4, .uint256⟩]
  calls := [
    { name := "score".toList, id := 7, values := ["FC:rank(value)".toList, "TR:limit".toList] },
    { name := "rank".toList, id := 3, values := ["value".toList] }]

/-- Effects of which the first needs the call that the second names. -/
def scoringEffects : List Text :=
  ["TRU:limit += FC:score(value)".toList, "TRU:limit -= FC:rank(value)".toList]

theorem inputsBound_of_compiled_scoring :
    (∃ condition, scoring.compileCondition "FC:score(value) > 1".toList = .ok condition ∧
      condition.placeholders.map (fun q => (q.index, q.flag)) = [(0, 0), (3, 1), (7, 1), (4, 2)] ∧
      scoring.InputsBound condition.placeholders) ∧
    (∃ extracts, scoringEffects.mapM scoring.process = .ok extracts ∧
      extracts.map (fun e => (e.components.filter (·.isDependencyOnly)).map (·.name)) =
        [["FC:rank".toList], []] ∧
      (mergeComponents (extracts.map (·.components))).filter (·.isDependencyOnly) = []) ∧
    ∃ effects, scoring.compileEffects scoringEffects = .ok effects ∧
      effects.placeholders.map (fun q => (q.index, q.flag)) = [(0, 0), (3, 1), (7, 1), (4, 2)] ∧
      scoring.InputsBound effects.placeholders := by
  have made : ofDeclaration "uint256 value".toList scoring.trackers
      scoring.calls {} = .ok scoring := by
    decide +kernel
  have names : ∀ c ∈ scoring.arguments, IsTableName c.name :=
    List.forall_mem_singleton.mpr ⟨'v', "alue".toList, rfl, by decide,
      List.all_eq_true.mp (by decide)⟩
  have bound := inputsBound_of_compiled made names (by decide) (by decide)
  have scored : ∀ {source}, callNames source = ["score".toList] →
      dependencyOrder scoring.calls source =
        .ok ["FC:rank".toList, "TR:limit".toList, "FC:score".toList] := fun named => by
    rw [dependencyOrder, named]
    cbv
  have ranked : dependencyOrder scoring.calls
      "TRU:limit -= FC:rank(value)".toList = .ok ["FC:rank".toList] := by
    rw [dependencyOrder, show callNames "TRU:limit -= FC:rank(value)".toList = ["rank".toList] by
      decide +kernel]
    cbv
  have added := scored (show callNames "TRU:limit += FC:score(value)".toList = ["score".toList] by
    decide +kernel)
  have compiled : (scoring.compileCondition "FC:score(value) > 1".toList).toOption.map
      (·.placeholders.map fun q => (q.index, q.flag)) = some [(0, 0), (3, 1), (7, 1), (4, 2)] := by
    rw [compileCondition, process, scored (by decide +kernel)]
    decide +kernel
  have merged : (scoringEffects.mapM scoring.process).toOption.map (fun extracts =>
      (extracts.map fun e => (e.components.filter (·.isDependencyOnly)).map (·.name),
        (mergeComponents (extracts.map (·.components))).filter (·.isDependencyOnly))) =
      some ([["FC:rank".toList], []], []) := by
    simp only [scoringEffects, List.mapM_cons, process, added, ranked]
    decide +kernel
  have shared : (scoring.compileEffects scoringEffects).toOption.map
      (·.placeholders.map fun q => (q.index, q.flag)) = some [(0, 0), (3, 1), (7, 1), (4, 2)] := by
    simp only [compileEffects, scoringEffects, List.mapM_cons, process, added, ranked]
    decide +kernel
  obtain ⟨condition, accepted, placeholders⟩ := map_toOption_eq_some_iff.mp compiled
  obtain ⟨extracts, processed, same⟩ := map_toOption_eq_some_iff.mp merged
  obtain ⟨effects, accepted', placeholders'⟩ := map_toOption_eq_some_iff.mp shared
  exact ⟨⟨condition, accepted, placeholders, bound.1 _ condition accepted⟩,
    ⟨extracts, processed, (Prod.mk.inj same).1, (Prod.mk.inj same).2⟩,
    effects, accepted', placeholders', bound.2 _ effects accepted'⟩

end Policy

end PolicyRules
