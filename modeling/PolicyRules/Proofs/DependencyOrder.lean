import PolicyRules.Proofs.ReferenceMarks
import PolicyRules.Proofs.Success
import PolicyRules.Reference.Dependency

/-!
# Dependencies come first

In the order that is made for the dependencies of a text, every call comes after the calls and
trackers that it is given. The property is stated for any list of names, since it outlasts the
order: components are listed along it, merged, and turned into placeholders.

Main statements: `dependencyOrder_isOrder`, the rules by which `InOrder` passes to other lists, and
`search_induction`, by which all that is said about the search is proved.
-/

namespace PolicyRules

/-- Whether each call of a list of names comes after those of its values that `needed` picks. -/
def InOrder (calls : List ForeignCall) (needed : Text → Prop) (names : List Text) : Prop :=
  ∀ name call, Table.find? ForeignCall.name name calls = some call →
    ∀ before behind, names = before ++ (callPrefix ++ name) :: behind →
      ∀ value ∈ call.values, needed (valueReference value) → valueReference value ∈ before

/-- Whether a reference is that of a call. -/
def IsCallReference (reference : Text) : Prop := callPrefix <+: reference

/-- Whether a reference is that of a tracker. -/
def IsTrackerReference (reference : Text) : Prop := trackerPrefix <+: reference

theorem IsTrackerReference.not_call {reference : Text} (h : IsTrackerReference reference) :
    ¬ IsCallReference reference := by
  rintro ⟨name, rfl⟩
  obtain ⟨rest, same⟩ := h
  simp [trackerPrefix, callPrefix] at same

theorem isCallReference_append (name : Text) : IsCallReference (callPrefix ++ name) := ⟨name, rfl⟩

namespace InOrder

variable {calls : List ForeignCall} {needed : Text → Prop} {names others : List Text}

/-- A list without calls is in order. -/
theorem of_forall_not_call (h : ∀ x ∈ names, ¬ IsCallReference x) : InOrder calls needed names := by
  rintro name call - before behind rfl
  exact absurd (isCallReference_append name) (h _ (by simp))

theorem nil : InOrder calls needed [] := of_forall_not_call (by simp)

/-- Two lists in order are in order one behind the other. -/
theorem append (h : InOrder calls needed names) (h' : InOrder calls needed others) :
    InOrder calls needed (names ++ others) := by
  intro name call found before behind same value member need
  rcases List.append_eq_append_iff.mp same with ⟨middle, rfl, later⟩ | ⟨middle, earlier, later⟩
  · exact List.mem_append_right _ (h' name call found _ _ later value member need)
  · cases middle with
    | nil =>
      exact absurd (h' name call found [] behind (by simpa using later.symm) value member need)
        (by simp)
    | cons x middle =>
      obtain ⟨rfl, rfl⟩ := List.cons.inj later
      exact h name call found before middle earlier value member need

theorem of_append (h : InOrder calls needed (names ++ others)) : InOrder calls needed names := by
  rintro name call found before behind rfl
  exact h name call found before (behind ++ others) (by simp)

/-- Calls that have come before may come again. -/
theorem append_known (h : InOrder calls needed names)
    (known : ∀ x ∈ others, IsCallReference x → x ∈ names) :
    InOrder calls needed (names ++ others) := by
  intro name call found before behind same value member need
  -- A call that comes again has been supplied where it came first.
  have supplied : callPrefix ++ name ∈ others → valueReference value ∈ names := by
    intro again
    obtain ⟨first, rest, rfl⟩ := List.append_of_mem (known _ again (isCallReference_append name))
    exact List.mem_append_left _ (h name call found first rest rfl value member need)
  rcases List.append_eq_append_iff.mp same with ⟨middle, rfl, later⟩ | ⟨middle, earlier, later⟩
  · exact List.mem_append_left _ (supplied (by simp [later]))
  · cases middle with
    | nil =>
      rw [List.append_nil] at earlier
      exact earlier ▸ supplied (List.nil_append others ▸ later ▸ List.mem_cons_self)
    | cons x middle =>
      obtain ⟨rfl, rfl⟩ := List.cons.inj later
      exact h name call found before middle earlier value member need

/-- A name can come last if all that it needs has come. -/
theorem concat (h : InOrder calls needed names) {x : Text}
    (supplied : ∀ name call, Table.find? ForeignCall.name name calls = some call →
      x = callPrefix ++ name →
      ∀ value ∈ call.values, needed (valueReference value) → valueReference value ∈ names) :
    InOrder calls needed (names ++ [x]) := by
  intro name call found before behind same value member need
  rcases List.eq_nil_or_concat behind with rfl | ⟨rest, last, rfl⟩
  · obtain ⟨rfl, only⟩ := List.append_inj' same rfl
    exact supplied name call found (List.cons.inj only).1 value member need
  · have reordered : names ++ [x] = (before ++ (callPrefix ++ name) :: rest) ++ [last] := by
      simp [same]
    obtain ⟨split, -⟩ := List.append_inj' reordered rfl
    exact h name call found before rest split value member need

/-- What a name in the middle of a list needs comes before it. -/
theorem supplied {x : Text} (h : InOrder calls needed (names ++ x :: others)) (name : Text)
    (call : ForeignCall) (found : Table.find? ForeignCall.name name calls = some call)
    (same : x = callPrefix ++ name) (value : Text) (member : value ∈ call.values)
    (need : needed (valueReference value)) : valueReference value ∈ names :=
  h name call found names others (by rw [same]) value member need

/-- Leaving out names that nothing needs keeps the order of the others. -/
theorem filter (h : InOrder calls needed names) {keep : Text → Bool} {needed' : Text → Prop}
    (kept : ∀ x, needed' x → needed x ∧ keep x) : InOrder calls needed' (names.filter keep) := by
  intro name call found before behind same value member need
  obtain ⟨first, rest, rfl, rfl, later⟩ := List.filter_eq_append_iff.mp same
  obtain ⟨skipped, others, rfl, none, -, -⟩ := List.filter_eq_cons_iff.mp later
  obtain ⟨wanted, stays⟩ := kept _ need
  have placed : valueReference value ∈ first ++ skipped :=
    h name call found (first ++ skipped) others (by simp) value member wanted
  rcases List.mem_append.mp placed with early | dropped
  · exact List.mem_filter.mpr ⟨early, stays⟩
  · exact absurd stays (none _ dropped)

end InOrder

/-- Whether a list of references is a good order: everything that a call needs comes before it, and
only calls and trackers are listed. -/
structure IsOrder (calls : List ForeignCall) (order : List Text) : Prop where
  inOrder : InOrder calls (fun x => IsCallReference x ∨ IsTrackerReference x) order
  known : ∀ x ∈ order, IsCallReference x ∨ IsTrackerReference x

/-- Whether an order that is good is extended to one that is good too. -/
def Extends (calls : List ForeignCall) (order order' : List Text) : Prop :=
  (IsOrder calls order → IsOrder calls order') ∧ order ⊆ order'

namespace Extends

variable {calls : List ForeignCall} {order order' order'' : List Text}

theorem refl : Extends calls order order := ⟨id, fun _ => id⟩

/-- An order can be extended several times. -/
theorem trans (h : Extends calls order order') (h' : Extends calls order' order'') :
    Extends calls order order'' :=
  ⟨h'.1 ∘ h.1, fun _ member => h'.2 (h.2 member)⟩

/-- A tracker can be added at any time. -/
theorem tracker {x : Text} (isTracker : IsTrackerReference x) :
    Extends calls order (order ++ [x]) := by
  refine ⟨fun good => ⟨good.inOrder.concat ?_, ?_⟩, List.subset_append_left _ _⟩
  · rintro name call - rfl
    exact absurd (isCallReference_append name) isTracker.not_call
  · intro y member
    rcases List.mem_append.mp member with earlier | last
    · exact good.known y earlier
    · exact .inr (List.mem_singleton.mp last ▸ isTracker)

/-- A call can be added when all that it is given has come. -/
theorem call {name : Text} {c : ForeignCall}
    (found : Table.find? ForeignCall.name name calls = some c)
    (supplied : ∀ value ∈ c.values, IsCallReference (valueReference value) ∨
      IsTrackerReference (valueReference value) → valueReference value ∈ order) :
    Extends calls order (order ++ [callPrefix ++ name]) := by
  refine ⟨fun good => ⟨good.inOrder.concat ?_, ?_⟩, List.subset_append_left _ _⟩
  · intro other c' found' same
    obtain rfl := List.append_cancel_left same
    obtain rfl := Option.some.inj (found'.symm.trans found)
    exact supplied
  · intro y member
    rcases List.mem_append.mp member with earlier | last
    · exact good.known y earlier
    · exact .inl (List.mem_singleton.mp last ▸ isCallReference_append name)

end Extends

section Steps

variable {calls : List ForeignCall} {source name value : Text} {chain order values : List Text}

/-- A call that waits for itself is a cycle. -/
theorem placeCall_of_waiting (waits : name ∈ chain) : placeCall calls source chain order name =
    .error (.cyclicCalls (chain.dropWhile (· != name) ++ [name])) := by
  rw [placeCall, dif_pos (by simpa using waits)]

/-- A call that has a place needs no other. -/
theorem placeCall_of_placed (fresh : name ∉ chain) (placed : callPrefix ++ name ∈ order) :
    placeCall calls source chain order name = .ok order := by
  rw [placeCall, dif_neg (by simpa using fresh), if_pos (by simpa using placed)]

/-- A call that is not known is reported. -/
theorem placeCall_of_missing (fresh : name ∉ chain) (unplaced : callPrefix ++ name ∉ order)
    (missing : Table.find? ForeignCall.name name calls = none) :
    placeCall calls source chain order name = .error (.unknown (callPrefix ++ name) source) := by
  rw [placeCall, dif_neg (by simpa using fresh), if_neg (by simpa using unplaced)]
  split
  · rfl
  · next c found =>
    rw [missing] at found
    cases found

/-- What a call is given is placed before it. -/
theorem placeCall_of_found (fresh : name ∉ chain) (unplaced : callPrefix ++ name ∉ order)
    {c : ForeignCall} (found : Table.find? ForeignCall.name name calls = some c) :
    placeCall calls source chain order name =
      (placeValues calls source (chain ++ [name]) order c.values).map
        (· ++ [callPrefix ++ name]) := by
  rw [placeCall, dif_neg (by simpa using fresh), if_neg (by simpa using unplaced)]
  split
  · next missing =>
    rw [found] at missing
    cases missing
  · next c' found' =>
    obtain rfl := Option.some.inj (found.symm.trans found')
    cases placeValues calls source (chain ++ [name]) order c.values <;> rfl

theorem placeValues_nil : placeValues calls source chain order [] = .ok order := by
  rw [placeValues]

theorem placeValues_call (isCall : valueReference value = callPrefix ++ name) :
    placeValues calls source chain order (value :: values) =
      placeCall calls source chain order name >>= fun order => placeValues calls source chain order
        values := by
  rw [placeValues, Text.dropStart?_eq_some_iff.mpr isCall]
  dsimp only
  cases placeCall calls source chain order name <;> rfl

theorem dropStart?_eq_none_of_not_call (noCall : ¬ IsCallReference (valueReference value)) :
    Text.dropStart? callPrefix (valueReference value) = none := by
  cases isCall : Text.dropStart? callPrefix (valueReference value) with
  | none => rfl
  | some name => exact absurd ⟨name, (Text.dropStart?_eq_some_iff.mp isCall).symm⟩ noCall

theorem placeValues_tracker (isTracker : IsTrackerReference (valueReference value))
    (unlisted : valueReference value ∉ order) :
    placeValues calls source chain order (value :: values) =
      placeValues calls source chain (order ++ [valueReference value]) values := by
  have started : Text.startsWith trackerPrefix (valueReference value) :=
    Text.startsWith_iff_isPrefix.mpr isTracker
  rw [placeValues, dropStart?_eq_none_of_not_call isTracker.not_call,
    if_pos (by simp [started, unlisted])]

theorem placeValues_other (noCall : ¬ IsCallReference (valueReference value))
    (known : IsTrackerReference (valueReference value) → valueReference value ∈ order) :
    placeValues calls source chain order (value :: values) =
      placeValues calls source chain order values := by
  rw [placeValues, dropStart?_eq_none_of_not_call noCall, if_neg]
  simpa [Text.startsWith_iff_isPrefix, IsTrackerReference] using known

end Steps

/-- What holds of each step of the search holds of the whole search. A call waits already, is in the
order, is unknown, or has values to be placed before it. A value is a call, a tracker that is new,
or nothing that has to be placed. Behind a call the other values are placed in whatever order it
leaves. -/
theorem search_induction (calls : List ForeignCall) {Call : List Text → List Text → Text → Prop}
    {Values : List Text → List Text → List Text → Prop}
    (waiting : ∀ chain order name, name ∈ chain → Call chain order name)
    (placed : ∀ chain order name, name ∉ chain → callPrefix ++ name ∈ order → Call chain order name)
    (missing : ∀ chain order name, name ∉ chain → callPrefix ++ name ∉ order →
      Table.find? ForeignCall.name name calls = none → Call chain order name)
    (call : ∀ chain order name c, name ∉ chain → callPrefix ++ name ∉ order →
      Table.find? ForeignCall.name name calls = some c → Values (chain ++ [name]) order c.values →
      Call chain order name) (nil : ∀ chain order, Values chain order [])
    (callValue : ∀ chain order value values name, valueReference value = callPrefix ++ name →
      Call chain order name → (∀ order', Values chain order' values) →
      Values chain order (value :: values))
    (trackerValue : ∀ chain order value values, IsTrackerReference (valueReference value) →
      valueReference value ∉ order → Values chain (order ++ [valueReference value]) values →
      Values chain order (value :: values))
    (otherValue : ∀ chain order value values, ¬ IsCallReference (valueReference value) →
      (IsTrackerReference (valueReference value) → valueReference value ∈ order) →
      Values chain order values →
      Values chain order (value :: values)) :
    (∀ chain order name, Call chain order name) ∧ ∀ chain order values, Values chain order
      values := by
  -- By induction on the number of calls that do not wait, and for each chain on the values.
  suffices ∀ chain, (∀ order name, Call chain order name) ∧ ∀ values order, Values chain order
      values from
    ⟨fun chain => (this chain).1, fun chain order values => (this chain).2 values order⟩
  intro chain
  induction chain using (measure (callsOutside calls)).wf.induction with
  | _ chain ih =>
  have each : ∀ order name, Call chain order name := by
    intro order name
    by_cases waits : name ∈ chain
    · exact waiting chain order name waits
    · by_cases listed : callPrefix ++ name ∈ order
      · exact placed chain order name waits listed
      · cases found : Table.find? ForeignCall.name name calls with
        | none => exact missing chain order name waits listed found
        | some c =>
          have fewer : callsOutside calls (chain ++ [name]) < callsOutside calls chain :=
            callsOutside_lt (by simpa using waits) found
          exact call chain order name c waits listed found ((ih _ fewer).2 c.values order)
  refine ⟨each, fun values => ?_⟩
  induction values with
  | nil => exact nil chain
  | cons value values later =>
    intro order
    by_cases isCall : IsCallReference (valueReference value)
    · obtain ⟨name, same⟩ := isCall
      exact callValue chain order value values name same.symm (each order name) later
    · by_cases isNew : IsTrackerReference (valueReference value) ∧ valueReference value ∉ order
      · exact trackerValue chain order value values isNew.1 isNew.2 (later _)
      · exact otherValue chain order value values isCall (by simpa using isNew) (later order)

/-- What holds of each way to place a call or the values given to a call holds whenever they are
placed. A call is already in the order, or it is put behind all that it is given. A value is a call,
a tracker that is new, or nothing that has to be placed. -/
theorem place_induction {calls : List ForeignCall} {source : Text}
    {Call : List Text → List Text → Text → List Text → Prop}
    {Values : List Text → List Text → List Text → List Text → Prop}
    (placed : ∀ chain order name, name ∉ chain → callPrefix ++ name ∈ order →
      Call chain order name order)
    (call : ∀ chain order name c order', name ∉ chain → callPrefix ++ name ∉ order →
      Table.find? ForeignCall.name name calls = some c →
      Values (chain ++ [name]) order c.values order' →
      Call chain order name (order' ++ [callPrefix ++ name]))
    (nil : ∀ chain order, Values chain order [] order)
    (callValue : ∀ chain order value values name order₁ order',
      valueReference value = callPrefix ++ name →
      Call chain order name order₁ → Values chain order₁ values order' →
      Values chain order (value :: values) order')
    (trackerValue : ∀ chain order value values order', IsTrackerReference (valueReference value) →
      valueReference value ∉ order → Values chain (order ++ [valueReference value]) values order' →
      Values chain order (value :: values) order')
    (otherValue : ∀ chain order value values order', ¬ IsCallReference (valueReference value) →
      (IsTrackerReference (valueReference value) → valueReference value ∈ order) →
      Values chain order values order' → Values chain order (value :: values) order') :
    (∀ chain order name, ∀ order', placeCall calls source chain order name = .ok order' →
      Call chain order name order') ∧
    ∀ chain order values, ∀ order', placeValues calls source chain order values = .ok order' →
      Values chain order values order' := by
  apply search_induction calls
  case waiting =>
    intro chain order name waits order' h
    rw [placeCall_of_waiting waits] at h
    cases h
  case placed =>
    intro chain order name fresh listed order' h
    rw [placeCall_of_placed fresh listed] at h
    cases h
    exact placed chain order name fresh listed
  case missing =>
    intro chain order name fresh unlisted unknown order' h
    rw [placeCall_of_missing fresh unlisted unknown] at h
    cases h
  case call =>
    intro chain order name c fresh unlisted found ih order' h
    rw [placeCall_of_found fresh unlisted found] at h
    obtain ⟨order₁, supplied, rfl⟩ := map_eq_ok_iff.mp h
    exact call chain order name c order₁ fresh unlisted found (ih order₁ supplied)
  case nil =>
    intro chain order order' h
    rw [placeValues_nil] at h
    cases h
    exact nil chain order
  case callValue =>
    intro chain order value values name isCall first later order' h
    rw [placeValues_call isCall] at h
    obtain ⟨order₁, supplied, rest⟩ := bind_eq_ok_iff.mp h
    exact callValue chain order value values name order₁ order' isCall (first order₁ supplied)
      (later order₁ order' rest)
  case trackerValue =>
    intro chain order value values isTracker unlisted later order' h
    rw [placeValues_tracker isTracker unlisted] at h
    exact trackerValue chain order value values order' isTracker unlisted (later order' h)
  case otherValue =>
    intro chain order value values noCall known later order' h
    rw [placeValues_other noCall known] at h
    exact otherValue chain order value values order' noCall known (later order' h)

/-- Placing a call, or the values given to a call, extends the order by what is placed. -/
theorem extends_place (calls : List ForeignCall) (source : Text) :
    (∀ chain order name, ∀ order', placeCall calls source chain order name = .ok order' →
      Extends calls order order' ∧ callPrefix ++ name ∈ order') ∧
    ∀ chain order values, ∀ order', placeValues calls source chain order values = .ok order' →
      Extends calls order order' ∧ ∀ value ∈ values, IsCallReference (valueReference value) ∨
        IsTrackerReference (valueReference value) → valueReference value ∈ order' := by
  apply place_induction
  case placed => exact fun chain order name _ listed => ⟨.refl, listed⟩
  case call =>
    intro chain order name c order' _ _ found ⟨grown, supplied⟩
    exact ⟨grown.trans (.call found supplied), by simp⟩
  case nil => exact fun chain order => ⟨.refl, by simp⟩
  case callValue =>
    intro chain order value values name order₁ order' isCall ⟨first, listed⟩ ⟨later, supplied⟩
    refine ⟨first.trans later, List.forall_mem_cons.mpr ⟨fun _ => ?_, supplied⟩⟩
    exact isCall ▸ later.2 listed
  case trackerValue =>
    intro chain order value values order' isTracker _ ⟨later, supplied⟩
    refine ⟨(Extends.tracker isTracker).trans later, List.forall_mem_cons.mpr ⟨fun _ => ?_,
      supplied⟩⟩
    exact later.2 (by simp)
  case otherValue =>
    intro chain order value values order' noCall listed ⟨later, supplied⟩
    refine ⟨later, List.forall_mem_cons.mpr ⟨?_, supplied⟩⟩
    rintro (isCall | isTracker)
    · exact absurd isCall noCall
    · exact later.2 (listed isTracker)

/-- The order of a text's dependencies is good, and it has every call that the text names. -/
theorem dependencyOrder_isOrder {calls : List ForeignCall} {source : Text} {order : List Text}
    (h : dependencyOrder calls source = .ok order) :
    IsOrder calls order ∧ ∀ name ∈ callNames source, callPrefix ++ name ∈ order := by
  have run : ∀ (names start : List Text),
      names.foldlM (placeCall calls source []) start = .ok order →
      Extends calls start order ∧ ∀ name ∈ names, callPrefix ++ name ∈ order := by
    intro names
    induction names with
    | nil =>
      intro start h
      cases h
      exact ⟨.refl, by simp⟩
    | cons name names ih =>
      intro start h
      obtain ⟨middle, first, rest⟩ := bind_eq_ok_iff.mp h
      obtain ⟨grown, listed⟩ := (extends_place calls source).1 _ _ _ _ first
      obtain ⟨later, all⟩ := ih middle rest
      exact ⟨grown.trans later, List.forall_mem_cons.mpr ⟨later.2 listed, all⟩⟩
  obtain ⟨grown, all⟩ := run (callNames source) [] h
  exact ⟨grown.1 ⟨.nil, by simp⟩, all⟩

end PolicyRules
