import PolicyRules.Proofs.CallInputs

/-!
# Merging components

Merging lists of components makes one list with an entry for each name, in the order in which the
names first occur. The entry is the first one of its name, unless that is a call which only another
call needs: then the first entry behind it that has the name and a token takes its place. Merging in
steps is merging at once.

The merge of a list with a first entry is the entry kept for its name and the merge of the entries
of other names (`foldl_mergeComponent_cons`), so what is said of a merge goes by the number of
names.

Main statement: `mergeComponents_stable`.
-/

namespace PolicyRules

namespace Component

/-- The entry that is kept under the name of an entry which comes first, when others follow. -/
def settled (first : Component) (later : List Component) : Component :=
  if first.isDependencyOnly then
    (later.find? fun c => c.name == first.name && c.token.isSome).getD first
  else first

variable {first c : Component} {later : List Component}

theorem settled_of_not_dependencyOnly (own : first.isDependencyOnly = false) :
    first.settled later = first := by
  simp [settled, own]

theorem settled_cons_of_ne (other : c.name ≠ first.name) :
    first.settled (c :: later) = first.settled later := by
  simp [settled, other]

theorem isDependencyOnly_of_token (token : c.token.isSome) : c.isDependencyOnly = false := by
  simp [isDependencyOnly, Option.isNone_eq_false_iff.mpr token]

/-- An entry of the same name counts as the merge counts it. -/
theorem settled_cons_of_eq (same : c.name = first.name) :
    first.settled (c :: later) =
      (if first.isDependencyOnly ∧ c.token.isSome then c else first).settled later := by
  by_cases token : c.token.isSome
  · by_cases need : first.isDependencyOnly
    · rw [if_pos ⟨need, token⟩, settled_of_not_dependencyOnly (isDependencyOnly_of_token token)]
      simp [settled, need, same, token]
    · rw [if_neg (fun both => need both.1), settled_of_not_dependencyOnly (by simpa using need),
        settled_of_not_dependencyOnly (by simpa using need)]
  · rw [if_neg (fun both => token both.2)]
    simp [settled, token]

/-- Entries of another name do not count. -/
theorem settled_filter {name : Text} (other : name ≠ first.name) :
    first.settled (later.filter (·.name != name)) = first.settled later := by
  have counts : ∀ c : Component,
      decide ((c.name != name) ∧ (c.name == first.name && c.token.isSome)) =
      (c.name == first.name && c.token.isSome) := by
    intro c
    rw [Bool.eq_iff_iff]
    simp only [decide_eq_true_eq, and_iff_right_iff_imp, Bool.and_eq_true, beq_iff_eq, bne_iff_ne]
    exact fun found same => other (same.symm.trans found.1)
  rw [settled, List.find?_filter, funext counts, settled]

end Component

section Merging

variable {m c : Component} {acc l : List Component}

theorem mergeComponent_cons_of_ne (other : m.name ≠ c.name) :
    mergeComponent (m :: acc) c = m :: mergeComponent acc c := by
  simp only [mergeComponent, List.any_cons, List.map_cons, other, false_and, if_false,
    beq_eq_false_iff_ne.mpr other, Bool.false_or]
  split <;> simp

/-- A component with the same name is merged in its place. -/
theorem mergeComponent_cons_of_eq (same : m.name = c.name) (others : ∀ d ∈ acc, d.name ≠ m.name) :
    mergeComponent (m :: acc) c =
      (if m.isDependencyOnly ∧ c.token.isSome then c else m) :: acc := by
  have kept : ∀ d ∈ acc,
      (if d.name = c.name ∧ d.isDependencyOnly ∧ c.token.isSome then c else d) = d :=
    fun d member => if_neg fun replaced => others d member (replaced.1.trans same.symm)
  rw [mergeComponent, if_pos (by simp [same]), List.map_cons, List.map_congr_left kept]
  simp [same]

/-- What is merged behind an entry settles the entry, and otherwise goes on without its name. -/
theorem foldl_mergeComponent_cons (others : ∀ d ∈ acc, d.name ≠ m.name) :
    l.foldl mergeComponent (m :: acc) =
      m.settled l :: (l.filter (·.name != m.name)).foldl mergeComponent acc := by
  induction l generalizing m acc with
  | nil => simp [Component.settled]
  | cons c l ih =>
    rw [List.foldl_cons]
    by_cases same : m.name = c.name
    · rw [mergeComponent_cons_of_eq same others, Component.settled_cons_of_eq same.symm,
        List.filter_cons_of_neg (by simp [same])]
      split
      · rw [ih (same ▸ others), same]
      · exact ih others
    · have others' : ∀ d ∈ mergeComponent acc c, d.name ≠ m.name := by
        intro d member
        have named : d.name ∈ addName (acc.map Component.name) c.name :=
          map_name_mergeComponent acc c ▸ List.mem_map_of_mem member
        rcases mem_addName.mp named with earlier | new
        · obtain ⟨d', listed, name⟩ := List.mem_map.mp earlier
          exact name ▸ others d' listed
        · exact new ▸ Ne.symm same
      rw [mergeComponent_cons_of_ne same, ih others', Component.settled_cons_of_ne (Ne.symm same),
        List.filter_cons_of_pos (by simpa using Ne.symm same), List.foldl_cons]

/-- The first component is settled by the later ones with its name. -/
theorem foldl_mergeComponent_nil_cons : (m :: l).foldl mergeComponent [] =
    m.settled l :: (l.filter (·.name != m.name)).foldl mergeComponent [] :=
  foldl_mergeComponent_cons (by simp)

/-- The entry kept for a name stands where the name first occurred, among the names that occurred
before. -/
theorem getElem?_foldl_mergeComponent {before later : List Component} {first : Component}
    (new : ∀ c ∈ before, c.name ≠ first.name) :
    ((before ++ first :: later).foldl mergeComponent
      [])[(before.map Component.name).eraseDups.length]? =
      some (first.settled later) := by
  -- The entries that follow the first one are merged without its name, so there are fewer to look
  -- at.
  induction length : before.length using Nat.strongRecOn generalizing before later with
  | ind n ih =>
    cases before with
    | nil =>
      rw [List.nil_append, foldl_mergeComponent_nil_cons]
      rfl
    | cons b before =>
      obtain ⟨other, new⟩ := List.forall_mem_cons.mp new
      have fewer : (before.filter (·.name != b.name)).length < n := by
        rw [← length, List.length_cons]
        exact Nat.lt_succ_of_le (List.length_filter_le _ _)
      have names : ((b :: before).map Component.name).eraseDups.length =
          ((before.filter (·.name != b.name)).map Component.name).eraseDups.length + 1 := by
        rw [List.map_cons, List.eraseDups_cons, List.length_cons, List.filter_map]
        rfl
      have new' : ∀ c ∈ before.filter (·.name != b.name), c.name ≠ first.name :=
        fun c member => new c (List.mem_filter.mp member).1
      rw [List.cons_append, foldl_mergeComponent_nil_cons, names, List.getElem?_cons_succ,
        List.filter_append, List.filter_cons_of_pos (by simpa using Ne.symm other), ih _ fewer new'
          rfl, Component.settled_filter other]

section Names

variable (names : List Text)

theorem foldl_addName_eq_eraseDups : names.foldl addName [] = names.eraseDups := by
  induction names using List.reverseRecOn with
  | nil => rfl
  | append_singleton names name ih =>
    rw [List.foldl_append, ih, List.eraseDups_append]
    by_cases known : name ∈ names
    · simp [addName, List.removeAll, known]
    · simp [addName, List.removeAll, known, List.eraseDups_cons]

theorem nodup_foldl_addName {acc : List Text} (distinct : acc.Nodup) :
    (names.foldl addName acc).Nodup := by
  induction names generalizing acc with
  | nil => exact distinct
  | cons name names ih =>
    refine ih ?_
    rw [addName]
    split
    · exact distinct
    · next new => exact List.concat_eq_append ▸ distinct.concat (by simpa using new)

end Names

theorem map_name_mergeComponents (lists : List (List Component)) :
    (mergeComponents lists).map Component.name =
      (lists.flatten.map Component.name).foldl addName [] :=
  map_name_foldl map_name_mergeComponent _ _

theorem nodup_map_name_mergeComponents (lists : List (List Component)) :
    ((mergeComponents lists).map Component.name).Nodup := by
  rw [map_name_mergeComponents]
  exact nodup_foldl_addName _ .nil

/-- Merging what is merged, and more, is merging all at once. -/
theorem mergeComponents_concat (lists : List (List Component)) (more : List Component) :
    mergeComponents [mergeComponents lists, more] = mergeComponents (lists ++ [more]) := by
  have again : (mergeComponents lists).foldl mergeComponent [] = mergeComponents lists :=
    foldl_eq_append_of_nodup mergeComponent_of_new (nodup_map_name_mergeComponents lists)
  have both : mergeComponents [mergeComponents lists, more] =
      more.foldl mergeComponent ((mergeComponents lists).foldl mergeComponent []) := by
    simp [mergeComponents]
  rw [both, again]
  simp [mergeComponents]

end Merging

/-- Merging is a stable union. The names are distinct and come in the order in which they first
occur. At the place of a name stands its first entry, or, if that is a call which only another call
needs, the first entry behind it with the name and a token, if there is one. Merging what is merged
with one more list is merging all at once. -/
theorem mergeComponents_stable (lists : List (List Component)) :
    ((mergeComponents lists).map Component.name).Nodup ∧
    (mergeComponents lists).map Component.name = (lists.flatten.map Component.name).eraseDups ∧
    (∀ before first later, lists.flatten = before ++ first :: later →
      (∀ c ∈ before, c.name ≠ first.name) →
      (mergeComponents lists)[(before.map Component.name).eraseDups.length]? =
        some (if first.isDependencyOnly then
          (later.find? fun c => c.name == first.name && c.token.isSome).getD first else first)) ∧
    ∀ more, mergeComponents [mergeComponents lists, more] = mergeComponents (lists ++ [more]) := by
  refine ⟨nodup_map_name_mergeComponents lists, ?_, ?_, mergeComponents_concat lists⟩
  · rw [map_name_mergeComponents, foldl_addName_eq_eraseDups]
  · intro before first later entries new
    rw [mergeComponents, entries]
    exact getElem?_foldl_mergeComponent new

/-- Two lists of which the first has a call only as what another call needs, and the second names
the call. -/
def callListedTwice : List (List Component) :=
  let rate : ForeignCall := { name := "rate".toList, id := 2 }
  [[rate.component none, .ofArgument "value".toList 1 "uint256".toList],
    [.ofArgument "to".toList 0 "address".toList, rate.component (some rate.token),
      rate.component (some [])]]

theorem mergeComponents_stable_call :
    (mergeComponents callListedTwice).map Component.name =
      ["FC:rate".toList, "value".toList, "to".toList] ∧
    (mergeComponents callListedTwice)[0]? =
      some ⟨"FC:rate".toList, 2, .foreignCall, "uint256".toList, some "FC#2".toList⟩ ∧
    (mergeComponents callListedTwice)[1]? =
      some ⟨"value".toList, 1, .argument, "uint256".toList, none⟩ := by
  obtain ⟨-, names, entries, -⟩ := mergeComponents_stable callListedTwice
  exact ⟨names.trans (by decide), entries [] _ _ rfl (by simp), entries [_] _ _ rfl (by decide)⟩

end PolicyRules
