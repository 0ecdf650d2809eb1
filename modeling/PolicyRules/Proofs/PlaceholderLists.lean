import PolicyRules.Proofs.SharedPlaceholders

/-!
# Placeholder lists

The placeholders of a list of components have distinct indices and flags. Each component is bound by
just one of them, and each of them binds a component; so instructions that name components by the
places of their placeholders tell two components apart exactly if their indices or flags differ.
Placeholders of further components come behind.

Main statement: `Placeholder.ofComponents_exact`.
-/

namespace PolicyRules

/-- Whether the global variables among components are known by their names. -/
def GlobalsKnown (components : List Component) : Prop :=
  ∀ c ∈ components, c.family = .globalVariable → (globalVariable? c.name).isSome

instance (components : List Component) : Decidable (GlobalsKnown components) :=
  inferInstanceAs
    (Decidable (∀ c ∈ components, c.family = .globalVariable →
      (globalVariable? c.name).isSome))

/-- A component has a flag unless it is an unknown global variable. -/
theorem Component.exists_flag_iff {c : Component} :
    (∃ flag, c.flag = .ok flag) ↔
      (c.family = .globalVariable → (globalVariable? c.name).isSome) := by
  obtain ⟨name, index, family, typeName, token⟩ := c
  cases family with
  | globalVariable =>
    cases found : globalVariable? name <;> simp [flag, found]
  | _ => simp [flag]

namespace Placeholder

variable {components more : List Component} {placeholders : List Placeholder} {c d : Component}
  {p q : Placeholder}

theorem ofComponent_eq_ok_iff :
    ofComponent c = .ok p ↔ ∃ flag, c.flag = .ok flag ∧ ⟨c.type, c.index, flag⟩ = p := by
  simp only [ofComponent, bind_eq_ok_iff, pure_eq_ok_iff]

theorem ofComponents_eq_ok_iff : ofComponents components = .ok placeholders ↔
    ∃ bound, components.mapM ofComponent = .ok bound ∧ bound.foldl addTo [] = placeholders := by
  simp only [ofComponents, bind_eq_ok_iff, pure_eq_ok_iff]

theorem exists_ofComponent_iff : (∃ p, ofComponent c = .ok p) ↔ ∃ flag, c.flag = .ok flag := by
  simp only [ofComponent_eq_ok_iff]
  constructor
  · rintro ⟨p, flag, flag_eq, -⟩
    exact ⟨flag, flag_eq⟩
  · rintro ⟨flag, flag_eq⟩
    exact ⟨_, flag, flag_eq, rfl⟩

/-- A list of components has placeholders exactly if its global variables are known. -/
theorem exists_ofComponents_iff :
    (∃ list, ofComponents components = .ok list) ↔ GlobalsKnown components := by
  have each : (∃ list, ofComponents components = .ok list) ↔
      ∃ bound, components.mapM ofComponent = .ok bound := by
    simp only [ofComponents_eq_ok_iff]
    constructor
    · rintro ⟨list, bound, bound_eq, -⟩
      exact ⟨bound, bound_eq⟩
    · rintro ⟨bound, bound_eq⟩
      exact ⟨_, bound, bound_eq, rfl⟩
  rw [each, exists_mapM_eq_ok_iff]
  simp only [exists_ofComponent_iff, Component.exists_flag_iff]
  rfl

section Keys

/-- What a placeholder is told by. -/
def key (p : Placeholder) : Int × Int := (p.index, p.flag)

theorem key_eq_iff {p q : Placeholder} : p.key = q.key ↔ p.Same q := Prod.mk.injEq .. ▸ Iff.rfl

theorem isPrefix_addTo (list : List Placeholder) (p : Placeholder) : list <+: addTo list p := by
  rw [addTo]
  split
  · exact List.prefix_rfl
  · exact List.prefix_append _ _

theorem isPrefix_foldl_addTo (list : List Placeholder) (acc : List Placeholder) :
    acc <+: list.foldl addTo acc := by
  induction list generalizing acc with
  | nil => exact List.prefix_rfl
  | cons p list ih => exact (isPrefix_addTo acc p).trans (ih _)

theorem nodup_addTo {list : List Placeholder} (distinct : (list.map key).Nodup) (p : Placeholder) :
    ((addTo list p).map key).Nodup := by
  rw [addTo]
  split
  · exact distinct
  · next new =>
    rw [List.map_append, List.map_singleton]
    refine List.concat_eq_append ▸ distinct.concat fun member => new ?_
    obtain ⟨q, listed, same⟩ := List.mem_map.mp member
    refine List.any_eq_true.mpr ⟨q, listed, ?_⟩
    obtain ⟨index, flag⟩ := key_eq_iff.mp same
    simp [index, flag]

theorem nodup_foldl_addTo (list : List Placeholder) {acc : List Placeholder}
    (distinct : (acc.map key).Nodup) : ((list.foldl addTo acc).map key).Nodup := by
  induction list generalizing acc with
  | nil => exact distinct
  | cons p list ih => exact ih (nodup_addTo distinct p)

theorem nodup_of_ofComponents (made : ofComponents components = .ok placeholders) :
    (placeholders.map key).Nodup := by
  obtain ⟨bound, -, rfl⟩ := ofComponents_eq_ok_iff.mp made
  exact nodup_foldl_addTo bound .nil

/-- At different places stand placeholders of different indices or flags. -/
theorem eq_of_same (distinct : (placeholders.map key).Nodup) {i j : Nat}
    (at_i : placeholders[i]? = some p) (at_j : placeholders[j]? = some q) (same : p.Same q) :
    i = j := by
  have inside : i < (placeholders.map key).length := by
    rw [List.length_map]
    exact (List.getElem?_eq_some_iff.mp at_i).1
  refine (List.getElem?_inj inside distinct).mp ?_
  rw [List.getElem?_map, List.getElem?_map, at_i, at_j]
  exact congrArg some (key_eq_iff.mpr same)

end Keys

theorem binds_iff_same (value : ofComponent c = .ok q) : p.binds c = .ok true ↔ p.Same q :=
  ⟨fun binds => same_of_binds binds value, binds_of_same value⟩

/-- Where placeholders have distinct indices and flags, the place of a component is that of the one
placeholder with the component's index and flag. -/
theorem ordinal_eq_ok_iff (distinct : (placeholders.map key).Nodup) (value : ofComponent c = .ok q)
    (source : Text) {place : Nat} :
    ordinal placeholders source c = .ok place ↔ ∃ p, placeholders[place]? = some p ∧ p.Same q := by
  constructor
  · intro placed
    obtain ⟨p, here, binds⟩ := ordinal_eq_ok placed
    exact ⟨p, here, same_of_binds binds value⟩
  · rintro ⟨p, here, same⟩
    obtain ⟨k, placed⟩ := exists_ordinal_of_mem value (List.mem_of_getElem? here) same source
    obtain ⟨p', at_k, binds⟩ := ordinal_eq_ok placed
    have same' : p'.Same p := by
      obtain ⟨index, flag⟩ := same_of_binds binds value
      exact ⟨index.trans same.1.symm, flag.trans same.2.symm⟩
    rwa [eq_of_same distinct at_k here same'] at placed

section Components

variable (made : ofComponents components = .ok placeholders)
include made

theorem exists_value_of_mem (member : c ∈ components) : ∃ q, ofComponent c = .ok q := by
  obtain ⟨bound, each, -⟩ := ofComponents_eq_ok_iff.mp made
  exact exists_mapM_eq_ok_iff.mp ⟨bound, each⟩ c member

/-- Each component is bound at just one place. -/
theorem existsUnique_place (member : c ∈ components) :
    ∃! place : Nat, ∃ p : Placeholder, placeholders[place]? = some p ∧ p.binds c = .ok true := by
  obtain ⟨q, value⟩ := exists_value_of_mem made member
  have distinct := nodup_of_ofComponents made
  obtain ⟨k, p, placed, -⟩ := exists_ordinal made member value []
  simp only [binds_iff_same value, ← ordinal_eq_ok_iff distinct value []]
  exact ⟨k, placed, fun place placed' => Except.ok.inj (placed'.symm.trans placed)⟩

/-- Each placeholder binds a component. -/
theorem exists_binds_of_mem (member : p ∈ placeholders) :
    ∃ c ∈ components, p.binds c = .ok true := by
  obtain ⟨bound, each, rfl⟩ := ofComponents_eq_ok_iff.mp made
  obtain ⟨c, listed, value⟩ := (mem_of_mapM_eq_ok each).mp (mem_of_mem_foldl_addTo member)
  exact ⟨c, listed, binds_of_same value ⟨rfl, rfl⟩⟩

/-- Two components have one place exactly if they have one index and flag. -/
theorem ordinal_eq_iff (source : Text) (hc : c ∈ components) (hd : d ∈ components) :
    ordinal placeholders source c = ordinal placeholders source d ↔
      c.index = d.index ∧ c.flag = d.flag := by
  have distinct := nodup_of_ofComponents made
  obtain ⟨q, valueC⟩ := exists_value_of_mem made hc
  obtain ⟨r, valueD⟩ := exists_value_of_mem made hd
  obtain ⟨k, p, placed, at_k, same⟩ := exists_ordinal made hc valueC source
  obtain ⟨flag, flag_eq, rfl⟩ := ofComponent_eq_ok_iff.mp valueC
  obtain ⟨flag', flag_eq', rfl⟩ := ofComponent_eq_ok_iff.mp valueD
  rw [placed, flag_eq, flag_eq', eq_comm, ordinal_eq_ok_iff distinct valueD source]
  constructor
  · rintro ⟨p', here, same'⟩
    obtain rfl := Option.some.inj (at_k.symm.trans here)
    exact ⟨same.1.symm.trans same'.1,
      congrArg Except.ok (Int.ofNat.inj (same.2.symm.trans same'.2))⟩
  · rintro ⟨index, flags⟩
    exact ⟨p, at_k, same.1.trans index, same.2.trans (congrArg Int.ofNat (Except.ok.inj flags))⟩

/-- The placeholders of further components come behind. -/
theorem isPrefix_of_append {longer : List Placeholder}
    (extended : ofComponents (components ++ more) = .ok longer) : placeholders <+: longer := by
  obtain ⟨bound, each, rfl⟩ := ofComponents_eq_ok_iff.mp made
  obtain ⟨all, each', rfl⟩ := ofComponents_eq_ok_iff.mp extended
  obtain ⟨first, bound', first_eq, -, rfl⟩ := mapM_append_eq_ok_iff.mp each'
  obtain rfl := Except.ok.inj (each.symm.trans first_eq)
  rw [List.foldl_append]
  exact isPrefix_foldl_addTo bound' _

/-- Places stay when there are further components. -/
theorem ordinal_append {longer : List Placeholder}
    (extended : ofComponents (components ++ more) = .ok longer) (source : Text)
    (member : c ∈ components) : ordinal longer source c = ordinal placeholders source c := by
  obtain ⟨q, value⟩ := exists_value_of_mem made member
  obtain ⟨k, p, placed, at_k, same⟩ := exists_ordinal made member value source
  rw [placed, ordinal_eq_ok_iff (nodup_of_ofComponents extended) value source]
  obtain ⟨behind, rfl⟩ := isPrefix_of_append made extended
  rw [List.getElem?_append_left (List.getElem?_eq_some_iff.mp at_k).1]
  exact ⟨p, at_k, same⟩

end Components

end Placeholder

/-- Placeholder lists are exact and grow at the end. Known global variables provided, the
placeholders of a list of components have distinct indices and flags, each component is bound at one
place only and each placeholder binds a component. Every component has a place, the same for two
components exactly if their indices and flags are the same. The placeholders of more components
begin with them, so that places do not change. -/
theorem Placeholder.ofComponents_exact {components : List Component}
    (known : GlobalsKnown components) :
    ∃ placeholders, ofComponents components = .ok placeholders ∧
      (placeholders.map fun p => (p.index, p.flag)).Nodup ∧
      (∀ c ∈ components, ∃! place : Nat, ∃ p : Placeholder,
        placeholders[place]? = some p ∧ p.binds c = .ok true) ∧
      (∀ p ∈ placeholders, ∃ c ∈ components, p.binds c = .ok true) ∧
      (∀ source, ∀ c ∈ components, ∃ place, ordinal placeholders source c = .ok place) ∧
      (∀ source, ∀ c ∈ components, ∀ d ∈ components,
        ordinal placeholders source c = ordinal placeholders source d ↔
        c.index = d.index ∧ c.flag = d.flag) ∧
      (∀ more, GlobalsKnown more → ∃ longer, ofComponents (components ++ more) = .ok longer) ∧
      ∀ more longer, ofComponents (components ++ more) = .ok longer → placeholders <+: longer ∧
        ∀ source, ∀ c ∈ components, ordinal longer source c = ordinal placeholders source c := by
  obtain ⟨placeholders, made⟩ := exists_ofComponents_iff.mpr known
  refine ⟨placeholders, made, nodup_of_ofComponents made, fun c => existsUnique_place made,
    fun p => exists_binds_of_mem made, fun source c member => ?_, fun source c hc d =>
      ordinal_eq_iff made source hc,
    fun more known' => exists_ofComponents_iff.mpr (List.forall_mem_append.mpr ⟨known, known'⟩), ?_⟩
  · obtain ⟨q, value⟩ := exists_value_of_mem made member
    obtain ⟨place, p, placed, -⟩ := exists_ordinal made member value source
    exact ⟨place, placed⟩
  · intro more longer extended
    exact ⟨isPrefix_of_append made extended, fun source c => ordinal_append made extended source⟩

/-- Components of all families, of which a tracker is read and changed. -/
def componentsOfAllFamilies : List Component :=
  let count : Tracker := { name := "count".toList, id := 1 }
  let rate : ForeignCall := { name := "rate".toList, id := 1 }
  [.ofArgument "to".toList 0 "address".toList, ⟨"GV:MSG_SENDER".toList, 0, .globalVariable,
    "address".toList, none⟩, count.read, count.updated, rate.component (some rate.token)]

theorem Placeholder.ofComponents_exact_families : GlobalsKnown componentsOfAllFamilies ∧
    ∃ placeholders, ofComponents componentsOfAllFamilies = .ok placeholders ∧
      (placeholders.map fun p => (p.index, p.flag)) = [(0, 0), (0, 4), (1, 2), (1, 1)] ∧
      ∀ source, ordinal placeholders source (Tracker.read ⟨"count".toList, 1, .uint256⟩) =
        ordinal placeholders source (Tracker.updated ⟨"count".toList, 1, .uint256⟩) := by
  have known : GlobalsKnown componentsOfAllFamilies := by decide
  obtain ⟨placeholders, made, -, -, -, -, places, -⟩ := ofComponents_exact known
  refine ⟨known, placeholders, made, ?_, fun source => (places source _ ?_ _ ?_).mpr ⟨rfl, rfl⟩⟩
  · obtain rfl := Except.ok.inj (made.symm.trans rfl)
    decide
  · simp [componentsOfAllFamilies]
  · simp [componentsOfAllFamilies]

end PolicyRules
