import PolicyRules.Proofs.NameBinding

/-!
# Names in components that several texts share

The components of several texts are merged into one list, which has more of them than any of the
texts. A name of one text is still resolved to what it was resolved to in the components of its own
text: what it stands for is among those, because extraction has found it there.

Main statements: `Tables.covers_mergeComponents`, `Tables.Findings.resolvesAlike`,
`Placeholder.exists_ordinal`.
-/

namespace PolicyRules

/-- Whether a list of components has every name of another list, with a token where that has one. -/
def Covers (merged components : List Component) : Prop :=
  ∀ c ∈ components, ∃ d ∈ merged, d.name = c.name ∧ (c.token.isSome → d.token.isSome)

variable {l : List Component} {c : Component} {p q : Placeholder}

theorem Covers.trans {m n : List Component} (h : Covers l m) (h' : Covers m n) : Covers l n := by
  intro c member
  obtain ⟨d, inM, sameD, tokenD⟩ := h' c member
  obtain ⟨e, inL, sameE, tokenE⟩ := h d inM
  exact ⟨e, inL, sameE.trans sameD, fun given => tokenE (tokenD given)⟩

theorem Covers.of_subset {m : List Component} (h : m ⊆ l) : Covers l m :=
  fun c member => ⟨c, h member, rfl, id⟩

/-- Whether a name is resolved alike in two lists of components: to nothing, or to components that
one placeholder binds. -/
def ResolvesAlike (components components' : List Component) (n : Text) : Prop :=
  (resolve components n = none ∧ resolve components' n = none) ∨
    ∃ c c' q, resolve components n = some c ∧ resolve components' n = some c' ∧
      Placeholder.ofComponent c = .ok q ∧ Placeholder.ofComponent c' = .ok q

namespace Tables

variable {tables : Tables} {source n : Text} {dependencies : List Text}
  {components merged : List Component}

/-- What has the name of a foreign call is one. -/
theorem Gives.family_of_call (plain : tables.PlainArguments) (h : tables.Gives c) {name : Text}
    (same : c.name = callPrefix ++ name) : c.family = .foreignCall := by
  cases h with
  | argument first =>
    have noColon := (plain c (List.mem_of_find?_eq_some first)).2
    exact absurd (same ▸ List.mem_append_left _ (by decide)) noColon
  | call => rfl
  | read | updated => cases same
  | @global g found =>
    have other := (dropStart?_reference (mem_of_globalVariable? found)).1
    rw [Text.dropStart?_eq_some_iff.mpr (show g.reference = _ from same)] at other
    cases other

/-- Merging a component keeps all names, and a token takes the place of none. -/
theorem covers_mergeComponent (declared : tables.Declared)
    (gives : ∀ d ∈ components, tables.Gives d) (given : tables.Gives c) :
    Covers (mergeComponent components c) (c :: components) := by
  unfold mergeComponent
  split
  · next known =>
    have kept : ∀ d ∈ components,
        (d.name = c.name ∧ d.isDependencyOnly ∧ c.token.isSome →
        c ∈ components.map fun m => if m.name = c.name ∧ m.isDependencyOnly ∧
        c.token.isSome then c else m) ∧
        (¬ (d.name = c.name ∧ d.isDependencyOnly ∧ c.token.isSome) →
          d ∈ components.map fun m => if m.name = c.name ∧ m.isDependencyOnly ∧
          c.token.isSome then c else m) := by
      intro d member
      exact ⟨fun replaced => List.mem_map.mpr ⟨d, member, if_pos replaced⟩,
        fun stays => List.mem_map.mpr ⟨d, member, if_neg stays⟩⟩
    refine List.forall_mem_cons.mpr ⟨?_, fun d member => ?_⟩
    · obtain ⟨d, member, same⟩ := List.any_eq_true.mp known
      have named : d.name = c.name := by simpa using same
      by_cases replaced : d.isDependencyOnly ∧ c.token.isSome
      · exact ⟨c, (kept d member).1 ⟨named, replaced⟩, rfl, id⟩
      · refine ⟨d, (kept d member).2 fun h => replaced h.2, named, fun token => ?_⟩
        obtain ⟨text, token_eq⟩ := Option.isSome_iff_exists.mp token
        obtain ⟨call, -, rfl, -⟩ := given.exists_call_of_token declared token_eq
        have family := (gives d member).family_of_call declared.plainArguments named
        rw [Component.isDependencyOnly, family] at replaced
        simpa [token, Option.isSome_iff_ne_none] using replaced
    · by_cases replaced : d.name = c.name ∧ d.isDependencyOnly ∧ c.token.isSome
      · exact ⟨c, (kept d member).1 replaced, replaced.1.symm, fun _ => replaced.2.2⟩
      · exact ⟨d, (kept d member).2 replaced, rfl, id⟩
  · exact .of_subset (by simp)

/-- The merged list has every name of each list, with its token. -/
theorem covers_mergeComponents (declared : tables.Declared) {lists : List (List Component)}
    (gives : ∀ l ∈ lists, ∀ c ∈ l, tables.Gives c) (member : l ∈ lists) :
    Covers (mergeComponents lists) l := by
  have folded : ∀ (rest acc : List Component), (∀ c ∈ acc, tables.Gives c) →
      (∀ c ∈ rest, tables.Gives c) →
      Covers (rest.foldl mergeComponent acc) (rest ++ acc) := by
    intro rest
    induction rest with
    | nil => exact fun acc _ _ => .of_subset (by simp)
    | cons c rest ih =>
      intro acc givesAcc givesRest
      obtain ⟨given, later⟩ := List.forall_mem_cons.mp givesRest
      have step := covers_mergeComponent declared givesAcc given
      have givesStep : ∀ d ∈ mergeComponent acc c, tables.Gives d := by
        intro d inStep
        rcases Policy.mem_foldl_mergeComponent (l := [c]) inStep with earlier | new
        · exact givesAcc d earlier
        · exact List.mem_singleton.mp new ▸ given
      have final := ih _ givesStep later
      refine final.trans fun d inAll => ?_
      rcases List.mem_append.mp inAll with first | inAcc
      · rcases List.mem_cons.mp first with rfl | inRest
        · obtain ⟨e, inStep, result⟩ := step d List.mem_cons_self
          exact ⟨e, List.mem_append_right _ inStep, result⟩
        · exact ⟨d, List.mem_append_left _ inRest, rfl, id⟩
      · obtain ⟨e, inStep, result⟩ := step d (List.mem_cons_of_mem _ inAcc)
        exact ⟨e, List.mem_append_right _ inStep, result⟩
  have all : ∀ c ∈ lists.flatten, tables.Gives c := by
    intro c inFlat
    obtain ⟨l', listed, here⟩ := List.mem_flatten.mp inFlat
    exact gives l' listed c here
  refine (folded lists.flatten [] (by simp) all).trans (.of_subset fun c inside => ?_)
  exact List.mem_append_left _ (List.mem_flatten.mpr ⟨l, member, inside⟩)

/-- Components of one name are bound by one placeholder. -/
theorem Gives.exists_ofComponent (plain : tables.PlainArguments) {d : Component}
    (hc : tables.Gives c) (hd : tables.Gives d) (same : c.name = d.name) :
    ∃ q, Placeholder.ofComponent c = .ok q ∧ Placeholder.ofComponent d = .ok q := by
  obtain ⟨q, found, bound⟩ := hc.ofComponent_eq plain
  obtain ⟨q', found', bound'⟩ := hd.ofComponent_eq plain
  rw [same, found'] at found
  obtain rfl := Option.some.inj found
  exact ⟨q', bound, bound'⟩

/-- Components with one token are those of one call. -/
theorem Gives.name_eq_of_token (declared : tables.Declared)
    (ids : (tables.calls.map ForeignCall.id).Nodup) {d : Component} (hc : tables.Gives c)
    (hd : tables.Gives d) (tokenC : c.token = some n) (tokenD : d.token = some n) :
    c.name = d.name := by
  obtain ⟨call, found, rfl, rfl⟩ := hc.exists_call_of_token declared tokenC
  obtain ⟨call', found', rfl, same⟩ := hd.exists_call_of_token declared tokenD
  have sameId : call.id = call'.id := Text.ofInt_injective (List.append_cancel_left same)
  rw [List.inj_on_of_nodup_map ids (mem_calls found) (mem_calls found') sameId]

/-- A name is resolved alike in two lists of components that have the same token or name for it. -/
theorem resolvesAlike (declared : tables.Declared) (ids : (tables.calls.map ForeignCall.id).Nodup)
    (gives : ∀ c ∈ components, tables.Gives c) (gives' : ∀ c ∈ merged, tables.Gives c)
    (tokens : (∃ c ∈ components, c.token = some n) ↔ ∃ c ∈ merged, c.token = some n)
    (names : (∃ c ∈ components, c.name = listedName n) ↔ ∃ c ∈ merged, c.name = listedName n) :
    ResolvesAlike components merged n := by
  by_cases byToken : ∃ c ∈ components, c.token = some n
  · obtain ⟨c, member, token⟩ := byToken
    obtain ⟨c', member', token'⟩ := tokens.mp ⟨c, member, token⟩
    have nonempty : n ≠ [] := by
      obtain ⟨call, -, -, rfl⟩ := (gives c member).exists_call_of_token declared token
      simp [ForeignCall.token]
    obtain ⟨d, inList, tokenD, resolved⟩ := resolve_of_token member token nonempty
    obtain ⟨d', inList', tokenD', resolved'⟩ := resolve_of_token member' token' nonempty
    have same := (gives d inList).name_eq_of_token declared ids (gives' d' inList') tokenD tokenD'
    obtain ⟨q, bound, bound'⟩ :=
      (gives d inList).exists_ofComponent declared.plainArguments (gives' d' inList') same
    exact .inr ⟨d, d', q, resolved, resolved', bound, bound'⟩
  · have noToken : ∀ c ∈ components, c.token ≠ some n :=
      fun c member token => byToken ⟨c, member, token⟩
    have noToken' : ∀ c ∈ merged, c.token ≠ some n :=
      fun c member token => byToken (tokens.mpr ⟨c, member, token⟩)
    by_cases byName : ∃ c ∈ components, c.name = listedName n
    · obtain ⟨c, member, name⟩ := byName
      obtain ⟨c', member', name'⟩ := names.mp ⟨c, member, name⟩
      obtain ⟨d, inList, nameD, resolved⟩ := resolve_of_name member name noToken
      obtain ⟨d', inList', nameD', resolved'⟩ := resolve_of_name member' name' noToken'
      have same : d.name = d'.name := (nameD.trans name).trans (nameD'.trans name').symm
      obtain ⟨q, bound, bound'⟩ :=
        (gives d inList).exists_ofComponent declared.plainArguments (gives' d' inList') same
      exact .inr ⟨d, d', q, resolved, resolved', bound, bound'⟩
    · have unresolved : ∀ {l : List Component}, (∀ c ∈ l, c.token ≠ some n) →
          (¬ ∃ c ∈ l, c.name = listedName n) →
          resolve l n = none := by
        intro l noToken noName
        cases found : resolve l n with
        | none => rfl
        | some c =>
          obtain ⟨member, token | name⟩ := resolve_eq_some found
          · exact absurd token (noToken c member)
          · exact absurd ⟨c, member, name⟩ noName
      exact .inl ⟨unresolved noToken byName, unresolved noToken' fun h => byName (names.mpr h)⟩

/-- The names of the tables. -/
def names (tables : Tables) : List Text :=
  tables.arguments.map Component.name ++ tables.trackers.map Tracker.name ++
    tables.calls.map ForeignCall.name

/-- Whether a text holds neither the token of a subexpression nor a quotation mark. -/
def Unmarked (n : Text) : Prop := hasNumbered "PLH".toList n = false ∧ QuoteFree n

theorem Unmarked.append {start name : Text} (h : Unmarked name) (outside : 'P' ∉ start)
    (free : QuoteFree start) : Unmarked (start ++ name) :=
  ⟨(hasNumbered_append_of_not_mem outside).trans h.1, free.append h.2⟩

/-- A name that refers to something of the tables is unmarked, if the names of the tables are. -/
theorem Gives.unmarked (plain : tables.PlainArguments)
    (unmarked : ∀ name ∈ tables.names, Unmarked name) (h : tables.Gives c)
    (refers : listedName n = c.name) : Unmarked n := by
  simp only [names, List.forall_mem_append, List.forall_mem_map] at unmarked
  obtain ⟨⟨arguments, trackers⟩, calls⟩ := unmarked
  rcases listedName_cases n with ⟨same, noTracker⟩ | ⟨mark, rfl, named⟩
  · rw [same] at refers
    subst refers
    have isTracker : ∀ name, trackerReference? (trackerPrefix ++ name) ≠ none := by
      intro name nothing
      have found := trackerReference?_eq_some_iff.mpr ⟨⟨false, name⟩, rfl, rfl⟩
      exact absurd (found.symm.trans nothing) (by simp)
    cases h with
    | argument first => exact arguments c (List.mem_of_find?_eq_some first)
    | call found => exact (calls _ (mem_calls found)).append (by decide) (by decide)
    | read | updated => exact absurd noTracker (isTracker _)
    | @global g found =>
      have member := mem_of_globalVariable? found
      obtain ⟨name, reference, table⟩ := exists_globalPrefix member
      have free : QuoteFree g.reference := by
        rw [reference]
        exact QuoteFree.append (by decide) table.quoteFree
      exact ⟨(reference_of_mem member).2.2, free⟩
  · obtain ⟨tracker, -, found, -⟩ := h.exists_tracker plain (refers.symm.trans named)
    have start : ∀ isUpdate : Bool, 'P' ∉ (if isUpdate then updatePrefix else trackerPrefix) ∧
        QuoteFree (if isUpdate then updatePrefix else trackerPrefix) := by decide
    have inTable := trackers tracker (Table.mem_of_find? found)
    rw [tracker?_name found] at inTable
    exact inTable.append (start mark.isUpdate).1 (start mark.isUpdate).2

theorem unmarked_token (call : ForeignCall) : Unmarked call.token := by
  refine ⟨?_, quoteFree_token call⟩
  have outside : 'P' ∉ call.token := by
    intro member
    rcases List.mem_append.mp member with letter | number
    · exact absurd letter (by decide)
    · cases id_eq : call.id with
      | ofNat k =>
        rw [id_eq] at number
        exact absurd (isDigit_of_mem_ofNat number) (by decide)
      | negSucc k =>
        rw [id_eq] at number
        rcases List.mem_cons.mp number with sign | digit
        · cases sign
        · exact absurd (isDigit_of_mem_ofNat digit) (by decide)
  have alone : hasNumbered "PLH".toList (call.token ++ []) = _ :=
    hasNumbered_append_of_not_mem outside
  rw [List.append_nil] at alone
  exact alone

/-- A name of a text is resolved in the merged components as in those of the text. -/
theorem Findings.resolvesAlike (declared : tables.Declared)
    (ids : (tables.calls.map ForeignCall.id).Nodup)
    (unmarked : ∀ name ∈ tables.names, Unmarked name) (f : Findings tables source dependencies)
    (noHash : '#' ∉ source) (noNumber : NoNumberBehind source)
    (gives : ∀ c ∈ merged, tables.Gives c)
    (covers : Covers merged (f.components.foldl addComponent []))
    (stands : Unmarked n → ∃ part ∈ (tables.normalize source).unquoted, Stands n none part) :
    ResolvesAlike (f.components.foldl addComponent []) merged n := by
  refine Tables.resolvesAlike declared ids (fun c => f.gives) gives ⟨?_, ?_⟩ ⟨?_, ?_⟩
  · rintro ⟨c, member, token⟩
    obtain ⟨call, inNamed, rfl, rfl⟩ := f.named_of_token declared member token
    obtain ⟨name, -, found⟩ := f.mem_named.mp inNamed
    obtain ⟨d, inMerged, same, given⟩ := covers _ member
    obtain ⟨text, token'⟩ := Option.isSome_iff_exists.mp (given rfl)
    obtain ⟨call', found', rfl, rfl⟩ := (gives d inMerged).exists_call_of_token declared token'
    have sameName : call'.name = call.name := List.append_cancel_left same
    rw [sameName, call?_name found, found] at found'
    obtain rfl := Option.some.inj found'
    exact ⟨_, inMerged, rfl⟩
  · rintro ⟨c, member, token⟩
    obtain ⟨call, -, -, rfl⟩ := (gives c member).exists_call_of_token declared token
    obtain ⟨part, listed, here⟩ := stands (unmarked_token call)
    obtain ⟨name, marked, other, found, same⟩ :=
      exists_call_of_stands f.knowsCalls noHash noNumber listed here
    have inNamed : other ∈ f.named := f.mem_named.mpr ⟨name, marked, found⟩
    exact ⟨_, f.token_of_named declared inNamed, congrArg some same⟩
  · rintro ⟨c, member, name⟩
    obtain ⟨d, inMerged, same, -⟩ := covers c member
    exact ⟨d, inMerged, same.trans name⟩
  · rintro ⟨c, member, name⟩
    obtain ⟨part, listed, here⟩ :=
      stands ((gives c member).unmarked declared.plainArguments unmarked name.symm)
    obtain ⟨d, inList, same⟩ := f.listed_of_stands declared (gives c member) name.symm listed here
    exact ⟨d, inList, same.trans name⟩

end Tables

namespace Placeholder

theorem binds_of_same (made : ofComponent c = .ok q) (same : p.Same q) : p.binds c = .ok true := by
  obtain ⟨flag, flag_eq, made⟩ := bind_eq_ok_iff.mp made
  obtain rfl := pure_eq_ok_iff.mp made
  obtain ⟨index, flags⟩ := same
  rw [binds, if_pos index, flag_eq]
  simp only at flags
  simp [flags, bind, Except.bind, pure, Except.pure]

theorem exists_binds (made : ofComponent c = .ok q) : ∃ found, p.binds c = .ok found := by
  obtain ⟨flag, flag_eq, -⟩ := bind_eq_ok_iff.mp made
  unfold binds
  split
  · exact ⟨_, by rw [flag_eq]; rfl⟩
  · exact ⟨_, rfl⟩

/-- A component that is bound by a placeholder of the list has a place there. -/
theorem exists_ordinal_of_mem {placeholders : List Placeholder}
    (made : ofComponent c = .ok q) (member : p ∈ placeholders) (same : p.Same q) (source : Text) :
    ∃ k, ordinal placeholders source c = .ok k := by
  have found : ∀ start, ∃ k, ordinalFrom c start placeholders = .ok (some k) := by
    induction placeholders with
    | nil => cases member
    | cons first rest ih =>
      intro start
      obtain ⟨isFirst, binds⟩ := exists_binds (p := first) made
      cases isFirst with
      | true => exact ⟨start, by rw [ordinalFrom, binds]; rfl⟩
      | false =>
        rcases List.mem_cons.mp member with rfl | later
        · rw [binds_of_same made same] at binds
          cases binds
        · obtain ⟨k, found⟩ := ih later (start + 1)
          exact ⟨k, by rw [ordinalFrom, binds]; exact found⟩
  obtain ⟨k, found⟩ := found 0
  exact ⟨k, by rw [ordinal, found]; rfl⟩

/-- A component of a list is read through one of the placeholders of the list, which has its index
and flag. -/
theorem exists_ordinal {components : List Component} {placeholders : List Placeholder}
    (made : ofComponents components = .ok placeholders) (member : c ∈ components)
    (value : ofComponent c = .ok q) (source : Text) :
    ∃ k p, ordinal placeholders source c = .ok k ∧ placeholders[k]? = some p ∧ p.Same q := by
  obtain ⟨list, each, same⟩ := bind_eq_ok_iff.mp made
  obtain rfl := pure_eq_ok_iff.mp same
  have listed : q ∈ list := (mem_of_mapM_eq_ok each).mpr ⟨c, member, value⟩
  obtain ⟨p, kept, sameP⟩ := exists_same_of_foldl listed
  obtain ⟨k, placed⟩ := exists_ordinal_of_mem value kept sameP source
  obtain ⟨p', at_k, binds⟩ := ordinal_eq_ok placed
  exact ⟨k, p', placed, at_k, same_of_binds binds value⟩

end Placeholder

end PolicyRules
