import PolicyRules.Proofs.CallTokens
import PolicyRules.Proofs.NameResolution
import PolicyRules.Proofs.Stream

/-!
# Names are bound to their values

What a name of a condition stands for is said by the tables: an argument, the result of a foreign
call that the text names, a tracker or a global variable. A compiled condition reads each such name
through the placeholder of just that value, loads every other name as a literal without a type, and
names trackers by their ids in the table.

Main statement: `Policy.lowers_of_compiled`.
-/

namespace PolicyRules

variable {t name : Text} {c : Component} {call : ForeignCall} {q : Placeholder} {b : Bindings}

/-- What lies before the first character of a numbered word makes no difference. -/
theorem hasNumbered_append_of_not_mem {c : Char} {start u : Text} (outside : c ∉ u) :
    hasNumbered (c :: start) (u ++ t) = hasNumbered (c :: start) t := by
  induction u with
  | nil => rfl
  | cons d u ih =>
    obtain ⟨other, later⟩ : c ≠ d ∧ c ∉ u := by simpa using outside
    rw [← ih later]
    simp [hasNumbered, Text.dropStart?, other]

/-- Whether the tables are well named: the names are plain, hold no token of a subexpression and are
distinct within each family, and so are the ids. -/
structure Tables.WellNamed (tables : Tables) : Prop where
  plain : ∀ name ∈ tables.arguments.map Component.name ++ tables.trackers.map Tracker.name ++
    tables.calls.map ForeignCall.name, IsPlainName name ∧ hasNumbered "PLH".toList name = false
  arguments : (tables.arguments.map Component.name).Nodup
  trackers : (tables.trackers.map Tracker.name).Nodup
  calls : (tables.calls.map ForeignCall.name).Nodup
  trackerIds : (tables.trackers.map Tracker.id).Nodup
  callIds : (tables.calls.map ForeignCall.id).Nodup

/-- What a name of a text stands for, as the placeholder that binds it. A foreign call is named
outside quotes and outside the argument lists of other calls; its token stands for it then. -/
inductive Tables.Denotes (tables : Tables) (source : Text) : Text → Placeholder → Prop
  | argument {c : Component} (h : c ∈ tables.arguments) :
    Denotes tables source c.name ⟨c.type, c.index, 0⟩
  | call {call : ForeignCall} (h : call ∈ tables.calls)
    (named : call.name ∈ unquotedMarks callAt (Text.clean source)) :
    Denotes tables source call.token ⟨.ofName call.returnType, call.id, 1⟩
  | tracker {tracker : Tracker} (h : tracker ∈ tables.trackers) (isUpdate : Bool) :
    Denotes tables source (TrackerMark.reference ⟨isUpdate, tracker.name⟩)
      ⟨.ofName tracker.typeName, tracker.id, 2⟩
  | global {g : GlobalVariable} (h : g ∈ globalVariables) :
    Denotes tables source g.reference ⟨.ofName g.typeName, 0, g.flag⟩

namespace Tables

variable {tables : Tables} {source n : Text} {dependencies : List Text} {q : Placeholder}

namespace WellNamed

variable (named : tables.WellNamed)
include named

theorem of_argument (h : c ∈ tables.arguments) :
    IsPlainName c.name ∧ hasNumbered "PLH".toList c.name = false :=
  named.plain c.name (by simp only [List.mem_append]; exact .inl (.inl (List.mem_map_of_mem h)))

theorem of_tracker {tracker : Tracker} (h : tracker ∈ tables.trackers) :
    IsPlainName tracker.name ∧ hasNumbered "PLH".toList tracker.name = false :=
  named.plain tracker.name
    (by simp only [List.mem_append]; exact .inl (.inr (List.mem_map_of_mem h)))

theorem of_call (h : call ∈ tables.calls) :
    IsPlainName call.name ∧ hasNumbered "PLH".toList call.name = false :=
  named.plain call.name (by simp only [List.mem_append]; exact .inr (List.mem_map_of_mem h))

theorem tracker? {tracker : Tracker} (h : tracker ∈ tables.trackers) :
    tables.tracker? tracker.name = some tracker := Table.find?_eq_some_of_mem named.trackers h

theorem call? (h : call ∈ tables.calls) : tables.call? call.name = some call :=
  Table.find?_eq_some_of_mem named.calls h

theorem argument? (h : c ∈ tables.arguments) :
    tables.arguments.find? (·.name == c.name) = some c := by
  obtain ⟨d, found⟩ : ∃ d, tables.arguments.find? (·.name == c.name) = some d := by
    rw [← Option.isSome_iff_exists, List.find?_isSome]
    exact ⟨c, h, by simp⟩
  have same : d.name = c.name := by simpa using List.find?_some found
  rw [found, List.inj_on_of_nodup_map named.arguments (List.mem_of_find?_eq_some found) h same]

/-- A component whose token is that of a call is the component of the call. -/
theorem eq_of_token (declared : tables.Declared) (gives : tables.Gives c)
    (h : call ∈ tables.calls) (token : c.token = some call.token) :
    c = call.component (some call.token) := by
  obtain ⟨call', found, rfl, same⟩ := gives.exists_call_of_token declared token
  have ids : call.id = call'.id := Text.ofInt_injective (List.append_cancel_left same)
  rw [List.inj_on_of_nodup_map named.callIds h (mem_calls found) ids]

end WellNamed

theorem globalVariable?_of_mem {g : GlobalVariable} (h : g ∈ globalVariables) :
    globalVariable? g.reference = some g := by
  simp only [globalVariables, List.mem_cons, List.not_mem_nil, or_false] at h
  rcases h with rfl | rfl | rfl | rfl | rfl <;> decide

theorem reference_of_mem {g : GlobalVariable} (h : g ∈ globalVariables) :
    trackerReference? g.reference = none ∧ '#' ∉ g.reference ∧
      hasNumbered "PLH".toList g.reference = false := by
  simp only [globalVariables, List.mem_cons, List.not_mem_nil, or_false] at h
  rcases h with rfl | rfl | rfl | rfl | rfl <;> decide

/-- What a name stands for, other than a call, is given by the tables under the name by which it is
listed. -/
theorem Denotes.cases_gives (declared : tables.Declared) (named : tables.WellNamed)
    (h : tables.Denotes source n q) :
    (∃ call ∈ tables.calls, call.name ∈ unquotedMarks callAt (Text.clean source) ∧ n = call.token ∧
      q = ⟨.ofName call.returnType, call.id, 1⟩) ∨
    ∃ c, tables.Gives c ∧ listedName n = c.name ∧ Placeholder.ofComponent c = .ok q ∧ '#' ∉ n ∧
      hasNumbered "PLH".toList n = false := by
  cases h with
  | @argument c member =>
    obtain ⟨plain, unmarked⟩ := named.of_argument member
    have family := (declared.plainArguments c member).1
    refine .inr ⟨c, .argument (named.argument? member), ?_, ?_, plain.isTableName.hash_not_mem,
      unmarked⟩
    · rcases listedName_cases c.name with ⟨same, -⟩ | ⟨mark, same, -⟩
      · exact same
      · exact absurd (same ▸ mark.colon_mem) plain.colon_not_mem
    · simp only [Placeholder.ofComponent, Component.flag, family]
      rfl
  | @call call member marked => exact .inl ⟨call, member, marked, rfl, rfl⟩
  | @tracker tracker member isUpdate =>
    obtain ⟨plain, unmarked⟩ := named.of_tracker member
    have start : ∀ b : Bool, '#' ∉ (if b then updatePrefix else trackerPrefix) ∧
        'P' ∉ (if b then updatePrefix else trackerPrefix) := by decide
    refine .inr ⟨tracker.read, .read (named.tracker? member), listedName_reference _, rfl, ?_, ?_⟩
    · exact fun hash => (List.mem_append.mp hash).elim (start isUpdate).1
        plain.isTableName.hash_not_mem
    · rw [TrackerMark.reference, ← unmarked]
      exact hasNumbered_append_of_not_mem (start isUpdate).2
  | @global g member =>
    have found := globalVariable?_of_mem member
    obtain ⟨noTracker, noHash, unmarked⟩ := reference_of_mem member
    refine .inr ⟨g.component, .global found, listedName_of_not_tracker noTracker, ?_,
      noHash, unmarked⟩
    simp only [Placeholder.ofComponent, Component.flag, GlobalVariable.component, found]
    rfl

/-- A name of the tree that stands for something is resolved to it. -/
theorem Denotes.resolve_eq_some (declared : tables.Declared) (named : tables.WellNamed)
    (f : Findings tables source dependencies) (h : tables.Denotes source n q)
    (stands : hasNumbered "PLH".toList n = false →
      ∃ part ∈ (tables.normalize source).unquoted, Stands n none part) :
    ∃ c, resolve (f.components.foldl addComponent []) n = some c ∧
      Placeholder.ofComponent c = .ok q := by
  rcases h.cases_gives declared named with ⟨call, member, marked, rfl, rfl⟩ |
    ⟨c, gives, refers, bound, noHash, unmarked⟩
  · have inNamed : call ∈ f.named := f.mem_named.mpr ⟨call.name, marked, named.call? member⟩
    obtain ⟨d, inList, token, resolved⟩ :=
      resolve_of_token (f.token_of_named declared inNamed) rfl (by simp [ForeignCall.token])
    rw [named.eq_of_token declared (f.gives inList) member token] at resolved
    exact ⟨_, resolved, rfl⟩
  · obtain ⟨part, listed, here⟩ := stands unmarked
    obtain ⟨d, inList, same⟩ := f.listed_of_stands declared gives refers listed here
    have noToken : ∀ e ∈ f.components.foldl addComponent [], e.token ≠ some n := by
      intro e inComponents token
      obtain ⟨call, -, -, rfl⟩ := (f.gives inComponents).exists_call_of_token declared token
      exact noHash (List.mem_append_left _ (by decide))
    obtain ⟨e, inComponents, named', resolved⟩ :=
      resolve_of_name inList (same.trans refers.symm) noToken
    obtain ⟨q', placeholder', bound'⟩ :=
      (f.gives inComponents).ofComponent_eq declared.plainArguments
    obtain ⟨q'', placeholder'', bound''⟩ := gives.ofComponent_eq declared.plainArguments
    obtain rfl := Except.ok.inj (bound.symm.trans bound'')
    rw [named', same, placeholder''] at placeholder'
    obtain rfl := Option.some.inj placeholder'
    exact ⟨e, resolved, bound'⟩

/-- What a name of the tree is resolved to, it stands for. -/
theorem denotes_of_resolve (declared : tables.Declared) (named : tables.WellNamed)
    (f : Findings tables source dependencies) (stands : hasNumbered "PLH".toList n = false →
      ∃ part ∈ (tables.normalize source).unquoted, Stands n none part)
    (h : resolve (f.components.foldl addComponent []) n = some c) :
    ∃ q, tables.Denotes source n q := by
  obtain ⟨member, token | name⟩ := PolicyRules.resolve_eq_some h
  · obtain ⟨call, inNamed, -, rfl⟩ := f.named_of_token declared member token
    obtain ⟨name, marked, found⟩ := f.mem_named.mp inNamed
    rw [← call?_name found] at marked
    exact ⟨_, .call (mem_calls found) marked⟩
  rcases listedName_cases n with ⟨same, noTracker⟩ | ⟨mark, rfl, same⟩
  · rw [same] at name
    subst name
    cases f.gives member with
    | argument first => exact ⟨_, .argument (List.mem_of_find?_eq_some first)⟩
    | @call call found token own =>
      -- A call that is only needed by another one has no token, and its reference is not left in
      -- the text.
      have table := declared.calls call (mem_calls found)
      have unmarked : hasNumbered "PLH".toList call.reference = false := by
        rw [ForeignCall.reference, ← (named.of_call (mem_calls found)).2]
        exact hasNumbered_append_of_not_mem (by decide)
      obtain ⟨part, listed, here⟩ := stands unmarked
      exact absurd here (not_stands_callReference f.knowsCalls table listed)
    | @read tracker found | @updated tracker found =>
      exact ⟨_, .tracker (Table.mem_of_find? found) false⟩
    | @global g found => exact ⟨_, .global (mem_of_globalVariable? found)⟩
  · obtain ⟨tracker, -, found, -⟩ :=
      (f.gives member).exists_tracker declared.plainArguments (name.trans same)
    obtain ⟨isUpdate, name'⟩ := mark
    obtain rfl := tracker?_name found
    exact ⟨_, .tracker (Table.mem_of_find? found) isUpdate⟩

end Tables

namespace Placeholder

variable {placeholders : List Placeholder} {c : Component}

/-- A placeholder that binds a component is like the one made for it. -/
theorem same_of_binds {p : Placeholder} (h : p.binds c = .ok true) (made : ofComponent c = .ok q) :
    p.Same q := by
  obtain ⟨flag, flag_eq, same⟩ := bind_eq_ok_iff.mp made
  obtain rfl := pure_eq_ok_iff.mp same
  unfold binds at h
  split at h
  · next index =>
    obtain ⟨flag', flag_eq', same'⟩ := bind_eq_ok_iff.mp h
    obtain rfl := Except.ok.inj (flag_eq.symm.trans flag_eq')
    exact ⟨index, by simpa using pure_eq_ok_iff.mp same'⟩
  · cases h

theorem mem_of_mem_foldl_addTo {list : List Placeholder} (h : q ∈ list.foldl addTo []) :
    q ∈ list := by
  obtain ⟨before, behind, split⟩ := List.append_of_mem h
  obtain ⟨earlier, later, rfl, -⟩ := exists_of_foldl_addTo split
  simp

end Placeholder

namespace Tables

variable {tables : Tables} {components : List Component} {placeholders : List Placeholder}

/-- The placeholders that bind what the tables give, by family. -/
theorem Gives.placeholder_cases (plain : tables.PlainArguments) (h : tables.Gives c)
    (made : Placeholder.ofComponent c = .ok q) :
    (∃ a ∈ tables.arguments, q = ⟨a.type, a.index, 0⟩) ∨
    (∃ call ∈ tables.calls, q = ⟨.ofName call.returnType, call.id, 1⟩) ∨
    (∃ tracker ∈ tables.trackers, q = ⟨.ofName tracker.typeName, tracker.id, 2⟩) ∨
    ∃ g ∈ globalVariables, 4 ≤ g.flag ∧ q = ⟨.ofName g.typeName, 0, g.flag⟩ := by
  have flags : ∀ g ∈ globalVariables, 4 ≤ g.flag := by decide
  cases h with
  | argument first =>
    have member := List.mem_of_find?_eq_some first
    simp only [Placeholder.ofComponent, Component.flag, (plain c member).1] at made
    cases made
    exact .inl ⟨c, member, rfl⟩
  | call found =>
    cases made
    exact .inr (.inl ⟨_, mem_calls found, rfl⟩)
  | read found | updated found =>
    cases made
    exact .inr (.inr (.inl ⟨_, Table.mem_of_find? found, rfl⟩))
  | global found =>
    simp only [Placeholder.ofComponent, Component.flag, GlobalVariable.component, found] at made
    cases made
    have member := mem_of_globalVariable? found
    exact .inr (.inr (.inr ⟨_, member, flags _ member, rfl⟩))

/-- Index and flag of a placeholder say which value it binds. -/
theorem Gives.eq_of_same (plain : tables.PlainArguments) (named : tables.WellNamed)
    (positions : (tables.arguments.map Component.index).Nodup) {d : Component} (hc : tables.Gives c)
    (hd : tables.Gives d) {p : Placeholder} (madeC : Placeholder.ofComponent c = .ok p)
    (madeD : Placeholder.ofComponent d = .ok q) (same : p.Same q) : p = q := by
  have flags : (globalVariables.map GlobalVariable.flag).Nodup := by decide
  obtain ⟨index, flag⟩ := same
  -- Values of different families have different flags.
  rcases hc.placeholder_cases plain madeC with ⟨a, ha, rfl⟩ | ⟨a, ha, rfl⟩ | ⟨a, ha, rfl⟩ | ⟨a, ha,
    _, rfl⟩ <;> rcases hd.placeholder_cases plain madeD with ⟨b, hb, rfl⟩ | ⟨b, hb, rfl⟩ | ⟨b, hb,
    rfl⟩ | ⟨b, hb, _, rfl⟩ <;> simp only at index flag <;> try omega
  · rw [List.inj_on_of_nodup_map positions ha hb index]
  · rw [List.inj_on_of_nodup_map named.callIds ha hb index]
  · rw [List.inj_on_of_nodup_map named.trackerIds ha hb index]
  · rw [List.inj_on_of_nodup_map flags ha hb (Int.ofNat.inj flag)]

/-- A component is read through the placeholder that binds it. -/
theorem getElem?_of_ordinal (plain : tables.PlainArguments) (named : tables.WellNamed)
    (positions : (tables.arguments.map Component.index).Nodup)
    (gives : ∀ c ∈ components, tables.Gives c)
    (made : Placeholder.ofComponents components = .ok placeholders) (member : c ∈ components)
    (bound : Placeholder.ofComponent c = .ok q) {source : Text} {k : Nat}
    (placed : Placeholder.ordinal placeholders source c = .ok k) : placeholders[k]? = some q := by
  obtain ⟨p, at_k, binds⟩ := Placeholder.ordinal_eq_ok placed
  obtain ⟨list, each, same⟩ := bind_eq_ok_iff.mp made
  obtain rfl := pure_eq_ok_iff.mp same
  obtain ⟨d, inComponents, madeD⟩ :=
    (mem_of_mapM_eq_ok each).mp (Placeholder.mem_of_mem_foldl_addTo (List.mem_of_getElem? at_k))
  rw [at_k, (gives d inComponents).eq_of_same plain named positions (gives c member) madeD bound
    (Placeholder.same_of_binds binds bound)]

end Tables

/-- The trackers that an expression reads by key or changes. -/
def Expr.trackers : Expr → List Text
  | .hole | .literal _ | .name _ => []
  | .mapped key tracker => tracker :: key.trackers
  | .binary _ left right | .logical _ _ left right => left.trackers ++ right.trackers
  | .negation _ operand => operand.trackers
  | .update _ tracker value => tracker :: value.trackers
  | .updateMapped _ key tracker value => tracker :: (key.trackers ++ value.trackers)

/-- The trackers of a tree are named as such. -/
theorem SetAside.trackers_of_build {e : Expr} {s : SetAside} (h : build t {} = .ok e s) :
    ∀ tracker ∈ e.trackers, (trackerReference? tracker).isSome := by
  have level : LevelClosed s.keywords
      fun e => ∀ t ∈ e.trackers, (trackerReference? t).isSome :=
    ⟨fun _ _ left right => List.forall_mem_append.mpr ⟨left, right⟩, fun _ operand => operand⟩
  have leaf : LeafClosed (fun _ => True)
      fun e => ∀ t ∈ e.trackers, (trackerReference? t).isSome := {
    number := fun _ => by simp [Expr.trackers]
    quoted := fun _ => by simp [Expr.trackers]
    bool := fun _ => by simp [Expr.trackers]
    name := fun _ => by simp [Expr.trackers]
    mapped := fun isTracker key => List.forall_mem_cons.mpr ⟨isTracker, key⟩
    binary := fun left right => List.forall_mem_append.mpr ⟨left, right⟩
    update := fun isTracker _ value => List.forall_mem_cons.mpr ⟨isTracker, value⟩
    updateMapped := fun isTracker key value =>
      List.forall_mem_cons.mpr ⟨isTracker, List.forall_mem_append.mpr ⟨key, value⟩⟩ }
  exact (build_closed h level leaf (by simp)).1

open Instruction in
/-- What an expression is lowered to, from the slot of its first instruction to the slot of its
value, if names are read by the instructions that `Reads` allows and trackers have the ids and flags
that `Tracks` allows. -/
inductive Lowers (Reads : Text → Instruction → Prop) (Tracks : Text → Int → Bool → Prop) :
    Expr → Nat → List Instruction → Nat → Prop
  | literal (l : Literal) (n : Nat) : Lowers Reads Tracks (.literal l) n [load l] n
  | name {name : Text} {i : Instruction} (n : Nat) (h : Reads name i) :
    Lowers Reads Tracks (.name name) n [i] n
  | mapped {key : Expr} {tracker : Text} {n k : Nat} {code : List Instruction} {id : Int}
    {backed : Bool} (h : Tracks tracker id backed) (hk : Lowers Reads Tracks key n code k) :
    Lowers Reads Tracks (.mapped key tracker) n (code ++ [readMapped id k]) (k + 1)
  | binary {op : Operator} {left right : Expr} {n r r' : Nat} {code code' : List Instruction}
    (hl : Lowers Reads Tracks left n code r) (hr : Lowers Reads Tracks right (r + 1) code' r') :
    Lowers Reads Tracks (.binary op left right) n
      (code ++ code' ++ [compute (.ofOperator op) [r, r']]) (r' + 1)
  | logical {op : Keyword} {ordinal : Int} {left right : Expr} {n r r' : Nat}
    {code code' : List Instruction} (hl : Lowers Reads Tracks left n code r)
    (hr : Lowers Reads Tracks right (r + 1) code' r') :
    Lowers Reads Tracks (.logical op ordinal left right) n
      (code ++ code' ++ [compute (.ofKeyword op) [r, r']]) (r' + 1)
  | negation {ordinal : Int} {operand : Expr} {n r : Nat} {code : List Instruction}
    (ho : Lowers Reads Tracks operand n code r) :
    Lowers Reads Tracks (.negation ordinal operand) n (code ++ [compute .not [r]]) (r + 1)
  | update {op : UpdateOperator} {tracker : Text} {value : Expr} {n r : Nat} {i : Instruction}
    {code : List Instruction} {id : Int} {backed : Bool} (h : Tracks tracker id backed)
    (hi : Reads tracker i) (hv : Lowers Reads Tracks value (n + 1) code r) :
    Lowers Reads Tracks (.update op tracker value) n
      ([i] ++ code ++ [compute (.ofOperator op.arithmetic) [n, r], write id (r + 1) backed]) (r + 2)
  | updateMapped {op : UpdateOperator} {key : Expr} {tracker : Text} {value : Expr} {n k r : Nat}
    {code code' : List Instruction} {id : Int} {backed : Bool} (h : Tracks tracker id backed)
    (hk : Lowers Reads Tracks key n code k) (hv : Lowers Reads Tracks value (k + 2) code' r) :
    Lowers Reads Tracks (.updateMapped op key tracker value) n
      (code ++ [readMapped id k] ++ code' ++
        [compute (.ofOperator op.arithmetic) [k + 1, r], writeMapped id (r + 1) k backed]) (r + 2)

/-- Whether an instruction is the one by which bindings read a name. -/
def Bindings.Emits (b : Bindings) (name : Text) (i : Instruction) : Prop :=
  (resolve b.components name = none ∧ i = .load (.ofUnbound name)) ∨
    ∃ c place, resolve b.components name = some c ∧
      Placeholder.ordinal b.placeholders b.source c = .ok place ∧ i = .read place

section Lowers

variable {Reads : Text → Instruction → Prop} {Tracks : Text → Int → Bool → Prop} {e : Expr}
  {n r : Nat} {code : List Instruction}

/-- The code of a name is one instruction. -/
theorem Code.exists_emits (h : Code b (.name name) n code r) :
    ∃ i, code = [i] ∧ r = n ∧ b.Emits name i := by
  cases h with
  | unbound n free => exact ⟨_, rfl, rfl, .inl ⟨free, rfl⟩⟩
  | bound n found placed => exact ⟨_, rfl, rfl, .inr ⟨_, _, found, placed, rfl⟩⟩

/-- The code of an expression is what it is lowered to, if the bindings read names and find trackers
as is allowed. -/
theorem Code.lowers (h : Code b e n code r)
    (reads : ∀ name ∈ e.names, ∀ i, b.Emits name i → Reads name i)
    (tracks : ∀ tracker ∈ e.trackers, ∀ id backed, b.trackerId tracker = .ok (id, backed) →
      Tracks tracker id backed) : Lowers Reads Tracks e n code r := by
  induction h with
  | literal l n => exact .literal l n
  | @unbound name n free => exact .name n (reads name (by simp [Expr.names]) _ (.inl ⟨free, rfl⟩))
  | @bound name c place n found placed =>
    exact .name n (reads name (by simp [Expr.names]) _ (.inr ⟨c, place, found, placed, rfl⟩))
  | mapped known hk ih =>
    obtain ⟨here, inKey⟩ := List.forall_mem_cons.mp tracks
    exact .mapped (here _ _ known) (ih reads inKey)
  | binary hl hr ihl ihr =>
    obtain ⟨readsL, readsR⟩ := List.forall_mem_append.mp reads
    obtain ⟨tracksL, tracksR⟩ := List.forall_mem_append.mp tracks
    exact .binary (ihl readsL tracksL) (ihr readsR tracksR)
  | logical hl hr ihl ihr =>
    obtain ⟨readsL, readsR⟩ := List.forall_mem_append.mp reads
    obtain ⟨tracksL, tracksR⟩ := List.forall_mem_append.mp tracks
    exact .logical (ihl readsL tracksL) (ihr readsR tracksR)
  | negation ho ih => exact .negation (ih reads tracks)
  | update known ht hv iht ihv =>
    obtain ⟨here, inValue⟩ := List.forall_mem_cons.mp tracks
    obtain ⟨target, readsValue⟩ := List.forall_mem_cons.mp reads
    obtain ⟨i, rfl, rfl, emits⟩ := ht.exists_emits
    exact .update (here _ _ known) (target i emits) (ihv readsValue inValue)
  | updateMapped known hk hv ihk ihv =>
    obtain ⟨here, inBoth⟩ := List.forall_mem_cons.mp tracks
    obtain ⟨tracksK, tracksV⟩ := List.forall_mem_append.mp inBoth
    obtain ⟨readsK, readsV⟩ := List.forall_mem_append.mp reads
    exact .updateMapped (here _ _ known) (ihk readsK tracksK) (ihv readsV tracksV)

/-- Every name that an expression reads is read by an instruction. -/
theorem Lowers.exists_reads (h : Lowers Reads Tracks e n code r) :
    ∀ name ∈ e.names, ∃ i ∈ code, Reads name i := by
  have grow : ∀ {names : List Text} {code code' : List Instruction},
      (∀ name ∈ names, ∃ i ∈ code, Reads name i) →
      code ⊆ code' → ∀ name ∈ names, ∃ i ∈ code', Reads name i := by
    intro names code code' each subset name member
    obtain ⟨i, inCode, reads⟩ := each name member
    exact ⟨i, subset inCode, reads⟩
  induction h with
  | literal l n => simp [Expr.names]
  | name n h => simpa [Expr.names] using h
  | mapped h hk ih | negation ho ih => exact grow ih (by simp)
  | binary hl hr ihl ihr | logical hl hr ihl ihr =>
    exact List.forall_mem_append.mpr ⟨grow ihl (by simp), grow ihr (by simp)⟩
  | update h hi hv ih => exact List.forall_mem_cons.mpr ⟨⟨_, by simp, hi⟩, grow ih (by simp)⟩
  | updateMapped h hk hv ihk ihv =>
    refine List.forall_mem_append.mpr ⟨grow ihk (by simp), grow ihv fun i inCode => ?_⟩
    simp [inCode]

end Lowers

/-- With `strict` set, no name is left that nothing binds. -/
theorem isUnbound_eq_false_of_rawData {tokens : List Token} {data : List RawDatum}
    (h : rawData true tokens = .ok data) {l : Literal} (member : .literal l ∈ tokens) :
    l.isUnbound = false := by
  unfold rawData at h
  generalize 0 = position at h
  induction tokens generalizing position data with
  | nil => cases member
  | cons token rest ih =>
    rcases List.mem_cons.mp member with rfl | later
    · rw [rawDataFrom] at h
      split at h
      · cases h
      · next bound => simpa using bound
    · cases token with
      | literal l' =>
        rw [rawDataFrom] at h
        split at h
        · cases h
        · split at h
          · next rest' read => exact ih later _ read
          · cases h
      | opcode op | operand k => exact ih later _ h

/-- Whether a name is that of a tracker of the table with an id, and whether the tracker is read
through a placeholder: strings and byte sequences are. -/
def Tables.Tracks (tables : Tables) (name : Text) (id : Int) (backed : Bool) : Prop :=
  ∃ tracker ∈ tables.trackers, (∃ isUpdate, name = TrackerMark.reference ⟨isUpdate, tracker.name⟩) ∧
    id = tracker.id ∧ (backed ↔ tracker.type = .string ∨ tracker.type = .bytes)

/-- The trackers that are found are those of the table. -/
theorem Tables.exists_tracker_of_trackerId {tables : Tables} (declared : tables.Declared)
    (trackers : b.trackers = tables.trackers) (gives : ∀ c ∈ b.components, tables.Gives c)
    (isTracker : (trackerReference? name).isSome) {x : Int × Bool} (h : b.trackerId name = .ok x) :
    ∃ tracker, ((trackerReference? name).bind fun reference =>
      Table.find? Tracker.reference reference tables.trackers) = some tracker ∧
        x = (tracker.id, tracker.isPlaceholderBacked) := by
  obtain ⟨r, found⟩ := Option.isSome_iff_exists.mp isTracker
  obtain ⟨mark, rfl, rfl⟩ := trackerReference?_eq_some_iff.mp found
  unfold Bindings.trackerId at h
  rw [trackers] at h
  split at h
  · next tracker known => exact ⟨tracker, known, (Except.ok.inj h).symm⟩
  · next unknown =>
    rw [found, Option.bind_some] at unknown
    split at h
    · next c resolved =>
      obtain ⟨member, token | name⟩ := resolve_eq_some resolved
      · obtain ⟨call, -, -, same⟩ := (gives c member).exists_call_of_token declared token
        obtain ⟨isUpdate, text⟩ := mark
        cases isUpdate <;> cases same
      · rw [listedName_reference] at name
        obtain ⟨tracker, -, inTable, -⟩ :=
          (gives c member).exists_tracker declared.plainArguments name
        have listed := Table.find?_isSome_iff.mpr ⟨tracker, Table.mem_of_find? inTable,
          show tracker.reference = trackerPrefix ++ mark.name by rw [Tracker.reference,
            tracker?_name inTable]⟩
        rw [unknown] at listed
        cases listed
    · cases h

theorem Tables.tracks_of_trackerId {tables : Tables} (declared : tables.Declared)
    (trackers : b.trackers = tables.trackers) (gives : ∀ c ∈ b.components, tables.Gives c)
    (isTracker : (trackerReference? name).isSome) {id : Int} {backed : Bool}
    (h : b.trackerId name = .ok (id, backed)) : tables.Tracks name id backed := by
  obtain ⟨tracker, known, same⟩ := exists_tracker_of_trackerId declared trackers gives isTracker h
  obtain ⟨r, found⟩ := Option.isSome_iff_exists.mp isTracker
  obtain ⟨mark, rfl, rfl⟩ := trackerReference?_eq_some_iff.mp found
  obtain ⟨rfl, rfl⟩ := Prod.mk.inj same
  rw [found, Option.bind_some] at known
  have reference : tracker.reference = trackerPrefix ++ mark.name := Table.name_of_find? known
  have names : tracker.name = mark.name := List.append_cancel_left reference
  refine ⟨tracker, Table.mem_of_find? known, ⟨mark.isUpdate, by rw [names]⟩, rfl, ?_⟩
  simp [Tracker.isPlaceholderBacked]

namespace Policy

variable {p : Policy} {declaration : Text} {trackers : List Tracker} {calls : List ForeignCall}
  {settings : Settings} {source : Text} {condition : Condition}

/-- Whether an instruction reads a name of a condition as it should: through the placeholder of what
the name stands for, or as a literal without a type if it stands for nothing. -/
def Reads (p : Policy) (source : Text) (placeholders : List Placeholder) (name : Text)
    (i : Instruction) : Prop :=
  (∀ q, p.Denotes source name q → ∃ k, placeholders[k]? = some q ∧ i = .read k) ∧
    ((∀ q, ¬ p.Denotes source name q) → i = .load (.ofUnbound name))

/-- A text is converted in a workspace of its own. -/
theorem convertText_eq_ok_iff {tokens : List Token} :
    convertText b t = .ok tokens ↔ ∃ w, Workspace.convert b t {} = .ok tokens w := by
  unfold convertText
  cases Workspace.convert b t {} with
  | ok tokens' w => simp [eq_comm]
  | error e w => simp

/-- The arguments of a policy are as declared, each with a place of its own. -/
theorem declared_of_made (made : ofDeclaration declaration trackers calls settings = .ok p)
    (names : ∀ name ∈ p.arguments.map Component.name ++ p.trackers.map Tracker.name ++
      p.calls.map ForeignCall.name, IsTableName name) :
    p.Declared ∧ (p.arguments.map Component.index).Nodup := by
  simp only [List.forall_mem_append, List.forall_mem_map] at names
  obtain ⟨arguments, declared, rfl⟩ := ofDeclaration_eq_ok_iff.mp made
  refine ⟨⟨fun c member => ⟨names.1.1 c member, exists_ofArgument_of_mem declared member⟩,
    names.1.2, names.2⟩, ?_⟩
  obtain ⟨positions, distinct, listed⟩ := exists_positions_of_declaredArguments declared
  have same : arguments.map Component.index = positions.map Int.ofNat := by
    clear declared names made distinct
    induction listed with
    | nil => rfl
    | cons first rest ih =>
      obtain ⟨typeName, same⟩ := first
      rw [List.map_cons, List.map_cons, ih, same]
      rfl
  rw [same]
  exact distinct.map Int.ofNat_injective

/-- A name of the tree is read as it should. -/
theorem reads_of_emits (declared : p.Declared) (named : p.WellNamed)
    (positions : (p.arguments.map Component.index).Nodup) {order : List Text}
    (f : Tables.Findings p.toTables source order) {placeholders : List Placeholder}
    (bound : Placeholder.ofComponents (f.components.foldl addComponent []) = .ok placeholders)
    (stands : hasNumbered "PLH".toList name = false →
      ∃ part ∈ (p.normalize source).unquoted, Stands name none part)
    (components_eq : b.components = f.components.foldl addComponent [])
    (placeholders_eq : b.placeholders = placeholders) {i : Instruction} (emits : b.Emits name i) :
    p.Reads source placeholders name i := by
  rw [Bindings.Emits, components_eq, placeholders_eq] at emits
  constructor
  · intro q denotes
    obtain ⟨c, resolved, value⟩ := denotes.resolve_eq_some declared named f stands
    rcases emits with ⟨free, -⟩ | ⟨d, place, found, placed, rfl⟩
    · exact absurd (resolved.symm.trans free) (by simp)
    · obtain rfl := Option.some.inj (resolved.symm.trans found)
      exact ⟨place, Tables.getElem?_of_ordinal declared.plainArguments named
        positions (fun c => f.gives) bound (resolve_eq_some resolved).1 value placed, rfl⟩
  · intro nothing
    rcases emits with ⟨-, rfl⟩ | ⟨d, place, found, -, -⟩
    · rfl
    · obtain ⟨q, denotes⟩ := Tables.denotes_of_resolve declared named f stands found
      exact absurd denotes (nothing q)

/-- A compiled condition reads every name of its tree through the placeholder of what the name
stands for. -/
theorem lowers_of_compiled (made : ofDeclaration declaration trackers calls settings = .ok p)
    (named : p.WellNamed) (closed : p.QuotesClosed source)
    (noStrings : hasNumbered "q:".toList source = false)
    (compiled : p.compileCondition source = .ok condition) :
    ∃ tree aside code r, SetAside.build (p.normalize source) {} = .ok tree aside ∧
      condition.tokens = code.flatMap Instruction.tokens ∧
      Lowers (p.Reads source condition.placeholders) p.Tracks tree 0 code r ∧
      (p.strict = true → ∀ name ∈ tree.names, ∃ q, p.Denotes source name q) := by
  obtain ⟨declared, positions⟩ :=
    declared_of_made made fun name member => (named.plain name member).1.isTableName
  simp only [compileCondition, bind_eq_ok_iff, pure_eq_ok_iff] at compiled
  obtain ⟨e, processed, placeholders, bound, tokens, converted, data, raw, rfl⟩ := compiled
  obtain ⟨order, -, f, rfl⟩ := process_eq_ok_iff.mp processed
  obtain ⟨w, converted⟩ := convertText_eq_ok_iff.mp converted
  obtain ⟨tree, aside, code, r, built, -, hcode, rfl, -⟩ := Workspace.convert_code converted
  have names := SetAside.stands_of_build built (Tables.quotesClosed_normalize closed)
    fun q => Tables.hasNumbered_of_mem_marks noStrings
  have gives : ∀ c ∈ f.components.foldl addComponent [], p.Gives c := fun c => f.gives
  have lowers : Lowers (p.Reads source placeholders) p.Tracks tree 0 code r :=
    hcode.lowers (fun name member i emits => reads_of_emits declared named positions f bound
        (names name member).2 rfl rfl emits)
      fun tracker member id backed known =>
        Tables.tracks_of_trackerId declared rfl gives
          (SetAside.trackers_of_build built tracker member) known
  refine ⟨tree, aside, code, r, built, rfl, lowers, fun strict name member => ?_⟩
  by_contra nothing
  obtain ⟨i, inCode, -, unbound⟩ := lowers.exists_reads name member
  have loaded : .literal (.ofUnbound name) ∈ code.flatMap Instruction.tokens := by
    refine List.mem_flatMap.mpr ⟨i, inCode, ?_⟩
    rw [unbound fun q denotes => nothing ⟨q, denotes⟩]
    simp [Instruction.tokens, Instruction.load]
  rw [strict] at raw
  exact absurd (isUnbound_eq_false_of_rawData raw loaded) (by simp [Literal.isUnbound_ofUnbound])

/-- A policy with a value of each family. -/
def payments : Policy where
  arguments :=
    [.ofArgument "value".toList 0 "uint256".toList, .ofArgument "to".toList 1 "address".toList]
  trackers := [⟨"limit".toList, 4, .uint256⟩]
  calls := [{ name := "score".toList, id := 7, values := ["value".toList] }]
  strict := false

theorem made_payments : ofDeclaration "uint256 value, address to".toList payments.trackers
    payments.calls payments.toSettings = .ok payments := by
  decide +kernel

theorem wellNamed_payments : payments.WellNamed := by
  refine ⟨?_, by decide, by decide, by decide, by decide, by decide⟩
  have names : ∀ name ∈ ["value".toList, "to".toList, "limit".toList, "score".toList],
      plainName? name = some name ∧ hasNumbered "PLH".toList name = false := by decide +kernel
  intro name member
  obtain ⟨plain, unmarked⟩ := names name member
  exact ⟨isPlainName_of_plainName? plain, unmarked⟩

/-- A condition with a value of each family, a name that stands for nothing and a quotation mark in
an argument list. -/
def ratedPayment : Text :=
  "FC:score(it's) > value AND TR:limit(to) >= 2 OR other == GV:MSG_SENDER".toList

theorem lowers_of_compiled_payments :
    ∃ condition, payments.compileCondition ratedPayment = .ok condition ∧
    condition.placeholders.map (fun q => (q.index, q.flag)) =
      [(0, 0), (1, 0), (7, 1), (4, 2), (0, 4)] ∧
    ∃ tree aside code r, SetAside.build (payments.normalize ratedPayment) {} = .ok tree aside ∧
      condition.tokens = code.flatMap Instruction.tokens ∧
      Lowers (payments.Reads ratedPayment condition.placeholders) payments.Tracks tree 0 code r ∧
      (payments.strict = true →
        ∀ name ∈ tree.names, ∃ q, payments.Denotes ratedPayment name q) := by
  have ordered : dependencyOrder payments.calls ratedPayment = .ok ["FC:score".toList] := by
    rw [dependencyOrder, show callNames ratedPayment = ["score".toList] by decide +kernel]
    cbv
  have compiled : (payments.compileCondition ratedPayment).toOption.map
      (·.placeholders.map fun q => (q.index, q.flag)) = some [(0, 0), (1, 0), (7, 1), (4, 2),
        (0, 4)] := by
    rw [compileCondition, process, ordered]
    decide +kernel
  obtain ⟨condition, accepted, placeholders⟩ := map_toOption_eq_some_iff.mp compiled
  exact ⟨condition, accepted, placeholders,
    lowers_of_compiled made_payments wellNamed_payments (by decide +kernel)
      (by decide +kernel) accepted⟩

/-- A condition with a quotation mark that is not closed, and an argument that stands in quotes
before it. -/
def hiddenValue : Text := "(\"a' + value + \") AND ' i:0 \"".toList

/-- With a quotation mark that is not closed, the tree can read an argument that extraction has seen
in quotes only. The argument is loaded as a literal then. -/
theorem unbound_of_unclosed_quote : payments.WellNamed ∧
    ∃ condition tree aside, payments.compileCondition hiddenValue = .ok condition ∧
    hasNumbered "q:".toList hiddenValue = false ∧
    SetAside.build (payments.normalize hiddenValue) {} = .ok tree aside ∧
    "value".toList ∈ tree.names ∧
    payments.Denotes hiddenValue "value".toList ⟨.uint256, 0, 0⟩ ∧ condition.placeholders = [] ∧
    .literal (.ofUnbound "value".toList) ∈ condition.tokens := by
  have ordered : dependencyOrder payments.calls hiddenValue = .ok [] :=
    dependencyOrder_of_callNames_eq_nil (by decide +kernel)
  have compiled : (payments.compileCondition hiddenValue).toOption.map (fun condition =>
      (condition.placeholders, decide (.literal (.ofUnbound "value".toList) ∈ condition.tokens))) =
        some ([], true) := by
    rw [compileCondition, process, ordered]
    decide +kernel
  have built : ((SetAside.build (payments.normalize hiddenValue)).value? {}).any
      (fun tree => decide ("value".toList ∈ tree.names)) := by
    decide +kernel
  obtain ⟨tree, found, reads⟩ := (Option.any_eq_true ..).mp built
  obtain ⟨aside, tree_eq⟩ := Attempt.value?_eq_some_iff.mp found
  have denotes : payments.Denotes hiddenValue "value".toList ⟨.uint256, 0, 0⟩ :=
    Tables.Denotes.argument (c := .ofArgument "value".toList 0 "uint256".toList)
      (List.mem_cons_self ..)
  obtain ⟨condition, accepted, same⟩ := map_toOption_eq_some_iff.mp compiled
  obtain ⟨none, loaded⟩ := Prod.mk.inj same
  exact ⟨wellNamed_payments, condition, tree, aside, accepted, by decide +kernel, tree_eq,
    of_decide_eq_true reads, denotes, none, of_decide_eq_true loaded⟩

end Policy

end PolicyRules
