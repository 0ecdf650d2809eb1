import Mathlib.Data.List.Nodup
import PolicyRules.Placeholder
import PolicyRules.Proofs.ReferenceMarks
import PolicyRules.Proofs.Success

/-!
# What extraction finds

Extraction succeeds exactly if every reference of the text is known, and then its components are
those found, family by family, with each name kept at its first place (`extract_eq_ok_iff`). A
component is what the tables give for its name (`Tables.Gives`), so components of one name are bound
by one placeholder (`Gives.ofComponent_eq`), whatever list they are in.
-/

namespace PolicyRules

variable {reference : Text} {call : ForeignCall} {tracker : Tracker} {g : GlobalVariable}
  {c : Component}

theorem require_eq_ok_iff {α : Type} {entry : Option α} {source : Text} {a : α} :
    require entry reference source = .ok a ↔ entry = some a := by
  cases entry <;> simp [require]

/-- In a table of distinct names every entry is found. -/
theorem Table.find?_eq_some_of_mem {α : Type} {name : α → Text} {entries : List α}
    (distinct : (entries.map name).Nodup) {a : α} (member : a ∈ entries) :
    Table.find? name (name a) entries = some a := by
  obtain ⟨b, found⟩ := Option.isSome_iff_exists.mp (Table.find?_isSome_iff.mpr ⟨a, member, rfl⟩)
  rw [found, List.inj_on_of_nodup_map distinct (Table.mem_of_find? found) member
    (Table.name_of_find? found)]

namespace Tables

variable (tables : Tables) (source : Text)

/-- The text in normal form: calls are tokens, and keys stand before their trackers. -/
def normalize : Text :=
  replaceUnquoted mappedTrackerAt mappedText (tables.withTokens (Text.clean source))

/-- What is found while the references of a text are extracted. -/
structure Findings (dependencies : List Text) where
  named : List ForeignCall
  needed : List ForeignCall
  namedTrackers : List (Bool × Tracker)
  neededTrackers : List Tracker
  globals : List GlobalVariable
  named_eq : tables.namedCalls source (Text.clean source) = .ok named
  needed_eq : tables.neededCalls source dependencies = .ok needed
  namedTrackers_eq : tables.namedTrackers source (tables.normalize source) = .ok namedTrackers
  neededTrackers_eq : tables.neededTrackers source dependencies = .ok neededTrackers
  globals_eq : namedGlobals source (tables.normalize source) = .ok globals

variable {tables source} {dependencies : List Text}

/-- The components that are found, in the order in which they are listed. -/
def Findings.components (f : Findings tables source dependencies) : List Component :=
  (tables.arguments.filter fun argument => mentions argument.name (Text.clean source)) ++
    callComponents f.needed f.named ++ trackerComponents f.namedTrackers f.neededTrackers ++
    f.globals.map GlobalVariable.component

/-- Extraction succeeds exactly if everything that is named is found. -/
theorem extract_eq_ok_iff {e : Extract} : tables.extract source (some dependencies) = .ok e ↔
    ∃ f : Findings tables source dependencies,
      e = ⟨tables.normalize source, f.components.foldl addComponent []⟩ := by
  simp only [extract, bind_eq_ok_iff, pure_eq_ok_iff, Option.getD_some]
  constructor
  · rintro ⟨named, hnamed, needed, hneeded, namedTrackers, hnamedTrackers, neededTrackers,
      hneededTrackers, globals, hglobals, rfl⟩
    exact ⟨⟨named, needed, namedTrackers, neededTrackers, globals, hnamed, hneeded, hnamedTrackers,
      hneededTrackers, hglobals⟩, rfl⟩
  · rintro ⟨f, rfl⟩
    exact ⟨f.named, f.named_eq, f.needed, f.needed_eq, f.namedTrackers, f.namedTrackers_eq,
      f.neededTrackers, f.neededTrackers_eq, f.globals, f.globals_eq, rfl⟩

namespace Findings

variable (f : Findings tables source dependencies)

/-- The calls that the text names outside quotes. -/
theorem mem_named : call ∈ f.named ↔
    ∃ name ∈ unquotedMarks callAt (Text.clean source), tables.call? name = some call := by
  simp [mem_of_mapM_eq_ok f.named_eq, require_eq_ok_iff]

/-- The calls that others need. -/
theorem mem_needed : call ∈ f.needed ↔
    ∃ reference ∈ dependencies, isTrackerDependency reference = false ∧
      tables.call? (Text.after ':' reference) = some call := by
  simp [mem_of_mapM_eq_ok f.needed_eq, require_eq_ok_iff, and_assoc]

/-- The trackers that the text names, to be read or updated. -/
theorem mem_namedTrackers {isUpdate : Bool} : (isUpdate, tracker) ∈ f.namedTrackers ↔
    ∃ name, ⟨isUpdate, name⟩ ∈ unquotedMarks trackerAt (tables.normalize source) ∧
      tables.tracker? name = some tracker := by
  simp only [mem_of_mapM_eq_ok f.namedTrackers_eq, map_eq_ok_iff, require_eq_ok_iff]
  constructor
  · rintro ⟨mark, member, t, found, same⟩
    obtain ⟨rfl, rfl⟩ := Prod.mk.inj same
    exact ⟨mark.name, member, found⟩
  · rintro ⟨name, member, found⟩
    exact ⟨_, member, tracker, found, rfl⟩

theorem mem_neededTrackers : tracker ∈ f.neededTrackers ↔
    ∃ reference ∈ dependencies, isTrackerDependency reference ∧
      tables.tracker? (Text.after ':' reference) = some tracker := by
  simp [mem_of_mapM_eq_ok f.neededTrackers_eq, require_eq_ok_iff, and_assoc]

theorem mem_globals : g ∈ f.globals ↔
    ∃ reference ∈ unquotedMarks globalAt (tables.normalize source),
      globalVariable? reference = some g := by
  simp [mem_of_mapM_eq_ok f.globals_eq, require_eq_ok_iff]

/-- Each component comes from one of these families. -/
theorem mem_components :
    c ∈ f.components ↔ (c ∈ tables.arguments ∧ mentions c.name (Text.clean source)) ∨
    (∃ call ∈ f.needed, c = call.component
      (if f.named.any (·.name == call.name) then some call.token else none)) ∨
    (∃ call ∈ f.named, c = call.component (some call.token)) ∨
    (∃ tracker, ((false, tracker) ∈ f.namedTrackers ∨ tracker ∈ f.neededTrackers) ∧
      c = tracker.read) ∨
    (∃ tracker, (true, tracker) ∈ f.namedTrackers ∧ c = tracker.updated) ∨
    ∃ g ∈ f.globals, c = g.component := by
  simp only [components, callComponents, trackerComponents, List.partition_eq_filter_filter,
    List.mem_append, List.mem_filter, List.mem_map, eq_comm (a := c)]
  grind

end Findings

end Tables

section

variable {c : Component} {l : List Component}

/-- Of components with one name, the first is kept. -/
theorem mem_foldl_addComponent {acc : List Component} : c ∈ l.foldl addComponent acc ↔
    c ∈ acc ∨ (∀ d ∈ acc, d.name ≠ c.name) ∧ l.find? (·.name == c.name) = some c := by
  induction l generalizing acc with
  | nil => simp
  | cons d l ih =>
    rw [List.foldl_cons, ih, addComponent]
    by_cases known : acc.any (·.name == d.name)
    · obtain ⟨e, listed, same⟩ := List.any_eq_true.mp known
      grind
    · have fresh : ∀ e ∈ acc, e.name ≠ d.name := by simpa using known
      grind

/-- A component is kept if it is the first of its name. -/
theorem mem_components_iff : c ∈ l.foldl addComponent [] ↔ l.find? (·.name == c.name) = some c := by
  simp [mem_foldl_addComponent]

/-- Every name that is listed is kept. -/
theorem exists_of_mem_components (h : c ∈ l) : ∃ d ∈ l.foldl addComponent [], d.name = c.name := by
  obtain ⟨d, found⟩ : ∃ d, l.find? (·.name == c.name) = some d := by
    rw [← Option.isSome_iff_exists, List.find?_isSome]
    exact ⟨c, h, by simp⟩
  have same : d.name = c.name := by simpa using List.find?_some found
  exact ⟨d, mem_components_iff.mpr (by rw [same, found]), same⟩

end

/-- What the tables give for a name. Of several arguments of a name the first counts, of several
calls or trackers the last. -/
inductive Tables.Gives (tables : Tables) : Component → Prop
  | argument {c : Component} (h : tables.arguments.find? (·.name == c.name) = some c) :
    Gives tables c
  | call {call : ForeignCall} (h : tables.call? call.name = some call) (token : Option Text)
    (own : ∀ text, token = some text → text = call.token) : Gives tables (call.component token)
  | read {tracker : Tracker} (h : tables.tracker? tracker.name = some tracker) :
    Gives tables tracker.read
  | updated {tracker : Tracker} (h : tables.tracker? tracker.name = some tracker) :
    Gives tables tracker.updated
  | global {g : GlobalVariable} (h : globalVariable? g.reference = some g) :
    Gives tables g.component

namespace Tables

variable {tables : Tables} {source name : Text} {dependencies : List Text}

theorem call?_name (h : tables.call? name = some call) : call.name = name :=
  Table.name_of_find? h

theorem tracker?_name (h : tables.tracker? name = some tracker) : tracker.name = name :=
  Table.name_of_find? h

theorem globalVariable?_reference (h : globalVariable? reference = some g) :
    g.reference = reference := by
  simpa using List.find?_some h

/-- Every component that is kept is what the tables give. -/
theorem Findings.gives (f : Findings tables source dependencies)
    (h : c ∈ f.components.foldl addComponent []) : tables.Gives c := by
  have first := mem_components_iff.mp h
  rcases f.mem_components.mp (List.mem_of_find?_eq_some first) with ⟨listed, mentioned⟩ |
    ⟨call, member, rfl⟩ | ⟨call, member, rfl⟩ | ⟨tracker, member, rfl⟩ | ⟨tracker, member, rfl⟩ |
    ⟨g, member, rfl⟩
  · refine .argument ?_
    obtain ⟨d, found⟩ : ∃ d, tables.arguments.find? (·.name == c.name) = some d := by
      rw [← Option.isSome_iff_exists, List.find?_isSome]
      exact ⟨c, listed, by simp⟩
    have kept : (tables.arguments.filter fun argument => mentions argument.name
        (Text.clean source)).find? (·.name == c.name) = some d := by
      rw [List.find?_filter, ← found]
      congr 1
      funext e
      by_cases same : e.name = c.name <;> simp [same, mentioned]
    rw [components, List.append_assoc, List.append_assoc, List.find?_append, kept] at first
    rw [found]
    exact first
  · obtain ⟨reference, -, -, found⟩ := f.mem_needed.mp member
    refine .call (call?_name found ▸ found) _ fun text same => ?_
    split at same <;> simp_all
  · obtain ⟨name, -, found⟩ := f.mem_named.mp member
    exact .call (call?_name found ▸ found) _ (by simp [eq_comm])
  · rcases member with named | needed
    · obtain ⟨name, -, found⟩ := f.mem_namedTrackers.mp named
      exact .read (tracker?_name found ▸ found)
    · obtain ⟨reference, -, -, found⟩ := f.mem_neededTrackers.mp needed
      exact .read (tracker?_name found ▸ found)
  · obtain ⟨name, -, found⟩ := f.mem_namedTrackers.mp member
    exact .updated (tracker?_name found ▸ found)
  · obtain ⟨reference, -, found⟩ := f.mem_globals.mp member
    exact .global (globalVariable?_reference found ▸ found)

/-- Whether the arguments are listed as arguments, under names that are no references. -/
def PlainArguments (tables : Tables) : Prop :=
  ∀ c ∈ tables.arguments, c.family = .argument ∧ ':' ∉ c.name

/-- The placeholder that binds a name. -/
def placeholder? (tables : Tables) (name : Text) : Option Placeholder :=
  match Text.dropStart? callPrefix name, Text.dropStart? trackerPrefix name,
    globalVariable? name with
  | some name, _, _ => (tables.call? name).map fun call => ⟨.ofName call.returnType, call.id, 1⟩
  | none, some name, _ =>
    (tables.tracker? name).map fun tracker => ⟨.ofName tracker.typeName, tracker.id, 2⟩
  | none, none, some g => some ⟨.ofName g.typeName, 0, g.flag⟩
  | none, none, none => (tables.arguments.find? (·.name == name)).map fun c => ⟨c.type, c.index, 0⟩

theorem dropStart?_eq_none_of_not_mem {c : Char} {start t : Text} (inside : c ∈ start)
    (outside : c ∉ t) : Text.dropStart? start t = none := by
  cases found : Text.dropStart? start t with
  | none => rfl
  | some rest =>
    rw [Text.dropStart?_eq_some_iff.mp found] at outside
    exact absurd (List.mem_append_left _ inside) outside

theorem mem_of_globalVariable?
    (h : globalVariable? reference = some g) : g ∈ globalVariables := List.mem_of_find?_eq_some h

theorem colon_mem_reference (h : g ∈ globalVariables) : ':' ∈ g.reference := by
  simp only [globalVariables, List.mem_cons, List.not_mem_nil, or_false] at h
  rcases h with rfl | rfl | rfl | rfl | rfl <;> decide

theorem dropStart?_reference (h : g ∈ globalVariables) :
    Text.dropStart? callPrefix g.reference = none ∧
      Text.dropStart? trackerPrefix g.reference = none := by
  simp only [globalVariables, List.mem_cons, List.not_mem_nil, or_false] at h
  rcases h with rfl | rfl | rfl | rfl | rfl <;> decide

/-- A component is bound by the placeholder of its name. -/
theorem Gives.ofComponent_eq (plain : tables.PlainArguments) (h : tables.Gives c) :
    ∃ q, tables.placeholder? c.name = some q ∧ Placeholder.ofComponent c = .ok q := by
  cases h with
  | argument first =>
    obtain ⟨family, noColon⟩ := plain c (List.mem_of_find?_eq_some first)
    have noGlobal : globalVariable? c.name = none := by
      cases found : globalVariable? c.name with
      | none => rfl
      | some g =>
        have colon := colon_mem_reference (mem_of_globalVariable? found)
        rw [globalVariable?_reference found] at colon
        exact absurd colon noColon
    have noCall : Text.dropStart? callPrefix c.name = none :=
      dropStart?_eq_none_of_not_mem (by decide) noColon
    have noTracker : Text.dropStart? trackerPrefix c.name = none :=
      dropStart?_eq_none_of_not_mem (by decide) noColon
    refine ⟨⟨c.type, c.index, 0⟩, ?_, ?_⟩
    · simp [placeholder?, noCall, noTracker, noGlobal, first]
    · simp [Placeholder.ofComponent, Component.flag, family, bind, Except.bind, pure, Except.pure]
  | @call call found token own =>
    have start : Text.dropStart? callPrefix (call.component token).name = some call.name :=
      Text.dropStart?_eq_some_iff.mpr rfl
    refine ⟨⟨.ofName call.returnType, call.id, 1⟩, ?_, rfl⟩
    simp [placeholder?, start, found]
  | @read tracker found =>
    have start : Text.dropStart? trackerPrefix tracker.read.name = some tracker.name :=
      Text.dropStart?_eq_some_iff.mpr rfl
    have noCall : Text.dropStart? callPrefix tracker.read.name = none := rfl
    exact ⟨⟨.ofName tracker.typeName, tracker.id, 2⟩, by simp [placeholder?, start, noCall, found],
      rfl⟩
  | @updated tracker found =>
    have start : Text.dropStart? trackerPrefix tracker.updated.name = some tracker.name :=
      Text.dropStart?_eq_some_iff.mpr rfl
    have noCall : Text.dropStart? callPrefix tracker.updated.name = none := rfl
    exact ⟨⟨.ofName tracker.typeName, tracker.id, 2⟩, by simp [placeholder?, start, noCall, found],
      rfl⟩
  | @global g found =>
    obtain ⟨noCall, noTracker⟩ := dropStart?_reference (mem_of_globalVariable? found)
    refine ⟨⟨.ofName g.typeName, 0, g.flag⟩, ?_, ?_⟩
    · change tables.placeholder? g.reference = _
      simp [placeholder?, noCall, noTracker, found]
    · simp [Placeholder.ofComponent, Component.flag, GlobalVariable.component, found,
        Component.type, bind, Except.bind, pure, Except.pure]

end Tables

end PolicyRules
