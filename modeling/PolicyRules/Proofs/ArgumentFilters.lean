import Mathlib.Data.List.ReduceOption
import PolicyRules.Proofs.CallInputs
import PolicyRules.Proofs.Cleaning

/-!
# Which arguments a text mentions

The arguments of the calling function are picked in two ways: a declaration can be read for a given
text, which looks for the names in the text as it stands, and the references of a text can be
extracted, which looks for them in the cleaned text. Both ways pick the same arguments, because a
declared name is a word: it has no blanks, so cleaning changes neither its occurrences nor whether
they end at a blank.

Main statements: `mentions_clean`, and `Tables.declaredArguments_of_extract` for the arguments.
-/

namespace PolicyRules

/-- Whether a text is a word: it has characters, and none of them is a blank. -/
structure Text.IsWord (w : Text) : Prop where
  nonempty : w ≠ []
  solid : ∀ c ∈ w, isBlank c = false

section Fields

theorem separates_of_mem_fields {separates : Char → Bool} {t w : Text}
    (h : w ∈ t.fields separates) : ∀ c ∈ w, separates c = false := by
  induction t generalizing w with
  | nil =>
    obtain rfl := List.mem_singleton.mp h
    simp
  | cons c cs ih =>
    rw [Text.fields] at h
    split at h
    · rcases List.mem_cons.mp h with rfl | later
      · simp
      · exact ih later
    · next other =>
      split at h
      · next none => exact absurd none (Text.fields_ne_nil _ _)
      · next first rest fields_eq =>
        rw [fields_eq] at ih
        rcases List.mem_cons.mp h with rfl | later
        · exact List.forall_mem_cons.mpr ⟨by simpa using other, ih List.mem_cons_self⟩
        · exact ih (List.mem_cons_of_mem _ later)

theorem isWord_of_mem_words {t w : Text} (h : w ∈ t.words) : w.IsWord := by
  obtain ⟨field, nonempty⟩ := List.mem_filter.mp h
  exact ⟨by simpa using nonempty, separates_of_mem_fields field⟩

end Fields

section Blanks

variable {n t : Text}

theorem isClear_of_isBlank {c : Char} (blank : isBlank c) : isClear (some c) :=
  isClear_of_isClearOfTokens (isClearOfTokens_of_isBlank blank)

/-- What stands before a text matters only to what begins there. -/
theorem standsIn_congr {previous previous' : Option Char}
    (same : isClearOfTokens previous = isClearOfTokens previous') :
    standsIn n previous t = standsIn n previous' t := by
  cases t <;> simp [standsIn, standsAt, same]

theorem Text.IsWord.dropStart?_cons_blank (word : n.IsWord) {c : Char} (blank : isBlank c)
    (t : Text) : Text.dropStart? n (c :: t) = none := by
  obtain ⟨d, ds, rfl⟩ := List.exists_cons_of_ne_nil word.nonempty
  have other : d ≠ c := by
    rintro rfl
    have solid := word.solid d List.mem_cons_self
    rw [blank] at solid
    cases solid
  rw [Text.dropStart?, if_neg other]

/-- A blank separates what stands behind it from what stands before it. -/
theorem Text.IsWord.standsIn_cons_blank (word : n.IsWord) {c : Char} (blank : isBlank c)
    (previous : Option Char) (t : Text) : standsIn n previous (c :: t) = standsIn n none t := by
  rw [standsIn, standsAt, word.dropStart?_cons_blank blank, Bool.and_false, Bool.false_or]
  exact standsIn_congr (isClearOfTokens_of_isBlank blank)

theorem dropStart?_squeeze (solid : ∀ c ∈ n, isBlank c = false) (t : Text) :
    Text.dropStart? n (Text.squeeze t) = (Text.dropStart? n t).map Text.squeeze := by
  induction n generalizing t with
  | nil => rfl
  | cons d ds ih =>
    obtain ⟨here, later⟩ := List.forall_mem_cons.mp solid
    have word : Text.IsWord (d :: ds) := ⟨by simp, solid⟩
    cases t with
    | nil => rfl
    | cons c cs =>
      by_cases blank : isBlank c
      · obtain ⟨rest, spaced⟩ := squeeze_cons_of_isBlank blank cs
        rw [spaced, word.dropStart?_cons_blank isBlank_space, word.dropStart?_cons_blank blank]
        rfl
      · rw [Text.squeeze, if_neg blank, Text.dropStart?, Text.dropStart?]
        split
        · exact ih later cs
        · rfl

theorem isClear_head?_squeeze (t : Text) : isClear (Text.squeeze t).head? = isClear t.head? := by
  cases t with
  | nil => rfl
  | cons c cs =>
    by_cases blank : isBlank c
    · obtain ⟨rest, spaced⟩ := squeeze_cons_of_isBlank blank cs
      rw [spaced, List.head?_cons, List.head?_cons, isClear_of_isBlank isBlank_space,
        isClear_of_isBlank blank]
    · rw [Text.squeeze, if_neg blank, List.head?_cons, List.head?_cons]

theorem Text.IsWord.standsAt_squeeze (word : n.IsWord) (previous : Option Char) (t : Text) :
    standsAt n previous (Text.squeeze t) = standsAt n previous t := by
  rw [standsAt, standsAt, dropStart?_squeeze word.solid]
  cases Text.dropStart? n t with
  | none => rfl
  | some rest => simp [isClear_head?_squeeze]

/-- Squeezing blanks does not change which words stand in a text. -/
theorem Text.IsWord.standsIn_squeeze (word : n.IsWord) (previous : Option Char) (t : Text) :
    standsIn n previous (Text.squeeze t) = standsIn n previous t := by
  induction t generalizing previous with
  | nil => rfl
  | cons c cs ih =>
    by_cases blank : isBlank c
    · rw [word.standsIn_cons_blank blank, Text.squeeze, if_pos blank]
      split
      · next another =>
        rw [ih]
        cases cs with
        | nil => cases another
        | cons d ds => rw [word.standsIn_cons_blank another, word.standsIn_cons_blank another]
      · rw [word.standsIn_cons_blank isBlank_space, ih]
    · have here := word.standsAt_squeeze previous (c :: cs)
      rw [Text.squeeze, if_neg blank] at here ⊢
      rw [standsIn, standsIn, here, ih]

/-- Blanks at the beginning of a text do not matter to which words stand in it. -/
theorem Text.IsWord.standsIn_dropWhile (word : n.IsWord) (t : Text) :
    standsIn n none (t.dropWhile isBlank) = standsIn n none t := by
  induction t with
  | nil => rfl
  | cons c cs ih =>
    rw [List.dropWhile_cons]
    split
    · next blank => rw [word.standsIn_cons_blank blank, ih]
    · rfl

variable {gap : Text}

theorem isClear_head?_append (blank : ∀ c ∈ gap, isBlank c) (t : Text) :
    isClear (t ++ gap).head? = isClear t.head? := by
  cases t with
  | cons c cs => rfl
  | nil =>
    cases gap with
    | nil => rfl
    | cons c cs => exact isClear_of_isBlank (blank c List.mem_cons_self)

theorem dropStart?_append_blank (solid : ∀ c ∈ n, isBlank c = false)
    (blank : ∀ c ∈ gap, isBlank c) (t : Text) :
    Text.dropStart? n (t ++ gap) = (Text.dropStart? n t).map (· ++ gap) := by
  induction n generalizing t with
  | nil => rfl
  | cons d ds ih =>
    cases t with
    | nil =>
      have word : Text.IsWord (d :: ds) := ⟨by simp, solid⟩
      cases gap with
      | nil => rfl
      | cons c cs => exact word.dropStart?_cons_blank (blank c List.mem_cons_self) cs
    | cons c cs =>
      rw [List.cons_append, Text.dropStart?, Text.dropStart?]
      split
      · exact ih (List.forall_mem_cons.mp solid).2 cs
      · rfl

theorem Text.IsWord.standsAt_append_blank (word : n.IsWord) (blank : ∀ c ∈ gap, isBlank c)
    (previous : Option Char) (t : Text) :
    standsAt n previous (t ++ gap) = standsAt n previous t := by
  rw [standsAt, standsAt, dropStart?_append_blank word.solid blank]
  cases Text.dropStart? n t with
  | none => rfl
  | some rest => exact congrArg (isClearOfTokens previous && ·) (isClear_head?_append blank rest)

theorem Text.IsWord.standsIn_blank (word : n.IsWord) (blank : ∀ c ∈ gap, isBlank c)
    (previous : Option Char) : standsIn n previous gap = standsIn n previous [] := by
  have empty (previous : Option Char) : standsIn n previous [] = false := by
    obtain ⟨d, ds, rfl⟩ := List.exists_cons_of_ne_nil word.nonempty
    rw [standsIn, standsAt, Text.dropStart?, Bool.and_false]
  rw [empty]
  induction gap generalizing previous with
  | nil => exact empty previous
  | cons c cs ih =>
    obtain ⟨here, later⟩ := List.forall_mem_cons.mp blank
    rw [word.standsIn_cons_blank here, ih later]

/-- Blanks at the end of a text do not matter to which words stand in it. -/
theorem Text.IsWord.standsIn_append_blank (word : n.IsWord) (blank : ∀ c ∈ gap, isBlank c)
    (previous : Option Char) (t : Text) :
    standsIn n previous (t ++ gap) = standsIn n previous t := by
  induction t generalizing previous with
  | nil => exact word.standsIn_blank blank previous
  | cons c cs ih =>
    have here := word.standsAt_append_blank blank previous (c :: cs)
    rw [List.cons_append] at here ⊢
    rw [standsIn, standsIn, here, ih]

theorem Text.IsWord.standsIn_rdropWhile (word : n.IsWord) (previous : Option Char) (t : Text) :
    standsIn n previous (t.rdropWhile isBlank) = standsIn n previous t := by
  have blank : ∀ c ∈ t.rtakeWhile isBlank, isBlank c :=
    fun c member => List.mem_rtakeWhile_imp member
  calc standsIn n previous (t.rdropWhile isBlank)
    _ = standsIn n previous (t.rdropWhile isBlank ++ t.rtakeWhile isBlank) :=
      (word.standsIn_append_blank blank previous _).symm
    _ = standsIn n previous t := by rw [List.rdropWhile_append_rtakeWhile]

end Blanks

section Cleaning

variable {n : Text}

theorem any_changeLast {p : Text → Bool} {f : Text → Text} (keeps : ∀ t, p (f t) = p t)
    (parts : List Text) : (changeLast f parts).any p = parts.any p := by
  fun_induction changeLast f parts with
  | case1 => rfl
  | case2 t => simp [keeps]
  | case3 t u ts ih => simpa using congrArg (p t || ·) ih

/-- Cleaning a text does not change which words it mentions outside quotes. -/
theorem mentions_clean (word : n.IsWord) (t : Text) : mentions n (Text.clean t) = mentions n t := by
  rw [mentions, mentions, unquoted_clean, cleanParts,
    any_changeLast (word.standsIn_rdropWhile none)]
  cases t.unquoted with
  | nil => rfl
  | cons part rest =>
    simp only [List.map_cons, List.modifyHead_cons, List.any_cons, word.standsIn_dropWhile,
      word.standsIn_squeeze, List.any_map, Function.comp_def]

end Cleaning

section Declarations

variable {declaration : Text} {arguments : List Component}

/-- A field that is filtered out is the only difference that a filter makes. -/
theorem argumentOf_filter (declaration : Text) (keep : Text → Bool) (field : Text)
    (position : Nat) :
    argumentOf declaration keep field position =
      (argumentOf declaration (fun _ => true) field position).map
        (Option.filter fun c => keep c.name) := by
  unfold argumentOf
  split
  · next typeName name _ _ =>
    cases ParamType.isArgumentTypeName typeName with
    | false => rfl
    | true =>
      cases kept : keep name <;> simp [Except.map, Option.filter, Component.ofArgument, kept]
  · rfl

theorem isWord_of_argumentOf {keep : Text → Bool} {field : Text} {position : Nat} {c : Component}
    (h : argumentOf declaration keep field position = .ok (some c)) : c.name.IsWord := by
  unfold argumentOf at h
  split at h
  · next words =>
    split at h
    · cases h
      exact isWord_of_mem_words (words ▸ List.mem_cons_of_mem _ List.mem_cons_self)
    · cases h
  · cases h

/-- The name of a declared argument is a word. -/
theorem isWord_of_declaredArguments (h : declaredArguments declaration = .ok arguments)
    {c : Component} (member : c ∈ arguments) : c.name.IsWord := by
  unfold declaredArguments at h
  split at h
  · cases h
    cases member
  · obtain ⟨entries, each, same⟩ := bind_eq_ok_iff.mp h
    obtain rfl := pure_eq_ok_iff.mp same
    obtain ⟨entry, -, read⟩ := (mem_of_mapM_eq_ok each).mp (List.reduceOption_mem_iff.mp member)
    exact isWord_of_argumentOf read

/-- Reading a declaration for a text leaves out the arguments that the text does not mention. -/
theorem declaredArguments_some (h : declaredArguments declaration = .ok arguments) (t : Text) :
    declaredArguments declaration (some t) = .ok (arguments.filter fun c => mentions c.name t) := by
  unfold declaredArguments at h ⊢
  split at h
  · next empty =>
    cases h
    rw [if_pos empty]
    rfl
  · next nonempty =>
    rw [if_neg nonempty]
    obtain ⟨entries, each, same⟩ := bind_eq_ok_iff.mp h
    obtain rfl := pure_eq_ok_iff.mp same
    refine bind_eq_ok_iff.mpr ⟨entries.map (Option.filter fun c => mentions c.name t), ?_, ?_⟩
    · rw [mapM_eq_ok_iff, List.forall₂_map_right_iff]
      refine (mapM_eq_ok_iff.mp each).imp ?_
      rintro ⟨field, position⟩ argument read
      exact (argumentOf_filter ..).trans (map_eq_ok_iff.mpr ⟨argument, read, rfl⟩)
    · simp only [pure_eq_ok_iff, List.reduceOption, List.filterMap_map, List.filter_filterMap]
      rfl

end Declarations

section Families

variable {l : List Component}

/-- Adding components of other families does not change those of a family. -/
theorem filter_foldl_addComponent {p : Component → Bool} (others : ∀ c ∈ l, p c = false)
    (acc : List Component) : (l.foldl addComponent acc).filter p = acc.filter p := by
  induction l generalizing acc with
  | nil => rfl
  | cons c l ih =>
    obtain ⟨here, later⟩ := List.forall_mem_cons.mp others
    rw [List.foldl_cons, ih later, addComponent]
    split
    · rfl
    · rw [List.filter_append, List.filter_singleton, here]
      simp

end Families

namespace Tables

variable {tables : Tables} {source : Text} {dependencies : Option (List Text)} {e : Extract}

/-- What is extracted with the dependencies left open is extracted with those of the calls that are
named. -/
theorem exists_findings_of_extract (h : tables.extract source dependencies = .ok e) :
    ∃ needed, ∃ f : Findings tables source needed,
      e = ⟨tables.normalize source, f.components.foldl addComponent []⟩ := by
  suffices ∃ needed, tables.extract source (some needed) = .ok e by
    obtain ⟨needed, same⟩ := this
    exact ⟨needed, extract_eq_ok_iff.mp same⟩
  cases dependencies with
  | some needed => exact ⟨needed, h⟩
  | none =>
    rw [extract] at h
    obtain ⟨named, named_eq, rest⟩ := bind_eq_ok_iff.mp h
    refine ⟨(named.map (·.name)).eraseDups.map (callPrefix ++ ·), ?_⟩
    rw [extract]
    exact bind_eq_ok_iff.mpr ⟨named, named_eq, rest⟩

/-- The arguments among the components of a text are those that its cleaned form mentions. -/
theorem filter_family_components (isArgument : ∀ c ∈ tables.arguments, c.family = .argument)
    (distinct : (tables.arguments.map Component.name).Nodup)
    (h : tables.extract source dependencies = .ok e) :
    e.components.filter (·.family == .argument) =
      tables.arguments.filter fun c => mentions c.name (Text.clean source) := by
  obtain ⟨needed, f, rfl⟩ := exists_findings_of_extract h
  have kept := List.filter_sublist (p := fun c : Component => mentions c.name (Text.clean source))
    (l := tables.arguments)
  have added : (tables.arguments.filter fun c => mentions c.name (Text.clean source)).foldl
      addComponent [] =
      tables.arguments.filter fun c => mentions c.name (Text.clean source) :=
    foldl_eq_append_of_nodup addComponent_of_new (distinct.sublist (kept.map _))
  simp only [Findings.components, List.append_assoc, List.foldl_append, added]
  rw [← List.foldl_append, ← List.foldl_append, filter_foldl_addComponent, List.filter_eq_self]
  · intro c member
    simpa using isArgument c (kept.subset member)
  · intro c member
    simp only [callComponents, trackerComponents, List.mem_append, List.mem_map] at member
    grind [ForeignCall.component, Tracker.read, Tracker.updated, GlobalVariable.component]

/-- The two ways of picking arguments agree. The arguments among the components that are extracted
from a text are those that the declaration has for that text, each with its place and its type, in
the order of the declaration. Cleaning a text does not change which words it mentions. -/
theorem declaredArguments_of_extract {declaration : Text}
    (declared : declaredArguments declaration = .ok tables.arguments)
    (distinct : (tables.arguments.map Component.name).Nodup)
    (extracted : tables.extract source dependencies = .ok e) :
    declaredArguments declaration (some source) =
        .ok (e.components.filter (·.family == .argument)) ∧
      ∀ name : Text, name.IsWord → mentions name (Text.clean source) = mentions name source := by
  refine ⟨?_, fun name word => mentions_clean word source⟩
  have isArgument : ∀ c ∈ tables.arguments, c.family = .argument := by
    intro c member
    obtain ⟨position, typeName, same⟩ := exists_ofArgument_of_mem declared member
    rw [same]
    rfl
  rw [declaredArguments_some declared, filter_family_components isArgument distinct extracted,
    Except.ok.injEq]
  refine List.filter_congr fun c member => ?_
  exact (mentions_clean (isWord_of_declaredArguments declared member) source).symm

/-- The arguments of `address to, uint256 value, void note, bool it's`, of which the third cannot be
bound. -/
def transferTables : Tables where
  arguments := [
    .ofArgument "to".toList 0 "address".toList, .ofArgument "value".toList 1 "uint256".toList,
    .ofArgument "it's".toList 3 "bool".toList]

/-- Of the arguments, one stands inside quotes, and the name of another has a mark that is never
closed. -/
theorem declaredArguments_of_extract_marks :
    let declaration := "address to, uint256 value, void note, bool it's".toList
    let source := "\tvalue\x0b >  5 AND \"to\" ==  it's ".toList
    ∃ e, transferTables.extract source = .ok e ∧
      declaredArguments declaration (some source) =
        .ok (e.components.filter (·.family == .argument)) ∧
      e.components = [.ofArgument "value".toList 1 "uint256".toList,
        .ofArgument "it's".toList 3 "bool".toList] := by
  intro declaration source
  have declared : declaredArguments declaration = .ok transferTables.arguments := by decide +kernel
  have extracted : transferTables.extract source = .ok ⟨"value > 5 AND \"to\" == it's".toList,
      [.ofArgument "value".toList 1 "uint256".toList, .ofArgument
        "it's".toList 3 "bool".toList]⟩ := by
    decide +kernel
  exact ⟨_, extracted, (declaredArguments_of_extract declared (by decide) extracted).1, rfl⟩

end Tables

end PolicyRules
