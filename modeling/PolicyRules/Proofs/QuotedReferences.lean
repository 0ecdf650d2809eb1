import PolicyRules.Policy
import PolicyRules.Proofs.Cleaning
import PolicyRules.Proofs.DependencyOrder

/-!
# References and quoted text

What extraction finds in a text does not depend on what the text has inside quotes
(`Tables.extract_of_alike`). The order of dependencies does, in one way: it has the foreign calls
that are named anywhere, in quotes too. So texts that differ only inside quotes refer to the same
components if their quoted segments name the same calls (`Policy.process_of_alike`).
-/

namespace PolicyRules

/-- Whether two texts differ at most in what stands inside their quotes. -/
structure Text.AlikeOutsideQuotes (s s' : Text) : Prop where
  plain : s.unquoted = s'.unquoted
  marks : s.segments.marks.map (·.mark) = s'.segments.marks.map (·.mark)

instance (s s' : Text) : Decidable (s.AlikeOutsideQuotes s') :=
  decidable_of_iff (s.unquoted = s'.unquoted ∧
    s.segments.marks.map (·.mark) = s'.segments.marks.map (·.mark)) ⟨fun h => ⟨h.1, h.2⟩, fun h =>
      ⟨h.1, h.2⟩⟩

/-- An error without the text that it reports: what is wrong, and the reference or place that it
names. -/
def Error.unsourced : Error → Error
  | .malformed fault _ position => .malformed fault [] position
  | .unknownReference reference _ note => .unknownReference reference [] note
  | e => e

/-- Whether two runs succeed with results in a relation, or fail with the same error about their own
texts. -/
inductive SameOutcome {α : Type} (R : α → α → Prop) : Except Error α → Except Error α → Prop
  | ok {a b : α} (related : R a b) : SameOutcome R (.ok a) (.ok b)
  | error {e e' : Error} (same : e.unsourced = e'.unsourced) : SameOutcome R (.error e) (.error e')

namespace SameOutcome

variable {α β : Type} {R : α → α → Prop} {S : β → β → Prop} {x x' : Except Error α}

theorem refl (R : α → α → Prop) [Std.Refl R] (x : Except Error α) : SameOutcome R x x := by
  cases x with
  | ok a => exact .ok (Std.Refl.refl a)
  | error e => exact .error rfl

theorem bind {f f' : α → Except Error β} (first : SameOutcome R x x')
    (next : ∀ a b, R a b → SameOutcome S (f a) (f' b)) : SameOutcome S (x >>= f) (x' >>= f') := by
  cases first with
  | ok related => exact next _ _ related
  | error same => exact .error same

theorem map {f : α → β} (h : SameOutcome Eq x x') : SameOutcome Eq (x.map f) (x'.map f) := by
  cases h with
  | ok related => exact .ok (congrArg f related)
  | error same => exact .error same

theorem mapM {l : List β} {f f' : β → Except Error α} (h : ∀ b ∈ l, SameOutcome Eq (f b) (f' b)) :
    SameOutcome Eq (l.mapM f) (l.mapM f') := by
  induction l with
  | nil => exact .refl _ _
  | cons b l ih =>
    obtain ⟨here, later⟩ := List.forall_mem_cons.mp h
    simp only [List.mapM_cons]
    refine here.bind ?_
    rintro a _ rfl
    refine (ih later).bind ?_
    rintro as _ rfl
    exact .refl _ _

theorem foldlM {l : List β} {f f' : α → β → Except Error α}
    (h : ∀ a b, SameOutcome Eq (f a b) (f' a b)) (a : α) :
    SameOutcome Eq (l.foldlM f a) (l.foldlM f' a) := by
  induction l generalizing a with
  | nil => exact .refl _ _
  | cons b l ih =>
    simp only [List.foldlM_cons]
    refine (h a b).bind ?_
    rintro c _ rfl
    exact ih c

theorem require (entry : Option α) (reference source source' : Text) :
    SameOutcome Eq (require entry reference source)
      (PolicyRules.require entry reference source') := by
  cases entry with
  | none => exact .error rfl
  | some a => exact .ok rfl

end SameOutcome

/-- The order of dependencies takes from the text only the names of calls: the text itself is only
reported. -/
theorem sameOutcome_place (calls : List ForeignCall) (source source' : Text) :
    (∀ chain order name, SameOutcome Eq (placeCall calls source chain order name)
      (placeCall calls source' chain order name)) ∧
    ∀ chain order values, SameOutcome Eq (placeValues calls source chain order values)
      (placeValues calls source' chain order values) := by
  apply search_induction calls
  case waiting =>
    intro chain order name waits
    rw [placeCall_of_waiting waits, placeCall_of_waiting waits]
    exact .error rfl
  case placed =>
    intro chain order name fresh listed
    rw [placeCall_of_placed fresh listed, placeCall_of_placed fresh listed]
    exact .ok rfl
  case missing =>
    intro chain order name fresh unlisted unknown
    rw [placeCall_of_missing fresh unlisted unknown, placeCall_of_missing fresh unlisted unknown]
    exact .error rfl
  case call =>
    intro chain order name c fresh unlisted found ih
    rw [placeCall_of_found fresh unlisted found, placeCall_of_found fresh unlisted found]
    exact ih.map
  case nil =>
    intro chain order
    rw [placeValues_nil, placeValues_nil]
    exact .ok rfl
  case callValue =>
    intro chain order value values name isCall first later
    rw [placeValues_call isCall, placeValues_call isCall]
    refine first.bind ?_
    rintro order₁ _ rfl
    exact later order₁
  case trackerValue =>
    intro chain order value values isTracker unlisted later
    rw [placeValues_tracker isTracker unlisted, placeValues_tracker isTracker unlisted]
    exact later
  case otherValue =>
    intro chain order value values noCall known later
    rw [placeValues_other noCall known, placeValues_other noCall known]
    exact later

theorem sameOutcome_dependencyOrder (calls : List ForeignCall) {s s' : Text}
    (names : callNames s = callNames s') :
    SameOutcome Eq (dependencyOrder calls s) (dependencyOrder calls s') := by
  rw [dependencyOrder, dependencyOrder, names]
  exact .foldlM (fun order name => (sameOutcome_place calls s s').1 [] order name) []

section Extraction

variable {s s' : Text}

theorem Text.AlikeOutsideQuotes.unquoted_clean (h : s.AlikeOutsideQuotes s') :
    (Text.clean s).unquoted = (Text.clean s').unquoted := by
  rw [PolicyRules.unquoted_clean, PolicyRules.unquoted_clean, h.plain]

/-- Extraction reads only the plain segments of a text. -/
theorem Tables.extract_of_alike (tables : Tables) (alike : s.AlikeOutsideQuotes s')
    (dependencies : Option (List Text)) :
    SameOutcome (fun e e' => e.components = e'.components) (tables.extract s dependencies)
      (tables.extract s' dependencies) := by
  have cleaned := alike.unquoted_clean
  have normalized : (tables.normalize s).unquoted = (tables.normalize s').unquoted := by
    rw [unquoted_normalize, unquoted_normalize, cleaned]
  refine SameOutcome.bind (R := Eq) ?named ?_
  case named =>
    rw [namedCalls, namedCalls, unquotedMarks, unquotedMarks, cleaned]
    exact .mapM fun name _ => .require _ _ s s'
  rintro named _ rfl
  refine SameOutcome.bind (R := Eq) (.mapM fun reference _ => .require _ _ s s') ?_
  rintro needed _ rfl
  refine SameOutcome.bind (R := Eq) ?trackers ?_
  case trackers =>
    change SameOutcome Eq (tables.namedTrackers s (tables.normalize s))
      (tables.namedTrackers s' (tables.normalize s'))
    rw [namedTrackers, namedTrackers, unquotedMarks, unquotedMarks, normalized]
    exact .mapM fun mark _ => (SameOutcome.require _ _ s s').map
  rintro namedTrackers _ rfl
  refine SameOutcome.bind (R := Eq) (.mapM fun reference _ => .require _ _ s s') ?_
  rintro neededTrackers _ rfl
  refine SameOutcome.bind (R := Eq) ?globals ?_
  case globals =>
    change SameOutcome Eq (namedGlobals s (tables.normalize s))
      (namedGlobals s' (tables.normalize s'))
    rw [namedGlobals, namedGlobals, unquotedMarks, unquotedMarks, normalized]
    exact .mapM fun reference _ => .require _ _ s s'
  rintro globals _ rfl
  refine .ok ?_
  simp only [mentions, cleaned]

end Extraction

section CallNames

variable {previous : Option Char} {u v : Text} {c : Char}

/-- The name of a call ends before a character that no reference has. -/
theorem callNameAt_append (other : isReferenceChar c = false) :
    callNameAt previous (u ++ c :: v) = callNameAt previous u := by
  ext ⟨name, width⟩
  simp only [callNameAt_eq_some_iff]
  refine and_congr_right fun _ => and_congr_left fun _ => ⟨?_, ?_⟩
  · rintro ⟨b, same, table, edge⟩
    have run : ∀ c ∈ callPrefix ++ name, isReferenceChar c := table.isReferenceChar (by decide)
    rw [← List.append_assoc] at same
    rcases List.append_eq_append_iff.mp same with ⟨rest, start, whole⟩ | ⟨rest, start, whole⟩
    · -- The character would stand inside the name.
      cases rest with
      | nil => exact ⟨[], by simpa using start.symm, table, rfl⟩
      | cons d ds =>
        obtain ⟨rfl, -⟩ := List.cons.inj whole
        rw [run c (by simp [start])] at other
        cases other
    · refine ⟨rest, by simpa using start, table, ?_⟩
      cases rest with
      | nil => rfl
      | cons d ds => simpa [whole] using edge
  · rintro ⟨b, rfl, table, edge⟩
    refine ⟨b ++ c :: v, by simp, table, ?_⟩
    cases b with
    | nil => simpa [isWordEdge, isReferenceChar] using (Bool.or_eq_false_iff.mp other).1
    | cons d ds => exact edge

theorem quiet_callNameAt_append (other : isReferenceChar c = false) {t : Text}
    (quiet : Quiet callNameAt previous u t) : Quiet callNameAt previous u (t ++ c :: v) := by
  induction u generalizing previous with
  | nil => trivial
  | cons d u ih =>
    obtain ⟨here, later⟩ := quiet
    refine ⟨?_, ih later⟩
    rwa [← List.append_assoc, callNameAt_append other]

theorem measured_callNameAt : Measured callNameAt := by
  intro previous t name width h
  obtain ⟨-, ⟨b, rfl, -, -⟩, rfl⟩ := callNameAt_eq_some_iff.mp h
  simp [callPrefix]
  omega

/-- The calls named before and behind a character that no reference has. -/
theorem marks_callNameAt_append (other : isReferenceChar c = false) (previous : Option Char)
    (u v : Text) :
    (Split.scan callNameAt 0 previous (u ++ c :: v)).marks =
      (Split.scan callNameAt 0 previous u).marks ++ (Split.scan callNameAt 0 (some c) v).marks := by
  have scanned := Split.scans measured_callNameAt previous u
  generalize Split.scan callNameAt 0 previous u = s at scanned
  induction scanned with
  | @text previous u quiet =>
    have quiet' : Quiet callNameAt previous u (c :: v) := by
      simpa using quiet_callNameAt_append (v := v) other quiet
    have none : callNameAt (lastChar previous u) (c :: v) = none :=
      (callNameAt_append (u := []) other).trans (by simp [callNameAt, Text.dropStart?, callPrefix])
    rw [Split.scan_append_of_quiet quiet', Split.scan, none]
    rfl
  | @mark previous u w t next name tail quiet nonempty found rest ih =>
    have quiet' : Quiet callNameAt previous u (w ++ (t ++ c :: v)) := by
      simpa using quiet_callNameAt_append (v := v) other quiet
    have found' : callNameAt (lastChar previous u) (w ++ (t ++ c :: v)) =
        some (name, w.length) := by
      rwa [← List.append_assoc, callNameAt_append other]
    rw [lastChar_append] at ih
    rw [List.append_assoc, List.append_assoc, Split.scan_append_of_quiet quiet',
      Split.scan_append_of_mark nonempty found']
    simpa [Split.consText, Split.consMark, Split.marks] using ih

/-- Whether a call can be named behind a character does not depend on which clear character it
is. -/
theorem scan_callNameAt_of_clear {previous previous' : Option Char}
    (clear : isClearOfTokens previous) (clear' : isClearOfTokens previous') (t : Text) :
    Split.scan callNameAt 0 previous t = Split.scan callNameAt 0 previous' t := by
  cases t with
  | nil => rfl
  | cons d t =>
    have same : callNameAt previous (d :: t) = callNameAt previous' (d :: t) := by
      rw [callNameAt, callNameAt, clear, clear']
    rw [Split.scan, Split.scan, same]

end CallNames

/-- The foreign calls named in the segments of a text, plain and quoted ones in turn. -/
def segmentCalls (s : Split Quotation) : List Text :=
  (s.head.split callNameAt).marks ++
    s.tail.flatMap fun piece => (piece.1.body.split callNameAt).marks ++
    (piece.2.split callNameAt).marks

/-- A call is named within one segment of a text: no name goes over a quotation mark. -/
theorem marks_split_callNameAt (t : Text) :
    (t.split callNameAt).marks = segmentCalls t.segments := by
  have scanned := Split.scans measured_quotationAt none t
  change _ = segmentCalls (Split.scan quotationAt 0 none t)
  generalize Split.scan quotationAt 0 none t = s at scanned
  rw [Text.split]
  -- The text is read from any place where a call can be named.
  have clear : isClearOfTokens none := rfl
  generalize (none : Option Char) = start at clear
  generalize (none : Option Char) = previous at scanned
  induction scanned generalizing start with
  | @text previous t quiet =>
    rw [scan_callNameAt_of_clear clear isClearOfTokens_none]
    simp [segmentCalls, Text.split]
  | @mark previous u w t next q tail quiet nonempty found rest ih =>
    have proper := proper_of_quotationAt found
    obtain rfl : q.text = w := by simpa using (quotationAt_width found).2
    have other : isReferenceChar q.mark = false := by
      rcases isQuoteMark_iff.mp proper.1 with mark | mark <;> rw [mark] <;> decide
    have clearMark : isClearOfTokens (some q.mark) :=
      isClearOfTokens_of_quoteMark fun c same => Option.some.inj same ▸ proper.1
    have parts : u ++ (q.text ++ t) = u ++ q.mark :: (q.body ++ q.mark :: t) := by
      simp [Quotation.text]
    rw [parts, marks_callNameAt_append other, marks_callNameAt_append other, ih _ clearMark,
      scan_callNameAt_of_clear clear isClearOfTokens_none, scan_callNameAt_of_clear clearMark
        isClearOfTokens_none]
    simp [segmentCalls, Text.split]

section EraseDups

variable {α : Type} [BEq α] [LawfulBEq α]

theorem eraseDups_filter (p : α → Bool) (l : List α) :
    (l.filter p).eraseDups = l.eraseDups.filter p := by
  induction length : l.length using Nat.strongRecOn generalizing l with
  | ind n ih =>
    cases l with
    | nil => rfl
    | cons a l =>
      have shorter : (l.filter fun b => !b == a).length < n := by
        have := List.length_filter_le (fun b => !b == a) l
        simp only [List.length_cons] at length
        omega
      have rest := ih _ shorter (l.filter fun b => !b == a) rfl
      rw [List.eraseDups_cons, List.filter_cons]
      by_cases keep : p a
      · rw [if_pos keep, List.eraseDups_cons, List.filter_cons_of_pos keep, ← rest,
          List.filter_filter, List.filter_filter]
        simp only [Bool.and_comm]
      · rw [if_neg keep, List.filter_cons_of_neg keep, ← rest, List.filter_filter]
        congr 1
        refine List.filter_congr fun b _ => ?_
        by_cases same : b = a
        · simpa [same] using keep
        · simp [same]

theorem eraseDups_append_congr {a a' b b' : List α} (first : a.eraseDups = a'.eraseDups)
    (second : b.eraseDups = b'.eraseDups) : (a ++ b).eraseDups = (a' ++ b').eraseDups := by
  have members : ∀ x, a.elem x = a'.elem x := by
    intro x
    rw [Bool.eq_iff_iff, List.elem_iff, List.elem_iff, ← List.mem_eraseDups, first,
      List.mem_eraseDups]
  rw [List.eraseDups_append, List.eraseDups_append, first, List.removeAll, List.removeAll,
    eraseDups_filter, eraseDups_filter, second]
  simp only [members]

end EraseDups

/-- Texts that are alike outside quotes name the same foreign calls, if their quoted segments do. -/
theorem Text.AlikeOutsideQuotes.callNames_eq {s s' : Text} (alike : s.AlikeOutsideQuotes s')
    (calls : (s.segments.marks.map fun q => callNames q.body) = s'.segments.marks.map fun q =>
      callNames q.body) :
    callNames s = callNames s' := by
  have plain := alike.plain
  rw [callNames, callNames, marks_split_callNameAt, marks_split_callNameAt]
  simp only [Text.unquoted, Split.plain, Split.marks, List.map_map] at plain calls
  generalize s.segments = pieces at plain calls
  generalize s'.segments = pieces' at plain calls
  obtain ⟨head, tail⟩ := pieces
  obtain ⟨head', tail'⟩ := pieces'
  obtain ⟨rfl, parts⟩ := List.cons.inj plain
  refine eraseDups_append_congr rfl ?_
  clear plain
  simp only at parts calls ⊢
  induction tail generalizing tail' with
  | nil =>
    obtain rfl : tail' = [] := List.map_eq_nil_iff.mp parts.symm
    rfl
  | cons piece tail ih =>
    obtain ⟨piece', rest, rfl, same, later⟩ := List.map_eq_cons_iff.mp parts.symm
    obtain ⟨sameCalls, laterCalls⟩ := List.cons.inj calls
    rw [List.flatMap_cons, List.flatMap_cons, same]
    exact eraseDups_append_congr (eraseDups_append_congr sameCalls rfl)
      (ih rest laterCalls later.symm)

theorem mem_callNames_of_mem_segments {s name : Text} {q : Quotation}
    (member : q ∈ s.segments.marks) (named : name ∈ callNames q.body) : name ∈ callNames s := by
  obtain ⟨piece, listed, rfl⟩ := List.mem_map.mp member
  rw [callNames, List.mem_eraseDups] at named ⊢
  rw [marks_split_callNameAt, segmentCalls]
  exact List.mem_append_right _ (List.mem_flatMap.mpr ⟨piece, listed, List.mem_append_left _ named⟩)

namespace Policy

/-- Every foreign call that a text names, inside quotes or outside, is among its components. -/
theorem mem_components_of_mem_callNames {p : Policy} {s name : Text} {e : Extract}
    (h : p.process s = .ok e) (named : name ∈ callNames s) :
    callPrefix ++ name ∈ e.components.map (·.name) := by
  obtain ⟨dependencies, ordered, extracted⟩ := bind_eq_ok_iff.mp h
  obtain ⟨f, rfl⟩ := Tables.extract_eq_ok_iff.mp extracted
  have listed := (dependencyOrder_isOrder ordered).2 name named
  have isCall : ! Tables.isTrackerDependency (callPrefix ++ name) := rfl
  obtain ⟨call, member, found⟩ :=
    exists_of_mapM_eq_ok f.needed_eq (List.mem_filter.mpr ⟨listed, isCall⟩)
  have same : call.name = name := Tables.call?_name (require_eq_ok_iff.mp found)
  obtain ⟨c, kept, sameName⟩ :=
    exists_of_mem_components (f.mem_components.mpr (.inr (.inl ⟨call, member, rfl⟩)))
  exact List.mem_map.mpr ⟨c, kept, sameName.trans (congrArg (callPrefix ++ ·) same)⟩

/-- What is inside quotes counts only by the foreign calls that it names: of two texts that are
alike outside quotes and name the same calls inside them, segment by segment, both have the same
components, or both fail with the same error, which names the same reference. A call that is named
inside quotes does count: it is a component. -/
theorem process_of_alike (p : Policy) {s s' : Text} (alike : s.AlikeOutsideQuotes s') :
    ((s.segments.marks.map fun q => callNames q.body) =
      (s'.segments.marks.map fun q => callNames q.body) →
      SameOutcome (fun e e' => e.components = e'.components) (p.process s) (p.process s')) ∧
    ∀ e, p.process s = .ok e → ∀ q ∈ s.segments.marks, ∀ name ∈ callNames q.body,
      callPrefix ++ name ∈ e.components.map (·.name) := by
  refine ⟨fun calls => ?_, fun e processed q member name named => ?_⟩
  · refine (sameOutcome_dependencyOrder p.calls (alike.callNames_eq calls)).bind ?_
    rintro dependencies _ rfl
    exact p.toTables.extract_of_alike alike (some dependencies)
  · exact mem_components_of_mem_callNames processed (mem_callNames_of_mem_segments member named)

/-- A policy with one foreign call and one tracker. -/
def ratedPolicy : Policy where
  trackers := [{ name := "total".toList, id := 1 }]
  calls := [{ name := "rate".toList, id := 7 }]

/-- The tracker that a quoted segment names does not count, the call in it does. -/
theorem process_of_alike_rated :
    Text.AlikeOutsideQuotes "TR:total == 'FC:rate' + \"TR:missing\"".toList
      "TR:total == 'GV:none FC:rate' + \"\"".toList ∧
    SameOutcome (fun e e' => e.components = e'.components)
      (ratedPolicy.process "TR:total == 'FC:rate' + \"TR:missing\"".toList)
      (ratedPolicy.process "TR:total == 'GV:none FC:rate' + \"\"".toList) :=
  ⟨by decide, (process_of_alike ratedPolicy (by decide)).1 (by decide)⟩

end Policy

end PolicyRules
