import PolicyRules.Proofs.SharedEffects

/-!
# Events with quoted texts

An event is read as raw text: its name ends at the first comma, and only then are quotes around the
name and around the parameter taken off. So a name in quotes is kept as it is written, blanks and
other quotes included, exactly if there is no comma in it, while a parameter may have any number of
commas.

Main statement: `Effect.ofText_quotedEvent_iff`.
-/

namespace PolicyRules

/-- A text in double quotes. -/
def inQuotes (t : Text) : Text := Quotation.text ⟨'"', t⟩

theorem inQuotes_eq (t : Text) : inQuotes t = '"' :: t ++ ['"'] := rfl

/-- The source of an event with a quoted name and a quoted parameter, if it has one. -/
def quotedEvent (name : Text) (parameter : Option Text) : Text :=
  "emit ".toList ++ inQuotes name ++ (parameter.map fun p => ", ".toList ++ inQuotes p).getD []

/-! ### Blanks around a text -/

section Strip

variable {c d : Char}

theorem Text.strip_of_ends (first : isBlank c = false) (last : isBlank d = false) (t : Text) :
    Text.strip (c :: t ++ [d]) = c :: t ++ [d] := by
  simp [Text.strip, first, last]

/-- A text that begins with a visible character is stripped at its end only. -/
theorem Text.exists_strip_cons (visible : isBlank c = false) (t : Text) :
    ∃ v, Text.strip (c :: t) = c :: v ∧ v <+: t := by
  obtain ⟨before, behind, same, blank, blank'⟩ := Text.exists_append_strip (c :: t)
  cases before with
  | cons x before =>
    obtain ⟨rfl, -⟩ := List.cons.inj same
    simp [blank c (by simp)] at visible
  | nil =>
    cases stripped : Text.strip (c :: t) with
    | nil =>
      rw [stripped, List.nil_append, List.nil_append] at same
      simp [blank' c (same ▸ List.mem_cons_self)] at visible
    | cons x v =>
      rw [stripped] at same
      obtain ⟨rfl, rest⟩ := List.cons.inj same
      exact ⟨v, rfl, behind, rest.symm⟩

end Strip

/-! ### Quotes around a text -/

@[simp] theorem strip_inQuotes (t : Text) : Text.strip (inQuotes t) = inQuotes t :=
  Text.strip_of_ends (c := '"') (d := '"') (by decide) (by decide) t

@[simp] theorem unquote_inQuotes (t : Text) : unquote (inQuotes t) = t := by
  simp [unquote, inQuotes_eq, isQuoteMark]

/-- A quote that is not closed is not taken off. -/
theorem unquote_of_not_mem {t : Text} (open_quote : '"' ∉ t) : unquote ('"' :: t) = '"' :: t := by
  rw [unquote, if_neg]
  rw [Bool.and_eq_true, beq_iff_eq]
  exact fun h => open_quote (List.mem_of_getLast? h.2)

/-! ### The parts of an event -/

section Comma

variable {s : Text}

theorem before_comma_inQuotes (whole : ',' ∉ s) : Text.before ',' (inQuotes s) = inQuotes s := by
  rw [Text.before, List.takeWhile_eq_self_iff]
  intro c member
  rw [bne_iff_ne]
  rintro rfl
  simp [inQuotes_eq, whole] at member

theorem after_comma_inQuotes (whole : ',' ∉ s) : Text.after ',' (inQuotes s) = [] := by
  have all := before_comma_inQuotes whole
  have parts := List.takeWhile_append_dropWhile (p := (· != ',')) (l := inQuotes s)
  rw [Text.before] at all
  rw [all, List.append_right_eq_self] at parts
  rw [Text.after, parts, List.drop_nil]

theorem before_comma_append (whole : ',' ∉ s) (rest : Text) :
    Text.before ',' (inQuotes s ++ ',' :: rest) = inQuotes s := by
  have all := before_comma_inQuotes whole
  rw [Text.before, List.takeWhile_eq_self_iff] at all
  rw [Text.before, List.takeWhile_append_of_pos all]
  simp

theorem after_comma_append (whole : ',' ∉ s) (rest : Text) :
    Text.after ',' (inQuotes s ++ ',' :: rest) = rest := by
  have all := before_comma_inQuotes whole
  rw [Text.before, List.takeWhile_eq_self_iff] at all
  rw [Text.after, List.dropWhile_append_of_pos all]
  simp

/-- A name that is cut at a comma inside it keeps its first quote, since the other one is cut
off. -/
theorem exists_cut_name (cut : ',' ∈ s) (bare : '"' ∉ s) (rest : Text) :
    ∃ v, unquote (Text.strip (Text.before ',' ('"' :: s ++ rest))) = '"' :: v := by
  obtain ⟨start, tail, rfl, first⟩ := List.eq_append_cons_of_mem cut
  have kept : ∀ c ∈ '"' :: start, (c != ',') := by
    intro c member
    rw [bne_iff_ne]
    rintro rfl
    simp [first] at member
  have cut_eq : Text.before ',' ('"' :: (start ++ ',' :: tail) ++ rest) = '"' :: start := by
    rw [← List.cons_append, List.append_assoc, Text.before, List.takeWhile_append_of_pos kept]
    simp
  obtain ⟨v, stripped, inside⟩ := Text.exists_strip_cons (c := '"') (by decide) start
  rw [cut_eq, stripped, unquote_of_not_mem]
  · exact ⟨v, rfl⟩
  · exact fun member => bare (List.mem_append_left _ (inside.subset member))

end Comma

/-- What follows the word of an event stands in quotes of which the first opens it and the last ends
it. -/
theorem Effect.eventBody?_emit {t : Text} (line : '\n' ∉ t) :
    Effect.eventBody? ("emit ".toList ++ inQuotes t) = some (inQuotes t) := by
  have visible : Text.strip ("emit ".toList ++ inQuotes t) = "emit ".toList ++ inQuotes t :=
    Text.strip_of_ends (c := 'e') (d := '"') (by decide) (by decide) ("mit ".toList ++ '"' :: t)
  have word : afterWord? "emit".toList ("emit ".toList ++ inQuotes t) =
      some (' ' :: inQuotes t) := by
    have start : Text.dropStart? "emit".toList ("emit ".toList ++ inQuotes t) =
        some (' ' :: inQuotes t) := rfl
    rw [afterWord?, start]
    exact if_pos (show isWordEdge (some ' ') = true by decide)
  have trimmed : (' ' :: inQuotes t).dropWhile isBlank = inQuotes t := by
    rw [List.dropWhile_cons_of_pos (by decide), inQuotes_eq, List.cons_append,
      List.dropWhile_cons_of_neg (by decide)]
  rw [Effect.eventBody?, visible, word, Option.map_some, trimmed]
  exact Option.filter_eq_some_iff.mpr ⟨rfl, by simp [inQuotes_eq, line]⟩

section Parameter

variable {b : Bindings} {p : Text}

/-- A quoted text names a component only as a token, if no component has a quote in its name. -/
theorem resolve_inQuotes_eq_none_iff (bare : ∀ c ∈ b.components, '"' ∉ c.name) :
    resolve b.components (inQuotes p) = none ↔ ∀ c ∈ b.components, c.token ≠ some (inQuotes p) := by
  constructor
  · intro free c member token
    obtain ⟨d, -, -, found⟩ := resolve_of_token member token (by simp [inQuotes_eq])
    simp [free] at found
  · intro free
    rw [Option.eq_none_iff_forall_ne_some]
    intro c found
    obtain ⟨member, token | name⟩ := resolve_eq_some found
    · exact free c member token
    · have listed : listedName (inQuotes p) = inQuotes p := listedName_of_not_tracker rfl
      exact bare c member (by rw [name, listed]; simp [inQuotes_eq])

/-- A quoted parameter is the text in the quotes, unless it is the token of a component. -/
theorem Parameter.ofText_inQuotes_iff (bare : ∀ c ∈ b.components, '"' ∉ c.name) :
    Parameter.ofText b (inQuotes p) = .ok (.string p) ↔
      ∀ c ∈ b.components, c.token ≠ some (inQuotes p) := by
  rw [← resolve_inQuotes_eq_none_iff bare]
  have noAddress : isAddress (inQuotes p) = false := by
    rw [isAddress, strip_inQuotes]
    rfl
  have noNumber : (inQuotes p).all isDigitChar = false := by
    rw [inQuotes_eq, List.cons_append, List.all_cons, show isDigitChar '"' = false by decide,
      Bool.false_and]
  rw [Parameter.ofText]
  cases found : resolve b.components (inQuotes p) with
  | none => simp [noAddress, noNumber]
  | some c => simp [-bind_pure_comp, bind_eq_ok_iff, pure_eq_ok_iff]

end Parameter

namespace Effect

variable {b : Bindings} {strict : Bool} {name parameter : Text}

/-- An event whose name is cut at a comma does not have the name that is written. -/
theorem ofEvent_ne_of_mem (cut : ',' ∈ name) (bare : '"' ∉ name) (rest : Text)
    (q : Option Parameter) : ofEvent b ('"' :: name ++ rest) ≠ .ok (.event name q) := by
  obtain ⟨v, cut_name⟩ := exists_cut_name cut bare rest
  intro h
  rw [ofEvent_eq_ok_iff, cut_name] at h
  obtain ⟨-, ⟨-, same⟩ | ⟨-, _, -, same⟩⟩ := h
  all_goals
    obtain ⟨rfl, -⟩ := Effect.event.inj same
    exact bare List.mem_cons_self

theorem ofEvent_inQuotes (nonempty : name ≠ []) (whole : ',' ∉ name) :
    ofEvent b (inQuotes name) = .ok (.event name none) := by
  rw [ofEvent_eq_ok_iff, before_comma_inQuotes whole, after_comma_inQuotes whole, strip_inQuotes,
    unquote_inQuotes]
  exact ⟨nonempty, .inl ⟨rfl, rfl⟩⟩

theorem ofEvent_inQuotes_parameter_iff (nonempty : name ≠ []) (whole : ',' ∉ name) :
    ofEvent b (inQuotes name ++ ',' :: ' ' :: inQuotes parameter) =
        .ok (.event name (some (.string parameter))) ↔
      Parameter.ofText b (inQuotes parameter) = .ok (.string parameter) := by
  have trimmed : Text.strip (' ' :: inQuotes parameter) = inQuotes parameter := by
    rw [Text.strip, List.dropWhile_cons_of_pos (by decide)]
    exact strip_inQuotes parameter
  have given : inQuotes parameter ≠ [] := List.cons_ne_nil _ _
  rw [ofEvent_eq_ok_iff, before_comma_append whole, after_comma_append whole, strip_inQuotes,
    unquote_inQuotes, trimmed]
  simp [nonempty, given]

/-- An event with a quoted name, and a quoted parameter if it has one, is read as it is written
exactly if no comma stands in the name. The parameter is then the text in its quotes, unless a
component is called that, quotes included, by its token. -/
theorem ofText_quotedEvent_iff (nonempty : name ≠ []) (bareName : '"' ∉ name)
    (lineName : '\n' ∉ name) (lineParameter : '\n' ∉ parameter)
    (bare : ∀ c ∈ b.components, '"' ∉ c.name) :
    (ofText b strict (quotedEvent name none) = .ok (.event name none) ↔ ',' ∉ name) ∧
    (ofText b strict (quotedEvent name (some parameter)) =
        .ok (.event name (some (.string parameter))) ↔
      ',' ∉ name ∧ ∀ c ∈ b.components, c.token ≠ some (inQuotes parameter)) := by
  constructor
  · have body : eventBody? (quotedEvent name none) = some (inQuotes name) := by
      rw [quotedEvent, Option.map_none, Option.getD_none, List.append_nil, eventBody?_emit lineName]
    rw [ofText_of_event body]
    exact ⟨fun h cut => ofEvent_ne_of_mem cut bareName ['"'] none h, ofEvent_inQuotes nonempty⟩
  · -- The first quote of the name and the last one of the parameter enclose all that is written.
    have enclosed : quotedEvent name (some parameter) =
        "emit ".toList ++ inQuotes (name ++ '"' :: ',' :: ' ' :: '"' :: parameter) := by
      simp [quotedEvent, inQuotes_eq]
    have body : eventBody? (quotedEvent name (some parameter)) =
        some (inQuotes name ++ ',' :: ' ' :: inQuotes parameter) := by
      rw [enclosed, eventBody?_emit (by simp [lineName, lineParameter])]
      simp [inQuotes_eq]
    rw [ofText_of_event body, ← Parameter.ofText_inQuotes_iff bare]
    by_cases cut : ',' ∈ name
    · have split : inQuotes name ++ ',' :: ' ' :: inQuotes parameter =
          '"' :: name ++ ('"' :: ',' :: ' ' :: inQuotes parameter) := by
        simp [inQuotes_eq]
      have lost := ofEvent_ne_of_mem (b := b) cut bareName ('"' :: ',' :: ' ' :: inQuotes parameter)
        (some (.string parameter))
      rw [← split] at lost
      simp [lost, cut]
    · simp [ofEvent_inQuotes_parameter_iff nonempty cut, cut]

/-- Bindings with a component that has a token. -/
def boundEvents : Bindings where
  components := [⟨"FC:g".toList, 2, .foreignCall, "uint256".toList, some "FC#2".toList⟩]
  placeholders := []

theorem ofText_quotedEvent_iff_commas :
    ofText boundEvents true (quotedEvent " it\x27s  paid; ".toList none) =
        .ok (.event " it\x27s  paid; ".toList none) ∧
      ofText boundEvents true (quotedEvent " it\x27s  paid; ".toList (some "FC#2, 7,\x27".toList)) =
        .ok (.event " it\x27s  paid; ".toList (some (.string "FC#2, 7,\x27".toList))) ∧
      ofText boundEvents true (quotedEvent "a,b".toList none) ≠ .ok (.event "a,b".toList none) := by
  have kept := @ofText_quotedEvent_iff boundEvents true " it\x27s  paid; ".toList
    "FC#2, 7,\x27".toList (by decide) (by decide) (by decide) (by decide) (by decide)
  have cut := @ofText_quotedEvent_iff boundEvents true "a,b".toList [] (by decide) (by decide)
    (by decide) (by decide) (by decide)
  exact ⟨kept.1.mpr (by decide), kept.2.mpr (by decide), fun h => cut.1.mp h (by decide)⟩

end Effect

end PolicyRules
