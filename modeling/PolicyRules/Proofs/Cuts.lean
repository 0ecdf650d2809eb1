import PolicyRules.Proofs.Readings

/-!
# Recognising before a cut

Where two characters do not join, a text can be cut, and what is recognised before the cut does not
depend on what stands behind it: numbered tokens (`Cut.numberedAt_append`), tokens of keywords
(`Cut.keywordWordAt_append`) and the lexemes of leaf expressions (`Cut.lexeme?_append`).
-/

namespace PolicyRules

variable {u v w : Text} {c a : Char} {p : Char → Bool}

theorem isReferenceChar_of_isNameChar (h : isNameChar c) : isReferenceChar c := by
  simp only [isNameChar, Bool.or_eq_true] at h
  rcases h with h | h <;> simp [isReferenceChar, isWordChar, h]

theorem isReferenceChar_of_isDecimalDigit (h : isDecimalDigit c) : isReferenceChar c := by
  simp [isReferenceChar, isWordChar_of_isDecimalDigit h]

theorem isReferenceChar_of_isDigit (h : c.isDigit) : isReferenceChar c :=
  isReferenceChar_of_isDecimalDigit (isDecimalDigit_of_isDigit h)

namespace Cut

/-- A cut stays one if the text before it is shortened. -/
theorem of_suffix (h : Cut u v) (suffix : w <:+ u) : Cut w v := by
  intro a b last head
  refine h a b (lastChar_eq_some_of_suffix ?_ suffix last) head
  rintro rfl
  cases last

theorem isReferenceChar_eq_false (h : Cut u v) {b : Char} (last : lastChar none u = some a)
    (head : v.head? = some b) (reference : isReferenceChar a) : isReferenceChar b = false := by
  have apart := h a b last head
  simp only [joins, reference, Bool.true_and, Bool.or_eq_false_iff] at apart
  exact apart.1.1.1

/-- A run of reference characters ends at a cut. -/
theorem takeWhile_append (h : Cut u v) (nonempty : u ≠ [])
    (reference : ∀ c, p c → isReferenceChar c) : (u ++ v).takeWhile p = u.takeWhile p := by
  refine takeWhile_append_of_apart (fun a b last head holds => ?_) nonempty
  cases other : p b with
  | false => rfl
  | true =>
    exact absurd (reference b other)
      (by simp [h.isReferenceChar_eq_false last head (reference a holds)])

/-- The characters that go on from a reference character into nothing, or into a text behind a
cut. -/
theorem takeWhile_append_of_last (h : Cut (w ++ u) v) (last : lastChar none w = some a)
    (isReference : isReferenceChar a) (reference : ∀ c, p c → isReferenceChar c) :
    (u ++ v).takeWhile p = u.takeWhile p := by
  cases u with
  | cons c cs => exact (h.of_suffix (List.suffix_append w _)).takeWhile_append (by simp) reference
  | nil =>
    cases v with
    | nil => rfl
    | cons b bs =>
      rw [List.append_nil] at h
      have apart := h.isReferenceChar_eq_false last rfl isReference
      cases other : p b with
      | false => simp [other]
      | true => exact absurd (reference b other) (by simp [apart])

/-- A word that ends before a cut ends there also if nothing follows. -/
theorem isWordEdge_drop (h : Cut (w ++ u) v) (last : lastChar none w = some a)
    (isReference : isReferenceChar a) (reference : ∀ c, p c → isReferenceChar c) :
    isWordEdge ((u ++ v).drop (u.takeWhile p).length).head? =
      isWordEdge (u.drop (u.takeWhile p).length).head? := by
  obtain ⟨rest, whole⟩ := List.takeWhile_prefix p (l := u)
  generalize run : u.takeWhile p = taken at whole ⊢
  subst whole
  rw [List.append_assoc, List.drop_left, List.drop_left]
  cases rest with
  | cons c cs => rfl
  | nil =>
    -- The whole text before the cut is one run of reference characters.
    cases v with
    | nil => rfl
    | cons b bs =>
      have all : ∀ c ∈ taken, p c :=
        fun c member => List.mem_takeWhile_imp (run.symm ▸ member)
      obtain ⟨d, ends, word⟩ : ∃ d, lastChar none (w ++ (taken ++ [])) = some d ∧
        isReferenceChar d := by
        rw [List.append_nil, lastChar_append, last]
        rcases List.eq_nil_or_concat taken with rfl | ⟨init, d, rfl⟩
        · exact ⟨a, rfl, isReference⟩
        · exact ⟨d, by simp [lastChar], reference d (all d (by simp))⟩
      have apart := h.isReferenceChar_eq_false ends rfl word
      simp only [isReferenceChar, Bool.or_eq_false_iff] at apart
      simp [isWordEdge, apart.1]

theorem dropStart?_append (h : Cut u v) (nonempty : u ≠ []) {start : Text}
    (chain : start.IsChain fun a b => joins a b) :
    Text.dropStart? start (u ++ v) = (Text.dropStart? start u).map (· ++ v) :=
  PolicyRules.dropStart?_append chain nonempty fun a b last head joined => by
    rw [h a b last head] at joined
    cases joined

/-- No token is read across a cut. -/
theorem numberedAt_append (h : Cut u v) (nonempty : u ≠ []) {letter : Char}
    (word : isWordChar letter) (previous : Option Char) :
    numberedAt letter previous (u ++ v) = numberedAt letter previous u := by
  have found := h.parted.numberedAt_append nonempty word
  by_cases clear : isClear previous
  · simpa only [numberedAt, clear, show isClear none = true from rfl, if_true] using found
  · simp [numberedAt, clear]

/-- No keyword is read across a cut. -/
theorem keywordWordAt_append (h : Cut u v) (nonempty : u ≠ []) (previous : Option Char) :
    keywordWordAt previous (u ++ v) = keywordWordAt previous u := by
  have chain : "PLA".toList.IsChain fun a b => joins a b := by
    simp [joins, isReferenceChar, show isWordChar 'P' = true by decide,
      show isWordChar 'L' = true by decide, show isWordChar 'A' = true by decide]
  unfold keywordWordAt
  rw [h.dropStart?_append nonempty chain]
  cases start : Text.dropStart? "PLA".toList u with
  | none => rfl
  | some rest =>
    obtain rfl := Text.dropStart?_eq_some_iff.mp start
    have run : (rest ++ v).takeWhile isDecimalDigit = rest.takeWhile isDecimalDigit :=
      h.takeWhile_append_of_last (a := 'A') rfl (by decide) fun _ =>
        isReferenceChar_of_isDecimalDigit
    have edge : ∀ digits, digits = rest.takeWhile isDecimalDigit →
        isWordEdge ((rest ++ v).drop digits.length).head? =
          isWordEdge (rest.drop digits.length).head? := by
      rintro _ rfl
      exact h.isWordEdge_drop (a := 'A') rfl (by decide) fun _ => isReferenceChar_of_isDecimalDigit
    simp only [Option.map_some, Option.bind_eq_bind, Option.bind_some, digitsAt?, run]
    split_ifs
    · rfl
    · simp only [Option.bind_some, edge _ rfl]
    · rfl

/-- Where nothing is recognised in a text, nothing is recognised there before a cut either. -/
theorem quiet {α : Type} {recognise : Recogniser α}
    (append : ∀ {u v : Text}, Cut u v → u ≠ [] →
      ∀ previous, recognise previous (u ++ v) = recognise previous u)
    (h : Cut u v) {previous : Option Char} (quiet : Quiet recognise previous u []) :
    Quiet recognise previous u v := by
  induction u generalizing previous with
  | nil => trivial
  | cons c cs ih =>
    obtain ⟨here, later⟩ := quiet
    rw [List.append_nil] at here
    exact ⟨by rw [append h (by simp), here], ih (h.of_suffix (List.suffix_cons c cs)) later⟩

theorem callNumber?_append (h : Cut u v) (nonempty : u ≠ []) :
    callNumber? (u ++ v) = callNumber? u := by
  have chain : "FC#".toList.IsChain fun a b => joins a b := by
    simp [joins, isReferenceChar, show isWordChar 'F' = true by decide,
      show isWordChar 'C' = true by decide]
  unfold callNumber?
  rw [h.dropStart?_append nonempty chain]
  cases start : Text.dropStart? "FC#".toList u with
  | none => rfl
  | some rest =>
    obtain rfl := Text.dropStart?_eq_some_iff.mp start
    have run : (rest ++ v).takeWhile Char.isDigit = rest.takeWhile Char.isDigit := by
      cases rest with
      | cons d ds =>
        exact (h.of_suffix (List.suffix_append _ _)).takeWhile_append (by simp) fun _ =>
          isReferenceChar_of_isDigit
      | nil =>
        cases v with
        | nil => rfl
        | cons b bs =>
          have apart := h '#' b rfl rfl
          simp only [joins, Bool.or_eq_false_iff, Bool.and_eq_false_iff] at apart
          have other : b.isDigit = false := apart.1.2.resolve_left (by decide)
          simp [other]
    simp only [Option.map_some, run]

theorem plainName?_append (h : Cut u v) (nonempty : u ≠ []) :
    plainName? (u ++ v) = plainName? u := by
  obtain ⟨c, cs, rfl⟩ := List.exists_cons_of_ne_nil nonempty
  rw [List.cons_append, plainName?, plainName?]
  by_cases start : isNameStart c
  · have run : (cs ++ v).takeWhile isNameChar = cs.takeWhile isNameChar :=
      takeWhile_append_of_last (w := [c]) h rfl
        (isReferenceChar_of_isNameChar (isNameChar_of_isNameStart start)) fun _ =>
          isReferenceChar_of_isNameChar
    rw [run]
  · rw [if_neg start, if_neg start]

/-- No name is read across a cut. -/
theorem nameLexeme?_append (h : Cut u v) (nonempty : u ≠ []) :
    nameLexeme? (u ++ v) = nameLexeme? u := by
  unfold nameLexeme?
  rw [h.callNumber?_append nonempty, h.plainName?_append nonempty]
  cases callNumber? u with
  | some digits => rfl
  | none =>
    cases found : plainName? u with
    | none => rfl
    | some name =>
      obtain ⟨rest, rfl⟩ := plainName?_isPrefix found
      have plain := isPlainName_of_plainName? found
      simp only [List.append_assoc, List.drop_left]
      cases rest with
      | nil =>
        -- The name ends at the cut, so that no colon can follow it.
        cases v with
        | nil => rfl
        | cons b bs =>
          rw [List.append_nil] at h nonempty
          obtain ⟨init, a, rfl⟩ := (List.eq_nil_or_concat name).resolve_left nonempty
          have last : lastChar none (init.concat a) = some a := by simp [lastChar]
          have apart := h.isReferenceChar_eq_false last rfl
            (isReferenceChar_of_isNameChar (plain.all a (by simp)))
          have other : b ≠ ':' := by
            rintro rfl
            cases apart
          simp only [List.nil_append]
          split
          · next same => exact absurd (List.cons.inj same).1 other
          · rfl
      | cons c cs =>
        by_cases colon : c = ':'
        · subst colon
          have second : plainName? (cs ++ v) = plainName? cs := by
            cases cs with
            | cons d ds =>
              exact (h.of_suffix ⟨name ++ [':'], by simp⟩).plainName?_append (by simp)
            | nil =>
              cases v with
              | nil => rfl
              | cons b bs =>
                have apart := h.isReferenceChar_eq_false (by simp [lastChar]) rfl
                  (by decide : isReferenceChar ':')
                have other : isNameStart b = false := by
                  cases start : isNameStart b with
                  | false => rfl
                  | true =>
                    rw [isReferenceChar_of_isNameChar (isNameChar_of_isNameStart start)] at apart
                    cases apart
                simp [plainName?, other]
          simp only [List.cons_append, second]
        · simp only [List.cons_append]
          split
          · next same => exact absurd (List.cons.inj same).1 colon
          · split
            · next same => exact absurd (List.cons.inj same).1 colon
            · rfl

/-- No number is read across a cut. -/
theorem numberLexeme?_append (h : Cut u v) (nonempty : u ≠ []) :
    numberLexeme? (u ++ v) = numberLexeme? u := by
  have chain : "0x".toList.IsChain fun a b => joins a b := by
    simp [joins, isReferenceChar, show isWordChar '0' = true by decide,
      show isWordChar 'x' = true by decide]
  unfold numberLexeme?
  rw [h.dropStart?_append nonempty chain, h.takeWhile_append nonempty fun _ =>
    isReferenceChar_of_isDigit]
  cases start : Text.dropStart? "0x".toList u with
  | none => rfl
  | some rest =>
    obtain rfl := Text.dropStart?_eq_some_iff.mp start
    have run : (rest ++ v).takeWhile isHexDigit = rest.takeWhile isHexDigit :=
      h.takeWhile_append_of_last (a := 'x') rfl (by decide) fun _ h =>
        isReferenceChar_of_isNameChar (isNameChar_of_isHexDigit h)
    simp only [Option.map_some, run]

theorem startsWith_append (h : Cut u v) (nonempty : u ≠ []) {sign : Lexeme}
    (listed : sign ∈ updateSigns) :
    Text.startsWith sign.text (u ++ v) = Text.startsWith sign.text u := by
  have chains : ∀ sign ∈ updateSigns, sign.text.IsChain fun a b => joins a b := by
    decide
  rw [Text.startsWith, Text.startsWith, h.dropStart?_append nonempty (chains sign listed),
    Option.isSome_map]

/-- What is looked for before a cut is found there or not at all, unless it is a quoted string. -/
theorem lexeme?_append (h : Cut u v) (begins : u.head? = some c) (plain : isQuoteMark c = false)
    (expecting : Expecting) : expecting.lexeme? (u ++ v) = expecting.lexeme? u := by
  have nonempty : u ≠ [] := by
    rintro rfl
    cases begins
  have name := h.nameLexeme?_append nonempty
  have number := h.numberLexeme?_append nonempty
  have signs_eq : ∀ list ⊆ updateSigns,
      (list.find? fun sign => Text.startsWith sign.text (u ++ v)) =
      list.find? fun sign => Text.startsWith sign.text u := fun list listed =>
    List.find?_congr fun sign member => h.startsWith_append nonempty (listed member)
  have string : ∀ t : Text, t.head? = some c → stringLexeme? t = none := by
    intro t head
    obtain ⟨cs, rfl⟩ : ∃ cs, t = c :: cs := ⟨t.tail, List.eq_cons_of_mem_head? head⟩
    simp only [isQuoteMark] at plain
    simp [stringLexeme?, plain]
  have begins' : (u ++ v).head? = some c := by rw [List.head?_append_of_ne_nil _ nonempty, begins]
  cases expecting with
  | operand first =>
    simp only [Expecting.lexeme?, operandLexeme?, name, number, string _ begins, string _ begins',
      begins, begins']
  | tracker => simp only [Expecting.lexeme?, name]
  | operator updatable =>
    cases updatable with
    | false => exact signs_eq signs (List.subset_append_right _ _)
    | true => exact signs_eq updateSigns (List.Subset.refl _)

end Cut

end PolicyRules
