import PolicyRules.Proofs.NormalForm

/-!
# Tokens of foreign calls in normalized texts

A number sign of a normalized text is that of a token, if the text itself had none. The token ends
where its number ends, unless a digit has stood behind the argument list of the call. So a token
that stands in the normalized text is the token of a call that the text names.

Main statement: `Tables.exists_call_of_stands`.
-/

namespace PolicyRules

/-- Whether no digit is at the beginning of a text. -/
def NoDigitFirst (t : Text) : Prop := ∀ c, t.head? = some c → c.isDigit = false

theorem noDigitFirst_nil : NoDigitFirst [] := by
  intro c first
  cases first

variable {c : Char} {t b y : Text} {i : Int} {previous : Option Char}

theorem noDigitFirst_cons (h : c.isDigit = false) (t : Text) : NoDigitFirst (c :: t) := by
  intro d first
  rwa [← Option.some.inj first]

theorem noDigitFirst_of_isWordEdge (h : isWordEdge t.head?) : NoDigitFirst t := by
  intro c first
  rw [first, isWordEdge, Option.any_some] at h
  cases digit : c.isDigit with
  | false => rfl
  | true =>
    rw [isWordChar_of_isNameChar (isNameChar_of_isDigit digit)] at h
    cases h

namespace Text

/-- A number ends where no digit follows. -/
theorem eq_of_ofNat_append {m n : Nat} (same : Text.ofNat m ++ b = Text.ofNat n ++ y)
    (hb : NoDigitFirst b) (hy : NoDigitFirst y) : m = n := by
  have digits : ∀ k, ∀ c ∈ Text.ofNat k, c.isDigit := fun k c => isDigit_of_mem_ofNat
  have runs : Text.ofNat m = Text.ofNat n := by
    rw [← takeWhile_append_of_head (digits m) hb, same, takeWhile_append_of_head (digits n) hy]
  rw [← value_digits_ofNat m, runs, value_digits_ofNat]

theorem ofNat_append_ne {k : Nat} (h : c.isDigit = false) : Text.ofNat k ++ b ≠ c :: t := by
  intro same
  obtain ⟨d, ds, first⟩ := List.exists_cons_of_ne_nil (ofNat_ne_nil k)
  rw [first] at same
  obtain ⟨rfl, -⟩ := List.cons.inj same
  have digit : d.isDigit := isDigit_of_mem_ofNat (by rw [first]; exact List.mem_cons_self)
  rw [digit] at h
  cases h

theorem ofInt_append_ne (h : c.isDigit = false) (other : c ≠ '-') : Text.ofInt i ++ b ≠ c :: t := by
  cases i with
  | ofNat k => exact ofNat_append_ne h
  | negSucc k =>
    intro same
    exact other (List.cons.inj same).1.symm

/-- A number ends where the digits end. -/
theorem eq_of_ofInt_append {j : Int} (same : Text.ofInt i ++ b = Text.ofInt j ++ y)
    (hb : NoDigitFirst b) (hy : NoDigitFirst y) : i = j := by
  cases i with
  | ofNat m =>
    cases j with
    | ofNat n => rw [eq_of_ofNat_append same hb hy]
    | negSucc n => exact absurd same (ofNat_append_ne (by decide))
  | negSucc m =>
    cases j with
    | ofNat n => exact absurd same.symm (ofNat_append_ne (by decide))
    | negSucc n => rw [Nat.succ.inj (eq_of_ofNat_append (List.cons.inj same).2 hb hy)]

theorem ofInt_injective {j : Int} (h : Text.ofInt i = Text.ofInt j) : i = j :=
  eq_of_ofInt_append (b := []) (y := []) (by rw [h]) noDigitFirst_nil noDigitFirst_nil

theorem hash_not_mem_ofInt (i : Int) : '#' ∉ Text.ofInt i := by
  have digits : ∀ k, '#' ∉ Text.ofNat k :=
    fun k member => absurd (isDigit_of_mem_ofNat member) (by decide)
  cases i with
  | ofNat k => exact digits k
  | negSucc k =>
    intro member
    rcases List.mem_cons.mp member with first | later
    · cases first
    · exact digits _ later

end Text

theorem Scans.head_eq {α : Type} {recognise : Recogniser α} {next : Text}
    {tail : List (α × Text)} (h : Scans recognise previous t ⟨c :: next, tail⟩) :
    t.head? = some c := by
  cases h with
  | text quiet => rfl
  | mark quiet nonempty found rest => rfl

namespace Tables

variable {tables : Tables} {source n : Text}

/-- Whether no digit stands behind a closing parenthesis. -/
def NoNumberBehind (t : Text) : Prop := ∀ d, d.isDigit → ¬ [')', d] <:+: t

instance (t : Text) : Decidable (NoNumberBehind t) :=
  decidable_of_iff ((t.all fun d => ! (d.isDigit && decide ([')', d] <:+: t)))) <| by
    simp only [List.all_eq_true, Bool.not_eq_true', Bool.and_eq_false_imp, decide_eq_false_iff_not]
    exact ⟨fun h d digit inside => h d (inside.subset (by simp)) digit inside, fun h d _ => h d⟩

/-- The token of a call has no digits behind it. -/
theorem noDigitFirst_render {previous' : Option Char} {w next name : Text}
    {tail : List (Text × Text)} (found : callAt previous (w ++ t) = some (name, w.length))
    (noNumber : NoNumberBehind (w ++ t)) (rest : Scans callAt previous' t ⟨next, tail⟩)
    (known : ∀ a ∈ tail.map Prod.fst, (tables.call? a).isSome) :
    NoDigitFirst (Split.render tables.callToken ⟨next, tail⟩) := by
  cases next with
  | nil =>
    cases tail with
    | nil => exact noDigitFirst_nil
    | cons piece tail =>
      obtain ⟨call, isCall⟩ := Option.isSome_iff_exists.mp (known piece.1 (by simp))
      have written : tables.callToken piece.1 = call.token := by rw [callToken, isCall]; rfl
      simp only [Split.render, List.flatMap_cons, written]
      exact noDigitFirst_cons (by decide) _
  | cons c next =>
    refine noDigitFirst_cons ?_ _
    have first := rest.head_eq
    obtain ⟨-, -, list, b, same, width, behind⟩ := callAt_eq_some found
    obtain ⟨rfl, rfl⟩ := List.append_inj same width
    rcases behind with ⟨-, edge⟩ | ⟨body, rfl⟩
    · exact noDigitFirst_of_isWordEdge edge c first
    · obtain ⟨t, rfl⟩ := List.head?_eq_some_iff.mp first
      cases digit : c.isDigit with
      | false => rfl
      | true => exact absurd ⟨callPrefix ++ name ++ '(' :: body, t, by simp⟩ (noNumber c digit)

/-- With tokens in the place of calls, every number sign is that of the token of a call, and the
number of the token ends before the rest of the text. -/
theorem exists_call_of_hash {s : Split Text} (scanned : Scans callAt previous t s)
    (noHash : '#' ∉ t) (noNumber : NoNumberBehind t)
    (known : ∀ name ∈ s.marks, (tables.call? name).isSome) {x : Text}
    (same : s.render tables.callToken = x ++ '#' :: y) :
    ∃ name ∈ s.marks, ∃ call rest, tables.call? name = some call ∧ y = Text.ofInt call.id ++ rest ∧
      NoDigitFirst rest := by
  induction scanned generalizing x with
  | @text previous t quiet =>
    have inText : '#' ∈ Split.render tables.callToken ⟨t, []⟩ := by rw [same]; simp
    exact absurd (by simpa [Split.render] using inText) noHash
  | @mark previous u w t next name tail quiet nonempty found rest ih =>
    obtain ⟨call, isCall⟩ := Option.isSome_iff_exists.mp (known name (by simp [Split.marks]))
    have knownLater : ∀ a ∈ tail.map Prod.fst, (tables.call? a).isSome := fun a member =>
      known a (List.mem_cons_of_mem _ member)
    have noNumberLater : NoNumberBehind (w ++ t) := fun d digit inside =>
      noNumber d digit (inside.trans (List.suffix_append u _).isInfix)
    have ended := noDigitFirst_render found noNumberLater rest knownLater
    have outside : '#' ∉ u ∧ '#' ∉ t := by
      simp only [List.mem_append, not_or] at noHash
      exact ⟨noHash.1, noHash.2.2⟩
    have later : ∀ {x' : Text}, Split.render tables.callToken ⟨next, tail⟩ = x' ++ '#' :: y →
        ∃ a ∈ name :: tail.map Prod.fst, ∃ call rest, tables.call? a = some call ∧
          y = Text.ofInt call.id ++ rest ∧ NoDigitFirst rest := by
      intro x' same'
      have noNumberRest : NoNumberBehind t := fun d digit inside =>
        noNumberLater d digit (inside.trans (List.suffix_append w _).isInfix)
      obtain ⟨a, member, result⟩ := ih outside.2 noNumberRest knownLater same'
      exact ⟨a, List.mem_cons_of_mem _ member, result⟩
    have written : Split.render tables.callToken ⟨u, (name, next) :: tail⟩ =
        u ++ ('F' :: 'C' :: '#' ::
          (Text.ofInt call.id ++ Split.render tables.callToken ⟨next, tail⟩)) := by
      simp [Split.render, callToken, isCall, ForeignCall.token]
    rw [written] at same
    -- The number sign is not in the text before the call, so it is the one of the token or a later
    -- one.
    rcases List.append_eq_append_iff.mp same with ⟨x', rfl, inside⟩ | ⟨u', rfl, inside⟩
    · rcases x' with _ | ⟨_, _ | ⟨_, _ | ⟨_, x'⟩⟩⟩
      · cases inside
      · cases inside
      · obtain ⟨-, -, rfl⟩ := by simpa using inside
        exact ⟨name, by simp [Split.marks], call, _, isCall, rfl, ended⟩
      · obtain ⟨-, -, -, behind⟩ := by simpa using inside
        rcases List.append_eq_append_iff.mp behind with ⟨x'', -, inRest⟩ | ⟨number, inNumber, sign⟩
        · exact later inRest
        · cases number with
          | nil => exact later (show _ = [] ++ '#' :: y from sign.symm)
          | cons c number =>
            obtain ⟨rfl, -⟩ := List.cons.inj sign
            exact absurd (by rw [inNumber]; simp) (Text.hash_not_mem_ofInt call.id)
    · cases u' with
      | nil => cases inside
      | cons c u' =>
        obtain ⟨rfl, -⟩ := List.cons.inj inside
        exact absurd (by simp) outside.1

theorem isSolid_token (call : ForeignCall) : IsSolid call.token := by
  have digits : ∀ k, ∀ c ∈ Text.ofNat k, isRunChar c := fun k c member =>
    isRunChar_of_isDigit (isDigit_of_mem_ofNat member)
  have last : ∀ k previous, isWordEdge (lastChar previous (Text.ofNat k)) = false := by
    intro k previous
    obtain ⟨c, member, same⟩ := exists_lastChar_eq (ofNat_ne_nil k) previous
    rw [same, isWordEdge, Option.any_some,
      isWordChar_of_isNameChar (isNameChar_of_mem_ofNat member)]
    rfl
  refine ⟨⟨'F', 'C' :: '#' :: Text.ofInt call.id, rfl, by decide⟩, fun c member => ?_,
    fun previous => ?_⟩
  · rcases List.mem_append.mp member with letter | number
    · have letters : ∀ c ∈ ['F', 'C', '#'], (! isSeparator c) := List.all_eq_true.mp (by decide)
      simpa using letters c letter
    · cases id_eq : call.id with
      | ofNat k =>
        rw [id_eq] at number
        exact isSeparator_eq_false_of_isRunChar (digits k c number)
      | negSucc k =>
        rw [id_eq] at number
        rcases List.mem_cons.mp number with rfl | digit
        · rfl
        · exact isSeparator_eq_false_of_isRunChar (digits _ c digit)
  · rw [ForeignCall.token, lastChar_append]
    cases call.id with
    | ofNat k => exact last k _
    | negSucc k => exact last (k + 1) (some '-')

/-- A tracker begins inside no token: behind the number sign there is a number. -/
theorem unbroken_token {part : Text} (noHash : '#' ∉ part) (noNumber : NoNumberBehind part)
    (known : ∀ name ∈ (part.split callAt).marks, (tables.call? name).isSome) (call : ForeignCall) :
    Unbroken call.token ((part.split callAt).render tables.callToken) := by
  have notClear : ∀ {k : Nat} {u v : Text} {previous : Option Char}, Text.ofNat k = u ++ v →
      isClear (lastChar previous u) → u = [] := by
    intro k u v previous same clear
    by_contra nonempty
    obtain ⟨c, member, last⟩ := exists_lastChar_eq nonempty previous
    have inNumber : c ∈ Text.ofNat k := by rw [same]; exact List.mem_append_left _ member
    rw [last, isClear_some, isReferenceChar,
      isWordChar_of_isNameChar (isNameChar_of_mem_ofNat inNumber)] at clear
    cases clear
  intro u v same nonempty clear found
  obtain ⟨a, b, found⟩ := found
  have number : ∀ {u' : Text}, u = 'F' :: 'C' :: '#' :: u' → ∃ id rest, Text.ofInt id ++ rest =
      u' ++ 'T' :: b := by
    rintro u' rfl
    have sign : (part.split callAt).render tables.callToken = (a ++ ['F', 'C']) ++
        '#' :: (u' ++ 'T' :: b) := by
      rw [← found]
      simp
    obtain ⟨-, -, call', rest, -, behind, -⟩ :=
      exists_call_of_hash (Split.scans measured_callAt none part) noHash noNumber known sign
    exact ⟨_, rest, behind.symm⟩
  change 'F' :: 'C' :: '#' :: Text.ofInt call.id = u ++ v at same
  rcases u with _ | ⟨_, _ | ⟨_, _ | ⟨_, u'⟩⟩⟩
  · exact nonempty rfl
  · obtain ⟨rfl, -⟩ := List.cons.inj same
    cases clear
  · obtain ⟨rfl, rfl, -⟩ := by simpa using same
    cases clear
  · obtain ⟨rfl, rfl, rfl, digits⟩ := by simpa using same
    obtain ⟨id, rest, behind⟩ := number rfl
    cases id_eq : call.id with
    | ofNat k =>
      rw [id_eq] at digits
      obtain rfl := notClear digits clear
      exact Text.ofInt_append_ne (by decide) (by decide) behind
    | negSucc k =>
      rw [id_eq] at digits
      cases u' with
      | nil => exact Text.ofInt_append_ne (by decide) (by decide) behind
      | cons c u' =>
        obtain ⟨rfl, later⟩ := List.cons.inj digits
        obtain rfl := notClear later clear
        cases id with
        | ofNat m => exact Text.ofNat_append_ne (by decide) behind
        | negSucc m => exact Text.ofNat_append_ne (by decide) (List.cons.inj behind).2

/-- A token that stands in a normalized text is that of a call that the text names. -/
theorem exists_call_of_stands (known : tables.KnowsCalls source) (noHash : '#' ∉ source)
    (noNumber : NoNumberBehind source) {call : ForeignCall} {part : Text}
    (listed : part ∈ (tables.normalize source).unquoted) (h : Stands call.token none part) :
    ∃ name ∈ unquotedMarks callAt (Text.clean source), ∃ other, tables.call? name = some other ∧
      other.token = call.token := by
  rw [unquoted_normalize] at listed
  obtain ⟨part, member, rfl⟩ := List.mem_map.mp listed
  have inside : part <:+: Text.clean source :=
    (Split.scans measured_quotationAt none _).isInfix member
  have inSource : ∀ {w : Text}, (∀ c ∈ w, isBlank c = false) → w ≠ [] → w <:+: part →
      w <:+: source :=
    fun solid nonempty found => isInfix_of_squeeze solid nonempty
      (found.trans (inside.trans (Text.isInfix_strip _)))
  have noHashHere : '#' ∉ part := by
    intro hash
    obtain ⟨x, y, same⟩ := List.append_of_mem hash
    have sign : ['#'] <:+: source :=
      inSource (List.forall_mem_singleton.mpr (by decide)) (by simp) ⟨x, y, by simp [same]⟩
    exact noHash (sign.subset (by simp))
  have noNumberHere : NoNumberBehind part := by
    intro d digit found
    have solidDigit : isBlank d = false := isBlank_eq_false_of_isReferenceChar (by
      simp [isReferenceChar, isWordChar_of_isNameChar (isNameChar_of_isDigit digit)])
    refine noNumber d digit (inSource ?_ (by simp) found)
    exact List.forall_mem_cons.mpr ⟨by decide, List.forall_mem_singleton.mpr solidDigit⟩
  have knownHere : ∀ name ∈ (part.split callAt).marks, (tables.call? name).isSome :=
    fun name marked =>
      known name (List.mem_flatMap.mpr ⟨part, member, marked⟩)
  have other : ¬ BeginsWithTracker call.token := by
    rintro (⟨rest, same⟩ | ⟨rest, same⟩) <;> cases same
  obtain ⟨a, b, same, -, behind⟩ := stands_of_mappedText (isSolid_token call)
    (unbroken_token noHashHere noNumberHere knownHere call) other
      (Split.scans measured_mappedTrackerAt none _) h
  have sign : (part.split callAt).render tables.callToken =
      (a ++ ['F', 'C']) ++ '#' :: (Text.ofInt call.id ++ b) := by
    rw [same]
    simp [ForeignCall.token]
  obtain ⟨name, marked, call', rest, found, number, ended⟩ :=
    exists_call_of_hash (Split.scans measured_callAt none part) noHashHere noNumberHere
      knownHere sign
  have ids := Text.eq_of_ofInt_append number
    (noDigitFirst_of_isWordEdge (isWordEdge_of_isClearOfTokens behind)) ended
  exact ⟨name, List.mem_flatMap.mpr ⟨part, member, marked⟩, call', found,
    by rw [ForeignCall.token, ForeignCall.token, ids]⟩

end Tables

end PolicyRules
