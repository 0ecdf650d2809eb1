import PolicyRules.Proofs.UnclosedQuotes

/-!
# The landmarks of a text

The landmarks of a text are its quotation marks and its numbered tokens, from left to right. A token
counts whatever stands before it, and its number is as long as it can be. Landmarks can be followed
through all that is done to a text before its levels are read: a text that is put together from
parts has the landmarks of the parts, unless a token goes on from one part to the next
(`Text.landmarks_append`), and all else in it does not matter.

Main statements: `Text.landmarks_append`, `Text.landmarks_token` for a token before a text.
-/

namespace PolicyRules

/-- A quotation mark, or the token of a group, a string or a keyword with the digits of its
number. -/
inductive Landmark where
  | quote (c : Char)
  | token (kind : TokenKind) (digits : Text)
  deriving DecidableEq, Repr

/-- The digits of the token of a kind at the beginning of a text. -/
def TokenKind.digitsOf? (kind : TokenKind) (t : Text) : Option Text :=
  (Text.dropStart? kind.start t).bind digitsAt?

/-- The landmark at the beginning of a text. -/
def Landmark.at? (t : Text) : Option Landmark :=
  match t.head?.filter isQuoteMark with
  | some c => some (.quote c)
  | none =>
    [TokenKind.group, .string, .keyword].findSome? fun kind => (kind.digitsOf? t).map (.token kind)

/-- The landmarks of a text. -/
def Text.landmarks : Text → List Landmark
  | [] => []
  | c :: cs => (Landmark.at? (c :: cs)).toList ++ Text.landmarks cs

/-- Whether a character has no part in landmarks. -/
def isUnmarked (c : Char) : Bool := ! isQuoteMark c && ! beginsToken c

section At

variable {c : Char} {t u x y digits : Text} {kind : TokenKind}

theorem digitsAt?_eq_some_iff : digitsAt? t = some digits ↔
    digits ≠ [] ∧ (∀ d ∈ digits, isDecimalDigit d) ∧ ∃ rest, t = digits ++ rest ∧
    EndsNumber rest := by
  unfold digitsAt?
  dsimp only
  rw [Option.ite_none_left_eq_some, List.isEmpty_iff, Option.some.injEq]
  constructor
  · rintro ⟨nonempty, rfl⟩
    refine ⟨nonempty, fun d => List.mem_takeWhile_imp, t.dropWhile isDecimalDigit,
      List.takeWhile_append_dropWhile.symm, fun c head => ?_⟩
    simpa [head] using List.head?_dropWhile_not isDecimalDigit t
  · rintro ⟨nonempty, all, rest, rfl, ends⟩
    rw [takeWhile_append_of_head all ends]
    exact ⟨nonempty, rfl⟩

theorem TokenKind.digitsOf?_eq_some_iff : kind.digitsOf? t = some digits ↔
    digits ≠ [] ∧ (∀ d ∈ digits, isDecimalDigit d) ∧
      ∃ rest, t = kind.start ++ (digits ++ rest) ∧ EndsNumber rest := by
  simp only [digitsOf?, Option.bind_eq_some_iff, Text.dropStart?_eq_some_iff, digitsAt?_eq_some_iff]
  constructor
  · rintro ⟨_, rfl, nonempty, all, rest, rfl, ends⟩
    exact ⟨nonempty, all, rest, rfl, ends⟩
  · rintro ⟨nonempty, all, rest, rfl, ends⟩
    exact ⟨_, rfl, nonempty, all, rest, rfl, ends⟩

/-- Texts that begin with tokens of two kinds differ. -/
theorem TokenKind.digitsOf?_eq_none {kind' : TokenKind} (other : kind ≠ kind') (t : Text) :
    kind'.digitsOf? (kind.start ++ t) = none := by
  cases kind <;> cases kind' <;> first | exact absurd rfl other | rfl

namespace Landmark

theorem at?_eq_quote_iff : at? t = some (.quote c) ↔ t.head? = some c ∧ isQuoteMark c := by
  unfold at?
  cases found : t.head?.filter isQuoteMark with
  | some d =>
    obtain ⟨head, mark⟩ := Option.filter_eq_some_iff.mp found
    simp only [head, Option.some.injEq, quote.injEq, iff_self_and]
    rintro rfl
    exact mark
  | none =>
    constructor
    · intro h
      obtain ⟨kind, -, h⟩ := List.exists_of_findSome?_eq_some h
      obtain ⟨digits, -, same⟩ := Option.map_eq_some_iff.mp h
      cases same
    · rintro ⟨head, mark⟩
      rw [Option.filter_eq_none_iff] at found
      exact absurd mark (found c head)

theorem at?_quote (mark : isQuoteMark c) (t : Text) : at? (c :: t) = some (.quote c) :=
  at?_eq_quote_iff.mpr ⟨rfl, mark⟩

theorem at?_eq_token_iff : at? t = some (.token kind digits) ↔ kind.digitsOf? t = some digits := by
  constructor
  · intro h
    unfold at? at h
    split at h
    · cases h
    · obtain ⟨kind', -, h⟩ := List.exists_of_findSome?_eq_some h
      obtain ⟨digits', found, same⟩ := Option.map_eq_some_iff.mp h
      cases same
      exact found
  · intro found
    obtain ⟨-, -, rest, rfl, -⟩ := TokenKind.digitsOf?_eq_some_iff.mp found
    have noQuote : (kind.start ++ (digits ++ rest)).head?.filter isQuoteMark = none := by
      cases kind <;> rfl
    unfold at?
    rw [noQuote]
    cases kind with
    | group => simp [found]
    | string => simp [found, TokenKind.digitsOf?_eq_none (show TokenKind.string ≠ .group by decide)]
    | keyword =>
      simp [found, TokenKind.digitsOf?_eq_none (show TokenKind.keyword ≠ .group by decide),
        TokenKind.digitsOf?_eq_none (show TokenKind.keyword ≠ .string by decide)]

theorem at?_of_isUnmarked (h : isUnmarked c) (t : Text) : at? (c :: t) = none := by
  obtain ⟨noQuote, noToken⟩ : isQuoteMark c = false ∧ beginsToken c = false := by
    simpa [isUnmarked] using h
  rw [Option.eq_none_iff_forall_ne_some]
  intro landmark found
  cases landmark with
  | quote d =>
    obtain ⟨head, mark⟩ := at?_eq_quote_iff.mp found
    obtain rfl := Option.some.inj head
    simp [noQuote] at mark
  | token kind digits =>
    obtain ⟨-, -, rest, same, -⟩ := TokenKind.digitsOf?_eq_some_iff.mp (at?_eq_token_iff.mp found)
    obtain ⟨d, ds, start, begins, -⟩ := kind.start_eq
    rw [start] at same
    obtain ⟨rfl, -⟩ := List.cons.inj same
    simp [noToken] at begins

/-- What follows a text does not matter for a landmark at its beginning, if no token goes on
there. -/
theorem at?_append (nonempty : x ≠ []) (apart : ∀ c, y.head? = some c → continuesToken c = false) :
    at? (x ++ y) = at? x := by
  have ends : EndsNumber y := fun c head => isDecimalDigit_eq_false_of_continuesToken (apart c head)
  refine Option.ext fun landmark => ?_
  cases landmark with
  | quote c => simp only [at?_eq_quote_iff, List.head?_append_of_ne_nil _ nonempty]
  | token kind digits =>
    simp only [at?_eq_token_iff, TokenKind.digitsOf?_eq_some_iff]
    refine and_congr_right fun some => and_congr_right fun all => ⟨?_, ?_⟩
    · rintro ⟨rest, same, stops⟩
      rw [← List.append_assoc] at same
      rcases List.append_eq_append_iff.mp same with ⟨more, token, rfl⟩ | ⟨more, rfl, rfl⟩
      · -- The token would go on behind `x`.
        cases more with
        | nil => exact ⟨[], by simpa using token.symm, by simp [EndsNumber]⟩
        | cons d ds =>
          obtain ⟨z, last, rfl⟩ := (List.eq_nil_or_concat x).resolve_left nonempty
          have goesOn := (kind.neighbours all (by simpa using token)).1
          simp [apart d rfl] at goesOn
      · refine ⟨more, by simp, fun c head => stops c ?_⟩
        cases more with
        | nil => cases head
        | cons d ds => exact head
    · rintro ⟨rest, rfl, stops⟩
      exact ⟨rest ++ y, by simp, stops.append ends⟩

end Landmark

end At

namespace Text

variable {c : Char} {t x y digits : Text} {kind : TokenKind}

@[simp] theorem landmarks_nil : landmarks [] = [] := rfl

/-- A text that is put together has the landmarks of its parts, if no token goes on from the first
to the second. -/
theorem landmarks_append (apart : ∀ c, y.head? = some c → continuesToken c = false) (x : Text) :
    landmarks (x ++ y) = landmarks x ++ landmarks y := by
  induction x with
  | nil => rfl
  | cons c cs ih =>
    have here : Landmark.at? (c :: (cs ++ y)) = Landmark.at? (c :: cs) :=
      Landmark.at?_append (List.cons_ne_nil c cs) apart
    rw [List.cons_append, landmarks, landmarks, here, ih, List.append_assoc]

theorem landmarks_cons_of_isUnmarked (h : isUnmarked c) : landmarks (c :: t) = landmarks t := by
  rw [landmarks, Landmark.at?_of_isUnmarked h]
  rfl

theorem landmarks_of_isUnmarked (h : ∀ c ∈ x, isUnmarked c) (y : Text) :
    landmarks (x ++ y) = landmarks y := by
  induction x with
  | nil => rfl
  | cons c cs ih =>
    obtain ⟨first, later⟩ := List.forall_mem_cons.mp h
    rw [List.cons_append, landmarks_cons_of_isUnmarked first, ih later]

/-- A character that has no part in tokens separates the landmarks before it from those behind
it. -/
theorem landmarks_append_cons (apart : continuesToken c = false) (single : isUnmarked c)
    (x y : Text) : landmarks (x ++ c :: y) = landmarks x ++ landmarks y := by
  rw [landmarks_append (by simpa using apart), landmarks_cons_of_isUnmarked single]

theorem landmarks_quote (mark : isQuoteMark c) (t : Text) :
    landmarks (c :: t) = .quote c :: landmarks t := by
  rw [landmarks, Landmark.at?_quote mark]
  rfl

theorem isUnmarked_of_isDecimalDigit (h : isDecimalDigit c) : isUnmarked c := by
  simp [isUnmarked, isQuoteMark_eq_false_of_isDecimalDigit h,
    beginsToken_eq_false_of_isDecimalDigit h]

theorem landmarks_token (nonempty : digits ≠ []) (all : ∀ d ∈ digits, isDecimalDigit d)
    (ends : EndsNumber t) :
    landmarks (kind.start ++ (digits ++ t)) = .token kind digits :: landmarks t := by
  have found : Landmark.at? (kind.start ++ (digits ++ t)) = some (.token kind digits) :=
    Landmark.at?_eq_token_iff.mpr
      (TokenKind.digitsOf?_eq_some_iff.mpr ⟨nonempty, all, t, rfl, ends⟩)
  have later : landmarks (kind.start.tail ++ (digits ++ t)) = landmarks t := by
    have letters : ∀ d ∈ kind.start.tail, isUnmarked d := by
      cases kind <;> exact List.all_eq_true.mp (by decide)
    have unmarked : ∀ d ∈ digits, isUnmarked d :=
      fun d member => isUnmarked_of_isDecimalDigit (all d member)
    rw [landmarks_of_isUnmarked letters, landmarks_of_isUnmarked unmarked]
  obtain ⟨first, letters, start, -⟩ := kind.start_eq
  rw [start] at found later ⊢
  rw [List.cons_append, landmarks, ← List.cons_append, found]
  exact congrArg (_ :: ·) later

/-- The token of a number that is set apart by spaces. -/
theorem landmarks_apart (kind : TokenKind) (n : Nat) (x y : Text) :
    landmarks (x ++ ' ' :: (kind.start ++ (Text.ofNat n ++ ' ' :: y))) =
      landmarks x ++ .token kind (Text.ofNat n) :: landmarks y := by
  have digits : ∀ d ∈ Text.ofNat n, isDecimalDigit d := fun d => isDecimalDigit_of_mem_ofNat
  rw [landmarks_append_cons (by decide) (by decide),
    landmarks_token (ofNat_ne_nil n) digits (endsNumber_cons (by decide) y),
    landmarks_cons_of_isUnmarked (by decide)]

/-- The landmarks behind a place are landmarks of the text. -/
theorem landmarks_sublist (x y : Text) : (landmarks y).Sublist (landmarks (x ++ y)) := by
  induction x with
  | nil => exact List.Sublist.refl _
  | cons c cs ih =>
    rw [List.cons_append, landmarks]
    exact ih.trans (List.sublist_append_right _ _)

/-- The landmarks of parts are landmarks of the text, if no number goes on from the first part to
the second. -/
theorem landmarks_append_sublist (ends : EndsNumber y) (x : Text) :
    (landmarks x ++ landmarks y).Sublist (landmarks (x ++ y)) := by
  induction x with
  | nil => exact List.Sublist.refl _
  | cons c cs ih =>
    rw [List.cons_append, landmarks, landmarks, List.append_assoc]
    refine List.Sublist.append ?_ ih
    cases found : Landmark.at? (c :: cs) with
    | none => exact List.nil_sublist _
    | some landmark =>
      have stays : Landmark.at? (c :: (cs ++ y)) = some landmark := by
        cases landmark with
        | quote d =>
          rw [Landmark.at?_eq_quote_iff] at found ⊢
          exact found
        | token kind digits =>
          rw [Landmark.at?_eq_token_iff, TokenKind.digitsOf?_eq_some_iff] at found ⊢
          obtain ⟨some, all, rest, same, stops⟩ := found
          refine ⟨some, all, rest ++ y, ?_, stops.append ends⟩
          rw [← List.cons_append, same]
          simp
      rw [stays]

/-- A text without tokens has its quotation marks as landmarks. -/
theorem landmarks_of_unnumbered (h : t.Unnumbered) :
    landmarks t = (t.filter isQuoteMark).map .quote := by
  induction t with
  | nil => rfl
  | cons c cs ih =>
    rw [landmarks, ih (h.of_isInfix (List.suffix_cons c cs).isInfix)]
    cases mark : isQuoteMark c with
    | true => simp [Landmark.at?_quote mark, mark]
    | false =>
      have none : Landmark.at? (c :: cs) = none := by
        rw [Option.eq_none_iff_forall_ne_some]
        intro landmark found
        cases landmark with
        | quote d =>
          obtain ⟨head, mark'⟩ := Landmark.at?_eq_quote_iff.mp found
          obtain rfl := Option.some.inj head
          simp [mark] at mark'
        | token kind digits =>
          rw [Landmark.at?_eq_token_iff, TokenKind.digitsOf?_eq_some_iff] at found
          obtain ⟨some, all, rest, same, -⟩ := found
          obtain ⟨d, ds, rfl⟩ := List.exists_cons_of_ne_nil some
          exact not_infix_of_hasNumbered (h.tokens kind) (all d (by simp))
            ⟨[], ds ++ rest, by simp [same]⟩
      simp [none, mark]

end Text

end PolicyRules
