import PolicyRules.Proofs.GroupOrder
import PolicyRules.Proofs.Landmarks

/-!
# Landmarks while a tree is built

A quotation mark that is not closed stays in a text when its strings are masked. It does not occur
again, neither in the text behind it nor in the strings that are named there. So it is with the
landmarks of every text that the first text is turned into before levels are read
(`SetAside.Arranged`): keywords are marked, and subexpressions are taken out.

Main statements: `SetAside.arranged_marked`, `SetAside.Arranged.extractSubexpressions`.
-/

namespace PolicyRules

/-- Whether a quotation mark does not occur again in a later landmark, or in the string that it
names. -/
def Landmark.Clears (strings : List Text) (a b : Landmark) : Prop :=
  ∀ c, a = .quote c → b ≠ .quote c ∧
    ∀ digits w, b = .token .string digits → tokenEntry strings digits = .ok w → c ∉ w

/-- Whether a text is a quoted string in which nothing is named. -/
structure IsInert (w : Text) : Prop where
  quoted : IsQuoted w
  unnumbered : w.Unnumbered

/-- Whether quotation marks do not occur again, tokens of strings name none but strings in which
nothing is named, and tokens of keywords name keywords. -/
structure SetAside.Orderly (s : SetAside) (l : List Landmark) : Prop where
  clear : l.Pairwise (Landmark.Clears s.strings)
  strings : ∀ digits w, .token .string digits ∈ l → tokenEntry s.strings digits = .ok w → IsInert w
  keywords : ∀ digits, .token .keyword digits ∈ l →
    ∃ n < s.keywords.length, tokenNumber digits = .ok n

/-- Whether a landmark is a token of a kind. -/
def Landmark.isToken (kind : TokenKind) : Landmark → Bool
  | .token kind' _ => kind' == kind
  | .quote _ => false

variable {l : List Landmark} {strings : List Text}

/-- The tokens of other kinds are left when those of a kind are taken out. -/
theorem Landmark.token_mem_of_filter {l' : List Landmark} {kind kind' : TokenKind} {digits : Text}
    (fewer : (l.filter (! ·.isToken kind)).Sublist l') (other : kind' ≠ kind)
    (member : .token kind' digits ∈ l) : .token kind' digits ∈ l' :=
  fewer.subset (List.mem_filter.mpr ⟨member, by simp [isToken, other]⟩)

/-- Only quotation marks and strings matter for the order of landmarks. -/
theorem Landmark.pairwise_clears_of_filter {kind : TokenKind}
    (other : kind ≠ .string) (h : (l.filter (! ·.isToken kind)).Pairwise (Clears strings)) :
    l.Pairwise (Clears strings) := by
  refine (List.pairwise_filter.mp h).imp fun {a b} clears c same => ?_
  subst same
  refine ⟨fun again => (clears rfl (by simp [again, isToken]) c rfl).1 again,
    fun digits w isString => ?_⟩
  exact (clears rfl (by simp [isString, isToken, other.symm]) c rfl).2 digits w isString

/-- Whether the landmarks of a text are in order, and no group is named. -/
structure SetAside.Arranged (s : SetAside) (t : Text) : Prop where
  orderly : s.Orderly t.landmarks
  ungrouped : ∀ digits, .token .group digits ∉ t.landmarks

namespace SetAside

variable {s s' : SetAside} {l l' : List Landmark} {t u : Text}

theorem Orderly.sublist (h : s.Orderly l) (fewer : l'.Sublist l) : s.Orderly l' :=
  ⟨h.clear.sublist fewer, fun digits w member => h.strings digits w (fewer.subset member),
    fun digits member => h.keywords digits (fewer.subset member)⟩

theorem Arranged.sublist (h : s.Arranged t) (fewer : u.landmarks.Sublist t.landmarks) :
    s.Arranged u :=
  ⟨h.orderly.sublist fewer, fun digits member => h.ungrouped digits (fewer.subset member)⟩

end SetAside

section Masked

variable {t u : Text}

/-- What the landmarks of a masked text are, given the text. -/
structure Masks (strings : List Text) (t : Text) (l : List Landmark) : Prop where
  clear : l.Pairwise (Landmark.Clears strings)
  kinds : ∀ kind digits, .token kind digits ∈ l → kind = .string
  quotes : ∀ c, .quote c ∈ l → c ∈ t
  named : ∀ digits w, .token .string digits ∈ l → tokenEntry strings digits = .ok w →
    IsQuoted w ∧ w <:+: t

/-- The quotation marks of a text without quoted segments, none of which occurs twice. -/
theorem pairwise_clears_quotes {marks : List Char} (distinct : marks.Nodup) :
    (marks.map Landmark.quote).Pairwise (Landmark.Clears strings) := by
  rw [List.pairwise_map]
  refine distinct.imp fun {a b} differ c same => ?_
  obtain rfl := Landmark.quote.inj same
  refine ⟨fun same' => differ (Landmark.quote.inj same').symm, fun _ _ isToken => ?_⟩
  cases isToken

/-- Quotation marks that do not occur behind them, and the token of a string, before a masked
text. -/
theorem Masks.append {a w : Text} {marks : List Char} {digits : Text}
    (behind : Masks strings t l) (distinct : marks.Nodup) (inside : ∀ c ∈ marks, c ∈ a)
    (last : ∀ c ∈ marks, c ∉ w ++ t)
    (named : ∀ v, tokenEntry strings digits = .ok v → IsQuoted v ∧ v <:+: w ++ t) :
    Masks strings (a ++ (w ++ t)) (marks.map .quote ++ .token .string digits :: l) := by
  have later : ∀ digits' v, .token .string digits' ∈ Landmark.token .string digits :: l →
      tokenEntry strings digits' = .ok v → IsQuoted v ∧ v <:+: w ++ t := by
    intro digits' v member entry
    rcases List.mem_cons.mp member with same | member
    · obtain ⟨-, rfl⟩ := Landmark.token.inj same
      exact named v entry
    · obtain ⟨quoted, inside⟩ := behind.named digits' v member entry
      exact ⟨quoted, inside.trans (List.suffix_append w t).isInfix⟩
  have token_or : ∀ kind digits', .token kind digits' ∈
      marks.map .quote ++ .token .string digits :: l →
      .token kind digits' ∈ Landmark.token .string digits :: l := by
    intro kind digits' member
    refine (List.mem_append.mp member).resolve_left fun isQuote => ?_
    obtain ⟨_, -, same⟩ := List.mem_map.mp isQuote
    cases same
  have clear : (Landmark.token .string digits :: l).Pairwise (Landmark.Clears strings) := by
    refine .cons (fun second _ c same => ?_) behind.clear
    cases same
  refine ⟨List.pairwise_append.mpr ⟨pairwise_clears_quotes distinct, clear,
    fun first isQuote second member c same => ?_⟩, fun kind digits' member => ?_,
    fun c member => ?_, fun digits' v member entry => ?_⟩
  · obtain ⟨c', isMark, rfl⟩ := List.mem_map.mp isQuote
    obtain rfl := Landmark.quote.inj same
    refine ⟨?_, ?_⟩
    · rintro rfl
      have again := (List.mem_cons.mp member).resolve_left (by simp)
      exact last c' isMark (List.mem_append_right _ (behind.quotes c' again))
    · rintro digits' v rfl entry inString
      exact last c' isMark ((later digits' v member entry).2.subset inString)
  · rcases List.mem_cons.mp (token_or _ _ member) with same | member
    · exact (Landmark.token.inj same).1
    · exact behind.kinds kind digits' member
  · rcases List.mem_append.mp member with isQuote | member
    · obtain ⟨c', isMark, same⟩ := List.mem_map.mp isQuote
      obtain rfl := Landmark.quote.inj same
      exact List.mem_append_left _ (inside c' isMark)
    · have again := (List.mem_cons.mp member).resolve_left (by simp)
      exact List.mem_append_right _ (List.mem_append_right _ (behind.quotes c again))
  · obtain ⟨quoted, inside⟩ := later digits' v (token_or _ _ member) entry
    exact ⟨quoted, inside.trans (List.suffix_append a (w ++ t)).isInfix⟩

theorem masks_maskStrings (s : SetAside) (unnumbered : t.Unnumbered) :
    Masks (s.maskStrings t).2.strings t (s.maskStrings t).1.landmarks := by
  refine s.maskStrings_induction (fun strings t masked => Masks strings t masked.landmarks) ?_ ?_
    unnumbered
  · intro strings t u head distinct inside
    have inText : ∀ c ∈ u.filter isQuoteMark, c ∈ t :=
      fun c member => inside (List.mem_of_mem_filter member)
    rw [Text.landmarks_of_unnumbered head]
    refine ⟨pairwise_clears_quotes distinct, ?_, ?_, ?_⟩ <;> simp_all
  · intro strings a w t u digits rest head distinct inside apart nonempty all ends named behind
    rw [Text.landmarks_append (by simp [TokenKind.start]; decide),
      Text.landmarks_of_unnumbered head, List.append_assoc TokenKind.string.start,
      Text.landmarks_token nonempty all ends]
    exact behind.append distinct (fun c member => inside (List.mem_of_mem_filter member))
      apart named

end Masked

section Marked

variable {t : Text}

/-- Marking keywords adds their tokens to the landmarks of a text. -/
theorem landmarks_markedFrom {previous : Option Char} {split : Split Keyword}
    (scanned : Scans keywordAt previous t split) (start : Nat) :
    ((split.head ++ (split.tail.zipIdx start).flatMap fun entry =>
        keywordToken entry.2 ++
          entry.1.2).landmarks.filter (! ·.isToken .keyword)).Sublist t.landmarks ∧
      ∀ digits, .token .keyword digits ∈
        (split.head ++ (split.tail.zipIdx start).flatMap fun entry =>
        keywordToken entry.2 ++ entry.1.2).landmarks →
        .token .keyword digits ∈ t.landmarks ∨ ∃ n, n < start + split.tail.length ∧
          digits = Text.ofNat n := by
  induction scanned generalizing start with
  | text quiet => exact ⟨by simp, fun digits member => .inl (by simpa using member)⟩
  | @mark previous u w t next k tail quiet nonempty found rest ih =>
    obtain ⟨-, more, same, -, width⟩ := keywordAt_eq_some found
    obtain ⟨rfl, -⟩ := List.append_inj same width
    obtain ⟨fewer, numbers⟩ := ih (start + 1)
    have ends : EndsNumber (k.text ++ t) := by cases k <;> exact endsNumber_cons (by decide) _
    have parts : (u.landmarks ++ t.landmarks).Sublist (Text.landmarks (u ++ (k.text ++ t))) :=
      ((List.Sublist.refl _).append (Text.landmarks_sublist k.text t)).trans
        (Text.landmarks_append_sublist ends u)
    have marked := Text.landmarks_apart .keyword start u
      (next ++ (tail.zipIdx (start + 1)).flatMap fun entry => keywordToken entry.2 ++ entry.1.2)
    have text_eq : (u ++ (((k, next) :: tail).zipIdx start).flatMap fun entry =>
      keywordToken entry.2 ++ entry.1.2) =
        u ++ ' ' :: (TokenKind.keyword.start ++ (Text.ofNat start ++ ' ' :: (next ++
          (tail.zipIdx (start + 1)).flatMap fun entry => keywordToken entry.2 ++ entry.1.2))) := by
      simp [keywordToken, TokenKind.start]
    rw [text_eq, marked]
    refine ⟨?_, fun digits member => ?_⟩
    · rw [List.filter_append, List.filter_cons_of_neg (by simp [Landmark.isToken])]
      exact (List.filter_sublist.append fewer).trans parts
    · rcases List.mem_append.mp member with first | member
      · exact .inl (parts.subset (List.mem_append_left _ first))
      · rcases List.mem_cons.mp member with same | later
        · obtain ⟨-, rfl⟩ := Landmark.token.inj same
          exact .inr ⟨start, by simp, rfl⟩
        · rcases numbers digits later with first | ⟨n, lt, rfl⟩
          · exact .inl (parts.subset (List.mem_append_right _ first))
          · exact .inr ⟨n, by simpa [Nat.add_assoc, Nat.add_comm, Nat.add_left_comm] using lt, rfl⟩

/-- A text in which strings are masked and keywords are marked. -/
theorem SetAside.arranged_marked {s s₁ s₂ : SetAside} {masked marked : Text}
    (unnumbered : t.Unnumbered) (hmask : s.maskStrings t = (masked, s₁))
    (hmark : s₁.markKeywords masked = (marked, s₂))
    (room : s₂.keywords.length ≤ 10 ^ maxDecimalDigits) : s₂.Arranged marked := by
  have masks := masks_maskStrings s unnumbered
  rw [hmask] at masks
  obtain ⟨rfl, rfl⟩ := Prod.mk.inj hmark
  obtain ⟨fewer, numbers⟩ :=
    landmarks_markedFrom (Split.scans measured_keywordAt none masked) s₁.keywords.length
  rw [(masked.split keywordAt).renderNumbered_add keywordToken s₁.keywords.length]
  refine ⟨⟨?_, fun digits w member entry => ?_, fun digits member => ?_⟩, fun digits member => ?_⟩
  · exact Landmark.pairwise_clears_of_filter (by decide) (masks.clear.sublist fewer)
  · obtain ⟨quoted, inside⟩ :=
      masks.named digits w (Landmark.token_mem_of_filter fewer (by decide) member) entry
    exact ⟨quoted, unnumbered.of_isInfix inside⟩
  · rcases numbers digits member with first | ⟨n, lt, rfl⟩
    · cases masks.kinds _ _ first
    · have lt : n < (s₁.keywords ++ (masked.split keywordAt).marks).length := by
        simpa [Split.marks, Text.split] using lt
      exact ⟨n, lt, tokenNumber_ofNat (lt.trans_le room)⟩
  · cases masks.kinds _ _ (Landmark.token_mem_of_filter fewer (by decide) member)

end Marked

section Extracted

theorem landmarks_strip_sublist (t : Text) :
    (Text.landmarks (Text.strip t)).Sublist t.landmarks := by
  obtain ⟨before, behind, same, -, blank⟩ := Text.exists_append_strip t
  have ends : EndsNumber behind := by
    intro c head
    exact isDecimalDigit_eq_false_of_isBlank (blank c (List.mem_of_mem_head? head))
  have first :=
    (List.sublist_append_left _ _).trans (Text.landmarks_append_sublist ends (Text.strip t))
  have whole := first.trans (Text.landmarks_sublist before (Text.strip t ++ behind))
  rwa [← same] at whole

/-- The name of a subexpression has no landmarks. -/
theorem landmarks_subexpressionToken (n : Nat) (x y : Text) :
    Text.landmarks (x ++ (subexpressionToken n ++ y)) = x.landmarks ++ y.landmarks := by
  have name : subexpressionToken n ++ y = 'P' :: ("LH".toList ++ (Text.ofNat n ++ y)) := by
    simp [subexpressionToken, Text.ofInt]
  have none : Landmark.at? ('P' :: ("LH".toList ++ (Text.ofNat n ++ y))) = none := rfl
  have letters : ∀ c ∈ "LH".toList, isUnmarked c := List.all_eq_true.mp (by decide)
  have digits : ∀ c ∈ Text.ofNat n, isUnmarked c := fun c member =>
    Text.isUnmarked_of_isDecimalDigit (isDecimalDigit_of_mem_ofNat member)
  rw [name, Text.landmarks_append (by simp; decide), Text.landmarks, none,
    Text.landmarks_of_isUnmarked letters, Text.landmarks_of_isUnmarked digits]
  rfl

namespace SetAside.Arranged

variable {s : SetAside} {t : Text}

/-- Taking a subexpression out of a text. -/
theorem bracketed {x part y : Text} (n : Nat) (h : s.Arranged (x ++ '[' :: (part ++ ']' :: y))) :
    s.Arranged part ∧ s.Arranged (x ++ (subexpressionToken n ++ y)) := by
  have whole : Text.landmarks (x ++ '[' :: (part ++ ']' :: y)) =
      x.landmarks ++ (part.landmarks ++ y.landmarks) := by
    rw [Text.landmarks_append_cons (by decide) (by decide),
      Text.landmarks_append_cons (by decide) (by decide)]
  refine ⟨h.sublist ?_, h.sublist ?_⟩
  · rw [whole]
    exact (List.sublist_append_left _ _).trans (List.sublist_append_right _ _)
  · rw [whole, landmarks_subexpressionToken]
    exact (List.Sublist.refl _).append (List.sublist_append_right _ _)

/-- The subexpressions that are taken out of a text, and the rest of it. -/
theorem extractSubexpressions {start : Nat} {rest : Text} {parts : List Text} (h : s.Arranged t)
    (extracted : PolicyRules.extractSubexpressions start t = .ok (rest, parts)) :
    ∀ part ∈ parts ++ [rest], s.Arranged part := by
  unfold PolicyRules.extractSubexpressions at extracted
  split at extracted <;> cases extracted
  next raw taken =>
  obtain ⟨whole, each⟩ := unnest_numbered (fun m x part y => bracketed (start + m)) taken h
  rw [List.forall_mem_append, List.forall_mem_singleton]
  refine ⟨fun part member => ?_, whole⟩
  obtain ⟨p, listed, rfl⟩ := List.mem_map.mp member
  obtain ⟨n, found⟩ := List.mem_iff_getElem?.mp listed
  exact (each n p found).sublist (landmarks_strip_sublist p)

end SetAside.Arranged

end Extracted

end PolicyRules
