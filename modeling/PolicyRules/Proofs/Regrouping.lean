import PolicyRules.Proofs.Expansion
import PolicyRules.Proofs.GroupCollapse
import PolicyRules.Proofs.LandmarkOrder

/-!
# Groups in their places

The landmarks of a text are in order if they are so however many of its groups are put back
(`SetAside.Sorted`). The groups of a text with paired parentheses stand in it in the same order as
their tokens, so collapsing them keeps the landmarks in order, both in the text and in the groups.
Parts of a text have no landmarks that it does not have.

Main statements: `SetAside.Arranged.sorted_collapseGroups`, `SetAside.Sorted.exists_regrouped` for
what is expanded.
-/

namespace PolicyRules

/-- Whether the second text is the first with groups put back, in parentheses, in the place of some
tokens. -/
inductive Regroups (groups : List Text) : Text → Text → Prop
  | nil : Regroups groups [] []
  | char (c : Char) {x m : Text} (rest : Regroups groups x m) : Regroups groups (c :: x) (c :: m)
  | group {digits g inner x m : Text} (nonempty : digits ≠ [])
    (all : ∀ d ∈ digits, isDecimalDigit d) (found : tokenEntry groups digits = .ok g)
    (ends : EndsNumber x) (inside : Regroups groups g inner) (rest : Regroups groups x m) :
    Regroups groups (TokenKind.group.start ++ (digits ++ x)) ('(' :: (inner ++ ')' :: m))

namespace Regroups

variable {groups : List Text} {x y m n digits : Text}

theorem prepend (h : Regroups groups x m) (a : Text) : Regroups groups (a ++ x) (a ++ m) := by
  induction a with
  | nil => exact h
  | cons c cs ih => exact .char c ih

theorem refl (x : Text) : Regroups groups x x := by
  simpa using nil.prepend x

theorem append (h : Regroups groups x m) (h' : Regroups groups y n) (ends : EndsNumber y) :
    Regroups groups (x ++ y) (m ++ n) := by
  induction h with
  | nil => exact h'
  | char c _ ih => exact .char c ih
  | group nonempty all found ends' inside _ _ ih =>
    have whole := Regroups.group nonempty all found (ends'.append ends) inside ih
    simpa using whole

/-- Nothing is put back where no token of a group begins. -/
theorem of_cons {c : Char} (other : ∀ d, isDecimalDigit d → ¬ ['i', ':', d] <+: c :: x)
    (h : Regroups groups (c :: x) m) : ∃ m', m = c :: m' ∧ Regroups groups x m' := by
  generalize same : c :: x = t at h
  cases h with
  | nil => cases same
  | char c' rest =>
    obtain ⟨rfl, rfl⟩ := List.cons.inj same
    exact ⟨_, rfl, rest⟩
  | @group digits g inner x' m nonempty all found ends inside rest =>
    obtain ⟨d, ds, rfl⟩ := List.exists_cons_of_ne_nil nonempty
    exact absurd ⟨ds ++ x', by rw [same]; rfl⟩ (other d (all d (by simp)))

theorem of_append {a : Text} (other : ∀ c ∈ a, c ≠ 'i') (h : Regroups groups (a ++ x) m) :
    ∃ m', m = a ++ m' ∧ Regroups groups x m' := by
  induction a generalizing m with
  | nil => exact ⟨m, rfl, h⟩
  | cons c cs ih =>
    obtain ⟨first, later⟩ := List.forall_mem_cons.mp other
    obtain ⟨m₁, rfl, others⟩ :=
      of_cons (fun d _ begins => first (List.cons_prefix_cons.mp begins).1.symm) h
    obtain ⟨m₂, rfl, rest⟩ := ih later others
    exact ⟨m₂, rfl, rest⟩

/-- The token of a group stays, or the group is put back in its place. -/
theorem of_token (all : ∀ d ∈ digits, isDecimalDigit d) (ends : EndsNumber x)
    (h : Regroups groups (TokenKind.group.start ++ (digits ++ x)) m) :
    (∃ m', m = TokenKind.group.start ++ (digits ++ m') ∧ Regroups groups x m') ∨
      ∃ g inner m', tokenEntry groups digits = .ok g ∧ Regroups groups g inner ∧
      m = '(' :: (inner ++ ')' :: m') ∧
        Regroups groups x m' := by
  generalize same : TokenKind.group.start ++ (digits ++ x) = t at h
  cases h with
  | nil => cases same
  | char c rest =>
    obtain ⟨rfl, rfl⟩ := List.cons.inj same
    have other : ∀ c ∈ ':' :: digits, c ≠ 'i' := by
      rw [List.forall_mem_cons]
      refine ⟨by decide, fun d member isLetter => ?_⟩
      have letter : isDecimalDigit 'i' = false := by decide
      rw [← isLetter, all d member] at letter
      cases letter
    obtain ⟨m', rfl, later⟩ := rest.of_append (a := ':' :: digits) other
    exact .inl ⟨m', rfl, later⟩
  | @group digits' g inner x' m nonempty all' found ends' inside rest =>
    have same := List.append_cancel_left same
    have run := congrArg (List.takeWhile isDecimalDigit) same
    rw [takeWhile_append_of_head all ends, takeWhile_append_of_head all' ends'] at run
    subst run
    obtain rfl := List.append_cancel_left same
    exact .inr ⟨g, inner, m, found, inside, rfl, rest⟩

end Regroups

/-- The token of a kind is a landmark wherever it stands. -/
theorem Text.token_mem_landmarks (kind : TokenKind) {digits t : Text} (nonempty : digits ≠ [])
    (all : ∀ d ∈ digits, isDecimalDigit d) (ends : EndsNumber t) (x : Text) :
    .token kind digits ∈ Text.landmarks (x ++ (kind.start ++ (digits ++ t))) := by
  apply (Text.landmarks_sublist x _).subset
  rw [Text.landmarks_token nonempty all ends]
  exact List.mem_cons_self

theorem Text.exists_token_mem_landmarks (kind : TokenKind) {t : Text} {d : Char}
    (digit : isDecimalDigit d) (h : kind.start ++ [d] <:+: t) :
    ∃ digits, .token kind digits ∈ t.landmarks := by
  obtain ⟨x, y, rfl⟩ := h
  obtain ⟨digits, rest, rfl, all, ends⟩ := exists_digits_append y
  have member := Text.token_mem_landmarks kind (List.cons_ne_nil d digits)
    (List.forall_mem_cons.mpr ⟨digit, all⟩) ends x
  exact ⟨d :: digits, by simpa using member⟩

section Collapsed

variable {groups : List Text}

theorem Bracketing.collapsed_pair (inner rest : Bracketing .round) (n : Nat) :
    (pair inner rest).collapsed groupToken n = [' '] ++ (TokenKind.group.start ++
      (Text.ofNat (n + rest.size + inner.size) ++ ([' '] ++ rest.collapsed groupToken n))) := by
  simp [collapsed, groupToken, TokenKind.start]

theorem Bracketing.landmarks_pair (inner rest : Bracketing .round) (x : Text) :
    Text.landmarks (x ++ (pair inner rest).text) =
      x.landmarks ++ (inner.text.landmarks ++ rest.text.landmarks) := by
  have text_eq : (pair inner rest).text = '(' :: (inner.text ++ ')' :: rest.text) := rfl
  rw [text_eq, Text.landmarks_append_cons (by decide) (by decide),
    Text.landmarks_append_cons (by decide) (by decide)]

/-- A collapsed text whose groups are put back, or stay, has no landmarks but those of the text
before and the tokens of groups. What stands before the text takes part, since a token may begin in
it. -/
theorem Bracketing.landmarks_regrouped (f : Bracketing .round) {n : Nat} (unnumbered : f.Unnumbered)
    (held : f.parts groupToken n <+: groups.drop n) {m : Text}
    (h : Regroups groups (f.collapsed groupToken n) m) (x : Text) :
    ((Text.landmarks (x ++ m)).filter (! ·.isToken .group)).Sublist
      (Text.landmarks (x ++ f.text)) := by
  induction f generalizing n m x with
  | nil =>
    cases h
    exact List.filter_sublist
  | char c plain rest ih =>
    obtain ⟨m', rfl, later⟩ := h.of_cons fun d digit => unnumbered.not_isPrefix_collapsed digit n
    simpa [text] using ih unnumbered.of_char held later (x ++ [c])
  | pair inner rest ihInner ihRest =>
    obtain ⟨noGroupInner, noGroupRest⟩ := unnumbered.of_pair
    obtain ⟨heldRest, held⟩ := isPrefix_drop_of_append held
    rw [length_parts] at held
    obtain ⟨heldInner, held⟩ := isPrefix_drop_of_append held
    rw [length_parts] at held
    rw [collapsed_pair] at h
    rw [landmarks_pair]
    have digits : ∀ d ∈ Text.ofNat (n + rest.size + inner.size), isDecimalDigit d :=
      fun d => isDecimalDigit_of_mem_ofNat
    have space : ∀ c ∈ [' '], c ≠ 'i' := List.forall_mem_singleton.mpr (by decide)
    obtain ⟨m₁, rfl, atToken⟩ := h.of_append space
    have ends : EndsNumber ([' '] ++ rest.collapsed groupToken n) := endsNumber_cons (by decide) _
    rcases atToken.of_token digits ends with ⟨m₂, rfl, atSpace⟩ |
      ⟨g, mg, m₂, entry, inside, rfl, atSpace⟩
    · obtain ⟨m₃, rfl, later⟩ := atSpace.of_append space
      have kept := Text.landmarks_apart .group (n + rest.size + inner.size) x m₃
      rw [List.singleton_append, List.singleton_append, kept, List.filter_append,
        List.filter_cons_of_neg (by simp [Landmark.isToken])]
      have behind := ihRest noGroupRest heldRest later []
      exact List.filter_sublist.append (behind.trans (List.sublist_append_right _ _))
    · obtain ⟨m₃, rfl, later⟩ := atSpace.of_append space
      obtain rfl : inner.collapsed groupToken (n + rest.size) = g := by
        have found := getElem?_of_tokenEntry entry
        rw [getElem?_of_isPrefix_drop held] at found
        exact Option.some.inj found
      rw [List.singleton_append, List.singleton_append,
        Text.landmarks_append_cons (by decide) (by decide), Text.landmarks_cons_of_isUnmarked
          (by decide), Text.landmarks_append_cons (by decide) (by decide),
        Text.landmarks_cons_of_isUnmarked (by decide), List.filter_append, List.filter_append]
      have within := ihInner noGroupInner heldInner inside []
      have behind := ihRest noGroupRest heldRest later []
      exact List.filter_sublist.append (within.append behind)

end Collapsed

namespace SetAside

variable {s : SetAside} {t x y z g digits : Text}

/-- Whether the landmarks of a text are in order, however many of its groups are put back. -/
def Sorted (s : SetAside) (x : Text) : Prop := ∀ m, Regroups s.groups x m → s.Orderly m.landmarks

theorem Sorted.orderly (h : s.Sorted x) : s.Orderly x.landmarks := h x (.refl x)

/-- A part of a text behind which no number goes on. -/
theorem Sorted.of_append (h : s.Sorted (x ++ (y ++ z))) (ends : EndsNumber z) : s.Sorted y := by
  intro m regroups
  have whole := h _ ((regroups.append (.refl z) ends).prepend x)
  have first := (List.sublist_append_left _ _).trans (Text.landmarks_append_sublist ends m)
  exact whole.sublist (first.trans (Text.landmarks_sublist x _))

/-- The group that a token stands for. -/
theorem Sorted.of_token (h : s.Sorted (TokenKind.group.start ++ digits)) (nonempty : digits ≠ [])
    (all : ∀ d ∈ digits, isDecimalDigit d) (entry : tokenEntry s.groups digits = .ok g) :
    s.Sorted g := by
  intro m regroups
  have whole := Regroups.group nonempty all entry (x := []) (by simp [EndsNumber]) regroups .nil
  rw [List.append_nil] at whole
  have orderly := h _ whole
  have parenthesized : Text.landmarks ('(' :: (m ++ [')'])) = m.landmarks := by
    rw [Text.landmarks_cons_of_isUnmarked (by decide),
      Text.landmarks_append_cons (by decide) (by decide), Text.landmarks_nil, List.append_nil]
  rwa [parenthesized] at orderly

theorem Arranged.not_isInfix (h : s.Arranged t) {d : Char} (digit : isDecimalDigit d) :
    ¬ ['i', ':', d] <:+: t := by
  intro inside
  obtain ⟨digits, member⟩ := Text.exists_token_mem_landmarks .group digit inside
  exact h.ungrouped digits member

/-- A text that names no group. -/
theorem Arranged.sorted (h : s.Arranged t) : s.Sorted t := by
  have noToken : ∀ d, isDecimalDigit d → ¬ ['i', ':', d] <:+: t := fun d => h.not_isInfix
  have same : ∀ m, Regroups s.groups t m → m = t := by
    clear h
    induction t with
    | nil =>
      intro m regroups
      cases regroups
      rfl
    | cons c cs ih =>
      intro m regroups
      obtain ⟨m', rfl, rest⟩ :=
        regroups.of_cons fun d digit begins => noToken d digit begins.isInfix
      rw [ih (fun d digit inside => noToken d digit (List.infix_cons inside)) m' rest]
  intro m regroups
  rw [same m regroups]
  exact h.orderly

theorem Arranged.sorted_collapsed {f : Bracketing .round} {n : Nat} (h : s.Arranged f.text)
    (held : f.parts groupToken n <+: s.groups.drop n) : s.Sorted (f.collapsed groupToken n) := by
  intro m regroups
  have fewer := f.landmarks_regrouped (fun d => h.not_isInfix) held regroups []
  rw [List.nil_append, List.nil_append] at fewer
  refine ⟨Landmark.pairwise_clears_of_filter (by decide) (h.orderly.clear.sublist fewer),
    fun digits w member => ?_, fun digits member => ?_⟩
  · exact h.orderly.strings digits w (Landmark.token_mem_of_filter fewer (by decide) member)
  · exact h.orderly.keywords digits (Landmark.token_mem_of_filter fewer (by decide) member)

theorem Arranged.sorted_parts {f : Bracketing .round} {n : Nat} (h : s.Arranged f.text)
    (held : f.parts groupToken n <+: s.groups.drop n) :
    ∀ part ∈ f.parts groupToken n, s.Sorted part := by
  induction f generalizing n with
  | nil => simp [Bracketing.parts]
  | char c plain rest ih => exact ih (h.sublist (Text.landmarks_sublist [c] rest.text)) held
  | pair inner rest ihInner ihRest =>
    obtain ⟨heldRest, held⟩ := isPrefix_drop_of_append held
    rw [Bracketing.length_parts] at held
    obtain ⟨heldInner, -⟩ := isPrefix_drop_of_append held
    have landmarks_eq := Bracketing.landmarks_pair inner rest []
    rw [List.nil_append, Text.landmarks_nil, List.nil_append] at landmarks_eq
    have arrangedInner : s.Arranged inner.text :=
      h.sublist (landmarks_eq ▸ List.sublist_append_left _ _)
    have arrangedRest : s.Arranged rest.text :=
      h.sublist (landmarks_eq ▸ List.sublist_append_right _ _)
    intro part member
    simp only [Bracketing.parts, List.mem_append, List.mem_singleton] at member
    rcases member with later | within | rfl
    · exact ihRest arrangedRest heldRest part later
    · exact ihInner arrangedInner heldInner part within
    · exact arrangedInner.sorted_collapsed heldInner

/-- The landmarks are in order in a text whose groups have been collapsed, and in these groups. -/
theorem Arranged.sorted_collapseGroups {s' : SetAside} {level : Text} (h : s.Arranged t)
    (collapsed : s.collapseGroups t = (level, s')) :
    s'.Sorted level ∧ ∀ g ∈ s'.groups.drop s.groups.length, s'.Sorted g := by
  cases taken : unnest .round (fun n => groupToken (s.groups.length + n)) t with
  | error e =>
    rw [collapseGroups, taken] at collapsed
    obtain ⟨rfl, rfl⟩ := Prod.mk.inj collapsed
    exact ⟨h.sorted, by simp⟩
  | ok result =>
    obtain ⟨f, rfl⟩ := balanced_of_unnest taken
    rw [collapseGroups, f.unnest_text, f.collapsed_shift, f.parts_shift, Nat.add_zero] at collapsed
    obtain ⟨rfl, rfl⟩ := Prod.mk.inj collapsed
    have arranged :
        ({ s with groups := s.groups ++ f.parts groupToken s.groups.length } : SetAside).Arranged
          f.text :=
      ⟨⟨h.orderly.clear, h.orderly.strings, h.orderly.keywords⟩, h.ungrouped⟩
    have held : f.parts groupToken s.groups.length <+:
        (s.groups ++ f.parts groupToken s.groups.length).drop s.groups.length := by simp
    refine ⟨arranged.sorted_collapsed held, fun g member => arranged.sorted_parts held g ?_⟩
    simpa using member

section Expanded

/-- Putting groups back, with strings put back in them. -/
theorem Sorted.exists_reopened {expand : Text → Except Error Text}
    (each : ∀ g u, s.Sorted g → expand g = .ok u → ∃ m, Regroups s.groups g m ∧ Fills s.strings m u)
    {previous : Option Char} {t' : Text} {split : Split Text}
    (scanned : Scans groupTokenAt previous t split) (sorted : s.Sorted t)
    (h : split.renderM (fun digits => do
      let group ← tokenEntry s.groups digits
      return '(' :: (← expand group) ++ [')']) = .ok t') :
    ∃ m, Regroups s.groups t m ∧ Fills s.strings m t' := by
  induction scanned generalizing t' with
  | @text previous t quiet =>
    obtain rfl := Split.renderM_nil_eq_ok h
    exact ⟨t', .refl t', .refl t'⟩
  | @mark previous a w t next digits tail quiet nonempty found rest ih =>
    obtain ⟨v, t', entry, later, rfl⟩ := Split.renderM_cons_eq_ok h
    obtain ⟨g, named, inside⟩ := bind_eq_ok_iff.mp entry
    obtain ⟨inner, expanded, written⟩ := bind_eq_ok_iff.mp inside
    obtain rfl := pure_eq_ok_iff.mp written
    obtain ⟨rfl, some, all, -⟩ := numberedAt_append_eq_some found
    have ends := endsNumber_of_numberedAt found
    have sortedG : s.Sorted g := Sorted.of_token (sorted.of_append ends) some all named
    have sortedT : s.Sorted t := by
      refine Sorted.of_append (x := a ++ 'i' :: ':' :: digits) (z := []) ?_ (by simp [EndsNumber])
      simpa using sorted
    obtain ⟨mg, regroupsG, fillsG⟩ := each g inner sortedG expanded
    obtain ⟨mt, regroupsT, fillsT⟩ := ih sortedT later
    exact ⟨a ++ '(' :: (mg ++ ')' :: mt),
      (Regroups.group some all named ends regroupsG regroupsT).prepend a,
      fillsG.parenthesized fillsT a⟩

/-- What a text is expanded to is the text with groups put back, and then with strings put back. -/
theorem Sorted.exists_regrouped {depth : Nat} {u : Text} (sorted : s.Sorted t)
    (h : s.expandWithin depth t = .ok u) : ∃ m, Regroups s.groups t m ∧ Fills s.strings m u := by
  induction depth generalizing t u with
  | zero => cases h
  | succ depth ih =>
    obtain ⟨opened, renderGroups, renderStrings⟩ := bind_eq_ok_iff.mp h
    obtain ⟨m, regroups, fills⟩ := Sorted.exists_reopened
      (fun g u sorted expanded => ih sorted expanded) (Split.scans (measured_numberedAt 'i') none t)
        sorted renderGroups
    refine ⟨m, regroups, fills_of_renderM fills (fun a digits b w same nonempty all ends entry =>
      ?_) (Split.scans (measured_numberedAt 'q') none opened) renderStrings⟩
    have named := Text.token_mem_landmarks .string nonempty all ends a
    have inert := (sorted m regroups).strings digits w (same ▸ named) entry
    exact ⟨inert.quoted, inert.unnumbered.tokens .string⟩

end Expanded

end SetAside

end PolicyRules
