import PolicyRules.Proofs.NestingDepth
import PolicyRules.Proofs.Regrouping

/-!
# Levels of a text whose groups are collapsed

When the groups of a text are collapsed, its tokens name groups that have just been set aside, and
so do the tokens of these groups, each only groups before it. What has been set aside earlier does
not matter. The landmarks of all these texts are in order. That is what is asked of a level
(`SetAside.Levelled`), and the groups that are operands of a level are levels again.

Main statement: `SetAside.Arranged.levelled_collapseGroups`.
-/

namespace PolicyRules

namespace Bracketing

/-- A part names no groups before those of the text. -/
theorem le_of_mem_parts (f : Bracketing .round) (h : f.Unnumbered) {n m : Nat} {part : Text}
    (listed : part ∈ f.parts groupToken n) (member : m ∈ part.groupNumbers) : n ≤ m := by
  induction f generalizing n with
  | nil => cases listed
  | char c plain rest ih => exact ih h.of_char listed
  | pair inner rest ihInner ihRest =>
    obtain ⟨hInner, hRest⟩ := h.of_pair
    simp only [parts, List.mem_append, List.mem_singleton] at listed
    rcases listed with later | within | rfl
    · exact ihRest hRest later
    · have := ihInner hInner within
      omega
    · obtain ⟨digits, marked, rfl⟩ := List.mem_map.mp member
      obtain ⟨m, le, -, rfl⟩ := inner.bounds_of_mem_marks hInner marked
      rw [ordinalOf, value_digits_ofNat]
      omega

end Bracketing

namespace SetAside

variable {s s' : SetAside} {t level : Text} {n : Nat}

/-- Groups from a number on that name only groups before them, and none with a smaller number. -/
theorem descends_of_layered
    (layered : ∀ k g, n ≤ k → s.groups[k]? = some g → ∀ m ∈ g.groupNumbers, n ≤ m ∧ m < k) {k : Nat}
    {g : Text} (le : n ≤ k) (found : s.groups[k]? = some g) : s.Descends k g := by
  induction k using Nat.strongRecOn generalizing g with
  | ind k ih =>
    have names := layered k g le found
    exact ⟨fun m member _ => (names m member).2,
      fun m member g' => ih m (names m member).2 (names m member).1⟩

/-- Whether the landmarks of a text are in order and its groups can be followed. -/
structure Levelled (s : SetAside) (t : Text) : Prop where
  sorted : s.Sorted t
  descends : s.Descends s.groups.length t

theorem Arranged.groupNumbers_eq (h : s.Arranged t) : t.groupNumbers = [] := by
  rw [List.eq_nil_iff_forall_not_mem]
  intro m member
  obtain ⟨digits, marked, rfl⟩ := List.mem_map.mp member
  obtain ⟨u, v, width, rfl, found⟩ := Split.exists_of_mem_marks marked
  obtain ⟨d, rest, rfl, digit⟩ := numberedAt_eq_some found
  exact h.not_isInfix digit ⟨u, rest, by simp⟩

/-- A text whose groups have been collapsed is a level, and so are these groups. -/
theorem Arranged.levelled_collapseGroups (h : s.Arranged t)
    (collapsed : s.collapseGroups t = (level, s')) :
    s'.Levelled level ∧ ∀ g ∈ s'.groups.drop s.groups.length, s'.Levelled g := by
  obtain ⟨sorted, sortedGroups⟩ := h.sorted_collapseGroups collapsed
  cases taken : unnest .round (fun n => groupToken (s.groups.length + n)) t with
  | error e =>
    rw [collapseGroups, taken] at collapsed
    obtain ⟨rfl, rfl⟩ := Prod.mk.inj collapsed
    refine ⟨⟨sorted, ?_, ?_⟩, by simp⟩ <;> simp [h.groupNumbers_eq]
  | ok result =>
    obtain ⟨f, rfl⟩ := balanced_of_unnest taken
    have unnumbered : f.Unnumbered := fun d => h.not_isInfix
    rw [collapseGroups, f.unnest_text, f.collapsed_shift, f.parts_shift, Nat.add_zero] at collapsed
    obtain ⟨rfl, rfl⟩ := Prod.mk.inj collapsed
    dsimp only at sorted sortedGroups ⊢
    have layered : ∀ k g, s.groups.length ≤ k →
        (s.groups ++ f.parts groupToken s.groups.length)[k]? = some g →
        ∀ m ∈ g.groupNumbers, s.groups.length ≤ m ∧ m < k := by
      intro k g le found m member
      rw [List.getElem?_append_right le] at found
      have lt := f.layeredFrom_parts unnumbered s.groups.length _ g found m member
      exact ⟨f.le_of_mem_parts unnumbered (List.mem_of_getElem? found) member, by omega⟩
    refine ⟨⟨sorted, fun m _ lt => lt, fun m member g found => ?_⟩,
      fun g member => ⟨sortedGroups g member, ?_⟩⟩
    · obtain ⟨digits, marked, rfl⟩ := List.mem_map.mp member
      obtain ⟨m, le, -, rfl⟩ := f.bounds_of_mem_marks unnumbered marked
      rw [ordinalOf, value_digits_ofNat] at found ⊢
      exact descends_of_layered layered le found
    · obtain ⟨k, found⟩ := List.mem_iff_getElem?.mp member
      rw [List.getElem?_drop] at found
      have lt := (List.getElem?_eq_some_iff.mp found).1
      exact (descends_of_layered layered (Nat.le_add_right _ _) found).mono lt.le

namespace Levelled

variable {pieces : List Piece} {u digits g : Text}

/-- The operands of a level are parts of it whose landmarks are in order. -/
theorem sorted_operand (h : s.Levelled t) (read : Piece.ofText t = .ok pieces)
    (member : .operand u ∈ pieces) : s.Sorted u := by
  obtain ⟨part, listed, rfl⟩ := Piece.exists_of_operand_mem read member
  obtain ⟨x, y, rfl, ends, -⟩ :=
    (Split.scans measured_keywordTokenAt none t).place_of_mem_plain (.inr rfl) listed
  obtain ⟨before, behind, whole, -, blank⟩ := Text.exists_append_strip part
  have inside := h.sorted.of_append ends
  rw [whole] at inside
  exact inside.of_append fun c head => isDecimalDigit_eq_false_of_isBlank
    (blank c (List.mem_of_mem_head? head))

/-- A group that is an operand of a level is a level, whose own groups have smaller numbers. -/
theorem of_operand (h : s.Levelled t) (read : Piece.ofText t = .ok pieces)
    (member : .operand u ∈ pieces) (token : groupToken? u = some digits)
    (entry : tokenEntry s.groups digits = .ok g) :
    s.Levelled g ∧ ∃ k < s.groups.length, s.Descends k g := by
  obtain ⟨rfl, nonempty, all⟩ := Backed.eq_of_groupToken? token
  obtain ⟨-, lt, descends⟩ :=
    h.descends.of_tokenEntry (mem_groupNumbers_of_operand read member token) entry
  exact ⟨⟨(h.sorted_operand read member).of_token nonempty all entry, descends.mono lt.le⟩, _,
    lt, descends⟩

end Levelled

end SetAside

end PolicyRules
