import PolicyRules.Proofs.TreeFailures

/-!
# The order of groups

The text of a group names other groups by their numbers, so it is not clear that putting the groups
of a text back comes to an end. It does if each group names only groups before it: a chain of groups
then has smaller and smaller numbers, and no more than there are groups. The same holds of reading
levels, since an operand that is the token of a group is such a token in the text of its level too.

Main statements: `SetAside.Layered.terminates_expand`, `SetAside.Layered.terminates_parseLevel`.
-/

namespace PolicyRules

/-- The number that a run of digits stands for, however long it is. -/
def ordinalOf (digits : Text) : Nat := Radix.decimal.value (digits.filterMap decimalDigit?)

variable {digits t : Text} {depth : Nat}

theorem eq_ordinalOf_of_tokenNumber {n : Nat} (h : tokenNumber digits = .ok n) :
    n = ordinalOf digits := by
  simp only [tokenNumber, readOrdinal] at h
  by_cases long : Radix.decimal.exceedsLimit (digits.filterMap decimalDigit?)
  · rw [if_pos long] at h
    cases h
  · rw [if_neg long] at h
    exact (Except.ok.inj h).symm

/-- The numbers of the groups that a text names. -/
def Text.groupNumbers (t : Text) : List Nat := (t.split groupTokenAt).marks.map ordinalOf

/-- Whether each group names only groups before it, where the first one has the number `n`. -/
def LayeredFrom (n : Nat) (groups : List Text) : Prop :=
  ∀ k group, groups[k]? = some group → ∀ m ∈ group.groupNumbers, m < n + k

theorem LayeredFrom.append {n : Nat} {l l' : List Text} (h : LayeredFrom n l)
    (h' : LayeredFrom (n + l.length) l') : LayeredFrom n (l ++ l') := by
  intro k group found m member
  rw [List.getElem?_append] at found
  by_cases inside : k < l.length
  · rw [if_pos inside] at found
    exact h k group found m member
  · rw [if_neg inside] at found
    have := h' _ group found m member
    omega

/-- Whether each group that is set aside names only groups before it. -/
def SetAside.Layered (s : SetAside) : Prop := LayeredFrom 0 s.groups

/-- Whether a computation ends, that is, does not follow groups for ever. -/
def Terminates {α : Type} (x : Except Error α) : Prop := FailsWith (· ≠ .endlessGroup) x

section Lookups

variable {α : Type}

theorem Terminates.of_failsExpectedly {x : Except Error α} (h : FailsExpectedly x) :
    Terminates x := by
  rintro _ failed rfl
  rcases h _ failed with about | ⟨count, -, same⟩
  · cases about
  · cases same

theorem terminates_nthEntry (entries : List α) (n : Nat) : Terminates (nthEntry entries n) := by
  rintro _ failed rfl
  have missing := (nthEntry_eq_error_iff.mp failed).2
  rw [Error.missingEntry] at missing
  split at missing <;> cases missing

theorem terminates_tokenNumber (digits : Text) : Terminates (tokenNumber digits) := by
  rintro _ failed rfl
  rw [tokenNumber] at failed
  split at failed <;> cases failed

theorem terminates_tokenEntry (entries : List α) (digits : Text) :
    Terminates (tokenEntry entries digits) :=
  FailsWith.bind (terminates_tokenNumber digits) fun n _ => terminates_nthEntry entries n

theorem terminates_pieces (t : Text) : Terminates (Piece.ofText t) := by
  refine FailsWith.bind (FailsWith.mapM fun piece _ => ?_) fun _ _ => FailsWith.ok _
  exact FailsWith.bind (terminates_tokenNumber piece.1) fun _ _ => FailsWith.ok _

/-- A token stands for the group with its number. -/
theorem getElem?_of_tokenEntry_eq_ok {entries : List α} {a : α}
    (h : tokenEntry entries digits = .ok a) : entries[ordinalOf digits]? = some a := by
  obtain ⟨n, number, entry⟩ := bind_eq_ok_iff.mp h
  rw [← eq_ordinalOf_of_tokenNumber number]
  exact nthEntry_eq_ok_iff.mp entry

end Lookups

section Operands

/-- The token of a group is found wherever it stands. -/
theorem runBound_numberedAt {letter : Char} (word : isWordChar letter) :
    RunBound (numberedAt letter) where
  clear h := by
    unfold numberedAt at h
    exact (Option.ite_none_right_eq_some.mp h).1
  run := by
    intro previous t digits width h c member
    obtain ⟨-, fits⟩ := measured_numberedAt letter _ _ _ _ h
    have cut : numberedAt letter previous (t.take width ++ t.drop width) =
        some (digits, (t.take width).length) := by
      rw [List.take_append_drop, List.length_take, Nat.min_eq_left fits]
      exact h
    obtain ⟨same, -, all, -⟩ := numberedAt_append_eq_some cut
    rw [same] at member
    simp only [List.mem_cons] at member
    rcases member with rfl | rfl | digit
    · simp [isReferenceChar, word]
    · rfl
    · simp [isReferenceChar, isWordChar_of_isDecimalDigit (all c digit)]

theorem isDecimalDigit_eq_false_of_isBlank {c : Char} (h : isBlank c) :
    isDecimalDigit c = false := by
  cases digit : isDecimalDigit c with
  | false => rfl
  | true =>
    have word := isWordChar_of_isDecimalDigit digit
    rw [isWordChar_eq_false_of_isBlank h] at word
    cases word

/-- Where a part of a level between keywords stands: it does not begin inside a word, and no number
goes on behind it. -/
theorem Scans.place_of_mem_plain {previous : Option Char} {s : Split Text}
    (scanned : Scans keywordTokenAt previous t s)
    (edge : isWordEdge t.head? ∨ isClear previous) {part : Text} (member : part ∈ s.plain) :
    ∃ x y, t = x ++ (part ++ y) ∧ EndsNumber y ∧
      (isWordEdge part.head? ∨ isClear (lastChar previous x)) := by
  induction scanned with
  | @text previous t quiet =>
    obtain rfl := List.mem_singleton.mp member
    exact ⟨[], [], by simp, by simp [EndsNumber], edge⟩
  | @mark previous u w t next digits tail quiet nonempty found rest ih =>
    obtain ⟨before, behind, more, same, width, -, -, blank, blank', -, ended⟩ :=
      keywordTokenAt_eq_some found
    obtain ⟨rfl, rfl⟩ := List.append_inj same width
    rcases List.mem_cons.mp member with rfl | later
    · refine ⟨[], _, rfl, ?_, ?_⟩
      · cases before with
        | nil =>
          intro c head
          obtain rfl := Option.some.inj head
          decide
        | cons c cs =>
          simpa [EndsNumber] using isDecimalDigit_eq_false_of_isBlank (blank c (by simp))
      · cases part with
        | nil => exact .inl rfl
        | cons c cs => exact edge
    · have next : isWordEdge t.head? ∨
          isClear (lastChar previous (u ++ (before ++ ("PLA".toList ++ digits) ++ behind))) := by
        by_cases empty : behind = []
        · exact .inl (ended empty)
        · obtain ⟨c, inside, last⟩ := exists_lastChar_eq empty none
          refine .inr (isClear_of_isClearOfTokens ?_)
          rw [← List.append_assoc, lastChar_append, lastChar_of_ne_nil empty _ none, last]
          exact isClearOfTokens_of_isBlank (blank' c inside)
      obtain ⟨x, y, rfl, ends, left⟩ := ih next later
      refine ⟨u ++ (before ++ ("PLA".toList ++ digits) ++ behind) ++ x, y, by simp, ends, ?_⟩
      rwa [lastChar_append]

/-- A group that is an operand of a level is named by the text of the level. -/
theorem mem_groupNumbers_of_operand {u : Text} {pieces : List Piece}
    (h : Piece.ofText t = .ok pieces) (member : .operand u ∈ pieces)
    (token : groupToken? u = some digits) : ordinalOf digits ∈ t.groupNumbers := by
  obtain ⟨part, listed, rfl⟩ := Piece.exists_of_operand_mem h member
  obtain ⟨same, nonempty, all⟩ := SetAside.Backed.eq_of_groupToken? token
  obtain ⟨x, y, rfl, ends, left⟩ :=
    (Split.scans measured_keywordTokenAt none t).place_of_mem_plain (.inr rfl) listed
  obtain ⟨before, behind, whole, blank, blank'⟩ := Text.exists_append_strip part
  rw [same] at whole
  have clear : isClear (lastChar none (x ++ before)) := by
    rw [lastChar_append]
    by_cases empty : before = []
    · subst empty
      have inWord : isWordEdge (some 'i') = false := by decide
      rw [whole] at left
      exact left.resolve_left (by simp [TokenKind.start, inWord])
    · obtain ⟨c, inside, last⟩ := exists_lastChar_eq empty none
      rw [lastChar_of_ne_nil empty _ none, last]
      exact isClear_of_isClearOfTokens (isClearOfTokens_of_isBlank (blank c inside))
  have ended : EndsNumber (behind ++ y) := by
    cases behind with
    | nil => exact ends
    | cons c cs => simpa [EndsNumber] using isDecimalDigit_eq_false_of_isBlank (blank' c (by simp))
  have read : digitsAt? (digits ++ (behind ++ y)) = some digits := by
    rw [digitsAt?, takeWhile_append_of_head all ended]
    simpa using nonempty
  refine List.mem_map_of_mem (((runBound_numberedAt (by decide)).mem_marks_iff (fun _ => ?_)).mpr
    ⟨x ++ before, 'i' :: ':' :: (digits ++ (behind ++ y)), digits.length + 2, ?_, ?_⟩)
  · simp [numberedAt, Text.dropStart?]
  · rw [whole]
    simp [TokenKind.start]
  · rw [numberedAt, if_pos clear]
    simp [Text.dropStart?, read]

end Operands

namespace SetAside.Layered

variable {s : SetAside} (layered : s.Layered)

include layered

/-- A group that a text names has only names of groups below a smaller depth. -/
theorem below_of_tokenEntry {group : Text}
    (low : ∀ m ∈ t.groupNumbers, m < s.groups.length → m < depth)
    (named : ordinalOf digits ∈ t.groupNumbers) (entry : tokenEntry s.groups digits = .ok group) :
    0 < depth ∧ ∀ m ∈ group.groupNumbers, m < s.groups.length → m < depth - 1 := by
  have found := getElem?_of_tokenEntry_eq_ok entry
  have here := low _ named (List.getElem?_eq_some_iff.mp found).1
  refine ⟨by omega, fun m inside _ => ?_⟩
  have := layered _ group found m inside
  omega

/-- Putting groups back ends, if the depth is greater than the numbers of the groups that a text
names. -/
theorem terminates_expandWithin (positive : 0 < depth)
    (low : ∀ m ∈ t.groupNumbers, m < s.groups.length → m < depth - 1) :
    Terminates (s.expandWithin depth t) := by
  induction depth generalizing t with
  | zero => omega
  | succ depth ih =>
    refine FailsWith.bind (FailsWith.renderM fun digits member => ?_)
      fun _ _ => FailsWith.renderM fun digits _ => terminates_tokenEntry s.strings digits
    refine FailsWith.bind (terminates_tokenEntry s.groups digits) fun group entry => ?_
    obtain ⟨positive, low⟩ := layered.below_of_tokenEntry low (List.mem_map_of_mem member) entry
    exact FailsWith.bind (ih positive low) fun _ _ => FailsWith.ok _

/-- Putting everything back ends, whatever text it is. -/
theorem terminates_expand (t : Text) : Terminates (s.expand t) :=
  layered.terminates_expandWithin (Nat.succ_pos _) fun _ _ lt => lt

theorem faultIn_ne (t : Text) (fault : Fault) : s.faultIn t fault ≠ .endlessGroup := by
  have restored : Terminates (s.restore t) := by
    refine FailsWith.bind (layered.terminates_expand t) fun _ _ => FailsWith.bind ?_ fun _ _ =>
      FailsWith.ok _
    refine FailsWith.renderM fun digits _ => ?_
    exact FailsWith.bind (terminates_tokenEntry s.keywords digits) fun _ _ => FailsWith.ok _
  rw [faultIn]
  split
  · simp
  · next e failed => exact restored e failed

theorem terminates_parseOperand (t : Text) : Terminates (s.parseOperand t) := by
  refine FailsWith.bind (layered.terminates_expand t) fun leaf _ => ?_
  split
  · exact Terminates.of_failsExpectedly (failsExpectedly_parseLeaf s.subexpressions leaf)
  · exact FailsWith.error (layered.faultIn_ne leaf _)

/-- Reading a level ends, if the depth is greater than the numbers of the groups that its text
names. -/
theorem terminates_parseWithin (positive : 0 < depth)
    (low : ∀ m ∈ t.groupNumbers, m < s.groups.length → m < depth - 1) :
    Terminates (s.parseWithin depth t) := by
  induction depth generalizing t with
  | zero => omega
  | succ depth ih =>
    refine FailsWith.bind (terminates_pieces t) fun pieces read => ?_
    change Terminates (if _ then _ else _)
    split
    · exact FailsWith.bind (layered.terminates_expand t) fun _ _ => FailsWith.error (by simp)
    · refine (FailsWith.read (layered.faultIn_ne t) (fun text member => ?_)
        fun n _ => terminates_nthEntry s.keywords n).1 none []
      split
      · next digits token =>
        refine FailsWith.bind (terminates_tokenEntry s.groups digits) fun group entry => ?_
        obtain ⟨positive, low⟩ :=
          layered.below_of_tokenEntry low (mem_groupNumbers_of_operand read member token) entry
        exact ih positive low
      · exact layered.terminates_parseOperand text

/-- Reading a level ends, whatever its text is. -/
theorem terminates_parseLevel (t : Text) : Terminates (s.parseLevel t) :=
  layered.terminates_parseWithin (Nat.succ_pos _) fun _ _ lt => lt

end SetAside.Layered

end PolicyRules
