import PolicyRules.Proofs.BuiltTree
import PolicyRules.Proofs.LeafMeaning
import PolicyRules.Proofs.TokenBounds
import PolicyRules.Proofs.TreeNames

/-!
# How building a tree can fail

Building the tree of a text without tokens of its own fails only because of the text: it does not
have the form of a rule, or it has a number that is too large. No number of a token misses its list
and no group contains itself, since every text that is read while the tree is built is bounded
(`SetAside.Backed`): group `n` has only tokens of groups below `n` in it.

Main statement: `SetAside.failsExpectedly_build`.
-/

namespace PolicyRules

/-- Whether an error is about the rule: its form, a name, a reference or a number in it. -/
def Error.isAboutRule : Error → Bool
  | .malformed .. | .unknownReference .. | .numberRange .. | .unquoted .. | .cyclicCalls .. => true
  | _ => false

/-- The errors that compiling can end with: those about the rule, and that of a decimal number with
more digits than are read. -/
def Error.Expected (e : Error) : Prop :=
  e.isAboutRule ∨ ∃ count, maxDecimalDigits < count ∧ e = .number (.tooManyDigits count)

/-- Whether a result is a value or an error that satisfies `P`. -/
def FailsWith {α : Type} (P : Error → Prop) (x : Except Error α) : Prop := ∀ e, x = .error e → P e

namespace FailsWith

variable {α β : Type} {P : Error → Prop}

theorem ok (a : α) : FailsWith P (.ok a) := fun _ h => nomatch h

theorem error {e : Error} (h : P e) : FailsWith P (.error e : Except Error α) := by
  rintro _ ⟨⟩
  exact h

/-- The errors of two steps are those of the first, and those of the second on its result. -/
theorem bind {x : Except Error α} {f : α → Except Error β} (first : FailsWith P x)
    (next : ∀ a, x = .ok a → FailsWith P (f a)) : FailsWith P (x >>= f) := by
  cases result : x with
  | error e =>
    rintro _ ⟨⟩
    exact first e result
  | ok a => exact next a result

theorem mapM {f : α → Except Error β} {xs : List α} (h : ∀ a ∈ xs, FailsWith P (f a)) :
    FailsWith P (xs.mapM f) := by
  induction xs with
  | nil => exact ok _
  | cons a xs ih =>
    obtain ⟨here, later⟩ := List.forall_mem_cons.mp h
    rw [List.mapM_cons]
    exact here.bind fun _ _ => (ih later).bind fun _ _ => ok _

theorem renderM {write : α → Except Error Text} {s : Split α}
    (h : ∀ a ∈ s.marks, FailsWith P (write a)) : FailsWith P (s.renderM write) := by
  refine bind (mapM fun piece member => ?_) fun _ _ => ok _
  exact (h piece.1 (List.mem_map_of_mem member)).bind fun _ _ => ok _

/-- Reading the pieces of a level fails because of their order, or because of one of the operands or
keywords. -/
theorem read {keywords : List Keyword} {fail : Fault → Error} {operand : Text → Except Error Expr}
    (faults : ∀ fault, P (fail fault)) {pieces : List Piece}
    (operands : ∀ t, .operand t ∈ pieces → FailsWith P (operand t))
    (numbers : ∀ n, .keyword n ∈ pieces → FailsWith P (nthEntry keywords n)) :
    (∀ waiting nots, FailsWith P (readOperand keywords fail operand waiting nots pieces)) ∧
      ∀ left, FailsWith P (readConnective keywords fail operand left pieces) := by
  induction pieces with
  | nil =>
    refine ⟨fun waiting nots => ?_, fun left => ?_⟩
    · rw [readOperand]
      exact error (faults _)
    · rw [readConnective]
      exact ok left
  | cons piece rest ih =>
    obtain ⟨ihOperand, ihConnective⟩ :=
      ih (fun t member => operands t (List.mem_cons_of_mem _ member)) fun n member => numbers n
        (List.mem_cons_of_mem _ member)
    cases piece with
    | operand t =>
      refine ⟨fun waiting nots => ?_, fun left => ?_⟩
      · rw [readOperand]
        split
        · next e failed => exact error (operands t (by simp) e failed)
        · exact ihConnective _
      · rw [readConnective]
        exact error (faults _)
    | keyword n =>
      refine ⟨fun waiting nots => ?_, fun left => ?_⟩
      · rw [readOperand]
        split
        · next e failed => exact error (numbers n (by simp) e failed)
        · exact ihOperand _ _
        · exact error (faults _)
      · rw [readConnective]
        split
        · next e failed => exact error (numbers n (by simp) e failed)
        · exact error (faults _)
        · exact ihOperand _ _

end FailsWith

/-- Whether a result is a value or an expected error. -/
def FailsExpectedly {α : Type} (x : Except Error α) : Prop := ∀ e, x = .error e → e.Expected

namespace FailsExpectedly

variable {α β : Type}

theorem ok (a : α) : FailsExpectedly (.ok a) := FailsWith.ok a

theorem of_isAboutRule {e : Error} (h : e.isAboutRule) :
    FailsExpectedly (.error e : Except Error α) :=
  FailsWith.error (.inl h)

theorem bind {x : Except Error α} {f : α → Except Error β} (first : FailsExpectedly x)
    (next : ∀ a, x = .ok a → FailsExpectedly (f a)) : FailsExpectedly (x >>= f) :=
  FailsWith.bind first next

theorem map {x : Except Error α} (f : α → β) (h : FailsExpectedly x) :
    FailsExpectedly (x.map f) := by
  cases x with
  | error e =>
    rintro _ ⟨⟩
    exact h e rfl
  | ok a => exact ok _

theorem mapM {f : α → Except Error β} {xs : List α} (h : ∀ a ∈ xs, FailsExpectedly (f a)) :
    FailsExpectedly (xs.mapM f) :=
  FailsWith.mapM h

end FailsExpectedly

namespace Attempt

variable {σ α β : Type}

/-- Whether an attempt gives a value or fails with an expected error. -/
def FailsExpectedly (x : Attempt σ α) (s : σ) : Prop := ∀ e s', x s = .error e s' → e.Expected

theorem FailsExpectedly.bind {x : Attempt σ α} {f : α → Attempt σ β} {s : σ}
    (first : x.FailsExpectedly s) (next : ∀ a s', x s = .ok a s' → (f a).FailsExpectedly s') :
    (x >>= f).FailsExpectedly s := by
  intro e s' failed
  change EStateM.bind x f s = _ at failed
  unfold EStateM.bind at failed
  cases result : x s with
  | ok a t =>
    rw [result] at failed
    exact next a t result e s' failed
  | error e' t =>
    rw [result] at failed
    cases failed
    exact first _ _ result

theorem FailsExpectedly.ofExcept {r : Except Error α} (h : PolicyRules.FailsExpectedly r) (s : σ) :
    (Attempt.ofExcept r : Attempt σ α).FailsExpectedly s := by
  intro e s' failed
  cases r with
  | ok a => cases failed
  | error e' =>
    cases failed
    exact h _ rfl

theorem FailsExpectedly.of_ok {x : Attempt σ α} {s s' : σ} {a : α} (h : x s = .ok a s') :
    x.FailsExpectedly s := by
  intro e t failed
  rw [h] at failed
  cases failed

end Attempt

section Leaves

/-- What a phrase yields is an expression or an expected error. -/
theorem Phrase.Yields.expected {table : List (Text × Expr)} {p : Phrase} {r : Except Error Expr}
    (h : p.Yields table r) : FailsExpectedly r := by
  induction h with
  | numberRange short exceeds | mappedName h other ih | updateTarget h other ih
  | updateMappedName h other ih => exact .of_isAboutRule rfl
  | tooManyDigits long =>
    rintro _ ⟨⟩
    exact .inr ⟨_, long.2, rfl⟩
  | mappedKey h ih | binaryLeft h ih | updateValue h ih | updateMappedKey h ih => exact ih
  | binaryRight h h' ih ih' | updateMappedValue h isTracker h' ih ih' => exact ih'
  | _ => exact .ok _

/-- A leaf expression is read or fails as expected. -/
theorem failsExpectedly_parseLeaf (table : List (Text × Expr)) (t : Text) :
    FailsExpectedly (parseLeaf table t) := by
  unfold parseLeaf
  split
  · next phrase read =>
    obtain ⟨xs, -, -, sentence⟩ := sentence_of_ofText read
    exact (Phrase.yields_toExpr sentence.spelled).expected
  · exact .of_isAboutRule rfl

end Leaves

variable {n : Nat} {b : Bounds} {x part y : Text}

section Marks

variable {α : Type} {b : Bounds} {t digits : Text}

/-- A mark of a text is recognised at some place of it. -/
theorem exists_of_mem_split {recognise : Recogniser α} (measured : Measured recognise) {a : α}
    (h : a ∈ (t.split recognise).marks) :
    ∃ u w v, t = u ++ (w ++ v) ∧ recognise (lastChar none u) (w ++ v) = some (a, w.length) := by
  obtain ⟨u, v, width, rfl, found⟩ := Split.exists_of_mem_marks h
  obtain ⟨-, fits⟩ := measured _ _ _ _ found
  refine ⟨u, v.take width, v.drop width, by simp, ?_⟩
  rw [List.take_append_drop, List.length_take, Nat.min_eq_left fits]
  exact found

/-- A token of a group or string that is found in a bounded text has a number below its bound. -/
theorem Bounded.number_of_numberedAt (h : Bounded b t) (kind : TokenKind) {letter : Char}
    (start : kind.start = [letter, ':']) (member : digits ∈ (t.split (numberedAt letter)).marks) :
    ∃ n < b.of kind, tokenNumber digits = .ok n := by
  obtain ⟨u, w, v, rfl, found⟩ := exists_of_mem_split (measured_numberedAt letter) member
  obtain ⟨rfl, nonempty, all, -⟩ := numberedAt_append_eq_some found
  exact h kind digits nonempty all ⟨u, v, by simp [start]⟩

/-- A token of a keyword that is found in a bounded text has a number below its bound. -/
theorem Bounded.number_of_keywordTokenAt (h : Bounded b t)
    (member : digits ∈ (t.split keywordTokenAt).marks) :
    ∃ n < b.keywords, tokenNumber digits = .ok n := by
  obtain ⟨u, w, v, rfl, found⟩ := exists_of_mem_split measured_keywordTokenAt member
  obtain ⟨before, behind, rest, same, -, nonempty, all, -⟩ := keywordTokenAt_eq_some found
  refine h .keyword digits nonempty all ⟨u ++ before, behind ++ rest, ?_⟩
  rw [same]
  simp [TokenKind.start]

/-- A number below the length of a list names an entry. -/
theorem exists_entry (entries : List α) (lt : n < entries.length)
    (read : tokenNumber digits = .ok n) :
    ∃ entry, entries[n]? = some entry ∧ tokenEntry entries digits = .ok entry := by
  refine ⟨entries[n], List.getElem?_eq_getElem lt, ?_⟩
  rw [tokenEntry, read]
  exact nthEntry_eq_ok_iff.mpr (List.getElem?_eq_getElem lt)

/-- A bounded text between two characters that no token has in it. -/
theorem fits_between {first last : Char} (h : Bounded b t)
    (front : beginsToken first = false ∧ continuesToken first = false)
    (back : beginsToken last = false ∧ continuesToken last = false) (v : Text) :
    Fits b (first :: t ++ [last]) v := by
  have ended : Bounded b (t ++ [last]) :=
    h.append (.of_forall (by simpa using back.1)) (.inl (by simpa using back.2))
  have opened : Bounded b ([first] ++ (t ++ [last])) :=
    .append_of_forall (List.forall_mem_singleton.mpr front.1) ended
  exact ⟨opened, ⟨first, _, rfl, front.2⟩, last, lastChar_append _ _ _, back.1, .inl back.2⟩

/-- The pieces of a level whose keywords have numbers below a bound. -/
theorem Piece.exists_ofText {t : Text} {bound : Nat}
    (marks : ∀ digits ∈ (t.split keywordTokenAt).marks, ∃ n < bound, tokenNumber digits = .ok n) :
    ∃ pieces, Piece.ofText t = .ok pieces ∧ ∀ n, .keyword n ∈ pieces → n < bound := by
  have numbered : ∀ piece ∈ (t.split keywordTokenAt).tail, ∃ n < bound,
      tokenNumber piece.1 = .ok n :=
    fun piece member => marks piece.1 (List.mem_map_of_mem member)
  have plain : ∀ n part, .keyword n ∉ Piece.ofPlain part := by
    intro n part listed
    unfold Piece.ofPlain at listed
    split at listed <;> simp at listed
  have each : ∀ piece ∈ (t.split keywordTokenAt).tail, ∃ pieces : List Piece,
      (do return Piece.keyword (← tokenNumber piece.1) :: Piece.ofPlain piece.2) = .ok pieces := by
    intro piece member
    obtain ⟨n, -, read⟩ := numbered piece member
    exact ⟨_, bind_eq_ok_iff.mpr ⟨n, read, rfl⟩⟩
  obtain ⟨rest, mapped⟩ := exists_mapM_eq_ok_iff.mpr each
  refine ⟨_, bind_eq_ok_iff.mpr ⟨rest, mapped, rfl⟩, fun n listed => ?_⟩
  rcases List.mem_append.mp listed with first | later
  · exact absurd first (plain n _)
  · obtain ⟨pieces, member, inside⟩ := List.mem_flatten.mp later
    obtain ⟨piece, inTail, made⟩ := (mem_of_mapM_eq_ok mapped).mp member
    obtain ⟨m, lt, read⟩ := numbered piece inTail
    obtain ⟨_, read', same⟩ := bind_eq_ok_iff.mp made
    obtain rfl := Except.ok.inj (read.symm.trans read')
    obtain rfl := pure_eq_ok_iff.mp same
    rcases List.mem_cons.mp inside with same | operand
    · obtain rfl := Piece.keyword.inj same
      exact lt
    · exact absurd operand (plain n _)

end Marks

namespace SetAside

/-- The lengths of the lists in which tokens are looked up. -/
def bounds (s : SetAside) : Bounds := ⟨s.groups.length, s.strings.length, s.keywords.length⟩

/-- Whether what has been set aside can be put back: a group has tokens only of groups before it,
and a string none. -/
structure Backed (s : SetAside) : Prop where
  groups : ∀ n group, s.groups[n]? = some group → Bounded { s.bounds with groups := n } group
  strings : ∀ text ∈ s.strings, Bounded ⟨0, 0, 0⟩ text ∧ ∃ q : Quotation, q.Proper ∧ q.text = text

namespace Backed

variable {s : SetAside} {t : Text} {n depth : Nat}

/-- A string that is set aside can be put anywhere. -/
theorem fits_string (backed : s.Backed) {text : Text} (member : text ∈ s.strings) (b : Bounds)
    (v : Text) : Fits b text v := by
  obtain ⟨bounded, ⟨mark, body⟩, ⟨isMark, -⟩, rfl⟩ := backed.strings text member
  have apart : beginsToken mark = false ∧ continuesToken mark = false := by
    rcases (by simpa [isQuoteMark] using isMark : mark = '"' ∨ mark = '\x27') with rfl | rfl <;>
      decide
  have inside : Bounded b body :=
    (bounded.of_isInfix ⟨[mark], [mark], by simp [Quotation.text]⟩).mono fun kind => by
      cases kind <;> exact Nat.zero_le _
  exact fits_between inside apart apart v

/-- A text that has only tokens of the first `n` groups can be expanded. -/
theorem exists_expandWithin (backed : s.Backed) (bounded : Bounded { s.bounds with groups := n } t)
    (deep : n < depth) (le : n ≤ s.groups.length) :
    ∃ u, s.expandWithin depth t = .ok u ∧ Bounded { s.bounds with groups := n } u := by
  induction depth generalizing n t with
  | zero => omega
  | succ depth ih =>
    -- Each group of the text has only tokens of groups before it.
    have groups : ∀ digits ∈ (t.split groupTokenAt).marks, ∃ w,
        (do
          let group ← tokenEntry s.groups digits
          return '(' :: (← s.expandWithin depth group) ++ [')']) = .ok w ∧
        ∀ v, Fits { s.bounds with groups := n } w v := by
      intro digits member
      obtain ⟨m, lt, read⟩ := bounded.number_of_numberedAt .group rfl member
      have lt : m < n := lt
      obtain ⟨group, found, entry⟩ := exists_entry s.groups (lt.trans_le le) read
      obtain ⟨u, expanded, inside⟩ := ih (backed.groups m group found) (by omega) (by omega)
      refine ⟨'(' :: u ++ [')'],
        bind_eq_ok_iff.mpr ⟨group, entry, bind_eq_ok_iff.mpr ⟨u, expanded, rfl⟩⟩, ?_⟩
      exact fits_between (inside.mono (Bounds.le_groups _ lt.le)) (by decide) (by decide)
    have plain : ∀ piece ∈ (t.split groupTokenAt).plain,
        Bounded { s.bounds with groups := n } piece :=
      fun piece member => bounded.of_isInfix
        ((Split.scans (measured_numberedAt 'i') none t).isInfix member)
    obtain ⟨opened, openedEq, openedBounded⟩ := exists_renderM plain groups
    have strings : ∀ digits ∈ (opened.split stringTokenAt).marks, ∃ w,
        tokenEntry s.strings digits = .ok w ∧ ∀ v, Fits { s.bounds with groups := n } w v := by
      intro digits member
      obtain ⟨m, lt, read⟩ := openedBounded.number_of_numberedAt .string rfl member
      obtain ⟨text, found, entry⟩ := exists_entry s.strings lt read
      exact ⟨text, entry, backed.fits_string (List.mem_of_getElem? found) _⟩
    have plain' : ∀ piece ∈ (opened.split stringTokenAt).plain, Bounded
        { s.bounds with groups := n } piece :=
      fun piece member => openedBounded.of_isInfix
        ((Split.scans (measured_numberedAt 'q') none opened).isInfix member)
    obtain ⟨u, expanded, inside⟩ := exists_renderM plain' strings
    exact ⟨u, bind_eq_ok_iff.mpr ⟨opened, openedEq, expanded⟩, inside⟩

/-- A text whose tokens are bounded can be expanded, and stays bounded. -/
theorem exists_expand (backed : s.Backed) (bounded : Bounded s.bounds t) :
    ∃ u, s.expand t = .ok u ∧ Bounded s.bounds u :=
  backed.exists_expandWithin (n := s.groups.length) bounded (by simp [SetAside.depth]) le_rfl

/-- A fault in a bounded text can be shown with everything put back. -/
theorem isAboutRule_faultIn (backed : s.Backed) (bounded : Bounded s.bounds t) (fault : Fault) :
    (s.faultIn t fault).isAboutRule := by
  obtain ⟨u, expanded, inside⟩ := backed.exists_expand bounded
  have keywords : ∀ digits ∈ (u.split keywordTokenAt).marks, ∃ w,
      (do return ' ' :: (← tokenEntry s.keywords digits).text ++ [' ']) = .ok w ∧
      ∀ v, Fits s.bounds w v := by
    intro digits member
    obtain ⟨m, lt, read⟩ := inside.number_of_keywordTokenAt member
    obtain ⟨keyword, found, entry⟩ := exists_entry s.keywords lt read
    refine ⟨' ' :: keyword.text ++ [' '], bind_eq_ok_iff.mpr ⟨keyword, entry, rfl⟩, ?_⟩
    refine fits_between (.of_forall fun c letter => ?_) (by decide) (by decide)
    have letters : (keyword.text.all fun c => ! beginsToken c) := by cases keyword <;> decide
    simpa using List.all_eq_true.mp letters c letter
  have plain : ∀ piece ∈ (u.split keywordTokenAt).plain, Bounded s.bounds piece :=
    fun piece member => inside.of_isInfix
      ((Split.scans measured_keywordTokenAt none u).isInfix member)
  obtain ⟨restored, restoredEq, -⟩ := exists_renderM plain keywords
  have whole : s.restore t = .ok (Text.strip restored) :=
    bind_eq_ok_iff.mpr ⟨u, expanded, bind_eq_ok_iff.mpr ⟨restored, restoredEq, rfl⟩⟩
  rw [faultIn, whole]
  rfl

/-- An operand with bounded tokens is read or fails as expected. -/
theorem failsExpectedly_parseOperand (backed : s.Backed) (bounded : Bounded s.bounds t) :
    FailsExpectedly (s.parseOperand t) := by
  obtain ⟨leaf, expanded, inside⟩ := backed.exists_expand bounded
  rw [parseOperand, expanded]
  change FailsExpectedly (if _ then _ else _)
  split
  · exact failsExpectedly_parseLeaf _ _
  · exact .of_isAboutRule (backed.isAboutRule_faultIn inside _)

/-- The pieces of a bounded level, with the numbers of its keywords. -/
theorem exists_pieces (bounded : Bounded b t) :
    ∃ pieces, Piece.ofText t = .ok pieces ∧ ∀ n, .keyword n ∈ pieces → n < b.keywords :=
  Piece.exists_ofText fun _ => bounded.number_of_keywordTokenAt

theorem eq_of_groupToken? {digits : Text} (h : groupToken? t = some digits) :
    t = TokenKind.group.start ++ digits ∧ digits ≠ [] ∧ ∀ d ∈ digits, isDecimalDigit d := by
  obtain ⟨rest, start, h⟩ := Option.bind_eq_some_iff.mp h
  rw [Text.dropStart?_eq_some_iff] at start
  obtain ⟨digits_ok, same⟩ := Option.ite_none_right_eq_some.mp h
  obtain rfl := Option.some.inj same
  simp only [Bool.and_eq_true, Bool.not_eq_true', List.isEmpty_eq_false_iff, List.all_eq_true]
    at digits_ok
  exact ⟨start, digits_ok⟩

/-- A level with bounded tokens is read or fails as expected, at every depth. -/
theorem failsExpectedly_parseWithin (backed : s.Backed)
    (bounded : Bounded { s.bounds with groups := n } t) (deep : n < depth)
    (le : n ≤ s.groups.length) : FailsExpectedly (s.parseWithin depth t) := by
  induction depth generalizing n t with
  | zero => omega
  | succ depth ih =>
    have whole : Bounded s.bounds t := bounded.mono (Bounds.le_groups _ le)
    obtain ⟨pieces, read, numbers⟩ := exists_pieces whole
    rw [parseWithin, read]
    change FailsExpectedly (if _ then _ else _)
    split
    · obtain ⟨u, expanded, -⟩ := backed.exists_expand whole
      rw [expanded]
      exact .of_isAboutRule rfl
    · have numbered : ∀ k, .keyword k ∈ pieces → FailsExpectedly (nthEntry s.keywords k) := by
        intro k member
        rw [nthEntry_eq_ok_iff.mpr (List.getElem?_eq_getElem (numbers k member))]
        exact .ok _
      refine (FailsWith.read (fun fault => .inl (backed.isAboutRule_faultIn whole fault))
        (fun text member => ?_) numbered).1 none []
      obtain ⟨part, isPart, rfl⟩ := Piece.exists_of_operand_mem read member
      have inside : Text.strip part <:+: t :=
        (Text.isInfix_strip part).trans
          ((Split.scans measured_keywordTokenAt none t).isInfix isPart)
      split
      · next digits token =>
        obtain ⟨same, nonempty, all⟩ := eq_of_groupToken? token
        obtain ⟨m, lt, read⟩ := bounded .group digits nonempty all (same ▸ inside)
        have lt : m < n := lt
        obtain ⟨group, found, entry⟩ := exists_entry s.groups (lt.trans_le le) read
        rw [entry]
        exact ih (backed.groups m group found) (by omega) (by omega)
      · exact backed.failsExpectedly_parseOperand (whole.of_isInfix inside)

/-- Taking a group out of a text leaves the text bounded by the number of the group. -/
theorem bounded_groupToken {m : Nat} (room : m + 1 ≤ 10 ^ maxDecimalDigits)
    (h : Bounded { b with groups := m } (x ++ '(' :: (part ++ ')' :: y))) :
    Bounded { b with groups := m } part ∧ Bounded { b with groups := m + 1 }
      (x ++ (groupToken m ++ y)) := by
  have le : Bounds.Le { b with groups := m } { b with groups := m + 1 } :=
    Bounds.le_groups _ (Nat.le_succ m)
  refine ⟨h.of_isInfix ⟨x ++ ['('], ')' :: y, by simp⟩, ?_⟩
  have before : Bounded { b with groups := m + 1 } x := (h.of_isInfix ⟨[], _, rfl⟩).mono le
  have behind : Bounded { b with groups := m + 1 } y :=
    (h.of_isInfix ⟨x ++ '(' :: (part ++ [')']), [], by simp⟩).mono le
  have token : Bounded { b with groups := m + 1 } (TokenKind.group.start ++ Text.ofNat m) :=
    bounded_token .group (Nat.lt_succ_self m) room
  have fits : Fits { b with groups := m + 1 } (groupToken m) y :=
    fits_between token (by decide) (by decide) y
  exact fits.append before behind

/-- What holds of a text while groups are taken out of it, `m` of them so far: its tokens are those
of the groups before, and there is room for the numbers of those to come. -/
def Collapses (s : SetAside) (m : Nat) (t : Text) : Prop :=
  s.groups.length + m + t.count '(' ≤ 10 ^ maxDecimalDigits ∧
    Bounded { s.bounds with groups := s.groups.length + m } t

/-- Collapsing one more group keeps the tokens bounded. -/
theorem Collapses.step {m : Nat} (h : Collapses s m (x ++ '(' :: (part ++ ')' :: y))) :
    Collapses s m part ∧ Collapses s (m + 1) (x ++ (groupToken (s.groups.length + m) ++ y)) := by
  obtain ⟨room, bounded⟩ := h
  have none : (groupToken (s.groups.length + m)).count '(' = 0 := by
    refine List.count_eq_zero_of_not_mem fun member => ?_
    have digit : '(' ∈ Text.ofNat (s.groups.length + m) := by simpa [groupToken] using member
    exact absurd (isDigit_of_mem_ofNat digit) (by decide)
  simp only [List.count_append, List.count_cons_self,
    List.count_cons_of_ne (show ')' ≠ '(' by decide)] at room
  obtain ⟨inner, outer⟩ := bounded_groupToken (by omega) bounded
  refine ⟨⟨by omega, inner⟩, ?_, outer⟩
  simp only [List.count_append, none]
  omega

/-- Collapsing the groups of a bounded text leaves a bounded text, and everything backed. -/
theorem collapseGroups (backed : s.Backed) (bounded : Bounded { s.bounds with groups := 0 } t)
    (room : s.groups.length + t.count '(' ≤ 10 ^ maxDecimalDigits) :
    (s.collapseGroups t).2.Backed ∧ Bounded (s.collapseGroups t).2.bounds (s.collapseGroups t).1 ∧
      (s.collapseGroups t).2.groups.length ≤ s.groups.length + t.count '(' := by
  have start : Bounded { s.bounds with groups := s.groups.length } t :=
    bounded.mono (Bounds.le_groups { s.bounds with groups := 0 } (Nat.zero_le _))
  unfold SetAside.collapseGroups
  split
  · next rest groups taken =>
    have length : groups.length = t.count '(' := length_of_unnest taken
    have whole : Collapses s 0 t := by
      refine ⟨?_, start⟩
      rwa [Nat.add_zero]
    obtain ⟨⟨-, last⟩, parts⟩ :=
      unnest_numbered (fun m x part y => Collapses.step (m := m)) taken whole
    refine ⟨⟨fun n group found => ?_, backed.strings⟩, by simpa [bounds] using last,
      by simp [length]⟩
    rw [List.getElem?_append] at found
    split at found
    · exact backed.groups n group found
    · next outside =>
      have taken := (parts _ group found).2
      rwa [Nat.add_sub_cancel' (Nat.not_lt.mp outside)] at taken
  · exact ⟨backed, start, Nat.le_add_right _ _⟩

theorem buildLevel (backed : s.Backed) (bounded : Bounded { s.bounds with groups := 0 } t)
    (room : s.groups.length + t.count '(' ≤ 10 ^ maxDecimalDigits) :
    (buildLevel t).FailsExpectedly s := by
  obtain ⟨after, inside, -⟩ := backed.collapseGroups bounded room
  intro e s' failed
  have failed :
      (Attempt.ofExcept ((s.collapseGroups t).2.parseLevel (s.collapseGroups t).1) : Attempt
        SetAside Expr) (s.collapseGroups t).2 = .error e s' := failed
  exact Attempt.FailsExpectedly.ofExcept
    (after.failsExpectedly_parseWithin inside (by simp [depth]) le_rfl) _ e s' failed

end Backed

/-- A state of tree building in which everything can be put back, with the bounds of strings and
keywords, and with room for the numbers of so many more groups. -/
structure Ready (b : Bounds) (more : Nat) (s : SetAside) : Prop where
  backed : s.Backed
  bounds_eq : { s.bounds with groups := 0 } = b
  room : s.groups.length + more ≤ 10 ^ maxDecimalDigits

namespace Ready

variable {b : Bounds} {more : Nat} {s s' : SetAside} {t : Text}

/-- A level is built or fails as expected. -/
theorem failsExpectedly_buildLevel (h : Ready b (t.count '(' + more) s) (bounded : Bounded b t) :
    (SetAside.buildLevel t).FailsExpectedly s := by
  obtain ⟨backed, rfl, room⟩ := h
  exact backed.buildLevel bounded (by omega)

theorem buildLevel (h : Ready b (t.count '(' + more) s) (bounded : Bounded b t) {e : Expr}
    (built : SetAside.buildLevel t s = .ok e s') : Ready b more s' := by
  obtain ⟨backed, rfl, room⟩ := h
  obtain ⟨after, -, fewer⟩ := backed.collapseGroups bounded (by omega)
  obtain ⟨rfl, -⟩ := buildLevel_eq_ok_iff.mp built
  exact ⟨after, by simp [SetAside.bounds], by omega⟩

/-- Building subexpressions one by one fails as expected, and keeps the bounds. -/
theorem forM {parts : List (Text × Nat)} (h : Ready b ((parts.flatMap (·.1)).count '(' + more) s)
    (bounded : ∀ part ∈ parts, Bounded b part.1) :
    (parts.forM fun part : Text × Nat => buildSubexpression part.1 part.2).FailsExpectedly s ∧
      ∀ s', parts.forM (fun part : Text × Nat => buildSubexpression part.1 part.2) s = .ok () s' →
      Ready b more s' := by
  induction parts generalizing s with
  | nil =>
    refine ⟨.of_ok rfl, fun s' done => ?_⟩
    obtain ⟨-, rfl⟩ := Attempt.pure_eq_ok_iff.mp done
    simpa using h
  | cons part parts ih =>
    obtain ⟨first, later⟩ := List.forall_mem_cons.mp bounded
    rw [List.flatMap_cons, List.count_append, Nat.add_assoc] at h
    -- The subexpression that is kept does not matter for what can be put back.
    have step : ∀ u, buildSubexpression part.1 part.2 s = .ok () u →
        Ready b ((parts.flatMap (·.1)).count '(' + more) u := by
      intro u built
      obtain ⟨e, v, level, rfl⟩ := buildSubexpression_eq_ok_iff.mp built
      obtain ⟨backed, bounds_eq, room⟩ := h.buildLevel first level
      exact ⟨⟨backed.groups, backed.strings⟩, bounds_eq, room⟩
    have here : (buildSubexpression part.1 part.2).FailsExpectedly s :=
      (h.failsExpectedly_buildLevel first).bind fun _ _ _ => .of_ok rfl
    refine ⟨here.bind fun _ u built => (ih (step u built) later).1, fun s' done => ?_⟩
    obtain ⟨_, u, built, rest⟩ := Attempt.bind_eq_ok_iff.mp done
    exact (ih (step u built) later).2 s' rest

end Ready

end SetAside

section Counting

variable {α : Type} {s : Split α} {write : α → Text} {p : Char → Bool}

/-- If each mark of a text has a certain character, there are no more marks than such characters. -/
theorem length_marks_le_countP (each : ∀ a ∈ s.marks, 0 < (write a).countP p) :
    s.marks.length ≤ (s.render write).countP p := by
  obtain ⟨head, tail⟩ := s
  induction tail generalizing head with
  | nil => exact Nat.zero_le _
  | cons piece tail ih =>
    obtain ⟨first, later⟩ := List.forall_mem_cons.mp each
    have rest := ih [] later
    have first : 0 < (write piece.1).countP p := first
    simp only [Split.marks, Split.render, List.map_cons, List.length_cons, List.length_map,
      List.flatMap_cons, List.countP_append, List.nil_append] at rest ⊢
    omega

/-- Tokens in the place of marks do not add characters that they do not have. -/
theorem countP_renderNumbered_le {token : Nat → Text} (none : ∀ n, (token n).countP p = 0)
    (write : α → Text) : (s.renderNumbered token).countP p ≤ (s.render write).countP p := by
  obtain ⟨head, tail⟩ := s
  have pieces : ∀ n, ((tail.zipIdx n).flatMap fun x => token x.2 ++ x.1.2).countP p ≤
      (tail.flatMap fun piece => write piece.1 ++ piece.2).countP p := by
    induction tail with
    | nil => exact fun n => Nat.le_refl _
    | cons piece tail ih =>
      intro n
      have rest := ih (n + 1)
      simp only [List.zipIdx_cons, List.flatMap_cons, List.countP_append, none]
      omega
  have rest := pieces 0
  simp only [Split.renderNumbered, Split.render, List.countP_append]
  omega

theorem countP_numbered {start : Text} (letters : start.countP p = 0)
    (digits : ∀ c, c.isDigit → p c = false) (n : Nat) : (start ++ Text.ofNat n).countP p = 0 := by
  rw [List.countP_append, letters, Nat.zero_add, List.countP_eq_zero]
  intro c member
  simp [digits c (isDigit_of_mem_ofNat member)]

end Counting

/-- Whether a text has no tokens of its own, and no quoted segment is followed by a digit, with
which the number of its token would go on. -/
structure Text.FreeOfTokens (t : Text) : Prop where
  unnumbered : ∀ kind : TokenKind, hasNumbered kind.start t = false
  segments : ∀ piece ∈ t.segments.tail, EndsNumber piece.2

/-- A text without tokens is bounded by anything. -/
theorem Text.FreeOfTokens.bounded {t : Text} (free : t.FreeOfTokens) (b : Bounds) :
    Bounded b t := by
  intro kind digits nonempty all found
  obtain ⟨d, ds, rfl⟩ := List.exists_cons_of_ne_nil nonempty
  refine absurd (.trans ?_ found)
    (not_infix_of_hasNumbered (free.unnumbered kind) (all d (by simp)))
  exact ⟨[], ds, by simp⟩

namespace SetAside

variable {t : Text}

/-- A text has no more quoted segments than characters. -/
theorem length_segments_le (t : Text) : t.segments.marks.length ≤ t.length := by
  have fewer : t.segments.marks.length ≤ (t.segments.render Quotation.text).countP fun _ => true :=
    length_marks_le_countP fun q _ => by simp [Quotation.text]
  rwa [render_segments, List.countP_true] at fewer

/-- The token of a string fits before a text that does not begin with a digit. -/
theorem fits_stringToken {v : Text} (lt : n < b.strings)
    (room : b.strings ≤ 10 ^ maxDecimalDigits) (ends : EndsNumber v) :
    Fits b (stringToken n) v := by
  obtain ⟨c, member, last⟩ := exists_lastChar_eq (ofNat_ne_nil n) (some ':')
  have digit := isDecimalDigit_of_mem_ofNat member
  exact ⟨bounded_token .string lt room, ⟨'q', _, rfl, by decide⟩, c, last,
    beginsToken_eq_false_of_isDecimalDigit digit, .inr ⟨digit, ends⟩⟩

/-- Masking strings brings in tokens of strings only, one for each. -/
theorem bounded_maskStrings (free : t.FreeOfTokens) (short : t.length ≤ 10 ^ maxDecimalDigits) :
    Bounded ⟨0, t.segments.marks.length, 0⟩ (maskStrings {} t).1 := by
  have plain : ∀ piece ∈ t.segments.plain, Bounded ⟨0, t.segments.marks.length, 0⟩ piece :=
    fun piece member =>
      (free.bounded _).of_isInfix ((Split.scans measured_quotationAt none t).isInfix member)
  have fits : ∀ n piece, t.segments.tail[n]? = some piece →
      Fits ⟨0, t.segments.marks.length, 0⟩ (stringToken (0 + n)) piece.2 := by
    intro n piece found
    have lt : n < t.segments.marks.length := by
      rw [Split.marks, List.length_map]
      exact (List.getElem?_eq_some_iff.mp found).1
    rw [Nat.zero_add]
    exact fits_stringToken lt (Nat.le_trans (length_segments_le t) short)
      (free.segments piece (List.mem_of_getElem? found))
  exact bounded_renderNumbered plain fits

theorem render_split_keywordAt (t : Text) : (t.split keywordAt).render Keyword.text = t := by
  refine Split.render_split keywordAt Keyword.text (fun previous u keyword width found => ?_) t
  obtain ⟨-, rest, rfl, -, rfl⟩ := keywordAt_eq_some found
  exact ⟨(measured_keywordAt _ _ _ _ found).1, by simp⟩

/-- Masking strings adds no character that tokens do not have. -/
theorem countP_maskStrings_le {p : Char → Bool} (letters : "q:".toList.countP p = 0)
    (digits : ∀ c, c.isDigit → p c = false) (s : SetAside) (t : Text) :
    (s.maskStrings t).1.countP p ≤ t.countP p := by
  have fewer := countP_renderNumbered_le (s := t.segments)
    (fun n => countP_numbered letters digits (s.strings.length + n)) Quotation.text
  rwa [render_segments] at fewer

theorem countP_markKeywords_le {p : Char → Bool} (letters : " PLA".toList.countP p = 0)
    (digits : ∀ c, c.isDigit → p c = false) (s : SetAside) (t : Text) :
    (s.markKeywords t).1.countP p ≤ t.countP p := by
  have token : ∀ n, (keywordToken n).countP p = 0 := by
    intro n
    have blank : [' '].countP p = 0 := List.countP_eq_zero.mpr fun c member =>
      List.countP_eq_zero.mp letters c (by simp_all)
    rw [keywordToken, List.countP_append, countP_numbered letters digits, blank]
  have fewer := countP_renderNumbered_le (s := t.split keywordAt)
    (fun n => token (s.keywords.length + n)) Keyword.text
  rwa [render_split_keywordAt] at fewer

/-- The last letters of the keywords. -/
def isKeywordEnd (c : Char) : Bool := "DRT".toList.contains c

/-- A text has no more keywords than letters that end one. -/
theorem length_keywords_le (t : Text) :
    (t.split keywordAt).marks.length ≤ t.countP isKeywordEnd := by
  have fewer : (t.split keywordAt).marks.length ≤
      ((t.split keywordAt).render Keyword.text).countP isKeywordEnd :=
    length_marks_le_countP fun keyword _ => by cases keyword <;> decide
  rwa [render_split_keywordAt] at fewer

theorem isKeywordEnd_of_isDigit {c : Char} (h : c.isDigit) : isKeywordEnd c = false := by
  cases ends : isKeywordEnd c with
  | false => rfl
  | true =>
    have letters : ("DRT".toList.all fun d => ! d.isDigit) := by decide
    have other := List.all_eq_true.mp letters c (by simpa [isKeywordEnd] using ends)
    rw [h] at other
    cases other

theorem beq_leftParen_of_isDigit {c : Char} (h : c.isDigit) : (c == '(') = false := by
  rw [beq_eq_false_iff_ne]
  rintro rfl
  exact absurd h (by decide)

/-- The token of a keyword fits before every text. -/
theorem fits_keywordToken (lt : n < b.keywords) (room : b.keywords ≤ 10 ^ maxDecimalDigits)
    (v : Text) : Fits b (keywordToken n) v :=
  fits_between (bounded_token .keyword lt room) (by decide) (by decide) v

/-- What is set aside when the strings of a text are masked and its keywords marked can be put
back. -/
theorem ready_of_marked {masked marked : Text} {s₁ s₂ : SetAside} (free : t.FreeOfTokens)
    (short : t.length ≤ 10 ^ maxDecimalDigits) (hmask : maskStrings {} t = (masked, s₁))
    (hmark : s₁.markKeywords masked = (marked, s₂)) :
    Bounded { s₂.bounds with groups := 0 } marked ∧ Ready { s₂.bounds with groups := 0 }
      (marked.count '(') s₂ := by
  have inside := bounded_maskStrings free short
  have ends := countP_maskStrings_le (by decide) (fun _ => isKeywordEnd_of_isDigit) {} t
  have parens : (maskStrings {} t).1.count '(' ≤ t.count '(' :=
    countP_maskStrings_le (by decide) (fun _ => beq_leftParen_of_isDigit) {} t
  have parens' : (s₁.markKeywords masked).1.count '(' ≤ masked.count '(' :=
    countP_markKeywords_le (by decide) (fun _ => beq_leftParen_of_isDigit) s₁ masked
  rw [hmask] at inside ends parens
  rw [hmark] at parens'
  have keywords : (masked.split keywordAt).marks.length ≤ 10 ^ maxDecimalDigits :=
    (((length_keywords_le masked).trans ends).trans List.countP_le_length).trans short
  have room : marked.count '(' ≤ 10 ^ maxDecimalDigits :=
    ((parens'.trans parens).trans List.count_le_length).trans short
  obtain ⟨rfl, rfl⟩ := Prod.mk.inj hmask
  obtain ⟨rfl, rfl⟩ := Prod.mk.inj hmark
  refine ⟨bounded_renderNumbered (fun piece member => ?_) fun n piece found => ?_, ⟨by simp, ?_⟩,
    rfl, by simpa using room⟩
  · refine (inside.of_isInfix ((Split.scans measured_keywordAt none _).isInfix member)).mono
      fun kind => ?_
    cases kind <;> simp [Bounds.of, SetAside.bounds]
  · have lt := (List.getElem?_eq_some_iff.mp found).1
    exact fits_keywordToken (by simpa [SetAside.bounds, Split.marks] using lt)
      (by simpa [SetAside.bounds] using keywords) _
  · intro text member
    obtain ⟨q, listed, rfl⟩ := List.mem_map.mp (by simpa using member)
    have proper := proper_of_mem_segments listed
    refine ⟨(free.bounded _).of_isInfix ?_, q, proper, rfl⟩
    exact isInfix_of_mem_segments listed

/-- Taking a subexpression out of a text leaves the text bounded. -/
theorem bounded_bracketed (m : Nat) (h : Bounded b (x ++ '[' :: (part ++ ']' :: y))) :
    Bounded b part ∧ Bounded b (x ++ (subexpressionToken m ++ y)) := by
  have before : Bounded b x := h.of_isInfix ⟨[], _, rfl⟩
  have behind : Bounded b y := h.of_isInfix ⟨x ++ '[' :: (part ++ [']']), [], by simp⟩
  refine ⟨h.of_isInfix ⟨x ++ ['['], ']' :: y, by simp⟩, ?_⟩
  refine before.append (bounded_subexpressionToken behind m) (.inl fun c first => ?_)
  obtain rfl : 'P' = c := Option.some.inj first
  decide

/-- The subexpressions that are taken out of a bounded text, and the rest of it, are bounded and
have no more parentheses than the text. -/
theorem bounded_of_extractSubexpressions {start : Nat} {marked rest : Text} {parts : List Text}
    (bounded : Bounded b marked) (h : extractSubexpressions start marked = .ok (rest, parts)) :
    Bounded b rest ∧ (∀ part ∈ parts, Bounded b part) ∧
      parts.flatten.count '(' + rest.count '(' ≤ marked.count '(' := by
  unfold extractSubexpressions at h
  split at h <;> cases h
  next raw taken =>
  obtain ⟨whole, each⟩ :=
    unnest_numbered (fun m x part y => bounded_bracketed (start + m)) taken bounded
  refine ⟨whole, fun part member => ?_, ?_⟩
  · obtain ⟨p, listed, rfl⟩ := List.mem_map.mp member
    obtain ⟨n, found⟩ := List.mem_iff_getElem?.mp listed
    exact (each n p found).strip
  · have total : rest.count '(' + raw.flatten.count '(' ≤ marked.count '(' := by
      refine count_of_unnest (by decide) (by decide) (fun n member => ?_) taken
      have letters : '(' ∉ "PLH".toList := by decide
      have digit : '(' ∈ Text.ofNat (start + n) := (List.mem_append.mp member).resolve_left letters
      exact absurd (isDigit_of_mem_ofNat digit) (by decide)
    have fewer : (raw.map Text.strip).flatten.count '(' ≤ raw.flatten.count '(' := by
      clear taken whole each total
      induction raw with
      | nil => exact Nat.le_refl _
      | cons part raw ih =>
        have first := (Text.isInfix_strip part).sublist.count_le '('
        simp only [List.map_cons, List.flatten_cons, List.count_append]
        omega
    omega

/-- Building the tree of a text without tokens of its own fails only because of the text. -/
theorem failsExpectedly_build (free : t.FreeOfTokens) (short : t.length ≤ 10 ^ maxDecimalDigits) :
    (build t).FailsExpectedly {} := by
  unfold build
  refine .bind (.of_ok rfl) fun masked s₁ hmask => ?_
  have hmask := Attempt.modifyGet_eq_ok_iff.mp hmask
  refine .bind (.ofExcept (fun e failed => ?_) _) fun _ _ checked => ?_
  · unfold checkBalanced at failed
    split at failed
    · next imbalance _ =>
      cases failed
      cases imbalance <;> exact .inl rfl
    · cases failed
  obtain ⟨-, rfl⟩ := Attempt.ofExcept_eq_ok_iff.mp checked
  refine .bind (.of_ok rfl) fun marked s₂ hmark => ?_
  have hmark := Attempt.modifyGet_eq_ok_iff.mp hmark
  refine .bind (.of_ok rfl) fun _ _ got => ?_
  obtain ⟨rfl, rfl⟩ := Attempt.get_eq_ok_iff.mp got
  obtain ⟨bounded, ready⟩ := ready_of_marked free short hmask hmark
  refine .bind (.ofExcept (fun e failed => ?_) _) fun ⟨rest, parts⟩ _ taken => ?_
  · unfold extractSubexpressions at failed
    split at failed <;> cases failed
    exact .inl rfl
  obtain ⟨extracted, rfl⟩ := Attempt.ofExcept_eq_ok_iff.mp taken
  obtain ⟨whole, each, fewer⟩ := bounded_of_extractSubexpressions bounded extracted
  have flat : ((parts.zipIdx s₂.subexpressions.length).flatMap (·.1)) = parts.flatten := by
    rw [List.flatMap_def, ← List.unzip_fst, List.unzip_zipIdx_eq_prod]
  have ready' : Ready { s₂.bounds with groups := 0 }
      (((parts.zipIdx s₂.subexpressions.length).flatMap (·.1)).count '(' + (rest.count '(' + 0))
        s₂ :=
    ⟨ready.backed, rfl, by have room := ready.room; rw [flat]; omega⟩
  obtain ⟨fails, after⟩ :=
    ready'.forM fun part member => each part.1 (List.fst_mem_of_mem_zipIdx member)
  exact .bind fails fun _ u built => (after u built).failsExpectedly_buildLevel whole

end SetAside

end PolicyRules
