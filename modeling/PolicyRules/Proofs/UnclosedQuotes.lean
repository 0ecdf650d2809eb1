import PolicyRules.Proofs.Literals
import PolicyRules.Proofs.TreeTokens

/-!
# Unclosed quotation marks

A quotation mark that opens no quoted segment is left in the text when strings are masked. It is no
part of a name, a number or a sign, and no string can begin at it, since the mark does not occur
again. So a text with such a mark is refused, also when the token of a string runs together with
digits behind it and names another string: it then names one that stands further behind.

Main statement: `SetAside.quoteFree_masked_of_build`.
-/

namespace PolicyRules

section Tokens

variable {e : Expr} {t w : Text}

/-- The forms of the tokens of an expression. A number fits into a word. -/
inductive IsToken : Text → Prop
  | name {w : Text} (h : IsName w) : IsToken w
  | number {w : Text} (h : IsNumber w) (fits : (numeralValue w : Int) ≤ maxWord) : IsToken w
  | string {w : Text} (h : IsQuoted w) : IsToken w
  | operator (op : Operator) : IsToken op.text
  | update (op : UpdateOperator) : IsToken op.text
  | keyword (k : Keyword) : IsToken k.text

/-- A token of an expression is no quotation mark. -/
theorem IsToken.ne_mark (h : IsToken w) {c : Char} (mark : isQuoteMark c) : w ≠ [c] := by
  rintro rfl
  have other : isWordChar c = false := by rcases isQuoteMark_iff.mp mark with rfl | rfl <;> decide
  generalize same : [c] = w at h
  cases h with
  | name h =>
    obtain ⟨d, ds, rfl, start⟩ := h.head
    obtain ⟨rfl, -⟩ := List.cons.inj same
    exact absurd (isWordChar_of_isNameStart start) (by simp [other])
  | number h _ =>
    obtain ⟨d, ds, rfl, digit⟩ := h.head
    obtain ⟨rfl, -⟩ := List.cons.inj same
    exact absurd digit (by simp [isWordChar, Char.isAlphanum] at other; simp [other])
  | string h =>
    obtain ⟨-, -⟩ := h
    simp at same
  | operator op | update op =>
    rcases isQuoteMark_iff.mp mark with rfl | rfl <;> cases op <;> cases same
  | keyword k => rcases isQuoteMark_iff.mp mark with rfl | rfl <;> cases k <;> cases same

/-- Whether the tokens of an expression have the forms of tokens. -/
def Expr.Tokenised (e : Expr) : Prop := ∀ w ∈ e.tokens, IsToken w

namespace Expr.Tokenised

theorem levelClosed (keywords : List Keyword) : LevelClosed keywords Tokenised where
  logical := fun {keyword _ _ _} _ _ left right w member => by
    simp only [tokens, List.mem_append, List.mem_cons] at member
    rcases member with member | rfl | member
    · exact left w member
    · exact .keyword keyword
    · exact right w member
  negation := fun _ operand w member => by
    rcases List.mem_cons.mp member with rfl | member
    · exact .keyword .not
    · exact operand w member

theorem wordClosed : WordClosed Tokenised where
  truth name := List.forall_mem_singleton.mpr (.name name)
  name name := List.forall_mem_singleton.mpr (.name name)
  number number fits := List.forall_mem_singleton.mpr (.number number fits)
  string quoted := List.forall_mem_singleton.mpr (.string quoted)
  mapped name key := List.forall_mem_append.mpr ⟨key, List.forall_mem_singleton.mpr (.name name)⟩
  binary left right :=
    List.forall_mem_append.mpr ⟨left, List.forall_mem_cons.mpr ⟨.operator _, right⟩⟩
  update name value :=
    List.forall_mem_cons.mpr ⟨.name name, List.forall_mem_cons.mpr ⟨.update _, value⟩⟩
  updateMapped name key value := List.forall_mem_append.mpr
    ⟨key, List.forall_mem_cons.mpr ⟨.name name, List.forall_mem_cons.mpr ⟨.update _, value⟩⟩⟩

end Expr.Tokenised

end Tokens

section Masked

variable {keywords : List Keyword} {t u : Text}

theorem Radix.le_value_append (digits more : List Nat) :
    Radix.decimal.value digits ≤ Radix.decimal.value (digits ++ more) := by
  induction more using List.reverseRecOn with
  | nil => simp
  | append_singleton more d ih =>
    rw [← List.append_assoc, Radix.value_append, show Radix.decimal.base = 10 from rfl]
    omega

/-- The token of a string that runs together with digits behind it names the same string or a later
one. -/
theorem mem_drop_of_tokenEntry {α : Type} {entries : List α} {n : Nat} {digits : Text} {a : α}
    (h : tokenEntry entries (Text.ofNat n ++ digits) = .ok a) : a ∈ entries.drop n := by
  obtain ⟨m, number, entry⟩ := bind_eq_ok_iff.mp h
  have le : n ≤ m := by
    unfold tokenNumber readOrdinal at number
    dsimp only at number
    split at number
    · next found =>
      split at found
      · cases found
      · obtain rfl := Except.ok.inj number
        rw [← Except.ok.inj found, List.filterMap_append]
        calc
          n = Radix.decimal.value ((Text.ofNat n).filterMap decimalDigit?) :=
            (value_digits_ofNat n).symm
          _ ≤ _ := Radix.le_value_append _ _
    · cases number
  have listed : (entries.drop n)[m - n]? = some a := by
    rw [List.getElem?_drop, Nat.add_sub_cancel' le]
    exact nthEntry_eq_ok_iff.mp entry
  exact List.mem_of_getElem? listed

/-- Marks that are replaced by tokens numbered from `start` on. -/
theorem Split.renderNumbered_add {α : Type} (split : Split α) (token : Nat → Text) (start : Nat) :
    split.renderNumbered (fun n => token (start + n)) =
      split.head ++ (split.tail.zipIdx start).flatMap fun entry => token entry.2 ++ entry.1.2 := by
  have numbers := List.zipIdx_eq_map_add (l := split.tail) (i := start)
  rw [Split.renderNumbered, numbers, List.flatMap_map]

/-- The text of a split with its quoted segments masked, the first of them by a token with the
number given. -/
def maskedFrom (n : Nat) (u : Text) (tail : List (Quotation × Text)) : Text :=
  u ++ (tail.zipIdx n).flatMap fun entry => stringToken entry.2 ++ entry.1.2

/-- The first token of a masked text. The digits behind the quoted segment run together with it. -/
theorem exists_maskedFrom_cons (n : Nat) (u next : Text) (q : Quotation)
    (tail : List (Quotation × Text)) :
    ∃ digits rest, next = digits ++ rest ∧ (∀ d ∈ Text.ofNat n ++ digits, isDecimalDigit d) ∧
      EndsNumber (maskedFrom (n + 1) rest tail) ∧
      maskedFrom n u ((q, next) :: tail) =
        u ++ (TokenKind.string.start ++ (Text.ofNat n ++ digits) ++
          maskedFrom (n + 1) rest tail) := by
  obtain ⟨digits, rest, rfl, all, ends⟩ := exists_digits_append next
  refine ⟨digits, rest, rfl, List.forall_mem_append.mpr ⟨fun d => isDecimalDigit_of_mem_ofNat, all⟩,
    ends.append ?_, ?_⟩
  · cases tail with
    | nil =>
      intro c first
      cases first
    | cons piece tail => exact endsNumber_cons (by decide) _
  · simp [maskedFrom, stringToken, TokenKind.start]

theorem mem_of_mem_plainTokens {w : Text} {c : Char} (listed : w ∈ u.plainTokens) (member : c ∈ w) :
    c ∈ u :=
  u.flatten_plainTokens_sublist.subset (List.mem_flatten.mpr ⟨w, listed, member⟩)

theorem Scans.quotation_of_mem_marks {previous : Option Char} {s : Split Quotation} {q : Quotation}
    (scanned : Scans quotationAt previous t s) (member : q ∈ s.marks) :
    IsQuoted q.text ∧ q.text <:+: t := by
  induction scanned with
  | text quiet => cases member
  | @mark previous u w t next q' tail quiet nonempty found rest ih =>
    rcases List.mem_cons.mp member with rfl | later
    · obtain ⟨isMark, outside⟩ := proper_of_quotationAt found
      refine ⟨.mk (isQuoteMark_iff.mp isMark) outside, u, t, ?_⟩
      rw [(quotationAt_width found).2, List.take_left, List.append_assoc]
    · obtain ⟨quoted, inside⟩ := ih later
      refine ⟨quoted, inside.trans ⟨u ++ w, [], by simp⟩⟩

/-- A string that is named by a masked text, whatever digits run together with its token, is quoted
behind the token. -/
theorem quotation_of_masked {previous : Option Char} {w next : Text} {q : Quotation}
    {tail : List (Quotation × Text)}
    (scanned : Scans quotationAt previous (w ++ t) ⟨[], (q, next) :: tail⟩) {before : List Text}
    {digits v : Text} (entry : tokenEntry
      (before ++ (⟨[], (q, next) :: tail⟩ : Split Quotation).marks.map Quotation.text)
      (Text.ofNat before.length ++ digits) = .ok v) : IsQuoted v ∧ v <:+: w ++ t := by
  have listed := mem_drop_of_tokenEntry entry
  rw [List.drop_left, List.mem_map] at listed
  obtain ⟨q', isQuotation, rfl⟩ := listed
  exact scanned.quotation_of_mem_marks isQuotation

/-- What is said of masked texts goes by their tokens: a masked text is plain, or plain up to the
token of a string that is quoted behind it. Quotation marks that are left in it do not occur
again. -/
theorem SetAside.maskStrings_induction (s : SetAside) (Holds : List Text → Text → Text → Prop)
    (text : ∀ strings t u, u.Unnumbered → (u.filter isQuoteMark).Nodup → u ⊆ t → Holds strings t u)
    (token : ∀ strings a w t u digits rest, u.Unnumbered → (u.filter isQuoteMark).Nodup → u ⊆ a →
      (∀ c ∈ u.filter isQuoteMark, c ∉ w ++ t) → digits ≠ [] →
      (∀ d ∈ digits, isDecimalDigit d) →
      EndsNumber rest → (∀ v, tokenEntry strings digits = .ok v → IsQuoted v ∧ v <:+: w ++ t) →
      Holds strings t rest →
      Holds strings (a ++ (w ++ t)) (u ++ (TokenKind.string.start ++ digits ++ rest)))
    (unnumbered : t.Unnumbered) : Holds (s.maskStrings t).2.strings t (s.maskStrings t).1 := by
  have scanned := Split.scans measured_quotationAt none t
  have plain : ∀ piece ∈ t.segments.plain, piece.Unnumbered := fun piece member =>
    unnumbered.of_isInfix (scanned.isInfix member)
  -- The digits behind a quoted segment go with its token, so what is left of the next piece is a
  -- suffix of it.
  have run : ∀ {previous t} {split : Split Quotation} (before : List Text) {u : Text},
      Scans quotationAt previous t split →
      (∀ piece ∈ split.plain, piece.Unnumbered) → u <:+ split.head →
      Holds (before ++ split.marks.map Quotation.text) t
        (maskedFrom before.length u split.tail) := by
    intro previous t split before u scanned plain suffix
    have head := (plain split.head (by simp [Split.plain])).of_isInfix suffix.isInfix
    induction scanned generalizing before u with
    | @text previous t quiet =>
      have distinct := (unclosed_of_quiet quiet).1.sublist (suffix.sublist.filter _)
      simpa [maskedFrom] using text _ t u head distinct suffix.subset
    | @mark previous a w t next q tail quiet nonempty found rest ih =>
      obtain ⟨distinct, apart⟩ := unclosed_of_quiet quiet
      have segment : Scans quotationAt (lastChar previous a) (w ++ t) ⟨[], (q, next) :: tail⟩ :=
        .mark (u := []) trivial nonempty found (by simpa using rest)
      obtain ⟨digits, rest', next_eq, all, ends, text_eq⟩ :=
        exists_maskedFrom_cons before.length u next q tail
      have later : ∀ piece ∈ (⟨next, tail⟩ : Split Quotation).plain, piece.Unnumbered :=
        fun piece member => plain piece (List.mem_cons_of_mem _ member)
      have suffix' : rest' <:+ next := ⟨digits, next_eq.symm⟩
      have behind := ih (before ++ [q.text]) later suffix'
        ((later next (by simp [Split.plain])).of_isInfix suffix'.isInfix)
      have strings_eq : before ++ (⟨a, (q, next) :: tail⟩ : Split Quotation).marks.map
          Quotation.text =
          before ++ [q.text] ++ (⟨next, tail⟩ : Split Quotation).marks.map Quotation.text := by
        simp [Split.marks]
      rw [List.length_append, List.length_singleton] at behind
      rw [strings_eq, text_eq]
      refine token _ a w t u _ _ head (distinct.sublist (suffix.sublist.filter _)) suffix.subset
        (fun c member => ?_) (by simp [ofNat_ne_nil]) all ends (fun v entry => ?_) behind
      · exact apart c ((suffix.sublist.filter _).subset member)
      · exact quotation_of_masked segment (by simpa [Split.marks] using entry)
  have text_eq : (s.maskStrings t).1 = maskedFrom s.strings.length
      t.segments.head t.segments.tail :=
    t.segments.renderNumbered_add stringToken s.strings.length
  rw [text_eq]
  exact run s.strings scanned plain (List.suffix_refl _)

/-- A masked text stands for tokens that occur in the text, and a quotation mark that has been left
in it occurs in no later token. -/
theorem exists_reads_masked (unnumbered : t.Unnumbered) :
    ∃ tokens, (∀ keywords, Reads (SetAside.maskStrings {} t).2.strings keywords [] []
      (SetAside.maskStrings {} t).1.atoms tokens) ∧ StaysOpen tokens ∧ ∀ w ∈ tokens, w ⊆ t := by
  refine SetAside.maskStrings_induction {} (fun strings t masked => ∃ tokens,
    (∀ keywords, Reads strings keywords [] [] masked.atoms tokens) ∧ StaysOpen tokens ∧
    ∀ w ∈ tokens, w ⊆ t) ?_ ?_ unnumbered
  · intro strings t u head distinct inside
    refine ⟨u.plainTokens, fun keywords => ?_, u.staysOpen_plainTokens distinct, ?_⟩
    · simpa [Text.atoms_eq_plainTokens head] using Reads.plains u.plainTokens
    · exact fun w listed c member => inside (mem_of_mem_plainTokens listed member)
  · rintro strings a w t u digits rest head distinct inside apart nonempty all ends named
      ⟨tokens, reads, opened, later⟩
    let v : Text := (tokenEntry strings digits).toOption.getD []
    have quoted : v = [] ∨ IsQuoted v ∧ v <:+: w ++ t := by
      cases found : tokenEntry strings digits with
      | error e => exact .inl (by simp [v, found, Except.toOption])
      | ok x => exact .inr (by simpa [v, found, Except.toOption] using named x found)
    have inText : ∀ x ∈ v :: tokens, x ⊆ w ++ t := by
      refine List.forall_mem_cons.mpr
        ⟨?_, fun x listed => List.Subset.trans (later x listed) (List.subset_append_right w t)⟩
      rcases quoted with empty | ⟨-, inside⟩
      · simp [empty]
      · exact inside.subset
    refine ⟨u.plainTokens ++ v :: tokens, fun keywords => ?_, ?_, ?_⟩
    · rw [Text.atoms_append_token .string (by simp) nonempty all ends u,
        Text.atoms_eq_plainTokens head]
      refine (Reads.plains _).append (.string (fun x found => ?_) (reads keywords))
      simp [v, found, Except.toOption]
    · refine List.pairwise_append.mpr ⟨u.staysOpen_plainTokens distinct,
        .cons (fun b _ c mark same => ?_) opened, fun x inFirst b behind c mark same member => ?_⟩
      · rcases quoted with empty | ⟨isQuoted, -⟩
        · cases empty.symm.trans same
        · exact absurd same ((IsToken.string isQuoted).ne_mark mark)
      · subst same
        have left : c ∈ u := mem_of_mem_plainTokens inFirst (by simp)
        exact apart c (List.mem_filter.mpr ⟨left, mark⟩) (inText b behind member)
    · intro x listed c member
      rcases List.mem_append.mp listed with first | behind
      · exact List.mem_append_left _ (inside (mem_of_mem_plainTokens first member))
      · exact List.mem_append_right _ (inText x behind member)

end Masked

/-- A quotation mark that is not masked is a token. -/
theorem Reads.mem_of_mark {strings : List Text} {keywords : List Keyword}
    {groups parts tokens : List Text} {t : Text} {c : Char} (mark : isQuoteMark c)
    (member : c ∈ t) (reads : Reads strings keywords groups parts t.atoms tokens) :
    [c] ∈ tokens := by
  obtain ⟨a, b, rfl⟩ := List.append_of_mem member
  rw [atoms_append_mark mark] at reads
  obtain ⟨d, e, rfl, -, second⟩ := reads.of_append
  obtain ⟨rest, rfl, -⟩ := second.of_plain
  simp

/-- A text with an unclosed quotation mark is refused. -/
theorem SetAside.quoteFree_masked_of_build {s s' : SetAside} {t : Text} {e : Expr}
    (noStrings : s.strings = []) (keyed : Keyed s.subexpressions)
    (earlier : ∀ entry ∈ s.subexpressions, entry.2.Tokenised) (unnumbered : t.Unnumbered)
    (apart : ∀ piece ∈ ((maskStrings {} t).1.split keywordAt).plain, BracketsApart piece)
    (h : build t s = .ok e s') : QuoteFree (maskStrings {} t).1 := by
  obtain ⟨tokens, reads, opened, -⟩ := exists_reads_masked unnumbered
  have tokens_eq :=
    tokens_build_of_reads noStrings keyed (unnumbered.tokens .string) apart reads opened h
  have tokenised :=
    (build_induction h (Expr.Tokenised.levelClosed _) Expr.Tokenised.wordClosed.parseOperand
      earlier).1
  intro c member
  cases mark : isQuoteMark c with
  | false => rfl
  | true =>
    have token : [c] ∈ e.tokens := tokens_eq ▸ (reads []).mem_of_mark mark member
    exact absurd rfl ((tokenised _ token).ne_mark mark)

end PolicyRules
