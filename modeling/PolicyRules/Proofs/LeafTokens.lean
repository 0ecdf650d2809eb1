import PolicyRules.Proofs.Expansion
import PolicyRules.Proofs.LeafMeaning

/-!
# The tokens of a leaf expression

The lexemes of a leaf are its atoms, without the bars and parentheses. A name that is not cut where
atoms are cut would have a logical keyword or the token of one in it, and these have been marked and
told apart before a leaf is read.

Main statements: `Spread.reads` for the lexemes of a leaf, and `tokens_parseOperand`: a leaf that is
accepted has the tokens that it stands for.
-/

namespace PolicyRules

variable {strings : List Text} {keywords : List Keyword} {groups parts : List Text}
  {c : Char} {previous : Option Char} {t w m n : Text} {tokens : List Text} {expecting : Expecting}
  {x : Lexeme} {xs ys : List Lexeme} {e : Expr}

section Names

variable {n w z : Text}

/-- The run of a word goes up to a character that is no word character and is not the colon of a
token. -/
theorem wordRun_append (word : ∀ c ∈ w, isWordChar c) (edge : isWordEdge z.head?)
    (noToken : ∀ d rest, z = ':' :: d :: rest → isDecimalDigit d = false) :
    wordRun (w ++ z) = w := by
  induction w with
  | nil =>
    refine wordRun_eq_nil fun b head => ?_
    rw [List.nil_append] at head
    simpa [isWordEdge, head] using edge
  | cons c cs ih =>
    obtain ⟨here, later⟩ := List.forall_mem_cons.mp word
    have none : tokenAt? (c :: (cs ++ z)) = none := by
      cases found : tokenAt? (c :: (cs ++ z)) with
      | none => rfl
      | some entry =>
        obtain ⟨letter, digits, numbered, -⟩ := tokenAt?_eq_some found
        obtain ⟨d, rest, same, digit⟩ := numberedAt_eq_some numbered
        obtain ⟨-, behind⟩ := List.cons.inj same
        cases cs with
        | nil =>
          rw [noToken d rest behind] at digit
          cases digit
        | cons e es =>
          obtain ⟨rfl, -⟩ := List.cons.inj behind
          exact absurd (later ':' (by simp)) (by decide)
    rw [List.cons_append, wordRun, none, ih later]
    simp [here]

theorem atoms_of_nameWord {cs : Text} (word : isWordChar c)
    (noToken : tokenAt? (c :: cs) = none) (name : nameWord wordRun isAlone (c :: cs) = c :: cs) :
    Text.atoms (c :: cs) = [.ofWord (c :: cs)] := by
  have found : atomAt none (c :: cs ++ []) = some (.ofWord (c :: cs), (c :: cs).length) := by
    rw [List.append_nil, atomAt, Text.isDropped_eq_false_of_isWordChar word, noToken,
      wordWith, name]
    simp [wordRun, word, noToken]
  have atoms := Text.atoms_of_found (by simp) found
  rwa [List.append_nil] at atoms

theorem tokenAt?_of_wordRun {cs : Text} (h : wordRun (c :: cs) ≠ []) :
    tokenAt? (c :: cs) = none := by
  cases found : tokenAt? (c :: cs) with
  | none => rfl
  | some entry => simp [wordRun, found] at h

/-- A word is an atom. -/
theorem atoms_of_forall_word (nonempty : w ≠ []) (word : ∀ c ∈ w, isWordChar c) :
    w.atoms = [.ofWord w] := by
  have run : wordRun w = w := by
    have whole := wordRun_append (z := []) word rfl (by simp)
    rwa [List.append_nil] at whole
  have name : nameWord wordRun isAlone w = w := by rw [nameWord, run, List.drop_length]
  obtain ⟨c, cs, rfl⟩ := List.exists_cons_of_ne_nil nonempty
  exact atoms_of_nameWord (word c (by simp)) (tokenAt?_of_wordRun (by simp [run])) name

/-- Two words that are joined are one atom. -/
theorem atoms_of_joined {u v : Text} (nonempty : u ≠ []) (word : ∀ c ∈ u, isWordChar c)
    (word' : ∀ c ∈ v, isWordChar c) (edge : isWordChar c = false)
    (noToken : ∀ d ds, c :: v = ':' :: d :: ds → isDecimalDigit d = false)
    (joined : joinsRuns u c v) (alone : isAlone u = false) (alone' : isAlone v = false) :
    Text.atoms (u ++ c :: v) = [.ofWord (u ++ c :: v)] := by
  have run : wordRun (u ++ c :: v) = u := wordRun_append word (by simp [isWordEdge, edge]) noToken
  have run' : wordRun v = v := by
    have whole := wordRun_append (z := []) word' rfl (by simp)
    rwa [List.append_nil] at whole
  have name : nameWord wordRun isAlone (u ++ c :: v) = u ++ c :: v := by
    rw [nameWord, run, List.drop_left]
    simp [run', joined, alone, alone']
  obtain ⟨x, xs, rfl⟩ := List.exists_cons_of_ne_nil nonempty
  have noToken : tokenAt? (x :: (xs ++ c :: v)) = none := tokenAt?_of_wordRun fun empty => by
    rw [List.cons_append, empty] at run
    cases run
  exact atoms_of_nameWord (word x (by simp)) noToken name

/-- Whether a name has no token of a keyword as a word of its own. -/
def TokenFree (n : Text) : Prop :=
  ∀ x w y, n = x ++ (w ++ y) → isWordEdge (lastChar none x) → isWordEdge y.head? →
    digitsBehind? "PLA".toList w = none

theorem keywordAt_text (k : Keyword) (before : isWordEdge previous)
    (behind : isWordEdge t.head?) : keywordAt previous (k.text ++ t) ≠ none := by
  have start : Text.dropStart? k.text (k.text ++ t) = some t := Text.dropStart?_eq_some_iff.mpr rfl
  rw [keywordAt, if_pos before]
  intro none
  have member : k ∈ Keyword.all := by cases k <;> decide
  have missing := List.findSome?_eq_none_iff.mp none k member
  simp [start, behind] at missing

theorem isAlone_eq_false (previous : Option Char)
    (quiet : operandKeywordAt previous (w ++ t) = none) (before : isWordEdge previous)
    (group : previous ≠ some ')') (behind : isWordEdge t.head?)
    (token : digitsBehind? "PLA".toList w = none) : isAlone w = false := by
  cases alone : isAlone w with
  | false => rfl
  | true =>
    rcases isAlone_cases alone with ⟨k, rfl⟩ | ⟨digits, rfl, nonempty, all⟩
    · rw [operandKeywordAt, if_neg group] at quiet
      exact absurd quiet (keywordAt_text k before behind)
    · rw [digitsBehind?_append _ nonempty all] at token
      cases token

/-- A name in a leaf is an atom. -/
theorem atoms_of_isName (name : IsName n) (free : TokenFree n)
    (quiet : Quiet operandKeywordAt previous (n ++ t) []) (before : isWordEdge previous)
    (group : previous ≠ some ')') (behind : isWordEdge t.head?) : n.atoms = [.ofWord n] := by
  cases name with
  | @call digits nonempty all =>
    have word : ∀ c ∈ digits, isWordChar c := fun c member =>
      isWordChar_of_isDecimalDigit (isDecimalDigit_of_isDigit (all c member))
    obtain ⟨d, ds, rfl⟩ := List.exists_cons_of_ne_nil nonempty
    have digit := all d (by simp)
    have alone : isAlone (d :: ds) = false := by
      cases found : isAlone (d :: ds) with
      | false => rfl
      | true =>
        rcases isAlone_cases found with ⟨k, same⟩ | ⟨digits, same, -⟩
        · cases k <;> (obtain ⟨rfl, -⟩ := List.cons.inj same; cases digit)
        · obtain ⟨rfl, -⟩ := List.cons.inj same
          cases digit
    exact atoms_of_joined (u := "FC".toList) (c := '#') (by simp) (by simp; decide) word (by decide)
      (by simp) (by simp [joinsRuns, digit]) (by decide) alone
  | plain plain =>
    obtain ⟨c, cs, rfl, -⟩ := id plain
    exact atoms_of_forall_word (by simp) fun d member => isWordChar_of_isNameChar
      (plain.all d member)
  | @pair u v first second =>
    have word := fun d member => isWordChar_of_isNameChar (first.all d member)
    have word' := fun d member => isWordChar_of_isNameChar (second.all d member)
    obtain ⟨c, cs, rfl, -⟩ := id first
    obtain ⟨c', cs', rfl, start, -⟩ := id second
    have colon : ∀ t : Text, isWordEdge (':' :: t).head? := fun _ => rfl
    rw [quiet_append_iff, quiet_append_iff] at quiet
    obtain ⟨⟨quietFirst, quietSecond⟩, -⟩ := quiet
    refine atoms_of_joined (by simp) word word' (by decide) (fun d ds same => ?_)
      (by simp [joinsRuns]) ?_ ?_
    · obtain ⟨rfl, -⟩ := List.cons.inj (List.cons.inj same).2
      cases digit : isDecimalDigit c' with
      | false => rfl
      | true =>
        rw [isNameStart_eq_false_of_isDigit
          (isDigit_of_isDecimalDigit digit (isNameChar_of_isNameStart start))] at start
        cases start
    · refine isAlone_eq_false previous (t := ':' :: (c' :: cs' ++ t)) (by simpa using quietFirst.1)
        before group (colon _) ?_
      exact free [] _ (':' :: c' :: cs') rfl rfl (colon _)
    · refine isAlone_eq_false (some ':') (by simpa using quietSecond.2.1) rfl (by decide) behind ?_
      exact free (c :: cs ++ [':']) _ [] (by simp) (by simp [lastChar, isWordEdge]; decide) rfl

end Names

section Lexemes

/-- The atoms of a lexeme. -/
def Lexeme.atoms : Lexeme → List Atom
  | .string text => [.plain text]
  | .bar | .leftParen | .rightParen => []
  | x => [.ofWord x.text]

theorem isDropped_of_isLayout (h : isLayout c) : isDropped c := of_isLayout (by decide) h

/-- Whether an operand can stand behind a character. -/
def opensWord (previous : Option Char) : Bool := isWordEdge previous && previous != some ')'

theorem opensWord_of_opensOperand (h : opensOperand c) : opensWord (some c) :=
  of_layout_or_sign (p := fun c => opensWord (some c)) (by decide) (by decide) h

theorem isReferenceChar_of_closesOperand (h : closesOperand c) :
    isReferenceChar c = false ∧ c ≠ '#' := by
  simpa using of_layout_or_sign (p := fun c => ! isReferenceChar c && c != '#') (by decide)
    (by decide) h

/-- What follows an operand is cut off from it. -/
theorem cut_of_closesOperand (word : ∀ a, lastChar none w = some a → isReferenceChar a)
    (behind : ∀ b, t.head? = some b → closesOperand b) : Cut w t := by
  intro a b last head
  obtain ⟨noReference, noHash⟩ := isReferenceChar_of_closesOperand (behind b head)
  have reference := word a last
  have noDigit : b.isDigit = false := by
    cases digit : b.isDigit with
    | false => rfl
    | true =>
      rw [isReferenceChar, isWordChar_of_isDecimalDigit (isDecimalDigit_of_isDigit digit)]
        at noReference
      cases noReference
  have noSign : "=!<>+-*/".toList.contains a = false := by
    have signs : "=!<>+-*/".toList.all fun c => ! isReferenceChar c := by decide
    rw [Bool.eq_false_iff, Ne, List.contains_iff_mem]
    intro member
    have other := List.all_eq_true.mp signs a member
    rw [reference] at other
    cases other
  simp only [joins, noReference, noDigit, noSign, beq_eq_false_iff_ne.mpr noHash, Bool.and_false,
    Bool.false_and, Bool.or_false]

/-- A text begins as before, or with a string in place of its token. -/
theorem Fills.head_eq (h : Fills strings m t) :
    m.head? = t.head? ∨ m.head? = some 'q' ∧ ∃ mark, t.head? = some mark ∧
      isQuoteMark mark := by
  cases h with
  | nil | char c rest => exact .inl rfl
  | string nonempty all found filler ends rest =>
    obtain ⟨mark, body, rfl, isMark⟩ := filler.head
    exact .inr ⟨rfl, mark, rfl, isMark⟩

/-- Two quoted strings at the beginning of one text are the same. -/
theorem IsQuoted.append_inj {v u : Text} (h : IsQuoted v) (h' : IsQuoted w)
    (same : v ++ t = w ++ u) : v = w ∧ t = u := by
  obtain @⟨mark, body, isMark, closed⟩ := h
  obtain @⟨mark', body', isMark', closed'⟩ := h'
  obtain ⟨rfl, rest⟩ := List.cons.inj same
  have split : body ++ mark :: t = body' ++ mark :: u := by simpa using rest
  have run : ∀ {x y : Text}, mark ∉ x → (x ++ mark :: y).takeWhile (· != mark) = x :=
    fun {x y} outside =>
      takeWhile_append_of_head (fun c member => by simpa using ne_of_mem_of_not_mem member outside)
        (by simp)
  have bodies : body = body' := by rw [← run closed, split, run closed']
  subst bodies
  exact ⟨rfl, (List.cons.inj (List.append_cancel_left split)).2⟩

/-- A quotation mark in a text is an atom. -/
theorem atoms_append_mark (isMark : isQuoteMark c) (a b : Text) :
    Text.atoms (a ++ c :: b) = a.atoms ++ .plain [c] :: b.atoms := by
  have apart : (∀ d, joins d c = false ∧ joins c d = false) ∧ Text.atoms [c] = [.plain [c]] := by
    rcases isQuoteMark_iff.mp isMark with rfl | rfl
    · exact ⟨fun d => by simp [joins, show isReferenceChar '"' = false by decide], by decide⟩
    · exact ⟨fun d => by simp [joins, show isReferenceChar '\x27' = false by decide], by decide⟩
  have front : Cut a (c :: b) := fun x y _ head => by
    obtain rfl := Option.some.inj head
    exact (apart.1 x).1
  have back : Cut [c] b := fun x y last _ => by
    obtain rfl := Option.some.inj last
    exact (apart.1 y).2
  have behind := Text.atoms_append back.parted
  rw [apart.2] at behind
  rw [Text.atoms_append front.parted]
  exact congrArg (a.atoms ++ ·) behind

theorem Fills.exists_split (h : Fills strings m t) (member : c ∈ t) :
    (∃ a b, m = a ++ c :: b) ∨ ∃ a digits w b, m = a ++ (TokenKind.string.start ++ digits ++ b) ∧
      digits ≠ [] ∧
      (∀ d ∈ digits, isDecimalDigit d) ∧ EndsNumber b ∧ tokenEntry strings digits = .ok w ∧
      c ∈ w := by
  induction h with
  | nil => cases member
  | @char c' m t _ ih =>
    rcases List.mem_cons.mp member with rfl | later
    · exact .inl ⟨[], m, rfl⟩
    · rcases ih later with ⟨a, b, rfl⟩ | ⟨a, digits, w, b, rfl, rest⟩
      · exact .inl ⟨c' :: a, b, rfl⟩
      · exact .inr ⟨c' :: a, digits, w, b, rfl, rest⟩
  | @string digits w m t nonempty all found filler ends _ ih =>
    rcases List.mem_append.mp member with inside | later
    · exact .inr ⟨[], digits, w, m, rfl, nonempty, all, ends, found, inside⟩
    · rcases ih later with ⟨a, b, rfl⟩ | ⟨a, digits', w', b, rfl, rest⟩
      · exact .inl ⟨TokenKind.string.start ++ digits ++ a, b, by simp⟩
      · exact .inr ⟨TokenKind.string.start ++ digits ++ a, digits', w', b, by simp, rest⟩

/-- A quotation mark of a text is in a token that the text stands for. -/
theorem Fills.exists_mem (isMark : isQuoteMark c) (h : Fills strings m t) (member : c ∈ t)
    (reads : Reads strings keywords groups parts m.atoms tokens) : ∃ w ∈ tokens, c ∈ w := by
  rcases h.exists_split member with ⟨a, b, rfl⟩ | ⟨a, digits, w, b, rfl, nonempty, all, ends,
    found, inside⟩
  · rw [atoms_append_mark isMark] at reads
    obtain ⟨d, e, rfl, -, second⟩ := reads.of_append
    cases second with
    | plain rest => exact ⟨[c], by simp, by simp⟩
  · rw [Text.atoms_append_token .string (by simp) nonempty all ends] at reads
    obtain ⟨d, e, rfl, -, second⟩ := reads.of_append
    cases second with
    | @string _ _ _ w' _ tokens denotes rest =>
      obtain rfl := denotes w found
      exact ⟨w, by simp, inside⟩

/-- A string of a leaf is one that has been put back. -/
theorem Fills.of_quoted (quoted : IsQuoted w)
    (h : Fills strings m (w ++ t)) (reads : Reads strings keywords groups parts m.atoms tokens)
    (opened : StaysOpen tokens) :
    ∃ digits m' rest, m = TokenKind.string.start ++ digits ++ m' ∧ tokens = w :: rest ∧
      Fills strings m' t ∧
      Reads strings keywords groups parts m'.atoms rest := by
  generalize same : w ++ t = whole at h
  cases h with
  | nil =>
    obtain ⟨c, cs, rfl, -⟩ := quoted.head
    cases same
  | @char c m t' rest =>
    -- The mark is not set aside, so that it is a token, and it occurs again at the end of the
    -- string.
    obtain @⟨mark, body, isMark, closed⟩ := quoted
    obtain ⟨rfl, rfl⟩ := List.cons.inj same
    have isMark := isQuoteMark_iff.mpr isMark
    have atoms := atoms_append_mark isMark [] m
    rw [List.nil_append] at atoms
    rw [atoms] at reads
    cases reads with
    | @plain _ _ _ _ later reads =>
      obtain ⟨v, listed, inside⟩ := rest.exists_mem isMark (by simp) reads
      exact absurd inside (List.rel_of_pairwise_cons opened listed mark isMark rfl)
  | @string digits v m t' nonempty all found filler ends rest =>
    obtain ⟨rfl, rfl⟩ := quoted.append_inj filler.1 same
    have atoms := Text.atoms_append_token .string (by simp) nonempty all ends []
    rw [List.nil_append] at atoms
    rw [atoms] at reads
    cases reads with
    | @string _ _ _ v' _ later denotes reads =>
      obtain rfl := denotes _ found
      exact ⟨_, m, later, rfl, rfl, rest, reads⟩

/-- What follows a sign is cut off from it, unless it is an equals sign. -/
theorem cut_of_sign
    (sign : ∀ a, lastChar none w = some a → isReferenceChar a = false ∧ a ≠ 'C' ∧ a ≠ '#')
    (behind : t.head? ≠ some '=') : Cut w t := by
  intro a b last head
  obtain ⟨noReference, noC, noHash⟩ := sign a last
  have noEquals : b ≠ '=' := by
    rintro rfl
    exact behind head
  simp [joins, noReference, noC, noHash, noEquals]

theorem IsName.isReferenceChar_lastChar (h : IsName n) {a : Char}
    (last : lastChar none n = some a) : isReferenceChar a := by
  have word : ∀ {w : Text}, w ≠ [] → (∀ c ∈ w, isNameChar c) →
      ∀ {previous}, lastChar previous w = some a →
      isReferenceChar a := by
    intro w nonempty names previous last
    obtain ⟨d, member, last'⟩ := exists_lastChar_eq nonempty previous
    obtain rfl := Option.some.inj (last'.symm.trans last)
    simp [isReferenceChar, isWordChar_of_isNameChar (names d member)]
  cases h with
  | call nonempty all =>
    exact word nonempty (fun c member => isNameChar_of_isDigit (all c member)) last
  | plain plain =>
    obtain ⟨c, cs, rfl, -⟩ := id plain
    exact word (by simp) plain.all last
  | pair first second =>
    obtain ⟨c, cs, rfl, -⟩ := id second
    have last : lastChar (some ':') (c :: cs) = some a := by rwa [lastChar_append] at last
    exact word (by simp) second.all last

theorem IsNumber.isWordChar_of_mem (h : IsNumber w) : w ≠ [] ∧ ∀ c ∈ w, isWordChar c := by
  cases h with
  | decimal nonempty all =>
    exact ⟨nonempty,
      fun c member => isWordChar_of_isDecimalDigit (isDecimalDigit_of_isDigit (all c member))⟩
  | @hexadecimal digits nonempty all =>
    refine ⟨by simp, ?_⟩
    simp only [List.forall_mem_cons]
    exact ⟨by decide, by decide,
      fun c member => isWordChar_of_isNameChar (isNameChar_of_isHexDigit (all c member))⟩

/-- A lexeme is cut off from what follows it. -/
theorem Lexeme.atoms_append (fits : x.FitsAt expecting)
    (plain : ∀ w, x ≠ .string w) (names : ∀ n, x = .name n → n.atoms = [.ofWord n])
    (closes : ∀ updatable, expecting.after x = .operator updatable →
      ∀ b, m.head? = some b → closesOperand b)
    (opens : (∀ updatable, expecting.after x ≠ .operator updatable) → m.head? ≠ some '=') :
    Text.atoms (x.text ++ m) = x.atoms ++ m.atoms := by
  cases x with
  | string w => exact absurd rfl (plain w)
  | name n =>
    have isName : IsName n := fits.isWord
    have cut : Cut n m :=
      cut_of_closesOperand (fun a => isName.isReferenceChar_lastChar) (closes _ rfl)
    exact (Text.atoms_append cut.parted).trans (by rw [names n rfl]; rfl)
  | number n =>
    obtain ⟨nonempty, word⟩ := IsNumber.isWordChar_of_mem fits.isWord
    have cut : Cut n m := by
      refine cut_of_closesOperand (fun a last => ?_) (closes _ rfl)
      obtain ⟨d, member, last'⟩ := exists_lastChar_eq nonempty none
      obtain rfl := Option.some.inj (last'.symm.trans last)
      simp [isReferenceChar, word d member]
    exact (Text.atoms_append cut.parted).trans (by rw [atoms_of_forall_word nonempty word]; rfl)
  | operator op | update op =>
    have sign : ∀ a, lastChar none op.text = some a → isReferenceChar a = false ∧ a ≠ 'C' ∧
        a ≠ '#' := by
      cases op <;> (rintro a last; obtain rfl := Option.some.inj last; decide)
    have cut : Cut op.text m := cut_of_sign sign (opens fun _ => by simp [Expecting.after])
    have atoms : op.text.atoms = [.ofWord op.text] := by cases op <;> decide
    exact (Text.atoms_append cut.parted).trans (by rw [atoms]; rfl)
  | bar | leftParen | rightParen => exact Text.atoms_dropped (by decide) m

namespace Lexeme.FitsAt

variable {expecting : Expecting} {x : Lexeme}

theorem ne_operator (fits : (Lexeme.name n).FitsAt expecting) (updatable : Bool) :
    expecting ≠ .operator updatable := by
  rintro rfl
  exact fits

theorem quoteFree (fits : x.FitsAt expecting) (plain : ∀ w, x ≠ .string w) : QuoteFree x.text := by
  cases x with
  | string w => exact absurd rfl (plain w)
  | name n => exact IsName.quoteFree fits.isWord
  | number n => exact quoteFree_of_isNameChar (IsNumber.isNameChar fits.isWord)
  | operator op | update op => cases op <;> decide
  | bar | leftParen | rightParen => decide

end Lexeme.FitsAt

/-- No operand begins with an equals sign. -/
theorem Spread.head_ne (operand : ∀ updatable, expecting ≠ .operator updatable)
    (h : Spread t xs) (lexable : Lexable expecting xs) : t.head? ≠ some '=' := by
  have gapless : ∀ {gap rest : Text}, (∀ c ∈ gap, isLayout c) → rest.head? ≠ some '=' →
      (gap ++ rest).head? ≠ some '=' := by
    intro gap rest layout other head
    cases gap with
    | nil => exact other head
    | cons c cs =>
      obtain rfl := Option.some.inj head
      exact absurd (layout '=' (by simp)) (by decide)
  cases h with
  | @nil t layout =>
    have whole : (t ++ []).head? ≠ some '=' := gapless layout (by simp)
    rwa [List.append_nil] at whole
  | @cons gap rest x xs layout h =>
    refine gapless layout fun head => ?_
    have fits : x.FitsAt expecting := lexable.1
    cases x with
    | name n =>
      obtain ⟨c, cs, rfl, start⟩ := IsName.head fits.isWord
      obtain rfl : c = '=' := Option.some.inj head
      cases start
    | number n =>
      obtain ⟨c, cs, rfl, digit⟩ := IsNumber.head fits.isWord
      obtain rfl : c = '=' := Option.some.inj head
      cases digit
    | string w =>
      obtain ⟨isMark, -⟩ : IsQuoted w := fits.isWord
      rcases isMark with rfl | rfl <;> cases head
    | operator op | update op =>
      cases expecting with
      | operand first | tracker => exact fits
      | operator updatable => exact operand updatable rfl
    | _ => cases head

/-- The lexemes of a leaf stand for what its text stands for. -/
theorem Spread.reads (h : Spread t xs) (lexable : Lexable expecting xs)
    (names : ∀ n, .name n ∈ xs → TokenFree n)
    (edge : (∀ updatable, expecting ≠ .operator updatable) → opensWord previous)
    (fills : Fills strings m t) (quiet : Quiet operandKeywordAt previous m [])
    (reads : Reads strings keywords groups parts m.atoms tokens) (opened : StaysOpen tokens) :
    Reads strings keywords groups parts (xs.flatMap Lexeme.atoms) tokens := by
  induction h generalizing m expecting previous tokens with
  | @nil t layout =>
    have free : QuoteFree t := fun c member => isQuoteMark_eq_false_of_isLayout (layout c member)
    rw [← List.append_nil t] at fills
    obtain ⟨m, rfl, rest⟩ := fills.of_append free
    obtain rfl := rest.eq_nil
    rwa [Text.atoms_of_forall_dropped fun c member => isDropped_of_isLayout (layout c member)]
      at reads
  | @cons gap rest x xs layout spread ih =>
    obtain ⟨fits, lexable⟩ := lexable
    have free : QuoteFree gap := fun c member => isQuoteMark_eq_false_of_isLayout (layout c member)
    obtain ⟨m, rfl, behind⟩ := fills.of_append free
    rw [Text.atoms_of_forall_dropped fun c member => isDropped_of_isLayout (layout c member)]
      at reads
    have quiet := (quiet_append_iff.mp quiet).2
    have edge : (∀ updatable, expecting ≠ .operator updatable) →
        opensWord (lastChar previous gap) := by
      intro operand
      cases gap with
      | nil => exact edge operand
      | cons c cs =>
        obtain ⟨d, member, last⟩ := exists_lastChar_eq (List.cons_ne_nil c cs) previous
        rw [last]
        exact opensWord_of_opensOperand (by simp [opensOperand, layout d member])
    generalize lastChar previous gap = before at quiet edge
    have later := fun n (member : .name n ∈ xs) => names n (List.mem_cons_of_mem x member)
    by_cases string : ∃ w, x = .string w
    · obtain ⟨w, rfl⟩ := string
      obtain ⟨digits, m, tokens, rfl, rfl, fills, reads⟩ :=
        behind.of_quoted fits.isWord reads opened
      refine .plain (ih lexable later (fun operand => ?_) fills (quiet_append_iff.mp quiet).2 reads
        opened.of_cons)
      exact absurd rfl (operand false)
    · have plain : ∀ w, x ≠ .string w := fun w same => string ⟨w, same⟩
      obtain ⟨m, rfl, after⟩ := behind.of_append (Lexeme.FitsAt.quoteFree fits plain)
      have closes : ∀ updatable, expecting.after x = .operator updatable → ∀ b, m.head? = some b →
          PolicyRules.closesOperand b := by
        intro updatable operator b head
        rw [operator] at lexable
        rcases after.head_eq with same | ⟨-, mark, head', isMark⟩
        · exact spread.closesOperand lexable b (same ▸ head)
        · have closed := spread.closesOperand lexable mark head'
          rw [closesOperand_of_isQuoteMark isMark] at closed
          cases closed
      have opens : (∀ updatable, expecting.after x ≠ .operator updatable) → m.head? ≠ some '=' := by
        intro operand
        rcases after.head_eq with same | ⟨head, -⟩
        · rw [same]
          exact spread.head_ne operand lexable
        · simp [head]
      have isAtom : ∀ n, x = .name n → n.atoms = [.ofWord n] := by
        rintro n rfl
        have opened := edge (Lexeme.FitsAt.ne_operator fits)
        rw [opensWord, Bool.and_eq_true, bne_iff_ne] at opened
        refine atoms_of_isName fits.isWord (names n (by simp)) quiet opened.1 opened.2 ?_
        cases head : m.head? with
        | none => rfl
        | some b =>
          have noReference := (isReferenceChar_of_closesOperand (closes _ rfl b head)).1
          simp [isWordEdge, (Bool.or_eq_false_iff.mp noReference).1]
      rw [Lexeme.atoms_append fits plain isAtom closes opens] at reads
      obtain ⟨d, e, rfl, first, second⟩ := reads.of_append
      refine first.append (ih lexable later (fun operand => ?_) after (quiet_append_iff.mp quiet).2
        second (List.pairwise_append.mp opened).2.1)
      obtain ⟨c, cs, text_eq, -⟩ := fits.head
      obtain ⟨b, -, last⟩ := exists_lastChar_eq (u := x.text) (by simp [text_eq]) before
      rw [last]
      exact opensWord_of_opensOperand (opensOperand_lastChar operand before b last)

end Lexemes

section Phrases

variable {table : List (Text × Expr)} {tokens : List Text}

/-- Whether a table has the expressions of parts under their names, with the tokens that the parts
stand for. -/
structure Tabled (strings : List Text) (keywords : List Keyword) (parts : List Text)
    (table : List (Text × Expr)) : Prop where
  keyed : Keyed table
  each : ∀ n p inner, parts[n]? = some p → Legible strings keywords [] (parts.take n) p inner →
    StaysOpen inner →
    ∃ e, Table.value? (subexpressionToken n) table = some e ∧ e.tokens = inner

theorem Reads.of_plain {xs : List Atom}
    (h : Reads strings keywords groups parts (.plain w :: xs) tokens) :
    ∃ rest, tokens = w :: rest ∧ Reads strings keywords groups parts xs rest := by
  cases h with
  | plain rest => exact ⟨_, rfl, rest⟩

theorem Reads.eq_nil (h : Reads strings keywords groups parts [] tokens) : tokens = [] := by
  cases h
  rfl

theorem Keyed.value?_eq_none (keyed : Keyed table) (other : digitsBehind? "PLH".toList n = none) :
    Table.value? n table = none := by
  cases found : Table.value? n table with
  | none => rfl
  | some e =>
    obtain ⟨entry, isEntry, rfl⟩ := Option.map_eq_some_iff.mp found
    obtain ⟨k, key⟩ := keyed entry (Table.mem_of_find? isEntry)
    rw [Table.name_of_find? isEntry] at key
    subst key
    have digits :=
      digitsBehind?_append "PLH".toList (ofNat_ne_nil k) fun d => isDecimalDigit_of_mem_ofNat
    exact absurd (digits.symm.trans other) (by simp)

/-- The name of a tracker stands for itself. -/
theorem ofWord_of_tracker (h : (trackerReference? n).isSome) : Atom.ofWord n = .plain n := by
  have first : n.head? = some 'T' := by
    unfold trackerReference? at h
    split at h
    · next rest found =>
      rw [Text.dropStart?_eq_some_iff.mp found]
      rfl
    · split at h
      · next start =>
        obtain ⟨rest, rfl⟩ := Text.startsWith_iff_isPrefix.mp start
        rfl
      · cases h
  obtain ⟨cs, rfl⟩ : ∃ cs, n = 'T' :: cs := ⟨n.tail, List.eq_cons_of_mem_head? first⟩
  rfl

theorem ofWord_of_isNumber (h : IsNumber w) : (Lexeme.number w).atoms = [.plain w] := by
  obtain ⟨c, cs, rfl, digit⟩ := h.head
  have other : 'P' ≠ c := by
    rintro rfl
    cases digit
  have noToken : ∀ start : Text, digitsBehind? ('P' :: start) (c :: cs) = none := fun start => by
    simp [digitsBehind?, Text.dropStart?, other]
  have plain : Atom.ofWord (c :: cs) = .plain (c :: cs) := by
    rw [Atom.ofWord, show "PLA".toList = 'P' :: "LA".toList from rfl,
      show "PLH".toList = 'P' :: "LH".toList from rfl, noToken, noToken]
  exact congrArg (fun atom => [atom]) plain

/-- What a name stands for has the tokens that the name is read as. -/
theorem tokens_ofName (tabled : Tabled strings keywords parts table) (free : TokenFree n)
    (reads : Reads strings keywords groups parts [.ofWord n] tokens) (opened : StaysOpen tokens)
    (yields : (Phrase.name n).Yields table (.ok e)) : e.tokens = tokens := by
  have noToken : digitsBehind? "PLA".toList n = none := free [] n [] (by simp) rfl rfl
  cases digits : digitsBehind? "PLH".toList n with
  | none =>
    have unbound := tabled.keyed.value?_eq_none digits
    rw [Atom.ofWord, noToken, digits] at reads
    obtain ⟨rest, rfl, last⟩ := reads.of_plain
    obtain rfl := last.eq_nil
    cases yields with
    | subexpression bound =>
      rw [unbound] at bound
      cases bound
    | truth => rfl
    | name => rfl
  | some ds =>
    rw [Atom.ofWord, noToken, digits] at reads
    obtain ⟨rfl, -⟩ := digitsBehind?_eq_some digits
    cases reads with
    | @part _ _ k p inner _ _ found marked inside last =>
      obtain rfl := last.eq_nil
      rw [List.append_nil] at opened ⊢
      obtain ⟨e', bound, same⟩ := tabled.each k p inner found ⟨inside, marked⟩ opened
      have bound : Table.value? ("PLH".toList ++ Text.ofNat k) table = some e' := bound
      cases yields with
      | subexpression bound' =>
        obtain rfl := Option.some.inj (bound.symm.trans bound')
        exact same
      | truth unbound | name unbound => cases bound.symm.trans unbound

/-- What lexemes around one that stands for itself stand for. -/
theorem Reads.of_lexeme (atom : x.atoms = [.plain w])
    (h : Reads strings keywords groups parts ((xs ++ x :: ys).flatMap Lexeme.atoms) tokens)
    (opened : StaysOpen tokens) :
    ∃ d e, tokens = d ++ w :: e ∧ (Reads strings keywords groups parts (xs.flatMap Lexeme.atoms) d ∧
      StaysOpen d) ∧
      Reads strings keywords groups parts (ys.flatMap Lexeme.atoms) e ∧ StaysOpen e := by
  rw [List.flatMap_append, List.flatMap_cons, atom] at h
  obtain ⟨d, rest, rfl, first, second⟩ := h.of_append
  obtain ⟨e, rfl, last⟩ := second.of_plain
  obtain ⟨openedD, openedRest, -⟩ := List.pairwise_append.mp opened
  exact ⟨d, e, rfl, ⟨first, openedD⟩, last, openedRest.of_cons⟩

theorem Reads.of_first (atom : x.atoms = [.plain w])
    (h : Reads strings keywords groups parts ((x :: ys).flatMap Lexeme.atoms) tokens)
    (opened : StaysOpen tokens) :
    ∃ rest, tokens = w :: rest ∧
      Reads strings keywords groups parts (ys.flatMap Lexeme.atoms) rest ∧ StaysOpen rest := by
  rw [List.flatMap_cons, atom] at h
  obtain ⟨rest, rfl, last⟩ := h.of_plain
  exact ⟨rest, rfl, last, opened.of_cons⟩

/-- The tokens of two operands stand around the sign. -/
theorem tokens_binary {op : Operator} {l r : Expr}
    (left : ∀ d, Reads strings keywords groups parts (xs.flatMap Lexeme.atoms) d →
      StaysOpen d → l.tokens = d)
    (right : ∀ d, Reads strings keywords groups parts (ys.flatMap Lexeme.atoms) d →
      StaysOpen d → r.tokens = d)
    (reads : Reads strings keywords groups parts ((xs ++ .operator op :: ys).flatMap Lexeme.atoms)
      tokens) (opened : StaysOpen tokens) : (Expr.binary op l r).tokens = tokens := by
  have sign : (Lexeme.operator op).atoms = [.plain op.text] := by cases op <;> rfl
  obtain ⟨d, e, rfl, ⟨readsL, openedL⟩, readsR, openedR⟩ := reads.of_lexeme sign opened
  rw [Expr.tokens, left d readsL openedL, right e readsR openedR]

/-- An expression that is made of lexemes has the tokens that they stand for. -/
theorem Derives.tokens_eq (tabled : Tabled strings keywords parts table) {c : Category} {p : Phrase}
    (h : Derives c xs p) (yields : p.Yields table (.ok e)) (names : ∀ n, .name n ∈ xs → TokenFree n)
    (reads : Reads strings keywords groups parts (xs.flatMap Lexeme.atoms) tokens)
    (opened : StaysOpen tokens) : e.tokens = tokens := by
  have updateSign : ∀ op : UpdateOperator, (Lexeme.update op).atoms = [.plain op.text] := by
    intro op; cases op <;> rfl
  have tracker : ∀ {n : Text}, (trackerReference? n).isSome →
      (Lexeme.name n).atoms = [.plain n] := fun h =>
    congrArg (fun atom => [atom]) (ofWord_of_tracker h)
  induction h generalizing e tokens with
  | ofSum h ih | ofProduct h ih | ofAtom h ih | ofPrimary h ih => exact ih yields names reads opened
  | compare fits h h' ih ih' | add fits h h' ih ih' | multiply fits h h' ih ih' =>
    cases yields with
    | binary yieldsL yieldsR =>
      exact tokens_binary (fun d => ih yieldsL fun n member => names n (by simp [member]))
        (fun d => ih' yieldsR fun n member => names n (by simp [member])) reads opened
  | @update ys value target op name h ih =>
    cases yields with
    | update yields isTracker =>
      obtain ⟨rest, rfl, behind, openedRest⟩ := reads.of_first (tracker isTracker) opened
      obtain ⟨last, rfl, readsV, openedV⟩ := behind.of_first (updateSign op) openedRest
      rw [Expr.tokens, ih yields (fun n member => names n (by simp [member])) readsV openedV]
  | @updateMapped xs ys key value tr op h name h' ih ih' =>
    cases yields with
    | updateMapped yieldsK isTracker yieldsV =>
      have regroup : xs ++ .bar :: .name tr :: .update op :: ys =
          (xs ++ [.bar]) ++ .name tr :: .update op :: ys := by simp
      rw [regroup] at reads
      obtain ⟨d, rest, rfl, ⟨readsK, openedK⟩, behind, openedRest⟩ :=
        reads.of_lexeme (tracker isTracker) opened
      obtain ⟨last, rfl, readsV, openedV⟩ := behind.of_first (updateSign op) openedRest
      have readsK : Reads strings keywords groups parts (xs.flatMap Lexeme.atoms) d := by
        simpa [Lexeme.atoms] using readsK
      rw [Expr.tokens, ih yieldsK (fun n member => names n (by simp [member])) readsK openedK,
        ih' yieldsV (fun n member => names n (by simp [member])) readsV openedV]
  | @mapped xs key tr h name ih =>
    cases yields with
    | mapped yieldsK isTracker =>
      have regroup : xs ++ [.bar, .name tr] = (xs ++ [.bar]) ++ [.name tr] := by simp
      rw [regroup] at reads
      obtain ⟨d, rest, rfl, ⟨readsK, openedK⟩, nothing, -⟩ :=
        reads.of_lexeme (tracker isTracker) opened
      obtain rfl := nothing.eq_nil
      have readsK : Reads strings keywords groups parts (xs.flatMap Lexeme.atoms) d := by
        simpa [Lexeme.atoms] using readsK
      rw [Expr.tokens, ih yieldsK (fun n member => names n (by simp [member])) readsK openedK]
  | @name n h => exact tokens_ofName tabled (names n (by simp)) reads opened yields
  | @number w h =>
    obtain ⟨rest, rfl, nothing, -⟩ := reads.of_first (ofWord_of_isNumber h) opened
    obtain rfl := nothing.eq_nil
    cases yields
    rfl
  | @string w h =>
    obtain ⟨rest, rfl, nothing, -⟩ := reads.of_first (x := .string w) rfl opened
    obtain rfl := nothing.eq_nil
    cases yields
    rfl
  | @paren xs p h ih =>
    refine ih yields (fun n member => names n (by simp [member])) ?_ opened
    simpa [Lexeme.atoms] using reads

end Phrases

section Leaves

/-- The token of a keyword is recognised. -/
theorem keywordTokenAt_digits {digits : Text} (nonempty : digits ≠ [])
    (all : ∀ d ∈ digits, isDecimalDigit d) (before : isWordEdge previous)
    (behind : isWordEdge t.head?) :
    keywordTokenAt previous ("PLA".toList ++ digits ++ t) ≠ none := by
  have ends : EndsNumber t := fun c head => by
    cases digit : isDecimalDigit c with
    | false => rfl
    | true => simp [isWordEdge, head, isWordChar_of_isDecimalDigit digit] at behind
  have run : (digits ++ t).takeWhile isDecimalDigit = digits := takeWhile_append_of_head all ends
  have found : digitsAt? (digits ++ t) = some digits := by
    rw [digitsAt?, run, if_neg (by simpa using nonempty)]
  have start : Text.dropStart? "PLA".toList ("PLA".toList ++ digits ++ t) = some (digits ++ t) :=
    Text.dropStart?_eq_some_iff.mpr (List.append_assoc _ _ _)
  have solid : ("PLA".toList ++ digits ++ t).takeWhile isBlank = [] := by
    simp [show isBlank 'P' = false by decide]
  have rest : (digits ++ t).drop digits.length = t := List.drop_left
  simp only [keywordTokenAt, solid, List.length_nil, List.drop_zero, start, before, Bool.or_true,
    if_true, Option.bind_eq_bind, Option.bind_some, found, rest, behind]
  simp

/-- No part of an operand is the token of a keyword. -/
theorem tokenFree_of_isOperand (operand : IsOperand n none t)
    (quiet : Quiet keywordTokenAt none t []) : TokenFree n := by
  rintro x w y rfl before behind
  obtain ⟨a, b, rfl, -, opens, closes⟩ := operand
  cases found : digitsBehind? "PLA".toList w with
  | none => rfl
  | some digits =>
    obtain ⟨rfl, nonempty, all⟩ := digitsBehind?_eq_some found
    have place : a ++ (x ++ ("PLA".toList ++ digits ++ y) ++ b) =
        (a ++ x) ++ ("PLA".toList ++ digits ++ (y ++ b)) := by simp
    rw [place, quiet_append_iff] at quiet
    have edge : isWordEdge (lastChar none (a ++ x)) := by
      cases x with
      | cons c cs => rwa [lastChar_append]
      | nil =>
        rw [List.append_nil]
        cases last : lastChar none a with
        | none => rfl
        | some c =>
          have opened := opensWord_of_opensOperand (opens c last)
          exact (Bool.and_eq_true_iff.mp opened).1
    have edge' : isWordEdge (y ++ b).head? := by
      cases y with
      | cons c cs => exact behind
      | nil =>
        rw [List.nil_append]
        cases head : b.head? with
        | none => rfl
        | some c =>
          have noReference := (isReferenceChar_of_closesOperand (closes c head)).1
          simp [isWordEdge, (Bool.or_eq_false_iff.mp noReference).1]
    have quiet := quiet.2.1
    rw [List.append_nil] at quiet
    exact absurd quiet (keywordTokenAt_digits nonempty all edge edge')

/-- A leaf that is accepted has the tokens that it stands for. -/
theorem tokens_parseOperand {s : SetAside} (fillers : ∀ w ∈ s.strings, IsFiller w)
    (tabled : Tabled s.strings s.keywords parts s.subexpressions)
    (legible : Legible s.strings s.keywords s.groups parts t tokens) (opened : StaysOpen tokens)
    (h : s.parseOperand t = .ok e) : e.tokens = tokens := by
  obtain ⟨leaf, p, expanded, read, made⟩ := SetAside.parseOperand_eq_ok h
  have unmarked : Quiet keywordTokenAt none leaf [] :=
    Split.quiet_of_scan (SetAside.parseOperand_tail_eq_nil h expanded)
  obtain ⟨m, reads, quiet, fills⟩ := exists_expanded fillers legible expanded
  obtain ⟨xs, spread, lexable, sentence⟩ := sentence_of_ofText read
  have names : ∀ n, .name n ∈ xs → TokenFree n := fun n member => by
    have operand : IsOperand n none ([] ++ leaf) :=
      spread.isOperand lexable member rfl (by simp [lastChar])
    exact tokenFree_of_isOperand operand unmarked
  have lexemes := spread.reads lexable names (fun _ => rfl) fills quiet reads opened
  exact sentence.tokens_eq tabled ((Phrase.toExpr_eq_iff sentence.spelled).mp made) names
    lexemes opened

end Leaves

end PolicyRules
