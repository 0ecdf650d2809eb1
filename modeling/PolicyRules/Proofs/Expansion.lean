import PolicyRules.Proofs.Operands
import PolicyRules.Proofs.ReadingStages

/-!
# Putting groups and strings back

A leaf is read with its groups and strings put back. What it stands for can still be told from the
text in which only the groups have been put back (`Fills`), since the token of a string is cut off
from what stands around it.

Main statement: a text with groups and strings put back stands for what it stood for before
(`exists_expanded`).
-/

namespace PolicyRules

variable {strings : List Text} {keywords : List Keyword} {groups parts : List Text}
  {previous p : Option Char} {t : Text}

section Fills

/-- Whether the second text is the first with strings put back in the place of some tokens. What is
put back is a quoted string in which no string is named. -/
inductive Fills (strings : List Text) : Text → Text → Prop
  | nil : Fills strings [] []
  | char (c : Char) {m t : Text} (rest : Fills strings m t) : Fills strings (c :: m) (c :: t)
  | string {digits w m t : Text} (nonempty : digits ≠ [])
    (all : ∀ d ∈ digits, isDecimalDigit d) (found : tokenEntry strings digits = .ok w)
    (filler : IsFiller w) (ends : EndsNumber m) (rest : Fills strings m t) :
    Fills strings (TokenKind.string.start ++ digits ++ m) (w ++ t)

namespace Fills

variable {m m' t t' u : Text}

theorem refl (t : Text) : Fills strings t t := by
  induction t with
  | nil => exact .nil
  | cons c cs ih => exact .char c ih

theorem append (h : Fills strings m t) (h' : Fills strings m' t') (ends : EndsNumber m') :
    Fills strings (m ++ m') (t ++ t') := by
  induction h with
  | nil => exact h'
  | char c _ ih => exact .char c ih
  | string nonempty all found filler ends' _ ih =>
    rw [List.append_assoc, List.append_assoc _ _ t']
    exact .string nonempty all found filler (ends'.append ends) ih

/-- A group with strings put back in it is put back between texts. -/
theorem parenthesized (inner : Fills strings m t) (behind : Fills strings m' t') (before : Text) :
    Fills strings (before ++ '(' :: (m ++ ')' :: m')) (before ++ ('(' :: t ++ [')'] ++ t')) := by
  have inside := inner.append (behind.char ')') (endsNumber_cons (by decide) _)
  have around := (refl before).append (inside.char '(') (endsNumber_cons (by decide) _)
  simpa using around

/-- A text without quotation marks has nothing put back in it. -/
theorem of_append (free : QuoteFree u) (h : Fills strings m (u ++ t)) :
    ∃ m', m = u ++ m' ∧ Fills strings m' t := by
  induction u generalizing m with
  | nil => exact ⟨m, rfl, h⟩
  | cons c cs ih =>
    generalize same : c :: cs ++ t = whole at h
    cases h with
    | nil => cases same
    | char c' rest =>
      obtain ⟨rfl, rfl⟩ := List.cons.inj same
      obtain ⟨m', rfl, later⟩ := ih (fun d member => free d (by simp [member])) rest
      exact ⟨m', rfl, later⟩
    | @string digits w m t' nonempty all found filler ends rest =>
      obtain ⟨mark, body, rfl, isMark⟩ := filler.head
      obtain ⟨rfl, -⟩ := List.cons.inj same
      rw [free c (by simp)] at isMark
      cases isMark

/-- The token of a string in the second text stands in the first. -/
theorem cut {d : Char} {rest : Text} (digit : isDecimalDigit d)
    (h : Fills strings m (u ++ 'q' :: ':' :: d :: rest)) :
    ∃ a b, m = a ++ b ∧ Fills strings a u ∧ Fills strings b ('q' :: ':' :: d :: rest) := by
  generalize same : u ++ 'q' :: ':' :: d :: rest = whole at h
  induction h generalizing u with
  | nil => simp at same
  | @char c m t later ih =>
    cases u with
    | nil => exact ⟨[], c :: m, rfl, .nil, by simpa [← same] using later.char c⟩
    | cons x u =>
      obtain ⟨rfl, rest_eq⟩ := List.cons.inj same
      obtain ⟨a, b, rfl, first, second⟩ := ih rest_eq
      exact ⟨_, b, rfl, first.char x, second⟩
  | @string digits w m t nonempty all found filler ends later ih =>
    rcases List.append_eq_append_iff.mp same.symm with ⟨v, rfl, rest_eq⟩ | ⟨v, w_eq, rest_eq⟩
    · obtain ⟨a, b, rfl, first, second⟩ := ih rest_eq.symm
      refine ⟨_, b, (List.append_assoc _ a b).symm, .string nonempty all found filler ?_ first,
        second⟩
      cases a with
      | nil => simp [EndsNumber]
      | cons c cs => exact ends
    · obtain rfl : v = [] := filler.eq_nil_of_token digit w_eq rest_eq
      obtain rfl : w = u := by simpa using w_eq
      have whole : Fills strings (TokenKind.string.start ++ digits ++ []) (w ++ []) :=
        .string nonempty all found filler (by simp [EndsNumber]) .nil
      refine ⟨TokenKind.string.start ++ digits, m, rfl, by simpa using whole, ?_⟩
      simpa [rest_eq] using later

theorem eq_nil (h : Fills strings m []) : m = [] := by
  generalize same : [] = t at h
  cases h with
  | nil => rfl
  | char c rest => cases same
  | string nonempty all found filler ends rest =>
    obtain ⟨mark, body, rfl, -⟩ := filler.head
    cases same

theorem endsNumber (h : Fills strings m t) (ends : EndsNumber t) : EndsNumber m := by
  cases h with
  | nil | char c rest => exact ends
  | string nonempty all found filler ends' rest =>
    intro c head
    obtain rfl : 'q' = c := Option.some.inj head
    decide

end Fills

theorem endsNumber_of_numberedAt {letter : Char} {digits : Text} {width : Nat}
    (h : numberedAt letter previous (letter :: ':' :: (digits ++ t)) = some (digits, width)) :
    EndsNumber t := by
  unfold numberedAt at h
  obtain ⟨-, h⟩ := Option.ite_none_right_eq_some.mp h
  obtain ⟨rest, start, h⟩ := Option.bind_eq_some_iff.mp h
  obtain ⟨digits', found, h⟩ := Option.bind_eq_some_iff.mp h
  obtain ⟨rfl, -⟩ := Prod.mk.inj (Option.some.inj h)
  obtain rfl : digits' ++ t = rest := by simpa using Text.dropStart?_eq_some_iff.mp start
  have run : (digits' ++ t).takeWhile isDecimalDigit = digits' := by
    unfold digitsAt? at found
    dsimp only at found
    exact Option.some.inj (Option.ite_none_left_eq_some.mp found).2
  intro c head
  obtain ⟨cs, rfl⟩ : ∃ cs, t = c :: cs := ⟨t.tail, List.eq_cons_of_mem_head? head⟩
  have all : ∀ d ∈ digits', isDecimalDigit d := fun d member =>
    List.mem_takeWhile_imp (run.symm ▸ member)
  rw [List.takeWhile_append_of_pos all, List.takeWhile_cons] at run
  cases digit : isDecimalDigit c with
  | false => rfl
  | true => simp [digit] at run

/-- Putting strings back once more, where those that are named can be put back. -/
theorem fills_of_renderM {m t' : Text} {s : Split Text} (fills : Fills strings m t)
    (fillers : ∀ a digits b w, m = a ++ (TokenKind.string.start ++ (digits ++ b)) → digits ≠ [] →
      (∀ d ∈ digits, isDecimalDigit d) → EndsNumber b → tokenEntry strings digits = .ok w →
      IsFiller w)
    (scanned : Scans stringTokenAt previous t s) (h : s.renderM (tokenEntry strings) = .ok t') :
    Fills strings m t' := by
  induction scanned generalizing m t' with
  | text quiet =>
    obtain rfl := Split.renderM_nil_eq_ok h
    exact fills
  | @mark previous u w t next digits tail quiet nonempty found rest ih =>
    obtain ⟨v, t', entry, later, rfl⟩ := Split.renderM_cons_eq_ok h
    obtain ⟨rfl, some, all, -⟩ := numberedAt_append_eq_some found
    have ends := endsNumber_of_numberedAt found
    obtain ⟨d, ds, rfl⟩ := List.exists_cons_of_ne_nil some
    obtain ⟨a, b, rfl, first, second⟩ := fills.cut (all d (by simp))
    have token : QuoteFree ('q' :: ':' :: d :: ds) := by
      simp only [QuoteFree, List.forall_mem_cons]
      refine ⟨by decide, by decide, isQuoteMark_eq_false_of_isDecimalDigit (all d (by simp)),
        fun c member => ?_⟩
      exact isQuoteMark_eq_false_of_isDecimalDigit (all c (by simp [member]))
    obtain ⟨m, rfl, behind⟩ := second.of_append token
    have ends' := behind.endsNumber ends
    have filler := fillers a (d :: ds) m v rfl some all ends' entry
    have filled :=
      ih behind (fun a' digits b w same => fillers (a ++ 'q' :: ':' :: d :: ds ++ a') digits b w (by
      simp [same])) later
    exact first.append (Fills.string some all entry filler ends' filled)
      (endsNumber_cons (by decide) _)

end Fills

section Expanded

/-- Recognises a logical keyword, except directly behind a group. -/
def operandKeywordAt : Recogniser Keyword := fun previous t =>
  if previous = some ')' then none else keywordAt previous t

theorem operandKeywordAt_eq_none (h : keywordAt previous t = none) :
    operandKeywordAt previous t = none := by
  simp [operandKeywordAt, h]

theorem quiet_append_iff {α : Type} {recognise : Recogniser α} {u v : Text} :
    Quiet recognise previous (u ++ v) t ↔
      Quiet recognise previous u (v ++ t) ∧ Quiet recognise (lastChar previous u) v t := by
  induction u generalizing previous with
  | nil => simp [Quiet, lastChar]
  | cons c cs ih => simp [Quiet, lastChar, ih, and_assoc]

/-- Keywords are not looked for directly behind a group, and what follows a word does not matter. -/
theorem quiet_operandKeywordAt {p' : Option Char} {x y y' : Text} (quiet : Quiet keywordAt p x y)
    (before : p' = p ∨ p' = some ')') (parted :
    WordParted x y) (parted' : WordParted x y') : Quiet operandKeywordAt p' x y' := by
  induction x generalizing p p' with
  | nil => trivial
  | cons c cs ih =>
    have shorter : ∀ {z : Text}, WordParted (c :: cs) z → WordParted cs z :=
      fun apart a b last => by
        refine apart a b (lastChar_eq_some_of_suffix ?_ (List.suffix_cons c cs) last)
        rintro rfl
        cases last
    refine ⟨?_, ih quiet.2 (.inl rfl) (shorter parted) (shorter parted')⟩
    rcases before with rfl | rfl
    · refine operandKeywordAt_eq_none ?_
      rw [parted'.keywordAt_append (by simp), ← parted.keywordAt_append (by simp)]
      exact quiet.1
    · rfl

/-- What stands around a text does not matter, if no word goes on there. -/
theorem quiet_operandKeywordAt_parenthesized {p' : Option Char} {x : Text}
    (same : ∀ t, operandKeywordAt p t = operandKeywordAt p' t)
    (quiet : Quiet operandKeywordAt p x []) (y : Text) :
    Quiet operandKeywordAt p' x (')' :: y) := by
  induction x generalizing p p' with
  | nil => trivial
  | cons c cs ih =>
    refine ⟨?_, ih (fun _ => rfl) quiet.2⟩
    have parted : WordParted (c :: cs) (')' :: y) := wordParted_of_not_word (by decide) _ _
    have here : operandKeywordAt p (c :: cs) = none := by simpa using quiet.1
    rw [← same, operandKeywordAt, parted.keywordAt_append (by simp)]
    exact here

/-- A text in which groups have been put back, and strings only in `t`. -/
structure Expanded (strings : List Text) (keywords : List Keyword) (groups parts : List Text)
    (tokens : List Text) (m t : Text) : Prop where
  reads : Reads strings keywords groups parts m.atoms tokens
  quiet : Quiet operandKeywordAt none m []
  fills : Fills strings m t

/-- Putting groups back keeps what a text stands for. -/
theorem exists_opened {expand : Text → Except Error Text}
    (each : ∀ g inner t, Legible strings keywords groups parts g inner → expand g = .ok t →
      ∃ m, Expanded strings keywords groups parts inner m t)
    {t' : Text} {s : Split Text} {tokens : List Text} (scanned : Scans groupTokenAt previous t s)
    (reads : Reads strings keywords groups parts t.atoms tokens) (quiet : Quiet keywordAt p t [])
    (h : s.renderM (fun digits => do
      let group ← tokenEntry groups digits
      return '(' :: (← expand group) ++ [')']) = .ok t') (p' : Option Char) (before : p' = p ∨
        p' = some ')') :
    ∃ m, Reads strings keywords groups parts m.atoms tokens ∧ Quiet operandKeywordAt p' m [] ∧
      Fills strings m t' := by
  induction scanned generalizing tokens t' p p' with
  | @text previous t _ =>
    obtain rfl := Split.renderM_nil_eq_ok h
    have alone : WordParted t' [] := fun _ _ _ head => by cases head
    exact ⟨t', reads, quiet_operandKeywordAt quiet before alone alone, .refl t'⟩
  | @mark previous a w t next digits tail _ nonempty found rest ih =>
    obtain ⟨v, t', entry, later, rfl⟩ := Split.renderM_cons_eq_ok h
    obtain ⟨g, named, inside⟩ := bind_eq_ok_iff.mp entry
    obtain ⟨inner, expanded, written⟩ := bind_eq_ok_iff.mp inside
    obtain rfl := pure_eq_ok_iff.mp written
    obtain ⟨rfl, some, all, clear⟩ := numberedAt_append_eq_some found
    have ends := endsNumber_of_numberedAt found
    have atoms := Text.atoms_append_token .group (by simp) some all ends a
    have whole : a ++ ('i' :: ':' :: digits ++ t) = a ++ (TokenKind.group.start ++ digits ++ t) :=
      rfl
    rw [whole, atoms] at reads
    obtain ⟨d, e, rfl, first, second⟩ := reads.of_append
    rw [quiet_append_iff, quiet_append_iff] at quiet
    obtain ⟨quietA, -, quietT⟩ := quiet
    cases second with
    | @group _ _ n g' inner' _ e listed marked reads' last =>
      obtain rfl : g' = g := Option.some.inj (listed.symm.trans (getElem?_of_tokenEntry named))
      obtain ⟨mg, readsG, quietG, fillsG⟩ := each g' inner' inner ⟨reads', marked⟩ expanded
      obtain ⟨mt, readsT, quietT', fillsT⟩ := ih last quietT later (.some ')') (.inr rfl)
      refine ⟨a ++ '(' :: (mg ++ ')' :: mt), ?_, ?_, ?_⟩
      · rw [Text.atoms_append_dropped (by decide), Text.atoms_append_dropped (by decide)]
        exact first.append (readsG.append readsT)
      · have partedA : WordParted a ('i' :: ':' :: (Text.ofNat n ++ t) ++ []) := by
          intro b c last _ word
          have last' : lastChar previous a = .some b := by
            cases a with
            | nil => cases last
            | cons x xs => exact last
          simp [last', isClear, word] at clear
        have opening : operandKeywordAt (lastChar p' a) ('(' :: (mg ++ ')' :: mt) ++ []) = none :=
          operandKeywordAt_eq_none (keywordAt_of_not_word (by decide) _ _)
        have closing : operandKeywordAt (lastChar (.some '(') mg) (')' :: mt ++ []) = none :=
          operandKeywordAt_eq_none (keywordAt_of_not_word (by decide) _ _)
        have edge : isWordEdge none = isWordEdge (.some '(') := by decide
        have alike : ∀ t, operandKeywordAt none t = operandKeywordAt (.some '(') t := fun t => by
          simp [operandKeywordAt, keywordAt, edge]
        refine quiet_append_iff.mpr
          ⟨quiet_operandKeywordAt quietA before partedA (wordParted_of_not_word (by decide) _ _),
            opening, quiet_append_iff.mpr ⟨?_, closing, quietT'⟩⟩
        exact quiet_operandKeywordAt_parenthesized alike quietG _
      · exact fillsG.parenthesized fillsT a

/-- Putting groups and strings back keeps what a text stands for. -/
theorem exists_expanded {s : SetAside} (fillers : ∀ w ∈ s.strings, IsFiller w) {depth : Nat}
    {u : Text} {tokens : List Text} (legible : Legible s.strings s.keywords s.groups parts u tokens)
    (h : s.expandWithin depth u = .ok t) :
    ∃ m, Expanded s.strings s.keywords s.groups parts tokens m t := by
  induction depth generalizing u t tokens with
  | zero => cases h
  | succ depth ih =>
    obtain ⟨opened, renderGroups, renderStrings⟩ := bind_eq_ok_iff.mp h
    have quiet : Quiet keywordAt none u [] :=
      Split.quiet_of_scan (List.map_eq_nil_iff.mp legible.marked)
    have scanned : Scans groupTokenAt none u (u.split groupTokenAt) :=
      Split.scans (measured_numberedAt 'i') none u
    obtain ⟨m, reads, still, fills⟩ :=
      exists_opened (fun g inner t legible expanded => ih legible expanded) scanned legible.reads
        quiet renderGroups none (.inl rfl)
    have scanned' : Scans stringTokenAt none opened (opened.split stringTokenAt) :=
      Split.scans (measured_numberedAt 'q') none opened
    exact ⟨m, reads, still, fills_of_renderM fills (fun _ _ _ w _ _ _ _ entry => fillers w
      (mem_of_tokenEntry entry)) scanned' renderStrings⟩

end Expanded

end PolicyRules
