import PolicyRules.Proofs.TokenWords
import PolicyRules.Reference.Extract

/-!
# References that a text has

A reference is a run of word characters and colons, and it begins where no such character comes
before it. So references never overlap, and splitting a text finds every place at which one begins
(`RunBound.mem_marks_iff`). From there the foreign calls that a text names outside quotes are
followed back into the text as it was given: cleaning blanks and leaving out quoted segments makes
no new names (`mem_callNames_of_mem_unquotedMarks`).
-/

namespace PolicyRules

variable {α : Type}

/-- Whether a character can belong to a reference. -/
def isReferenceChar (c : Char) : Bool := isWordChar c || c == ':'

@[simp] theorem isClear_none : isClear none := rfl

@[simp] theorem isClear_some (c : Char) : isClear (some c) = ! isReferenceChar c := rfl

variable {previous : Option Char} {u t name : Text} {width : Nat} {c : Char}

theorem isClear_of_isClearOfTokens (h : isClearOfTokens previous) : isClear previous := by
  cases previous with
  | none => rfl
  | some c =>
    simp only [isClearOfTokens, isClear, Option.any_some] at h ⊢
    grind

/-- A word ends wherever a reference can begin. -/
theorem isWordEdge_of_isClear (h : isClear previous) : isWordEdge previous := by
  cases previous with
  | none => rfl
  | some c =>
    simp only [isClear, isWordEdge, Option.any_some] at h ⊢
    grind

theorem lastChar_of_ne_nil (h : u ≠ []) (previous previous' : Option Char) :
    lastChar previous u = lastChar previous' u := by
  cases u with
  | nil => exact absurd rfl h
  | cons c cs => rfl

/-- The last character of a text is one of its own. -/
theorem exists_lastChar_eq (h : u ≠ []) (previous : Option Char) :
    ∃ c ∈ u, lastChar previous u = some c := by
  obtain ⟨cs, c, rfl⟩ := (List.eq_nil_or_concat u).resolve_left h
  exact ⟨c, by simp, by simp [lastChar]⟩

namespace Split

/-- A mark of a split is recognised at some place of the text. -/
theorem exists_of_mem_marks {recognise : Recogniser α} {skip : Nat}
    {a : α} (h : a ∈ (scan recognise skip previous t).marks) :
    ∃ u v width, t = u ++ v ∧ recognise (lastChar previous u) v = some (a, width) := by
  induction t generalizing skip previous with
  | nil => cases h
  | cons c cs ih =>
    have later : ∀ {skip}, a ∈ (scan recognise skip (some c) cs).marks →
        ∃ u v width, c :: cs = u ++ v ∧ recognise (lastChar previous u) v = some (a, width) := by
      intro skip member
      obtain ⟨u, v, width, rfl, found⟩ := ih member
      exact ⟨c :: u, v, width, rfl, found⟩
    cases skip with
    | succ skip => exact later h
    | zero =>
      rw [scan] at h
      split at h
      · next first width found =>
        rcases List.mem_cons.mp h with rfl | member
        · exact ⟨[], c :: cs, width, rfl, found⟩
        · exact later member
      · exact later h

end Split

/-- Whether a recogniser finds only runs of word characters and colons, where no such character
comes before. -/
structure RunBound (recognise : Recogniser α) : Prop where
  clear : ∀ {previous t a width}, recognise previous t = some (a, width) → isClear previous
  run : ∀ {previous t a width}, recognise previous t = some (a, width) →
    ∀ c ∈ t.take width, isReferenceChar c

namespace RunBound

variable {recognise : Recogniser α}

/-- No place at which a mark begins is skipped: the characters of a mark are not clear. -/
theorem mem_marks (bound : RunBound recognise) {v : Text} {a : α} {skip : Nat}
    (inside : ∀ c ∈ (u ++ v).take skip, isReferenceChar c)
    (before : 0 < skip → isClear previous = false)
    (found : recognise (lastChar previous u) v = some (a, width)) (nonempty : v ≠ []) :
    a ∈ (Split.scan recognise skip previous (u ++ v)).marks := by
  induction u generalizing skip previous with
  | nil =>
    obtain ⟨c, cs, rfl⟩ := List.exists_cons_of_ne_nil nonempty
    cases skip with
    | zero =>
      change recognise previous (c :: cs) = _ at found
      rw [List.nil_append, Split.scan, found]
      exact List.mem_cons_self
    | succ skip =>
      have blocked := before (Nat.succ_pos _)
      rw [show isClear previous = true from bound.clear found] at blocked
      cases blocked
  | cons c cs ih =>
    cases skip with
    | succ skip =>
      refine ih (fun d member => inside d (List.mem_cons_of_mem _ member)) (fun _ => ?_) found
      simp [inside c List.mem_cons_self]
    | zero =>
      rw [List.cons_append, Split.scan]
      split
      · next first width here =>
        refine List.mem_cons_of_mem _ (ih ?_ ?_ found)
        · intro d member
          refine bound.run here d ?_
          cases width with
          | zero => cases member
          | succ width => exact List.mem_cons_of_mem _ member
        · intro positive
          obtain ⟨width, rfl⟩ : ∃ k, width = k + 1 := ⟨width - 1, by omega⟩
          simp [bound.run here c List.mem_cons_self]
      · exact ih (by simp) (by simp) found

/-- The marks of a text are those that are recognised at some place. -/
theorem mem_marks_iff (bound : RunBound recognise)
    (noEmpty : ∀ previous, recognise previous [] = none) {a : α} :
    a ∈ (Split.scan recognise 0 previous t).marks ↔
      ∃ u v width, t = u ++ v ∧ recognise (lastChar previous u) v = some (a, width) := by
  refine ⟨Split.exists_of_mem_marks, ?_⟩
  rintro ⟨u, v, width, rfl, found⟩
  refine bound.mem_marks (by simp) (by simp) found ?_
  rintro rfl
  rw [noEmpty] at found
  cases found

end RunBound

/-- Whether a text is a name of the tables: a letter or underscore of ASCII, and word characters. -/
def IsTableName (name : Text) : Prop :=
  ∃ c cs, name = c :: cs ∧ isNameStart c ∧ ∀ d ∈ cs, isWordChar d

theorem IsTableName.isWordChar (h : IsTableName name) : ∀ c ∈ name, isWordChar c := by
  obtain ⟨c, cs, rfl, start, rest⟩ := h
  intro d member
  rcases List.mem_cons.mp member with rfl | later
  · exact isWordChar_of_isNameStart start
  · exact rest d later

/-- The name at the beginning of a text is as long as can be. -/
theorem nameAt?_eq_some_iff :
    nameAt? t = some name ↔ ∃ b, t = name ++ b ∧ IsTableName name ∧ isWordEdge b.head? := by
  constructor
  · intro h
    cases t with
    | nil => cases h
    | cons c cs =>
      simp only [nameAt?, Option.ite_none_right_eq_some, Option.some.injEq] at h
      obtain ⟨start, rfl⟩ := h
      refine ⟨cs.dropWhile isWordChar, by simp [List.takeWhile_append_dropWhile],
        ⟨c, _, rfl, start, fun d => List.mem_takeWhile_imp⟩, ?_⟩
      cases rest : cs.dropWhile isWordChar with
      | nil => rfl
      | cons d ds =>
        have stops := List.head_dropWhile_not isWordChar (l := cs) (by simp [rest])
        simpa [isWordEdge, rest] using stops
  · rintro ⟨b, rfl, ⟨c, cs, rfl, start, word⟩, edge⟩
    have taken : (cs ++ b).takeWhile isWordChar = cs := by
      refine takeWhile_append_of_head word fun d head => ?_
      simpa [isWordEdge, head] using edge
    simp [nameAt?, start, taken]

/-- A call is named where its reference is a word of its own. -/
theorem callNameAt_eq_some_iff : callNameAt previous t = some (name, width) ↔
      isClearOfTokens previous ∧ (∃ b, t = callPrefix ++ (name ++ b) ∧ IsTableName name ∧
        isWordEdge b.head?) ∧ width = callPrefix.length + name.length := by
  unfold callNameAt
  split
  · next clear =>
    simp only [Option.bind_eq_bind, Option.bind_eq_some_iff, Text.dropStart?_eq_some_iff,
      clear, true_and]
    constructor
    · rintro ⟨rest, rfl, name', found, same⟩
      obtain ⟨rfl, rfl⟩ := Prod.mk.inj (Option.some.inj same)
      obtain ⟨b, rfl, table, edge⟩ := nameAt?_eq_some_iff.mp found
      exact ⟨⟨b, rfl, table, edge⟩, rfl⟩
    · rintro ⟨⟨b, rfl, table, edge⟩, rfl⟩
      exact ⟨_, rfl, name, nameAt?_eq_some_iff.mpr ⟨b, rfl, table, edge⟩, rfl⟩
  · next blocked => simp [blocked]

theorem IsTableName.isReferenceChar {start : Text} (table : IsTableName name)
    (run : start.all isReferenceChar) : ∀ c ∈ start ++ name, isReferenceChar c := by
  intro c member
  rcases List.mem_append.mp member with first | second
  · exact List.all_eq_true.mp run c first
  · simp [PolicyRules.isReferenceChar, table.isWordChar c second]

/-- The name of a call is a whole run of reference characters. -/
theorem runBound_callNameAt : RunBound callNameAt where
  clear h := isClear_of_isClearOfTokens (callNameAt_eq_some_iff.mp h).1
  run h := by
    obtain ⟨-, ⟨b, rfl, table, -⟩, rfl⟩ := callNameAt_eq_some_iff.mp h
    rw [← List.length_append, ← List.append_assoc, List.take_left]
    exact table.isReferenceChar (by decide)

/-- Whether a foreign call is named at some place of a text. -/
def NamesCall (name : Text) (previous : Option Char) (t : Text) : Prop :=
  ∃ a b, t = a ++ (callPrefix ++ (name ++ b)) ∧ isClearOfTokens (lastChar previous a) ∧
    IsTableName name ∧ isWordEdge b.head?

/-- The calls that a text names are those that stand in it. -/
theorem mem_callNames_iff : name ∈ callNames t ↔ NamesCall name none t := by
  have noEmpty : ∀ previous, callNameAt previous [] = none := by
    intro previous
    simp [callNameAt, Text.dropStart?, callPrefix]
  rw [callNames, List.mem_eraseDups, Text.split, runBound_callNameAt.mem_marks_iff noEmpty]
  constructor
  · rintro ⟨u, v, width, rfl, found⟩
    obtain ⟨clear, ⟨b, rfl, table, edge⟩, -⟩ := callNameAt_eq_some_iff.mp found
    exact ⟨u, b, rfl, clear, table, edge⟩
  · rintro ⟨a, b, rfl, clear, table, edge⟩
    exact ⟨a, _, _, rfl, callNameAt_eq_some_iff.mpr ⟨clear, ⟨b, rfl, table, edge⟩, rfl⟩⟩

/-- A call that is recognised is also named. -/
theorem callNameAt_of_callAt
    (h : callAt previous t = some (name, width)) :
    ∃ width', callNameAt previous t = some (name, width') := by
  obtain ⟨⟨name', width'⟩, found, h⟩ := Option.bind_eq_some_iff.mp h
  have same : name' = name := by
    dsimp only at h
    split at h
    · exact (Prod.mk.inj (Option.some.inj h)).1
    · exact (Prod.mk.inj (Option.some.inj h)).1
  exact ⟨width', same ▸ found⟩

theorem namesCall_of_mem_marks (h : name ∈ (t.split callAt).marks) : NamesCall name none t := by
  obtain ⟨u, v, width, rfl, found⟩ := Split.exists_of_mem_marks h
  obtain ⟨width', found⟩ := callNameAt_of_callAt found
  obtain ⟨clear, ⟨b, rfl, table, edge⟩, -⟩ := callNameAt_eq_some_iff.mp found
  exact ⟨u, b, rfl, clear, table, edge⟩

/-- A text around a mark of a split, within the whole text. -/
theorem Split.exists_of_mem_plain {s : Split α} {piece : Text} (write : α → Text)
    (h : piece ∈ s.plain) :
    ∃ x y, s.render write = x ++ (piece ++ y) ∧
      (x = [] ∨ ∃ a ∈ s.marks, ∃ x', x = x' ++ write a) ∧
      (y = [] ∨ ∃ a ∈ s.marks, ∃ y', y = write a ++ y') := by
  obtain ⟨head, tail⟩ := s
  induction tail generalizing head with
  | nil =>
    obtain rfl := List.mem_singleton.mp h
    exact ⟨[], [], by simp [render], .inl rfl, .inl rfl⟩
  | cons mark rest ih =>
    rcases List.mem_cons.mp h with rfl | later
    · exact ⟨[], _, rfl, .inl rfl, .inr ⟨mark.1, by simp [marks], _, by simp; rfl⟩⟩
    · obtain ⟨x, y, same, before, behind⟩ := ih mark.2 later
      refine ⟨head ++ (write mark.1 ++ x), y, ?_, ?_, ?_⟩
      · simp only [render] at same
        simp [render, same]
      · right
        rcases before with rfl | ⟨a, member, x', rfl⟩
        · exact ⟨mark.1, by simp [marks], head, by simp⟩
        · exact ⟨a, List.mem_cons_of_mem _ member, head ++ (write mark.1 ++ x'), by simp⟩
      · rcases behind with rfl | ⟨a, member, y', rfl⟩
        · exact .inl rfl
        · exact .inr ⟨a, List.mem_cons_of_mem _ member, y', rfl⟩

/-- The marks of quoted segments are quote marks. -/
theorem isQuoteMark_of_mem_segments {q : Quotation} (h : q ∈ t.segments.marks) :
    isQuoteMark q.mark := by
  obtain ⟨u, v, width, rfl, found⟩ := Split.exists_of_mem_marks h
  cases v with
  | nil => cases found
  | cons c cs =>
    simp only [quotationAt, Option.ite_none_right_eq_some, Bool.and_eq_true, Option.some.injEq,
      Prod.mk.injEq] at found
    obtain ⟨⟨isMark, -⟩, rfl, -⟩ := found
    exact isMark

/-- A plain segment stands in the text between quote marks, or at an end. -/
theorem exists_of_mem_unquoted {piece : Text} (h : piece ∈ t.unquoted) :
    ∃ x y, t = x ++ (piece ++ y) ∧ (∀ c, lastChar none x = some c → isQuoteMark c) ∧
      ∀ c, y.head? = some c → isQuoteMark c := by
  obtain ⟨x, y, same, before, behind⟩ := Split.exists_of_mem_plain Quotation.text h
  rw [render_segments] at same
  refine ⟨x, y, same, ?_, ?_⟩
  · rcases before with rfl | ⟨q, member, x', rfl⟩
    · simp [lastChar]
    · simp [Quotation.text, lastChar, isQuoteMark_of_mem_segments member]
  · rcases behind with rfl | ⟨q, member, y', rfl⟩
    · simp
    · simp [Quotation.text, isQuoteMark_of_mem_segments member]

theorem isQuoteMark_iff : isQuoteMark c ↔ c = '"' ∨ c = '\x27' := by
  simp [isQuoteMark]

theorem isClearOfTokens_of_quoteMark
    (h : ∀ c, previous = some c → isQuoteMark c) : isClearOfTokens previous := by
  cases previous with
  | none => rfl
  | some c => rcases isQuoteMark_iff.mp (h c rfl) with rfl | rfl <;> decide

theorem isWordEdge_of_isClearOfTokens {next : Option Char} (h : isClearOfTokens next) :
    isWordEdge next :=
  isWordEdge_of_isClear (isClear_of_isClearOfTokens h)

theorem isClearOfTokens_of_isBlank (h : isBlank c) : isClearOfTokens (some c) := by
  have signs : isBlank ':' = false ∧ isBlank '#' = false := by decide
  have colon : c ≠ ':' := by
    rintro rfl
    rw [h] at signs
    cases signs.1
  have hash : c ≠ '#' := by
    rintro rfl
    rw [h] at signs
    cases signs.2
  simp [isClearOfTokens, isWordChar_eq_false_of_isBlank h, colon, hash]

namespace NamesCall

variable {name t x y : Text} {previous : Option Char}

/-- What is named in a part of a text is named in the text, if nothing around the part extends
it. -/
theorem of_part (h : NamesCall name none t) (before : isClearOfTokens (lastChar previous x))
    (behind : isClearOfTokens y.head?) : NamesCall name previous (x ++ (t ++ y)) := by
  obtain ⟨a, b, rfl, clear, table, edge⟩ := h
  refine ⟨x ++ a, b ++ y, by simp, ?_, table, ?_⟩
  · rw [lastChar_append]
    cases a with
    | nil => exact before
    | cons c cs => exact clear
  · cases b with
    | nil => exact isWordEdge_of_isClearOfTokens behind
    | cons c cs => exact edge

end NamesCall

/-- A text is its stripped text with blanks around it. -/
theorem Text.exists_append_strip (t : Text) :
    ∃ before behind, t = before ++ (Text.strip t ++ behind) ∧
    (∀ c ∈ before, isBlank c) ∧ ∀ c ∈ behind, isBlank c := by
  refine ⟨t.takeWhile isBlank, ((t.dropWhile isBlank).reverse.takeWhile isBlank).reverse, ?_,
    fun c => List.mem_takeWhile_imp, fun c member => List.mem_takeWhile_imp
      (List.mem_reverse.mp member)⟩
  rw [Text.strip, ← List.reverse_append, List.takeWhile_append_dropWhile, List.reverse_reverse,
    List.takeWhile_append_dropWhile]

theorem isClearOfTokens_lastChar_of_isBlank (blank : ∀ c ∈ u, isBlank c) :
    isClearOfTokens (lastChar none u) := by
  by_cases empty : u = []
  · subst empty
    rfl
  · obtain ⟨c, member, last⟩ := exists_lastChar_eq empty none
    rw [last]
    exact isClearOfTokens_of_isBlank (blank c member)

theorem isClearOfTokens_head_of_isBlank (blank : ∀ c ∈ u, isBlank c) : isClearOfTokens u.head? := by
  cases u with
  | nil => rfl
  | cons c cs => exact isClearOfTokens_of_isBlank (blank c List.mem_cons_self)

/-- Stripping blanks brings no call in. -/
theorem NamesCall.of_strip (h : NamesCall name none (Text.strip t)) : NamesCall name none t := by
  obtain ⟨before, behind, same, left, right⟩ := Text.exists_append_strip t
  rw [same]
  exact h.of_part (isClearOfTokens_lastChar_of_isBlank left) (isClearOfTokens_head_of_isBlank right)

section

/-- A squeezed text begins with a space if the text begins with a blank. -/
theorem squeeze_cons_of_isBlank (blank : isBlank c) (cs : Text) :
    ∃ rest, Text.squeeze (c :: cs) = ' ' :: rest := by
  induction cs generalizing c with
  | nil => exact ⟨[], by simp [Text.squeeze, blank]⟩
  | cons d ds ih =>
    rw [Text.squeeze, if_pos blank]
    by_cases next : isBlank d
    · simpa [next] using ih next
    · exact ⟨_, by simp [next]; rfl⟩

/-- What a squeezed text begins with, up to its first blank, the text begins with. -/
theorem exists_append_of_squeeze {w b : Text} (solid : ∀ c ∈ w, isBlank c = false)
    (h : Text.squeeze t = w ++ b) :
    ∃ b', t = w ++ b' ∧ (isWordEdge b.head? → isWordEdge b'.head?) := by
  induction w generalizing t with
  | nil =>
    refine ⟨t, rfl, fun edge => ?_⟩
    cases t with
    | nil => rfl
    | cons c cs =>
      by_cases blank : isBlank c
      · exact isWordEdge_of_isClearOfTokens (isClearOfTokens_of_isBlank blank)
      · rw [Text.squeeze, if_neg blank, List.nil_append] at h
        rw [← h] at edge
        exact edge
  | cons d w ih =>
    cases t with
    | nil => cases h
    | cons c cs =>
      by_cases blank : isBlank c
      · obtain ⟨rest, spaced⟩ := squeeze_cons_of_isBlank blank cs
        rw [spaced] at h
        obtain ⟨rfl, -⟩ := List.cons.inj h
        have solidSpace := solid ' ' List.mem_cons_self
        rw [isBlank_space] at solidSpace
        cases solidSpace
      · rw [Text.squeeze, if_neg blank] at h
        obtain ⟨rfl, rest⟩ := List.cons.inj h
        obtain ⟨b', rfl, edge⟩ := ih (fun e member => solid e (List.mem_cons_of_mem _ member)) rest
        exact ⟨b', rfl, edge⟩

theorem isBlank_eq_false_of_isReferenceChar (h : isReferenceChar c) : isBlank c = false := by
  cases blank : isBlank c with
  | false => rfl
  | true =>
    have clear := isClear_of_isClearOfTokens (isClearOfTokens_of_isBlank blank)
    rw [isClear_some, h] at clear
    cases clear

theorem NamesCall.cons {cs : Text} (h : NamesCall name (some c) cs) :
    NamesCall name previous (c :: cs) := by
  obtain ⟨a, b, rfl, clear, table, edge⟩ := h
  exact ⟨c :: a, b, rfl, clear, table, edge⟩

/-- Squeezing blanks makes no new names, since no name has a blank in it. -/
theorem NamesCall.of_squeeze {previous' : Option Char}
    (same : isClearOfTokens previous → isClearOfTokens previous')
    (h : NamesCall name previous (Text.squeeze t)) : NamesCall name previous' t := by
  induction t generalizing previous previous' with
  | nil =>
    obtain ⟨a, b, empty, -⟩ := h
    simp [Text.squeeze, callPrefix] at empty
  | cons c cs ih =>
    rw [Text.squeeze] at h
    split at h
    · next blank =>
      have clear : isClearOfTokens (some c) := isClearOfTokens_of_isBlank blank
      split at h
      · exact .cons (ih (fun _ => clear) h)
      · obtain ⟨a, b, e, before, table, edge⟩ := h
        cases a with
        | nil => simp [callPrefix] at e
        | cons d a =>
          obtain ⟨rfl, rest⟩ := List.cons.inj e
          exact .cons (ih (fun _ => clear) ⟨a, b, rest, before, table, edge⟩)
    · next blank =>
      obtain ⟨a, b, e, before, table, edge⟩ := h
      cases a with
      | nil =>
        have solid : ∀ d ∈ callPrefix ++ name, isBlank d = false := fun d member =>
          isBlank_eq_false_of_isReferenceChar (table.isReferenceChar (by decide) d member)
        have whole : Text.squeeze (c :: cs) = (callPrefix ++ name) ++ b := by
          rw [Text.squeeze, if_neg blank, e]
          simp
        obtain ⟨b', found, edge'⟩ := exists_append_of_squeeze solid whole
        exact ⟨[], b', by simpa using found, same before, table, edge' edge⟩
      | cons d a =>
        obtain ⟨rfl, rest⟩ := List.cons.inj e
        exact .cons (ih id ⟨a, b, rest, before, table, edge⟩)

end

/-- The foreign calls that a text names outside quotes, once it is cleaned, are among the calls that
it names at all. -/
theorem mem_callNames_of_mem_unquotedMarks {source : Text}
    (h : name ∈ unquotedMarks callAt (Text.clean source)) : name ∈ callNames source := by
  obtain ⟨piece, member, marked⟩ := List.mem_flatMap.mp h
  obtain ⟨x, y, same, before, behind⟩ := exists_of_mem_unquoted member
  have cleaned : NamesCall name none (Text.clean source) := by
    rw [same]
    exact (namesCall_of_mem_marks marked).of_part (isClearOfTokens_of_quoteMark before)
      (isClearOfTokens_of_quoteMark behind)
  exact mem_callNames_iff.mpr (cleaned.of_strip.of_squeeze id)

end PolicyRules
