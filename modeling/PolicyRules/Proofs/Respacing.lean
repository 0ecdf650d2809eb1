import PolicyRules.Proofs.Cleaning
import PolicyRules.Proofs.LikeLeaves

/-!
# Lexemes and the blanks between them

A leaf expression without quotation marks has the same lexemes if the blanks in it are squeezed and
those at its ends are taken away, and something that no lexeme runs into is written behind it. What
is found at a place depends on the run of characters up to the next blank or parenthesis only, and
squeezing does not change such runs.

Main statements: `Lexed.clean_append`, and `exists_lexed_iff` for reading phrases by their lexemes.
-/

namespace PolicyRules

/-- How a text is read as lexemes: each of them is found at its place, and between them is white
space. -/
inductive Lexed : Expecting → Text → List Lexeme → Prop
  | nil {e : Expecting} {t : Text} (layout : ∀ c ∈ t, isLayout c) : Lexed e t []
  | cons {e : Expecting} {gap rest : Text} {x : Lexeme} {xs : List Lexeme}
    (layout : ∀ c ∈ gap, isLayout c) (found : e.lexeme? (x.text ++ rest) = some x)
    (h : Lexed (e.after x) rest xs) :
    Lexed e (gap ++ (x.text ++ rest)) (x :: xs)

theorem readLexemes_layout {gap : Text} (layout : ∀ c ∈ gap, isLayout c) (position : Nat)
    (e : Expecting) (t : Text) :
    readLexemes 0 position e (gap ++ t) = readLexemes 0 (position + gap.length) e t := by
  induction gap generalizing position with
  | nil => rfl
  | cons c cs ih =>
    obtain ⟨here, later⟩ := List.forall_mem_cons.mp layout
    rw [List.cons_append, readLexemes, if_pos here, ih later, List.length_cons, Nat.add_assoc,
      Nat.add_comm 1]

namespace Lexed

variable {e : Expecting} {t : Text} {x : Lexeme} {xs ys : List Lexeme}

theorem layout_cons {c : Char} (isLayout : isLayout c) (h : Lexed e t xs) :
    Lexed e (c :: t) xs := by
  cases h with
  | nil layout => exact .nil (List.forall_mem_cons.mpr ⟨isLayout, layout⟩)
  | cons layout found h => exact .cons (List.forall_mem_cons.mpr ⟨isLayout, layout⟩) found h

/-- A text that begins with a lexeme. -/
theorem of_found (found : e.lexeme? (x.text ++ t) = some x) (h : Lexed (e.after x) t xs) :
    Lexed e (x.text ++ t) (x :: xs) := by
  have whole : Lexed e ([] ++ (x.text ++ t)) (x :: xs) := .cons (by simp) found h
  exact whole

theorem lexeme (fits : x.FitsAt e) (ends : x = .leftParen ∨ EndsWord t)
    (h : Lexed (e.after x) t xs) : Lexed e (x.text ++ t) (x :: xs) :=
  .of_found (lexeme?_append fits ends) h

theorem lexes (h : Lexed e t xs) : Lexes e t xs := by
  induction h with
  | @nil e t layout =>
    intro position
    have skipped := readLexemes_layout layout position e []
    rw [List.append_nil] at skipped
    rw [skipped]
    exact ⟨rfl, rfl⟩
  | @cons e gap rest x xs layout found h ih =>
    intro position
    rw [readLexemes_layout layout, readLexemes_lexeme (lexeme?_sound found).1 found]
    obtain ⟨found_eq, stopped⟩ := ih (position + gap.length + x.text.length)
    exact ⟨by rw [List.map_cons, found_eq], stopped⟩

/-- A text has only one list of lexemes. -/
theorem eq (h : Lexed e t xs) (h' : Lexed e t ys) : xs = ys :=
  (h.lexes 0).1.symm.trans (h'.lexes 0).1

/-- What is read to the end is lexed. -/
theorem of_readLexemes {skip position : Nat} (h : (readLexemes skip position e t).stopped = none) :
    Lexed e (t.drop skip) ((readLexemes skip position e t).found.map Prod.snd) := by
  induction t generalizing skip position e with
  | nil => exact .nil (by simp)
  | cons c cs ih =>
    cases skip with
    | succ skip => exact ih h
    | zero =>
      rw [readLexemes] at h ⊢
      by_cases layout : isLayout c
      · rw [if_pos layout] at h ⊢
        exact (ih h).layout_cons layout
      · rw [if_neg layout] at h ⊢
        split at h
        · cases h
        · next x found =>
          obtain ⟨fits, rest, text_eq⟩ := lexeme?_sound found
          obtain ⟨d, ds, x_eq, -⟩ := fits.head
          have behind : cs.drop (x.text.length - 1) = rest := by
            rw [x_eq, List.cons_append] at text_eq
            obtain ⟨-, rfl⟩ := List.cons.inj text_eq
            simp [x_eq]
          have later := ih h
          rw [behind] at later
          rw [← text_eq] at found
          rw [List.drop_zero, ← text_eq]
          exact .of_found found later

end Lexed

section Runs

/-- Whether a character is between runs of characters. -/
def separates (c : Char) : Bool := isBlank c || c == '(' || c == ')'

/-- The run of characters at the beginning of a text. -/
def leadingRun (t : Text) : Text := t.takeWhile (! separates ·)

theorem joins_eq_false_of_separates {b : Char} (h : separates b) (a : Char) :
    joins a b = false := by
  have apart : isReferenceChar b = false ∧ b ≠ '#' ∧ b.isDigit = false ∧ b ≠ '=' := by
    simp only [separates, Bool.or_eq_true, beq_iff_eq] at h
    rcases h with (blank | rfl) | rfl
    · have clear := isClearOfTokens_of_isBlank blank
      have digit : b.isDigit = false := by
        cases digit : b.isDigit with
        | false => rfl
        | true =>
          rw [isClearOfTokens, Option.any_some,
            isWordChar_of_isDecimalDigit (isDecimalDigit_of_isDigit digit)] at clear
          cases clear
      refine ⟨?_, ?_, digit, ?_⟩
      · simpa only [isClear_some, Bool.not_eq_true'] using isClear_of_isClearOfTokens clear
      · rintro rfl
        cases clear
      · rintro rfl
        cases blank
    · decide
    · decide
  simp [joins, apart]

/-- What is found at a place is found in the run of characters that begins there. -/
theorem lexeme?_leadingRun {c : Char} (solid : separates c = false) (plain : isQuoteMark c = false)
    (e : Expecting) (t : Text) : e.lexeme? (c :: t) = e.lexeme? (leadingRun (c :: t)) := by
  have cut : Cut (leadingRun (c :: t)) ((c :: t).dropWhile (! separates ·)) := by
    intro a b _ head
    apply joins_eq_false_of_separates
    have stops := List.head?_dropWhile_not (! separates ·) (c :: t)
    rw [head] at stops
    simpa using stops
  have begins : (leadingRun (c :: t)).head? = some c := by simp [leadingRun, solid]
  rw [← cut.lexeme?_append begins plain, leadingRun, List.takeWhile_append_dropWhile]

/-- A text with its blanks squeezed and those at its end taken away. -/
def squeezeEnd (t : Text) : Text := (Text.squeeze t).rdropWhile isBlank

variable {gap rest t u v : Text}

/-- Blanks are squeezed on each side of a solid word. -/
theorem squeeze_of_solid (solid : ∀ c ∈ u, isBlank c = false) (gap rest : Text)
    (nonempty : u ≠ []) :
    Text.squeeze (gap ++ (u ++ rest)) = Text.squeeze gap ++ (u ++ Text.squeeze rest) := by
  induction u generalizing gap with
  | nil => exact absurd rfl nonempty
  | cons c cs ih =>
    obtain ⟨here, later⟩ := List.forall_mem_cons.mp solid
    rw [List.cons_append, squeeze_append_cons here]
    cases cs with
    | nil => rfl
    | cons d ds =>
      have inside := ih later [] (by simp)
      rw [List.nil_append] at inside
      rw [inside]
      rfl

theorem rdropWhile_of_solid (solid : ∀ c ∈ u, isBlank c = false) (nonempty : u ≠ [])
    (before rest : Text) :
    (before ++ (u ++ rest)).rdropWhile isBlank = before ++ (u ++ rest.rdropWhile isBlank) := by
  obtain ⟨init, c, same⟩ := (List.eq_nil_or_concat u).resolve_left nonempty
  rw [List.concat_eq_append] at same
  have whole : before ++ u = (before ++ init) ++ [c] := by rw [same, List.append_assoc]
  rw [← List.append_assoc, Shows.rdropWhile_append_solid whole (solid c (by simp [same])),
    List.append_assoc]

theorem blank_squeeze (blank : ∀ c ∈ gap, isBlank c) : ∀ c ∈ Text.squeeze gap, c = ' ' := by
  induction gap with
  | nil => simp [Text.squeeze]
  | cons c cs ih =>
    obtain ⟨here, later⟩ := List.forall_mem_cons.mp blank
    rw [Text.squeeze, if_pos here]
    split
    · exact ih later
    · exact List.forall_mem_cons.mpr ⟨rfl, ih later⟩

theorem squeezeEnd_of_blank (blank : ∀ c ∈ t, isBlank c) : squeezeEnd t = [] := by
  rw [squeezeEnd, List.rdropWhile_eq_nil_iff]
  intro c member
  rw [blank_squeeze blank c member]
  rfl

theorem squeezeEnd_of_solid (solid : ∀ c ∈ u, isBlank c = false) (nonempty : u ≠ [])
    (gap rest : Text) :
    squeezeEnd (gap ++ (u ++ rest)) = Text.squeeze gap ++ (u ++ squeezeEnd rest) := by
  rw [squeezeEnd, squeeze_of_solid solid gap rest nonempty, rdropWhile_of_solid solid nonempty]
  rfl

/-- Cleaning leaves a solid word at the front. -/
theorem clean_of_solid (blank : ∀ c ∈ gap, isBlank c) (solid : ∀ c ∈ u, isBlank c = false)
    (nonempty : u ≠ []) (rest : Text) : Text.clean (gap ++ (u ++ rest)) = u ++ squeezeEnd rest := by
  have spaces : ∀ c ∈ Text.squeeze gap, isBlank c := by
    intro c member
    rw [blank_squeeze blank c member]
    exact isBlank_space
  have begins : (Text.squeeze gap ++ (u ++ Text.squeeze rest)).dropWhile isBlank =
      u ++ Text.squeeze rest := by
    rw [List.dropWhile_append_of_pos spaces]
    obtain ⟨c, cs, rfl⟩ := List.exists_cons_of_ne_nil nonempty
    rw [List.cons_append, List.dropWhile_cons_of_neg (by simp [solid c List.mem_cons_self])]
  calc
    Text.clean (gap ++ (u ++ rest))
      = ((Text.squeeze (gap ++ (u ++ rest))).dropWhile isBlank).rdropWhile isBlank := rfl
    _ = (u ++ Text.squeeze rest).rdropWhile isBlank := by
      rw [squeeze_of_solid solid gap rest nonempty, begins]
    _ = u ++ squeezeEnd rest := rdropWhile_of_solid solid nonempty [] _

theorem leadingRun_eq_nil (edge : ∀ c, v.head? = some c → separates c) : leadingRun v = [] := by
  cases v with
  | nil => rfl
  | cons c cs => simp [leadingRun, edge c rfl]

/-- Squeezing blanks does not change the run that a text begins with, also if something behind a
blank or a parenthesis follows. -/
theorem leadingRun_squeezeEnd (edge : ∀ c, v.head? = some c → separates c) (t : Text) :
    leadingRun (squeezeEnd t ++ v) = leadingRun t := by
  induction t with
  | nil => exact leadingRun_eq_nil edge
  | cons c cs ih =>
    by_cases blank : isBlank c
    · rw [leadingRun_eq_nil (v := c :: cs) (by simp [separates, blank])]
      apply leadingRun_eq_nil
      obtain ⟨rest, spaced⟩ := squeeze_cons_of_isBlank blank cs
      have begins : squeezeEnd (c :: cs) <+: ' ' :: rest := by
        rw [squeezeEnd, spaced]
        exact List.rdropWhile_prefix _ _
      -- The blank is a space now, or it has been taken away with the end of the text.
      cases front : squeezeEnd (c :: cs) with
      | nil => exact edge
      | cons d ds =>
        rw [front] at begins
        obtain ⟨rfl, -⟩ := List.cons_prefix_cons.mp begins
        simp [separates, isBlank_space]
    · have solid : ∀ d ∈ [c], isBlank d = false := by simpa using blank
      have front : squeezeEnd (c :: cs) = c :: squeezeEnd cs :=
        squeezeEnd_of_solid solid (by simp) [] cs
      rw [front, List.cons_append, leadingRun, leadingRun, List.takeWhile_cons, List.takeWhile_cons]
      split
      · rw [← leadingRun, ← leadingRun, ih]
      · rfl

end Runs

/-- Whether a text has neither quotation marks nor parentheses. -/
def Flat (t : Text) : Prop := ∀ c ∈ t, isQuoteMark c = false ∧ c ≠ '(' ∧ c ≠ ')'

instance (t : Text) : Decidable (Flat t) :=
  decidable_of_iff (t.all (fun c => ! isQuoteMark c && c != '(' && c != ')'))
    (by simp [Flat, and_assoc])

theorem Flat.append {u v : Text} : Flat (u ++ v) ↔ Flat u ∧ Flat v := List.forall_mem_append

theorem IsQuoted.not_flat {w : Text} (h : IsQuoted w) : ¬ Flat w := by
  intro flat
  obtain @⟨mark, body, isMark, -⟩ := h
  have other := (flat mark (by simp)).1
  rw [isQuoteMark_iff.mpr isMark] at other
  cases other

/-- A lexeme without brackets and quotes is plain. -/
theorem Lexeme.FitsAt.isPlain {e : Expecting} {x : Lexeme} (fits : x.FitsAt e)
    (flat : Flat x.text) : IsPlain x.text := by
  cases x with
  | name w => exact IsName.isPlain fits.isWord
  | number w =>
    refine ⟨?_,
      fun c member => isPlainChar_of_isNameChar (IsNumber.isNameChar fits.isWord c member)⟩
    obtain ⟨c, cs, rfl, -⟩ := IsNumber.head fits.isWord
    simp [Lexeme.text]
  | string w => exact absurd flat (IsQuoted.not_flat fits.isWord)
  | operator op | update op => cases op <;> decide
  | bar => decide
  | leftParen => exact absurd rfl (flat '(' (by simp [Lexeme.text])).2.1
  | rightParen => exact absurd rfl (flat ')' (by simp [Lexeme.text])).2.2

theorem isBlank_of_isLayout {c : Char} (h : isLayout c) : isBlank c := of_isLayout (by decide) h

theorem isLayout_squeeze {gap : Text} (layout : ∀ c ∈ gap, isLayout c) :
    ∀ c ∈ Text.squeeze gap, isLayout c := by
  intro c member
  rw [blank_squeeze (fun d member => isBlank_of_isLayout (layout d member)) c member]
  rfl

section Respacing

variable {e : Expecting} {x : Lexeme} {xs ys : List Lexeme} {rest t v : Text}

/-- A lexeme is found at its place also if blanks behind it are squeezed. -/
theorem lexeme?_squeezeEnd (plain : IsPlain x.text) (edge : ∀ c, v.head? = some c → separates c)
    (found : e.lexeme? (x.text ++ rest) = some x) :
    e.lexeme? (x.text ++ (squeezeEnd rest ++ v)) = some x := by
  have solid : ∀ c ∈ x.text, (! separates c) := by
    intro c member
    have blank := isBlank_eq_false_of_isPlainChar (plain.2 c member)
    have bracket := not_mem_bracketChars_of_isPlainChar (plain.2 c member)
    have round : c ≠ '(' ∧ c ≠ ')' := by
      constructor <;> rintro rfl <;> exact bracket (by decide)
    simp [separates, blank, round]
  have run : leadingRun (x.text ++ (squeezeEnd rest ++ v)) = leadingRun (x.text ++ rest) := by
    have later := leadingRun_squeezeEnd edge rest
    rw [leadingRun, leadingRun] at later
    rw [leadingRun, leadingRun, List.takeWhile_append_of_pos solid,
      List.takeWhile_append_of_pos solid, later]
  obtain ⟨c, cs, text_eq⟩ := List.exists_cons_of_ne_nil plain.1
  have first : c ∈ x.text := by simp [text_eq]
  have unquoted := isQuoteMark_eq_false_of_isPlainChar (plain.2 c first)
  have apart : separates c = false := by simpa using solid c first
  rw [text_eq, List.cons_append] at run found ⊢
  rw [lexeme?_leadingRun apart unquoted] at found ⊢
  rw [List.cons_append] at run
  rw [run, found]

namespace Lexed

theorem squeezeEnd_append (h : Lexed e t xs) (flat : Flat t)
    (edge : ∀ c, v.head? = some c → separates c)
    (behind : Lexed (xs.foldl Expecting.after e) v ys) :
    Lexed e (squeezeEnd t ++ v) (xs ++ ys) := by
  induction h with
  | @nil e t layout =>
    rw [squeezeEnd_of_blank fun c member => isBlank_of_isLayout (layout c member)]
    exact behind
  | @cons e gap rest x xs layout found h ih =>
    obtain ⟨-, flatHere, flatLater⟩ := Flat.append.mp flat |>.imp_right Flat.append.mp
    have plain := (lexeme?_sound found).1.isPlain flatHere
    have solid := fun c member => isBlank_eq_false_of_isPlainChar (plain.2 c member)
    rw [squeezeEnd_of_solid solid plain.1, List.append_assoc, List.append_assoc]
    exact .cons (isLayout_squeeze layout) (lexeme?_squeezeEnd plain edge found)
      (ih flatLater behind)

/-- Cleaning a text keeps its lexemes, also if others follow behind a blank or a parenthesis. -/
theorem clean_append (h : Lexed e t (x :: xs)) (flat : Flat t)
    (edge : ∀ c, v.head? = some c → separates c)
    (behind : Lexed ((x :: xs).foldl Expecting.after e) v ys) :
    Lexed e (Text.clean t ++ v) (x :: xs ++ ys) := by
  cases h with
  | @cons _ gap rest _ _ layout found h =>
    obtain ⟨-, flatHere, flatLater⟩ := Flat.append.mp flat |>.imp_right Flat.append.mp
    have plain := (lexeme?_sound found).1.isPlain flatHere
    have solid := fun c member => isBlank_eq_false_of_isPlainChar (plain.2 c member)
    rw [clean_of_solid (fun c member => isBlank_of_isLayout (layout c member)) solid plain.1,
      List.append_assoc]
    exact .of_found (lexeme?_squeezeEnd plain edge found)
      (h.squeezeEnd_append flatLater edge behind)

end Lexed

end Respacing

/-- A text is read as a phrase exactly if its lexemes are a sentence with that phrase. -/
theorem exists_lexed_iff {t : Text} {p : Phrase} :
    Phrase.ofText t = .ok p ↔ ∃ xs, Lexed (.operand true) t xs ∧ Sentence xs p := by
  constructor
  · intro h
    obtain ⟨complete, sentence⟩ := lexemes_of_ofText h
    exact ⟨_, Lexed.of_readLexemes complete, sentence⟩
  · rintro ⟨xs, lexed, sentence⟩
    exact ofText_of_lexes lexed.lexes sentence

end PolicyRules
