import Mathlib.Data.List.Find
import PolicyRules.Proofs.TokenBounds

/-!
# The atoms of a text

While a tree is built, some parts of a text stand in it as numbered tokens. The atoms of such a text
(`Text.atoms`) are its names, numbers, signs and logical keywords, from left to right and each as
long as it can be, with the numbered tokens told apart from the rest. Brackets, bars and blanks are
dropped, and any other character is an atom of its own.

A text can be cut wherever no atom goes on from one part to the other (`Parted`). That is so between
two characters that do not join, before the token of a group or a string, and before a keyword or
its token.

Main statement: a text that is cut so has the atoms of its parts (`Text.atoms_append`).
-/

namespace PolicyRules

section Words

/-- Whether a character is dropped when tokens are read: a blank, a bracket or the bar of a keyed
access. -/
def isDropped (c : Char) : Bool := isBlank c || "()[]|".toList.contains c

/-- The signs, those of two characters first. -/
def signTexts : List Text :=
  ["==".toList, "!=".toList, ">=".toList, "<=".toList, "+=".toList, "-=".toList, "*=".toList,
    "/=".toList, "=".toList, ">".toList, "<".toList, "+".toList, "-".toList, "*".toList, "/".toList]

/-- The sign at the beginning of a text, or else its first character. -/
def signWord (t : Text) : Text :=
  (signTexts.find? fun sign => Text.startsWith sign t).getD (t.take 1)

/-- Whether a character makes one name of the word characters before it and behind it: a colon, or
the number sign of a call's token. -/
def joinsRuns (first : Text) (c : Char) (second : Text) : Bool :=
  c == ':' && ! second.isEmpty || c == '#' && first == "FC".toList && second.head?.any Char.isDigit

/-- The name or number at the beginning of a text. `run` gives the word characters at the beginning
of a text, and `alone` says of which it is known that they are no part of a name. -/
def nameWord (run : Text → Text) (alone : Text → Bool) (t : Text) : Text :=
  match t.drop (run t).length with
  | [] => run t
  | c :: rest =>
    if joinsRuns (run t) c (run rest) && ! alone (run t) && ! alone (run rest) then run t ++ c ::
      run rest else run t

/-- The name, number or sign at the beginning of a text, or its first character if it begins
none. -/
def wordWith (run : Text → Text) (alone : Text → Bool) (t : Text) : Text :=
  if (run t).isEmpty then signWord t else nameWord run alone t

/-- Whether a text is a logical keyword. -/
def isKeyword (w : Text) : Bool := (Keyword.ofText? w).isSome

end Words

section ContextFree

variable {α : Type} {recognise : Recogniser α}

/-- Whether a recogniser does not look at the character before a place. -/
def ContextFree (recognise : Recogniser α) : Prop := ∀ p q t, recognise p t = recognise q t

/-- A scan that looks at no character before does not depend on where it starts. -/
theorem ContextFree.scan_eq (free : ContextFree recognise) (skip : Nat) (p q : Option Char)
    (t : Text) : Split.scan recognise skip p t = Split.scan recognise skip q t := by
  cases t with
  | nil => cases skip <;> rfl
  | cons c cs =>
    cases skip with
    | zero => rw [Split.scan, Split.scan, free p q]
    | succ skip => rfl

/-- The marks of two texts put together are those of the first and of the second, if none of the
first goes on into the second. -/
theorem marks_scan_append (measured : Measured recognise) {x y : Text}
    (stable : ∀ previous v, v ≠ [] → v <:+ x → recognise previous (v ++ y) = recognise previous v)
    (previous : Option Char) :
    (Split.scan recognise 0 previous (x ++ y)).marks =
      (Split.scan recognise 0 previous x).marks ++
      (Split.scan recognise 0 (lastChar previous x) y).marks := by
  induction length : x.length using Nat.strongRecOn generalizing previous x with
  | ind n ih =>
    cases x with
    | nil => rfl
    | cons c cs =>
      have here := stable previous (c :: cs) (by simp) (List.suffix_refl _)
      cases found : recognise previous (c :: cs) with
      | none =>
        rw [found, List.cons_append] at here
        rw [List.cons_append, Split.scan, here, Split.scan, found]
        exact ih cs.length (by rw [← length, List.length_cons]; omega)
          (fun p v nonempty suffix => stable p v nonempty (suffix.trans (List.suffix_cons c cs)))
            (some c) rfl
      | some entry =>
        obtain ⟨a, width⟩ := entry
        obtain ⟨positive, fits⟩ := measured _ _ _ _ found
        obtain ⟨w, rest, same, width_eq⟩ : ∃ w rest, c :: cs = w ++ rest ∧ w.length = width :=
          ⟨(c :: cs).take width, (c :: cs).drop width, (List.take_append_drop ..).symm,
            by simpa using Nat.min_eq_left fits⟩
        have nonempty : w ≠ [] := List.ne_nil_of_length_pos (by omega)
        rw [found] at here
        rw [same] at here found stable length ⊢
        rw [← width_eq] at here found
        rw [List.append_assoc] at here ⊢
        rw [Split.scan_append_of_mark nonempty here, Split.scan_append_of_mark nonempty found,
          lastChar_append]
        have later := ih rest.length (by rw [← length, List.length_append]; omega)
          (fun p v nonempty suffix => stable p v nonempty
            (suffix.trans (List.suffix_append w rest)))
          (lastChar previous w) rfl
        exact congrArg (a :: ·) later

end ContextFree

/-- A token of a text in which some tokens have been replaced by numbered ones. -/
inductive Atom where
  /-- A token that stands for itself. -/
  | plain (w : Text)
  /-- The numbered token of a group, a string or a keyword. -/
  | token (kind : TokenKind) (digits : Text)
  /-- The name of a subexpression. -/
  | part (digits : Text)
  deriving DecidableEq, Repr

variable {t digits : Text} {run : Text → Text} {b : Char}

section Atoms

/-- The digits of a text that is a given beginning and decimal digits. -/
def digitsBehind? (start w : Text) : Option Text :=
  match Text.dropStart? start w with
  | some digits => if ! digits.isEmpty && digits.all isDecimalDigit then some digits else none
  | none => none

/-- The atom of a name, a number or a sign. -/
def Atom.ofWord (w : Text) : Atom :=
  match digitsBehind? "PLA".toList w, digitsBehind? "PLH".toList w with
  | some digits, _ => .token .keyword digits
  | none, some digits => .part digits
  | none, none => .plain w

/-- The token of a group or a string at the beginning of a text. -/
def tokenAt? (t : Text) : Option (Atom × Nat) :=
  match groupTokenAt none t, stringTokenAt none t with
  | some (digits, width), _ => some (.token .group digits, width)
  | none, some (digits, width) => some (.token .string digits, width)
  | none, none => none

/-- The word characters at the beginning of a text, up to the token of a group or a string. -/
def wordRun : Text → Text
  | [] => []
  | c :: cs => if isWordChar c && (tokenAt? (c :: cs)).isNone then c :: wordRun cs else []

/-- Whether a text is a logical keyword or the token of one. -/
def isAlone (w : Text) : Bool := isKeyword w || (digitsBehind? "PLA".toList w).isSome

/-- Recognises the atoms of a text. -/
def atomAt : Recogniser Atom
  | _, [] => none
  | _, c :: cs =>
    if isDropped c then none
    else
      match tokenAt? (c :: cs) with
      | some found => some found
      | none =>
        some (.ofWord (wordWith wordRun isAlone (c :: cs)),
          (wordWith wordRun isAlone (c :: cs)).length)

/-- The atoms of a text. -/
def Text.atoms (t : Text) : List Atom := (t.split atomAt).marks

theorem contextFree_atomAt : ContextFree atomAt := by
  intro p q t
  cases t <;> rfl

/-- A token is that of a group or of a string, with its digits. -/
theorem tokenAt?_eq_some {a : Atom} {width : Nat} (h : tokenAt? t = some (a, width)) :
    ∃ letter digits, numberedAt letter none t = some (digits, width) ∧
      (letter = 'i' ∧ a = .token .group digits ∨ letter = 'q' ∧ a = .token .string digits) := by
  unfold tokenAt? at h
  split at h
  · next digits width' found =>
    obtain ⟨rfl, rfl⟩ := Prod.mk.inj (Option.some.inj h)
    exact ⟨'i', digits, found, .inl ⟨rfl, rfl⟩⟩
  · next digits width' _ found =>
    obtain ⟨rfl, rfl⟩ := Prod.mk.inj (Option.some.inj h)
    exact ⟨'q', digits, found, .inr ⟨rfl, rfl⟩⟩
  · cases h

theorem wordRun_isPrefix (t : Text) : wordRun t <+: t := by
  induction t with
  | nil => exact List.nil_prefix
  | cons c cs ih =>
    rw [wordRun]
    split
    · exact (List.prefix_cons_inj c).mpr ih
    · exact List.nil_prefix

theorem nameWord_isPrefix (runs : ∀ t, run t <+: t) (alone : Text → Bool) (t : Text) :
    nameWord run alone t <+: t := by
  rw [nameWord]
  split
  · exact runs t
  · next c cs behind =>
    have parts := List.prefix_append_drop (runs t)
    split
    · obtain ⟨rest, same⟩ := runs cs
      exact ⟨rest, by rw [List.append_assoc, List.cons_append, same, ← behind, ← parts]⟩
    · exact runs t

theorem signWord_isPrefix (t : Text) : signWord t <+: t := by
  unfold signWord
  cases found : signTexts.find? fun sign => Text.startsWith sign t with
  | none => exact List.take_prefix 1 t
  | some sign => exact Text.startsWith_iff_isPrefix.mp (by simpa using List.find?_some found)

theorem signWord_ne_nil (nonempty : t ≠ []) : signWord t ≠ [] := by
  unfold signWord
  cases found : signTexts.find? fun sign => Text.startsWith sign t with
  | none => simpa using nonempty
  | some sign =>
    have solid : signTexts.all (! ·.isEmpty) := by decide
    simpa using List.all_eq_true.mp solid sign (List.mem_of_find?_eq_some found)

/-- The word at the front of a text is a prefix of it. -/
theorem wordWith_isPrefix (runs : ∀ t, run t <+: t) (alone : Text → Bool) (t : Text) :
    wordWith run alone t <+: t := by
  rw [wordWith]
  split
  · exact signWord_isPrefix t
  · exact nameWord_isPrefix runs alone t

theorem wordWith_ne_nil {alone : Text → Bool} (nonempty : t ≠ []) : wordWith run alone t ≠ [] := by
  rw [wordWith]
  split
  · exact signWord_ne_nil nonempty
  · next word =>
    rw [List.isEmpty_iff] at word
    rw [nameWord]
    split
    · exact word
    · split
      · simp
      · exact word

/-- The atom at the front of a text is as long as its width says. -/
theorem measured_atomAt : Measured atomAt := by
  intro previous t a width h
  cases t with
  | nil => cases h
  | cons c cs =>
    rw [atomAt] at h
    split at h
    · cases h
    · split at h
      · next found token =>
        obtain rfl := Option.some.inj h
        obtain ⟨letter, digits, numbered, -⟩ := tokenAt?_eq_some token
        exact measured_numberedAt letter _ _ _ _ numbered
      · obtain ⟨-, rfl⟩ := Prod.mk.inj (Option.some.inj h)
        exact ⟨List.length_pos_of_ne_nil (wordWith_ne_nil (by simp)),
          (wordWith_isPrefix wordRun_isPrefix _ _).length_le⟩

end Atoms

section Cuts

variable {a c : Char} {t v w x y : Text}

theorem lastChar_eq_some_of_suffix {previous : Option Char} (nonempty : v ≠ []) (suffix : v <:+ x)
    (h : lastChar none v = some a) : lastChar previous x = some a := by
  obtain ⟨u, rfl⟩ := suffix
  obtain ⟨d, ds, rfl⟩ := List.exists_cons_of_ne_nil nonempty
  rw [lastChar_append]
  exact h

/-- A beginning is looked for only in the first of two texts, if it does not go on from one to the
other. -/
theorem dropStart?_append {start : Text} {R : Char → Char → Prop} (chain : start.IsChain R)
    (nonempty : v ≠ []) (apart : ∀ a b, lastChar none v = some a → y.head? = some b → ¬ R a b) :
    Text.dropStart? start (v ++ y) = (Text.dropStart? start v).map (· ++ y) := by
  induction start generalizing v with
  | nil => rfl
  | cons s start ih =>
    obtain ⟨d, ds, rfl⟩ := List.exists_cons_of_ne_nil nonempty
    rw [List.cons_append, Text.dropStart?, Text.dropStart?]
    split
    · next same =>
      subst same
      cases ds with
      | cons e es => exact ih chain.of_cons (by simp) apart
      | nil =>
        cases start with
        | nil => rfl
        | cons s' start =>
          have joined : R s s' := (List.isChain_cons_cons.mp chain).1
          cases y with
          | nil => rfl
          | cons b bs =>
            have other : s' ≠ b := by
              rintro rfl
              exact apart s s' rfl rfl joined
            simp [Text.dropStart?, other]
    · rfl

/-- The characters at the beginning of a text that satisfy `p`, if they do not go on into what
follows. -/
theorem takeWhile_append_of_apart {p : Char → Bool}
    (apart : ∀ a b, lastChar none v = some a → y.head? = some b → p a → p b = false)
    (nonempty : v ≠ []) : (v ++ y).takeWhile p = v.takeWhile p := by
  induction v with
  | nil => exact absurd rfl nonempty
  | cons d ds ih =>
    rw [List.cons_append, List.takeWhile_cons, List.takeWhile_cons]
    cases hd : p d with
    | false => rfl
    | true =>
      cases ds with
      | cons e es => simpa using ih apart (by simp)
      | nil =>
        cases y with
        | nil => rfl
        | cons b bs => simp [apart d b rfl rfl hd]

/-- What has to hold of a text so that no token goes on into it from a character before it. -/
structure PartsFrom (a : Char) (y : Text) : Prop where
  run : isWordChar a → wordRun y = []
  number : isReferenceChar a → ∀ b, y.head? = some b → b ≠ ':' ∧ isDecimalDigit b = false
  colon : a = ':' → wordRun y = [] ∨ isAlone (wordRun y)
  call : a = 'C' → y.head? ≠ some '#'
  callNumber : a = '#' → ∀ b, y.head? = some b → b.isDigit = false
  sign : "=!<>+-*/".toList.contains a → y.head? ≠ some '='

/-- Whether no token goes on from one text into the next. -/
def Parted (x y : Text) : Prop := ∀ a, lastChar none x = some a → PartsFrom a y

/-- Texts that are parted stay so if the first is cut at its front. -/
theorem Parted.of_suffix (h : Parted x y) (suffix : v <:+ x) : Parted v y := by
  intro a last
  refine h a (lastChar_eq_some_of_suffix ?_ suffix last)
  rintro rfl
  cases last

theorem Parted.numberedAt_append (h : Parted v y) (nonempty : v ≠ []) {letter : Char}
    (word : isWordChar letter) : numberedAt letter none (v ++ y) = numberedAt letter none v := by
  have chain : [letter, ':'].IsChain fun a b => isReferenceChar a ∧ b = ':' := by
    simp [isReferenceChar, word]
  have start := dropStart?_append chain nonempty fun a b last head joined =>
    ((h a last).number joined.1 b head).1 joined.2
  simp only [numberedAt, start]
  cases found : Text.dropStart? [letter, ':'] v with
  | none => rfl
  | some rest =>
    obtain rfl := Text.dropStart?_eq_some_iff.mp found
    have run : (rest ++ y).takeWhile isDecimalDigit = rest.takeWhile isDecimalDigit := by
      cases rest with
      | nil =>
        cases y with
        | nil => rfl
        | cons b bs =>
          have other := ((h ':' rfl).number (by decide) b rfl).2
          simp [other]
      | cons d ds =>
        refine takeWhile_append_of_apart (fun a b last head digit => ?_) (by simp)
        refine ((h a last).number ?_ b head).2
        simp [isReferenceChar, isWordChar_of_isDecimalDigit digit]
    have digits : digitsAt? (rest ++ y) = digitsAt? rest := by simp only [digitsAt?, run]
    simp [digits]

/-- Behind a text that it is parted from, a text changes no token. -/
theorem Parted.tokenAt?_append (h : Parted v y) (nonempty : v ≠ []) :
    tokenAt? (v ++ y) = tokenAt? v := by
  simp only [tokenAt?, groupTokenAt, stringTokenAt,
    h.numberedAt_append nonempty (by decide : isWordChar 'i'), h.numberedAt_append nonempty
      (by decide : isWordChar 'q')]

theorem Parted.wordRun_append (h : Parted v y) (nonempty : v ≠ []) :
    wordRun (v ++ y) = wordRun v := by
  induction v with
  | nil => exact absurd rfl nonempty
  | cons c cs ih =>
    have token := h.tokenAt?_append nonempty
    rw [List.cons_append] at token ⊢
    rw [wordRun, wordRun, token]
    split
    · next word =>
      rw [Bool.and_eq_true] at word
      cases cs with
      | nil => simp [(h c rfl).run word.1, wordRun]
      | cons d ds => rw [ih (h.of_suffix (List.suffix_cons c _)) (by simp)]
    · rfl

theorem isWordChar_of_mem_wordRun (member : c ∈ wordRun t) : isWordChar c := by
  induction t with
  | nil => cases member
  | cons d ds ih =>
    rw [wordRun] at member
    split at member
    · next word =>
      rcases List.mem_cons.mp member with rfl | later
      · exact (Bool.and_eq_true_iff.mp word).1
      · exact ih later
    · cases member

theorem Parted.signWord_append (h : Parted v y) (nonempty : v ≠ []) :
    signWord (v ++ y) = signWord v := by
  have chains : ∀ sign ∈ signTexts, sign.IsChain fun a b => "=!<>+-*/".toList.contains a ∧
      b = '=' := by
    simp [signTexts]
  have starts : ∀ sign ∈ signTexts, Text.startsWith sign (v ++ y) = Text.startsWith sign v := by
    intro sign member
    have start := dropStart?_append (chains sign member) nonempty fun a b last head joined =>
      (h a last).sign joined.1 (head.trans (congrArg some joined.2))
    rw [Text.startsWith, start, Option.isSome_map]
    rfl
  have first : (v ++ y).take 1 = v.take 1 := by
    obtain ⟨c, cs, rfl⟩ := List.exists_cons_of_ne_nil nonempty
    rfl
  rw [signWord, signWord, first, List.find?_congr starts]

theorem Parted.nameWord_append (h : Parted v y) (nonempty : v ≠ []) :
    nameWord wordRun isAlone (v ++ y) = nameWord wordRun isAlone v := by
  have run := h.wordRun_append nonempty
  have words : ∀ c ∈ wordRun v, isWordChar c := fun c => isWordChar_of_mem_wordRun
  obtain ⟨rest, whole⟩ := wordRun_isPrefix v
  generalize first_eq : wordRun v = first at *
  subst whole
  rw [nameWord, nameWord, run, first_eq, List.append_assoc, List.drop_left, List.drop_left]
  cases rest with
  | nil =>
    -- The whole of the first text is one run, so that only its last character meets what follows.
    cases y with
    | nil => rfl
    | cons b bs =>
      rw [List.append_nil] at h nonempty
      obtain ⟨u, a, same⟩ := (List.eq_nil_or_concat first).resolve_left nonempty
      have last : lastChar none first = some a := by simp [same, lastChar]
      have word : isWordChar a := words a (by simp [same])
      have noColon := (h a last).number (by simp [isReferenceChar, word]) b rfl
      have noCall : ¬ (b = '#' ∧ first = "FC".toList) := by
        rintro ⟨rfl, rfl⟩
        exact (h 'C' rfl).call rfl rfl
      have apart : joinsRuns first b (wordRun bs) = false := by
        simp only [joinsRuns, Bool.or_eq_false_iff, Bool.and_eq_false_iff, beq_eq_false_iff_ne]
        refine ⟨.inl noColon.1, .inl ?_⟩
        tauto
      simp [apart]
  | cons c rest =>
    rw [List.cons_append]
    cases rest with
    | cons d ds =>
      have later : Parted (d :: ds) y := h.of_suffix ⟨first ++ [c], by simp⟩
      simp only [later.wordRun_append (by simp)]
    | nil =>
      have parts : PartsFrom c y := h c (by simp [lastChar])
      have apart : (joinsRuns first c (wordRun y) && ! isAlone first && ! isAlone (wordRun y)) =
          false := by
        cases joined : joinsRuns first c (wordRun y) with
        | false => rfl
        | true =>
          simp only [joinsRuns, Bool.or_eq_true, Bool.and_eq_true, beq_iff_eq] at joined
          rcases joined with ⟨rfl, second⟩ | ⟨⟨rfl, -⟩, digit⟩
          · rcases parts.colon rfl with empty | alone
            · simp [empty] at second
            · simp [alone]
          · obtain ⟨tail, whole⟩ := wordRun_isPrefix y
            cases second : wordRun y with
            | nil => simp [second] at digit
            | cons d ds =>
              have other := parts.callNumber rfl d (by rw [← whole, second]; rfl)
              simp [second, other] at digit
      have nothing : joinsRuns first c (wordRun []) = false := by simp [joinsRuns, wordRun]
      simp only [List.nil_append, apart, nothing, Bool.false_and, Bool.false_eq_true, if_false]

/-- Behind a text that it is parted from, a text changes no atom. -/
theorem Parted.atomAt_append (h : Parted v y) (nonempty : v ≠ []) (previous : Option Char) :
    atomAt previous (v ++ y) = atomAt previous v := by
  have token := h.tokenAt?_append nonempty
  have run := h.wordRun_append nonempty
  have name := h.nameWord_append nonempty
  have sign := h.signWord_append nonempty
  obtain ⟨c, cs, rfl⟩ := List.exists_cons_of_ne_nil nonempty
  rw [List.cons_append] at *
  simp only [atomAt, wordWith, token, run, name, sign]

/-- A text that is cut where no token goes on has the atoms of its parts. -/
theorem Text.atoms_append (h : Parted x y) :
    Text.atoms (x ++ y) = Text.atoms x ++ Text.atoms y := by
  rw [Text.atoms, Text.split, marks_scan_append measured_atomAt (fun previous v nonempty suffix =>
    (h.of_suffix suffix).atomAt_append nonempty previous), contextFree_atomAt.scan_eq 0 (lastChar
      none x) none y]
  rfl

/-- Whether two characters can stand side by side in a name, a number or a sign. -/
def joins (a b : Char) : Bool :=
  isReferenceChar a && isReferenceChar b || a == 'C' && b == '#' || a == '#' && b.isDigit ||
    "=!<>+-*/".toList.contains a && b == '='

theorem wordRun_eq_nil (h : ∀ b, y.head? = some b → isWordChar b = false) : wordRun y = [] := by
  cases y with
  | nil => rfl
  | cons b bs => simp [wordRun, h b rfl]

/-- A text is cut between two characters that do not join. -/
theorem partsFrom_of_not_joins (h : ∀ b, y.head? = some b → joins a b = false) : PartsFrom a y := by
  have apart : ∀ b, y.head? = some b → (isReferenceChar a → isReferenceChar b = false) ∧
      (a = 'C' → b ≠ '#') ∧ (a = '#' → b.isDigit = false) ∧ ("=!<>+-*/".toList.contains a →
        b ≠ '=') := by
    intro b head
    have other := h b head
    simp only [joins, Bool.or_eq_false_iff, Bool.and_eq_false_iff, beq_eq_false_iff_ne] at other
    obtain ⟨⟨⟨reference, call⟩, number⟩, sign⟩ := other
    exact ⟨fun isRef => reference.resolve_left (by simp [isRef]),
      fun isC => call.resolve_left (by simp [isC]), fun isHash => number.resolve_left
        (by simp [isHash]), fun isSign => sign.resolve_left (by simp only [isSign]; decide)⟩
  have noRun : isReferenceChar a → wordRun y = [] :=
    fun isRef => wordRun_eq_nil fun b head =>
      (Bool.or_eq_false_iff.mp ((apart b head).1 isRef)).1
  refine ⟨fun word => noRun (by simp [isReferenceChar, word]), fun isRef b head => ?_,
    fun colon => .inl (noRun ?_), fun call head => (apart '#' head).2.1 call rfl, fun hash b head =>
      (apart b head).2.2.1 hash,
    fun sign head => (apart '=' head).2.2.2 sign rfl⟩
  · obtain ⟨noWord, noColon⟩ := Bool.or_eq_false_iff.mp ((apart b head).1 isRef)
    refine ⟨by simpa using noColon, ?_⟩
    cases digit : isDecimalDigit b with
    | false => rfl
    | true =>
      rw [isWordChar_of_isDecimalDigit digit] at noWord
      cases noWord
  · simp [isReferenceChar, colon]

/-- A text is cut before the token of a group or a string. -/
theorem partsFrom_of_token (h : (tokenAt? y).isSome) (a : Char) : PartsFrom a y := by
  obtain ⟨⟨atom, width⟩, found⟩ := Option.isSome_iff_exists.mp h
  obtain ⟨letter, digits, numbered, either⟩ := tokenAt?_eq_some found
  have front : y.head? = some letter := by
    obtain ⟨d, rest, rfl, -⟩ := numberedAt_eq_some numbered
    rfl
  have noRun : wordRun y = [] := by
    cases y with
    | nil => rfl
    | cons b bs => simp [wordRun, found]
  have letters : letter ≠ ':' ∧ isDecimalDigit letter = false ∧ letter ≠ '#' ∧
      letter.isDigit = false ∧ letter ≠ '=' := by
    rcases either with ⟨rfl, -⟩ | ⟨rfl, -⟩ <;> decide
  obtain ⟨noColon, noDecimal, noHash, noDigit, noEquals⟩ := letters
  have same : ∀ b, y.head? = some b → b = letter :=
    fun b head => Option.some.inj (head.symm.trans front)
  refine ⟨fun _ => noRun, fun _ b head => ?_, fun _ => .inl noRun,
    fun _ head => noHash (same _ head).symm, fun _ b head => ?_, fun _ head => noEquals
      (same _ head).symm⟩
  · rw [same b head]
    exact ⟨noColon, noDecimal⟩
  · rw [same b head]
    exact noDigit

/-- Whether a character is a word character at which no token of a group or a string begins. -/
def isInert (c : Char) : Bool := isWordChar c && c != 'i' && c != 'q'

theorem tokenAt?_of_ne (noGroup : c ≠ 'i') (noString : c ≠ 'q') (t : Text) :
    tokenAt? (c :: t) = none := by
  cases found : tokenAt? (c :: t) with
  | none => rfl
  | some entry =>
    obtain ⟨letter, digits, numbered, either⟩ := tokenAt?_eq_some found
    obtain ⟨d, rest, same, -⟩ := numberedAt_eq_some numbered
    obtain ⟨rfl, -⟩ := List.cons.inj same
    rcases either with ⟨rfl, -⟩ | ⟨rfl, -⟩
    · exact absurd rfl noGroup
    · exact absurd rfl noString

/-- A word in which no token of a group or a string begins goes on with the word characters behind
it. -/
theorem wordRun_append_of_forall (h : ∀ c ∈ w, isInert c) (z : Text) :
    wordRun (w ++ z) = w ++ wordRun z := by
  induction w with
  | nil => rfl
  | cons c cs ih =>
    obtain ⟨inert, later⟩ := List.forall_mem_cons.mp h
    simp only [isInert, Bool.and_eq_true, bne_iff_ne] at inert
    obtain ⟨⟨word, noGroup⟩, noString⟩ := inert
    rw [List.cons_append, wordRun, tokenAt?_of_ne noGroup noString, ih later]
    simp [word]

/-- Digits behind a start are all that follows it, and there is one. -/
theorem digitsBehind?_eq_some {start : Text} (h : digitsBehind? start w = some digits) :
    w = start ++ digits ∧ digits ≠ [] ∧ ∀ d ∈ digits, isDecimalDigit d := by
  unfold digitsBehind? at h
  split at h
  · next rest found =>
    obtain ⟨all, same⟩ := Option.ite_none_right_eq_some.mp h
    obtain rfl := Option.some.inj same
    rw [Bool.and_eq_true, List.all_eq_true] at all
    exact ⟨Text.dropStart?_eq_some_iff.mp found, by simpa using all.1, all.2⟩
  · cases h

theorem digitsBehind?_append (start : Text) (nonempty : digits ≠ [])
    (all : ∀ d ∈ digits, isDecimalDigit d) :
    digitsBehind? start (start ++ digits) = some digits := by
  have behind : Text.dropStart? start (start ++ digits) = some digits :=
    Text.dropStart?_eq_some_iff.mpr rfl
  have digit : digits.all isDecimalDigit := List.all_eq_true.mpr all
  simp [digitsBehind?, behind, nonempty, digit]

theorem isInert_of_isDecimalDigit (h : isDecimalDigit c) : isInert c := by
  simp only [isInert, Bool.and_eq_true, bne_iff_ne]
  refine ⟨⟨isWordChar_of_isDecimalDigit h, ?_⟩, ?_⟩ <;> rintro rfl <;> exact absurd h (by decide)

theorem isInert_of_mem_digits (start : Text) (letters : start.all isInert)
    (all : ∀ d ∈ digits, isDecimalDigit d) : ∀ c ∈ start ++ digits, isInert c := by
  intro c member
  rcases List.mem_append.mp member with letter | digit
  · exact List.all_eq_true.mp letters c letter
  · exact isInert_of_isDecimalDigit (all c digit)

/-- A word that stands alone is a keyword, or the token of one. -/
theorem isAlone_cases (h : isAlone w) :
    (∃ k : Keyword, w = k.text) ∨ ∃ digits, w = "PLA".toList ++ digits ∧ digits ≠ [] ∧
      ∀ d ∈ digits, isDecimalDigit d := by
  rcases Bool.or_eq_true_iff.mp h with keyword | token
  · obtain ⟨k, found⟩ := Option.isSome_iff_exists.mp keyword
    have same : k.text == w := List.find?_some (p := fun k : Keyword => k.text == w) found
    exact .inl ⟨k, (eq_of_beq same).symm⟩
  · obtain ⟨digits, found⟩ := Option.isSome_iff_exists.mp token
    exact .inr ⟨digits, digitsBehind?_eq_some found⟩

theorem isInert_of_isAlone (h : isAlone w) : w ≠ [] ∧ ∀ c ∈ w, isInert c := by
  rcases isAlone_cases h with ⟨k, rfl⟩ | ⟨digits, rfl, -, all⟩
  · have letters : k.text.all isInert := by cases k <;> decide
    exact ⟨by cases k <;> decide, List.all_eq_true.mp letters⟩
  · exact ⟨by simp, isInert_of_mem_digits _ (by decide) all⟩

/-- The run of a word that stands alone is that word, wherever word characters end behind it. -/
theorem wordRun_of_isAlone (h : isAlone w) {z : Text} (edge : isWordEdge z.head?) :
    wordRun (w ++ z) = w := by
  have noRun : wordRun z = [] := wordRun_eq_nil fun b head => by simpa [isWordEdge, head] using edge
  rw [wordRun_append_of_forall (isInert_of_isAlone h).2, noRun, List.append_nil]

/-- A text is cut before a keyword or its token. -/
theorem partsFrom_of_isAlone (h : isAlone w) {z : Text} (edge : isWordEdge z.head?)
    (noWord : isWordChar a = false) : PartsFrom a (w ++ z) := by
  obtain ⟨c, cs, rfl⟩ := List.exists_cons_of_ne_nil (isInert_of_isAlone h).1
  have letter : c ∈ "ANOP".toList := by
    rcases isAlone_cases h with ⟨k, same⟩ | ⟨digits, same, -⟩
    · cases k <;> (obtain ⟨rfl, -⟩ := List.cons.inj same; decide)
    · obtain ⟨rfl, -⟩ := List.cons.inj same
      decide
  have letters : ("ANOP".toList.all fun d => d != ':' && ! isDecimalDigit d && d !=
      '#' && ! d.isDigit && d != '=') := by decide
  have other := List.all_eq_true.mp letters c letter
  simp only [Bool.and_eq_true, bne_iff_ne, Bool.not_eq_true'] at other
  obtain ⟨⟨⟨⟨noColon, noDecimal⟩, noHash⟩, noDigit⟩, noEquals⟩ := other
  refine ⟨fun word => ?_, fun _ b head => ?_, fun _ => .inr ?_,
    fun _ head => noHash (Option.some.inj head), fun _ b head => ?_, fun _ head => noEquals
      (Option.some.inj head)⟩
  · rw [noWord] at word
    cases word
  · obtain rfl := Option.some.inj head
    exact ⟨noColon, noDecimal⟩
  · rw [wordRun_of_isAlone h edge]
    exact h
  · obtain rfl := Option.some.inj head
    exact noDigit

end Cuts

namespace Text

variable {c : Char} {t w x y : Text}

@[simp] theorem atoms_nil : atoms [] = [] := rfl

/-- What is found at the front of a text is its first atom. -/
theorem atoms_of_found {a : Atom} (nonempty : w ≠ [])
    (found : atomAt none (w ++ t) = some (a, w.length)) : atoms (w ++ t) = a :: atoms t := by
  rw [atoms, split, Split.scan_append_of_mark nonempty found,
    contextFree_atomAt.scan_eq 0 (lastChar none w) none]
  rfl

theorem atoms_dropped (h : isDropped c) (t : Text) : atoms (c :: t) = atoms t := by
  rw [atoms, split, Split.scan]
  simp only [atomAt, h, if_true]
  rw [contextFree_atomAt.scan_eq 0 (some c) none]
  rfl

theorem joins_dropped (h : isDropped c) (b : Char) : joins c b = false ∧ joins b c = false := by
  have letters : "C#=!<>+-*/".toList.all fun d => ! isDropped d := by decide
  have other : ∀ d ∈ "C#=!<>+-*/".toList, c ≠ d := by
    rintro d member rfl
    have kept := List.all_eq_true.mp letters c member
    rw [h] at kept
    cases kept
  have noReference : isReferenceChar c = false := by
    cases reference : isReferenceChar c with
    | false => rfl
    | true =>
      have brackets : "()[]|".toList.all fun d => ! isReferenceChar d := by decide
      rcases Bool.or_eq_true_iff.mp h with blank | bracket
      · rw [isBlank_eq_false_of_isReferenceChar reference] at blank
        cases blank
      · have outside := List.all_eq_true.mp brackets c (by simpa using bracket)
        rw [reference] at outside
        cases outside
  have noDigit : c.isDigit = false := by
    cases digit : c.isDigit with
    | false => rfl
    | true =>
      rw [isReferenceChar, isWordChar_of_isDecimalDigit (isDecimalDigit_of_isDigit digit)]
        at noReference
      cases noReference
  have noSign : "=!<>+-*/".toList.contains c = false := by
    rw [Bool.eq_false_iff, Ne, List.contains_iff_mem]
    exact fun member => other c (List.mem_append_right "C#".toList member) rfl
  have noC : (c == 'C') = false := beq_eq_false_iff_ne.mpr (other 'C' (by decide))
  have noHash : (c == '#') = false := beq_eq_false_iff_ne.mpr (other '#' (by decide))
  have noEquals : (c == '=') = false := beq_eq_false_iff_ne.mpr (other '=' (by decide))
  simp only [joins, noReference, noDigit, noSign, noC, noHash, noEquals, Bool.and_false,
    Bool.false_and, Bool.or_false, and_self]

theorem joins_of_isDigit {a : Char} (digit : a.isDigit) (other : isReferenceChar b = false) :
    joins a b = false := by
  have letters : "C#=!<>+-*/".toList.all fun c => ! c.isDigit := by decide
  have outside : a ∉ "C#".toList ++ "=!<>+-*/".toList := fun member => by
    have noDigit := List.all_eq_true.mp letters a member
    rw [digit] at noDigit
    cases noDigit
  obtain ⟨noCall, noSign⟩ : a ∉ "C#".toList ∧ a ∉ "=!<>+-*/".toList := by
    rwa [List.mem_append, not_or] at outside
  have sign : "=!<>+-*/".toList.contains a = false := by
    rwa [Bool.eq_false_iff, Ne, List.contains_iff_mem]
  have noC : a ≠ 'C' := fun same => noCall (by rw [same]; decide)
  have noHash : a ≠ '#' := fun same => noCall (by rw [same]; decide)
  simp only [joins, other, sign, Bool.and_false, Bool.false_and, Bool.or_false, Bool.false_or,
    Bool.or_eq_false_iff, Bool.and_eq_false_iff, beq_eq_false_iff_ne]
  exact ⟨.inl noC, .inl noHash⟩

theorem parted_nil (x : Text) : Parted x [] :=
  fun _ _ => partsFrom_of_not_joins fun _ head => by cases head

/-- A text is parted from one that begins with a dropped character. -/
theorem parted_of_dropped (h : isDropped c) (x t : Text) : Parted x (c :: t) := fun a _ =>
  partsFrom_of_not_joins fun b head => by
    obtain rfl := Option.some.inj head
    exact (joins_dropped h a).2

/-- A character that is dropped parts the atoms around it. -/
theorem atoms_append_dropped (h : isDropped c) (x y : Text) :
    atoms (x ++ c :: y) = atoms x ++ atoms y := by
  rw [atoms_append (parted_of_dropped h x y), atoms_dropped h]

theorem atoms_of_forall_dropped (h : ∀ c ∈ w, isDropped c) (t : Text) :
    atoms (w ++ t) = atoms t := by
  induction w with
  | nil => rfl
  | cons c cs ih =>
    obtain ⟨here, later⟩ := List.forall_mem_cons.mp h
    rw [List.cons_append, atoms_dropped here, ih later]

theorem isDropped_of_isBlank (h : isBlank c) : isDropped c := by simp [isDropped, h]

/-- Blanks at the ends of a text are no atoms. -/
@[simp] theorem atoms_strip (t : Text) : atoms (strip t) = atoms t := by
  obtain ⟨before, behind, whole, blank, blank'⟩ := exists_append_strip t
  have nothing : atoms behind = [] := by
    have dropped :=
      atoms_of_forall_dropped (fun c member => isDropped_of_isBlank (blank' c member)) []
    rwa [List.append_nil] at dropped
  have parted : Parted (strip t) behind := by
    cases behind with
    | nil => exact parted_nil _
    | cons c cs => exact parted_of_dropped (isDropped_of_isBlank (blank' c (by simp))) _ _
  conv_rhs =>
    rw [whole, atoms_of_forall_dropped fun c member => isDropped_of_isBlank (blank c member),
      atoms_append parted, nothing, List.append_nil]

theorem numberedAt_digits (letter : Char) (nonempty : digits ≠ [])
    (all : ∀ d ∈ digits, isDecimalDigit d) (ends : EndsNumber t) :
    numberedAt letter none (letter :: ':' :: (digits ++ t)) = some (digits, digits.length + 2) := by
  have run : (digits ++ t).takeWhile isDecimalDigit = digits := takeWhile_append_of_head all ends
  have found : digitsAt? (digits ++ t) = some digits := by
    rw [digitsAt?, run, if_neg (by simpa using nonempty)]
  simp [numberedAt, isClear, dropStart?, found]

/-- A token is found where it is written, if its digits end there. -/
theorem tokenAt?_start (kind : TokenKind) (numbered : kind ≠ .keyword) (nonempty : digits ≠ [])
    (all : ∀ d ∈ digits, isDecimalDigit d) (ends : EndsNumber t) :
    tokenAt? (kind.start ++ digits ++ t) =
      some (.token kind digits, (kind.start ++ digits).length) := by
  rw [List.append_assoc]
  cases kind with
  | keyword => exact absurd rfl numbered
  | group =>
    have found : groupTokenAt none (TokenKind.group.start ++ (digits ++ t)) =
        some (digits, digits.length + 2) :=
      numberedAt_digits 'i' nonempty all ends
    rw [tokenAt?, found]
    simp [TokenKind.start]
  | string =>
    have found : stringTokenAt none (TokenKind.string.start ++ (digits ++ t)) =
        some (digits, digits.length + 2) :=
      numberedAt_digits 'q' nonempty all ends
    have other : groupTokenAt none (TokenKind.string.start ++ (digits ++ t)) = none := by
      simp [groupTokenAt, numberedAt, TokenKind.start, dropStart?]
    rw [tokenAt?, found, other]
    simp [TokenKind.start]

theorem atomAt_of_token {found : Atom × Nat} (h : tokenAt? t = some found) :
    atomAt none t = some found := by
  obtain ⟨letter, digits, numbered, either⟩ := tokenAt?_eq_some h
  obtain ⟨d, rest, rfl, -⟩ := numberedAt_eq_some numbered
  have kept : isDropped letter = false := by
    rcases either with ⟨rfl, -⟩ | ⟨rfl, -⟩ <;> decide
  rw [atomAt, kept, h]
  rfl

/-- The token of a group or a string is an atom, wherever digits end behind it. -/
theorem atoms_append_token (kind : TokenKind) (numbered : kind ≠ .keyword) (nonempty : digits ≠ [])
    (all : ∀ d ∈ digits, isDecimalDigit d) (ends : EndsNumber t) (x : Text) :
    atoms (x ++ (kind.start ++ digits ++ t)) = atoms x ++ .token kind digits :: atoms t := by
  have token := tokenAt?_start kind numbered nonempty all ends
  rw [atoms_append fun a _ => partsFrom_of_token (by rw [token]; rfl) a]
  congr 1
  exact atoms_of_found (by simp [nonempty]) (atomAt_of_token token)

theorem isDropped_eq_false_of_isWordChar (h : isWordChar c) : isDropped c = false := by
  cases dropped : isDropped c with
  | false => rfl
  | true =>
    have joined : joins c c := by simp [joins, isReferenceChar, h]
    rw [(joins_dropped dropped c).1] at joined
    cases joined

/-- A run of word characters is an atom, if it is not joined with what follows. -/
theorem atoms_of_run (nonempty : w ≠ []) (inert : ∀ c ∈ w, isInert c)
    (run : wordRun (w ++ t) = w) (name : nameWord wordRun isAlone (w ++ t) = w) :
    atoms (w ++ t) = .ofWord w :: atoms t := by
  refine atoms_of_found nonempty ?_
  obtain ⟨c, cs, rfl⟩ := List.exists_cons_of_ne_nil nonempty
  have first := inert c (by simp)
  simp only [isInert, Bool.and_eq_true, bne_iff_ne] at first
  obtain ⟨⟨word, noGroup⟩, noString⟩ := first
  rw [List.cons_append] at *
  rw [atomAt, isDropped_eq_false_of_isWordChar word, tokenAt?_of_ne noGroup noString, wordWith,
    run, name]
  rfl

/-- A keyword or its token is an atom, wherever word characters end behind it. -/
theorem atoms_alone (alone : isAlone w) (edge : isWordEdge t.head?) :
    atoms (w ++ t) = .ofWord w :: atoms t := by
  obtain ⟨nonempty, inert⟩ := isInert_of_isAlone alone
  have run := wordRun_of_isAlone alone edge
  refine atoms_of_run nonempty inert run ?_
  rw [nameWord, run, List.drop_left]
  cases t with
  | nil => rfl
  | cons c cs => simp [alone]

/-- A word that stands alone between two texts is one atom between theirs. -/
theorem atoms_append_alone (alone : isAlone w) (before : isWordEdge (lastChar none x))
    (behind : isWordEdge t.head?) : atoms (x ++ (w ++ t)) = atoms x ++ .ofWord w :: atoms t := by
  rw [atoms_append fun a last => partsFrom_of_isAlone alone behind
    (by simpa [last, isWordEdge] using before), atoms_alone alone behind]

theorem isInert_of_mem_subexpressionToken {n : Nat} (member : c ∈ subexpressionToken n) :
    isInert c :=
  isInert_of_mem_digits "PLH".toList (by decide) (fun _ => isDecimalDigit_of_mem_ofNat) c member

/-- The token of a subexpression is a single atom. -/
theorem atoms_subexpressionToken (n : Nat) : atoms (subexpressionToken n) = [.part (ofNat n)] := by
  have digits : ∀ d ∈ ofNat n, isDecimalDigit d := fun d => isDecimalDigit_of_mem_ofNat
  have inert : ∀ c ∈ "PLH".toList ++ ofNat n, isInert c :=
    fun c => isInert_of_mem_subexpressionToken
  have run : wordRun ("PLH".toList ++ ofNat n) = "PLH".toList ++ ofNat n := by
    have whole := wordRun_append_of_forall inert []
    rwa [List.append_nil, wordRun, List.append_nil] at whole
  have name : nameWord wordRun isAlone ("PLH".toList ++ ofNat n) = "PLH".toList ++ ofNat n := by
    rw [nameWord, run, List.drop_length]
  have atom : Atom.ofWord ("PLH".toList ++ ofNat n) = .part (ofNat n) := by
    have other : digitsBehind? "PLA".toList ("PLH".toList ++ ofNat n) = none := rfl
    rw [Atom.ofWord, other, digitsBehind?_append _ (ofNat_ne_nil n) digits]
  have whole :=
    atoms_of_run (t := []) (by simp) inert (by rwa [List.append_nil]) (by rwa [List.append_nil])
  rwa [List.append_nil, atom] at whole

end Text

/-- Whether a text is cut between two characters that do not join. -/
def Cut (x y : Text) : Prop :=
  ∀ a b, lastChar none x = some a → y.head? = some b → joins a b = false

/-- A cut parts the atoms. -/
theorem Cut.parted {x y : Text} (h : Cut x y) : Parted x y := fun a last =>
  partsFrom_of_not_joins fun b head => h a b last head

section Subexpressions

variable {x y : Text}

theorem cut_subexpressionToken (before : ∀ a, lastChar none x = some a → isReferenceChar a = false)
    (n : Nat) (y : Text) : Cut x (subexpressionToken n ++ y) := by
  intro a b last head
  obtain rfl : 'P' = b := Option.some.inj head
  have noDigit : 'P'.isDigit = false := by decide
  simp [joins, before a last, noDigit]

theorem lastChar_subexpressionToken (n : Nat) :
    ∃ d, lastChar none (subexpressionToken n) = some d ∧ d.isDigit := by
  obtain ⟨d, member, last⟩ := exists_lastChar_eq (ofNat_ne_nil n) (lastChar none "PLH".toList)
  exact ⟨d, (lastChar_append _ _ _).trans last, isDigit_of_mem_ofNat member⟩

theorem subexpressionToken_cut (n : Nat)
    (behind : ∀ b, y.head? = some b → isReferenceChar b = false) :
    Cut (subexpressionToken n) y := by
  intro a b last head
  obtain ⟨d, last', digit⟩ := lastChar_subexpressionToken n
  obtain rfl := Option.some.inj (last'.symm.trans last)
  exact Text.joins_of_isDigit digit (behind b head)

end Subexpressions

section Keywords

variable {x y v : Text}

/-- Whether no word goes on from one text into the next. -/
def WordParted (x y : Text) : Prop :=
  ∀ a b, lastChar none x = some a → y.head? = some b → isWordChar a → isWordChar b = false

/-- No keyword is read across the end of a word. -/
theorem WordParted.keywordAt_append (h : WordParted v y) (nonempty : v ≠ [])
    (previous : Option Char) : keywordAt previous (v ++ y) = keywordAt previous v := by
  have each : ∀ k : Keyword, ((Text.dropStart? k.text (v ++ y)).bind fun rest =>
      if isWordEdge rest.head? then some (k, k.text.length) else none) =
      (Text.dropStart? k.text v).bind fun rest =>
        if isWordEdge rest.head? then some (k, k.text.length) else none := by
    intro k
    have chain : k.text.IsChain fun a b => isWordChar a ∧ isWordChar b := by
      cases k <;> simp [Keyword.text] <;> decide
    rw [dropStart?_append chain nonempty fun a b last head joined => by
      simpa [joined.2] using h a b last head joined.1]
    cases found : Text.dropStart? k.text v with
    | none => rfl
    | some rest =>
      obtain rfl := Text.dropStart?_eq_some_iff.mp found
      cases rest with
      | cons c cs => rfl
      | nil =>
        have last : ∃ a, lastChar none (k.text ++ []) = some a ∧ isWordChar a := by
          cases k
          · exact ⟨'D', rfl, by decide⟩
          · exact ⟨'R', rfl, by decide⟩
          · exact ⟨'T', rfl, by decide⟩
        obtain ⟨a, last, word⟩ := last
        have edge : isWordEdge y.head? := by
          cases y with
          | nil => rfl
          | cons b bs => simp [isWordEdge, h a b last rfl word]
        rw [Option.map_some, Option.bind_some, Option.bind_some, List.nil_append, edge]
        rfl
  simp only [keywordAt, Option.bind_eq_bind, each]

/-- The keywords in a text, given the character before it. -/
def keywordsFrom (previous : Option Char) (t : Text) : List Keyword :=
  (Split.scan keywordAt 0 previous t).marks

theorem keywordsFrom_eq {p q : Option Char} (h : isWordEdge p = isWordEdge q) (t : Text) :
    keywordsFrom p t = keywordsFrom q t := by
  cases t with
  | nil => rfl
  | cons c cs =>
    have same : keywordAt p (c :: cs) = keywordAt q (c :: cs) := by simp only [keywordAt, h]
    rw [keywordsFrom, keywordsFrom, Split.scan, Split.scan, same]

/-- If no word goes on from one text into the next, the keywords are those of each, in order. -/
theorem WordParted.keywordsFrom_append (h : WordParted x y) (previous : Option Char) :
    keywordsFrom previous (x ++ y) = keywordsFrom previous x ++
      keywordsFrom (lastChar previous x) y :=
  marks_scan_append measured_keywordAt
    (fun p _ nonempty suffix => WordParted.keywordAt_append (fun a b last =>
    h a b (lastChar_eq_some_of_suffix nonempty suffix last)) nonempty p) previous

theorem keywordAt_of_not_word (h : isWordChar b = false) (previous : Option Char) (t : Text) :
    keywordAt previous (b :: t) = none := by
  cases found : keywordAt previous (b :: t) with
  | none => rfl
  | some entry =>
    obtain ⟨-, rest, same, -⟩ := keywordAt_eq_some found
    have letters : entry.1.text.all isWordChar := by cases entry.1 <;> decide
    have word : isWordChar b := by
      refine List.all_eq_true.mp letters b ?_
      cases k : entry.1 <;> (rw [k] at same; obtain ⟨rfl, -⟩ := List.cons.inj same; decide)
    rw [h] at word
    cases word

theorem keywordsFrom_of_not_word (h : isWordChar b = false) (previous : Option Char) (t : Text) :
    keywordsFrom previous (b :: t) = keywordsFrom none t := by
  have edge : isWordEdge (some b) = isWordEdge none := by simp [isWordEdge, h]
  rw [← keywordsFrom_eq edge, keywordsFrom, Split.scan, keywordAt_of_not_word h]
  rfl

/-- Where no word goes on, it does not matter what stands before the second text. -/
theorem WordParted.keywordsFrom_none (h : WordParted x y) :
    keywordsFrom none (x ++ y) = keywordsFrom none x ++ keywordsFrom none y := by
  rw [h.keywordsFrom_append]
  congr 1
  cases last : lastChar none x with
  | none => rfl
  | some a =>
    cases word : isWordChar a with
    | false => exact keywordsFrom_eq (by simp [isWordEdge, word]) y
    | true =>
      cases y with
      | nil => rfl
      | cons b bs =>
        have other := h a b last rfl word
        rw [keywordsFrom_of_not_word other, keywordsFrom_of_not_word other]

end Keywords

end PolicyRules
