import PolicyRules.Proofs.Readings

/-!
# Steps that keep what a text stands for

Masking the strings of a text, marking its keywords, and cutting a level into operands and keywords.

Main statements: `reads_masked` and `legible_marked` for the text with strings and keywords set
aside, `piecesRead_of_legible` for the operands and keywords of a level.
-/

namespace PolicyRules

variable {strings : List Text} {keywords : List Keyword} {groups parts : List Text}
  {n : Nat} {digits : Text} {previous : Option Char} {pieces : List Piece}

section Masked

theorem eq_of_tokenNumber_ofNat {m : Nat} (h : tokenNumber (Text.ofNat n) = .ok m) : m = n := by
  unfold tokenNumber readOrdinal at h
  dsimp only at h
  split at h
  · next found =>
    split at found
    · cases found
    · obtain rfl := Except.ok.inj h
      rw [← Except.ok.inj found, value_digits_ofNat]
  · cases h

theorem getElem?_of_tokenEntry {α : Type} {entries : List α} {a : α}
    (h : tokenEntry entries (Text.ofNat n) = .ok a) : entries[n]? = some a := by
  obtain ⟨m, number, entry⟩ := bind_eq_ok_iff.mp h
  obtain rfl := eq_of_tokenNumber_ofNat number
  exact nthEntry_eq_ok_iff.mp entry

theorem EndsNumber.append {x y : Text} (h : EndsNumber x) (h' : EndsNumber y) :
    EndsNumber (x ++ y) := by
  cases x with
  | nil => exact h'
  | cons c cs => exact h

theorem endsNumber_cons {c : Char} (h : isDecimalDigit c = false) (t : Text) :
    EndsNumber (c :: t) := by
  intro d head
  obtain rfl := Option.some.inj head
  exact h

/-- Masking strings keeps the tokens of a text. -/
theorem reads_masked_from (before : List Text) {s : Split Quotation}
    (plain : ∀ piece ∈ s.plain, piece.Unnumbered) (ends : ∀ piece ∈ s.tail, EndsNumber piece.2) :
    Reads (before ++ s.marks.map Quotation.text) keywords [] [] (Text.atoms (s.head ++
      (s.tail.zipIdx before.length).flatMap fun entry => stringToken entry.2 ++
      entry.1.2)) s.tokens := by
  obtain ⟨head, tail⟩ := s
  induction tail generalizing head before with
  | nil =>
    have atoms := Text.atoms_eq_plainTokens (plain head (by simp [Split.plain]))
    simpa [Split.tokens, atoms] using Reads.plains head.plainTokens
  | cons piece tail ih =>
    obtain ⟨q, next⟩ := piece
    obtain ⟨first, later⟩ : head.Unnumbered ∧ ∀ piece ∈ next :: tail.map (·.2),
      Text.Unnumbered piece := by
      simpa only [Split.plain, List.map_cons, List.forall_mem_cons] using plain
    obtain ⟨ended, endsLater⟩ := List.forall_mem_cons.mp ends
    have rest := ih (before ++ [q.text]) next later endsLater
    rw [List.length_append, List.length_singleton] at rest
    have tailEnds : EndsNumber ((tail.zipIdx (before.length + 1)).flatMap fun entry =>
        stringToken entry.2 ++ entry.1.2) := by
      cases tail with
      | nil => intro c head; cases head
      | cons piece tail => exact endsNumber_cons (by decide) _
    have atoms := Text.atoms_append_token .string (by simp) (ofNat_ne_nil before.length)
      (fun d => isDecimalDigit_of_mem_ofNat) (ended.append tailEnds) head
    have found : (before ++ (⟨head, (q, next) :: tail⟩ : Split Quotation).marks.map
        Quotation.text)[before.length]? =
        some q.text := by simp [Split.marks]
    have same : head ++ (((q, next) :: tail).zipIdx before.length).flatMap
        (fun entry => stringToken entry.2 ++ entry.1.2) =
          head ++ (TokenKind.string.start ++ Text.ofNat before.length ++
          (next ++ (tail.zipIdx (before.length + 1)).flatMap fun entry => stringToken entry.2 ++
            entry.1.2)) := by
      simp [stringToken, TokenKind.start]
    rw [same, atoms, Text.atoms_eq_plainTokens first]
    have joined : (⟨head, (q, next) :: tail⟩ : Split Quotation).tokens =
        head.plainTokens ++ q.text :: (⟨next, tail⟩ : Split Quotation).tokens := by
      simp [Split.tokens]
    rw [joined]
    have denotes : ∀ v, tokenEntry
        (before ++ (⟨head, (q, next) :: tail⟩ : Split Quotation).marks.map Quotation.text)
        (Text.ofNat before.length) = .ok v → v = q.text :=
      fun v entry => Option.some.inj ((getElem?_of_tokenEntry entry).symm.trans found)
    refine (Reads.plains _).append (.string denotes ?_)
    simpa [Split.marks] using rest

/-- Masking strings keeps the tokens of a text. -/
theorem reads_masked {t : Text} (unnumbered : t.Unnumbered)
    (ends : ∀ piece ∈ t.segments.tail, EndsNumber piece.2) :
    Reads (SetAside.maskStrings {} t).2.strings keywords [] [] (SetAside.maskStrings {} t).1.atoms
      t.tokens := by
  have plain : ∀ piece ∈ t.segments.plain, piece.Unnumbered := fun piece member =>
    unnumbered.of_isInfix ((Split.scans measured_quotationAt none t).isInfix member)
  simpa [SetAside.maskStrings, Split.renderNumbered] using! reads_masked_from [] plain ends

end Masked

section Marked

variable {t u : Text} {tokens : List Text}

/-- In a word, no keyword begins behind its first character. -/
theorem keywordsFrom_of_run {w : Text} (run : ∀ c ∈ w, isWordChar c) (previous : Option Char)
    (inside : isWordEdge previous = false) (t : Text) :
    keywordsFrom previous (w ++ t) = keywordsFrom (lastChar previous w) t := by
  induction w generalizing previous with
  | nil => rfl
  | cons c cs ih =>
    obtain ⟨word, later⟩ := List.forall_mem_cons.mp run
    have none : keywordAt previous (c :: (cs ++ t)) = none := by simp [keywordAt, inside]
    rw [List.cons_append, keywordsFrom, Split.scan, none]
    exact ih later (some c) (by simp [isWordEdge, word])

theorem isAlone_keywordWord (n : Nat) : isAlone (keywordWord n) := by
  have found :=
    digitsBehind?_append "PLA".toList (ofNat_ne_nil n) fun d => isDecimalDigit_of_mem_ofNat
  rw [isAlone, keywordWord, found]
  simp

theorem ofWord_digits (nonempty : digits ≠ []) (all : ∀ d ∈ digits, isDecimalDigit d) :
    Atom.ofWord ("PLA".toList ++ digits) = .token .keyword digits := by
  rw [Atom.ofWord, digitsBehind?_append _ nonempty all]

/-- The token of a keyword reads as the keyword. -/
theorem legible_keywordWord {k : Keyword} (found : keywords[n]? = some k) :
    Legible strings keywords groups parts (keywordWord n) [k.text] := by
  have digits : ∀ d ∈ Text.ofNat n, isDecimalDigit d := fun d => isDecimalDigit_of_mem_ofNat
  refine ⟨?_, ?_⟩
  · have atoms := Text.atoms_alone (t := []) (isAlone_keywordWord n) rfl
    rw [List.append_nil] at atoms
    rw [atoms, keywordWord, ofWord_digits (ofNat_ne_nil n) digits]
    exact .keyword found .nil
  · have run : ∀ c ∈ 'L' :: 'A' :: Text.ofNat n, isWordChar c := by
      simpa using ⟨by decide, by decide,
        fun c member => isWordChar_of_isDecimalDigit (digits c member)⟩
    have first := keywordsFrom_of_letters (w := ['P']) (by simp) none ('L' :: 'A' :: Text.ofNat n)
    have later := keywordsFrom_of_run run (some 'P') (by decide) []
    rw [List.append_nil] at later
    exact first.trans later

theorem keywordsFrom_edge (previous : Option Char)
    (edge : isWordEdge previous ∨ isWordEdge t.head?) :
    keywordsFrom previous t = keywordsFrom none t := by
  rcases edge with before | front
  · exact keywordsFrom_eq before t
  · cases t with
    | nil => rfl
    | cons c cs =>
      have noWord : isWordChar c = false := by simpa [isWordEdge] using front
      rw [keywordsFrom_of_not_word noWord, keywordsFrom_of_not_word noWord]

theorem keywordsFrom_of_quiet {y : Text} (quiet : Quiet keywordAt previous u y)
    (parted : WordParted u y) : keywordsFrom previous u = [] := by
  have alone : Quiet keywordAt previous u [] := by
    induction u generalizing previous with
    | nil => trivial
    | cons c cs ih =>
      refine ⟨?_, ih quiet.2 fun a b last => ?_⟩
      · rw [List.append_nil, ← parted.keywordAt_append (by simp)]
        exact quiet.1
      · refine parted a b (lastChar_eq_some_of_suffix ?_ (List.suffix_cons c cs) last)
        rintro rfl
        cases last
  have scanned := (Scans.text alone).scan_eq
  rw [keywordsFrom, scanned]
  rfl

theorem isAlone_text (k : Keyword) : isAlone k.text := by cases k <;> decide

theorem ofWord_text (k : Keyword) : Atom.ofWord k.text = .plain k.text := by cases k <;> decide

/-- Marking keywords keeps what a text stands for. -/
theorem legible_marked_from {s : Split Keyword} (scanned : Scans keywordAt previous t s)
    (edge : isWordEdge previous ∨ isWordEdge t.head?) (before : List Keyword)
    (reads : Reads strings (before ++ s.marks) [] [] t.atoms tokens) :
    Legible strings (before ++ s.marks) [] [] (s.head ++
      (s.tail.zipIdx before.length).flatMap fun entry => keywordToken entry.2 ++
      entry.1.2) tokens := by
  induction scanned generalizing before tokens with
  | @text previous t quiet =>
    rw [List.zipIdx_nil, List.flatMap_nil, List.append_nil]
    refine ⟨reads, ?_⟩
    rw [← keywordsFrom_edge previous edge]
    exact keywordsFrom_of_quiet quiet fun _ _ _ head => by cases head
  | @mark previous u w t next k tail quiet nonempty found rest ih =>
    obtain ⟨edgeBefore, rest', same, edgeBehind, width⟩ := keywordAt_eq_some found
    obtain ⟨rfl, rfl⟩ := List.append_inj same width
    have edgeU : isWordEdge (lastChar none u) := by
      cases u with
      | nil => rfl
      | cons c cs => exact edgeBefore
    have parted : WordParted u (k.text ++ t) := by
      intro a b last _ word
      simp [last, isWordEdge, word] at edgeU
    rw [Text.atoms_append_alone (isAlone_text k) edgeU edgeBehind, ofWord_text] at reads
    obtain ⟨d, e, rfl, first, second⟩ := reads.of_append
    cases second with
    | plain later =>
      have split : before ++ (⟨u, (k, next) :: tail⟩ : Split Keyword).marks =
          before ++ [k] ++ (⟨next, tail⟩ : Split Keyword).marks := by simp [Split.marks]
      rw [split] at first later ⊢
      have behind := ih (.inr edgeBehind) (before ++ [k]) later
      rw [List.length_append, List.length_singleton] at behind
      have text_eq : u ++ (((k, next) :: tail).zipIdx before.length).flatMap
          (fun entry => keywordToken entry.2 ++ entry.1.2) =
            u ++ ' ' :: (keywordWord before.length ++ ' ' :: (next ++
            (tail.zipIdx (before.length + 1)).flatMap fun entry => keywordToken entry.2 ++
            entry.1.2)) := by
        simp [keywordToken, keywordWord]
      have space : isDropped ' ' := by decide
      have named : (before ++ [k] ++ (⟨next, tail⟩ : Split Keyword).marks)[before.length]? =
          some k := by simp
      rw [text_eq, Legible.append_dropped_iff space]
      refine ⟨d, _, rfl, ⟨first, ?_⟩, (Legible.append_dropped_iff space).mpr ⟨[k.text], _, rfl,
        legible_keywordWord named, behind⟩⟩
      rw [← keywordsFrom_edge previous]
      · exact keywordsFrom_of_quiet quiet parted
      · cases u with
        | nil => exact .inr rfl
        | cons c cs => exact edge

/-- Marking keywords keeps the tokens of a text. -/
theorem legible_marked {masked : Text} {s : SetAside}
    (reads : Reads strings (s.markKeywords masked).2.keywords [] [] masked.atoms tokens) :
    Legible strings (s.markKeywords masked).2.keywords [] [] (s.markKeywords masked).1 tokens := by
  have scanned : Scans keywordAt none masked (masked.split keywordAt) :=
    Split.scans measured_keywordAt none masked
  have marked := legible_marked_from scanned (.inl rfl) s.keywords reads
  have shift : ∀ n (tail : List (Keyword × Text)),
      (tail.zipIdx n).flatMap (fun entry => keywordToken entry.2 ++ entry.1.2) =
      tail.zipIdx.flatMap fun entry => keywordToken (n + entry.2) ++ entry.1.2 := fun n tail => by
    rw [List.zipIdx_eq_map_add, List.flatMap_map]
  rw [shift] at marked
  exact marked

end Marked

section Pieces

variable {t u : Text} {tokens : List Text}

/-- What the operands and keywords of a level stand for, given what operands stand for. -/
inductive PiecesRead (keywords : List Keyword) (Operand : Text → List Text → Prop) :
    List Piece → List Text → Prop
  | nil : PiecesRead keywords Operand [] []
  | operand {text : Text} {pieces : List Piece} {d e : List Text} (reads : Operand text d)
    (rest : PiecesRead keywords Operand pieces e) :
    PiecesRead keywords Operand (.operand text :: pieces) (d ++ e)
  | keyword {n : Nat} {k : Keyword} {pieces : List Piece} {e : List Text}
    (found : keywords[n]? = some k) (rest : PiecesRead keywords Operand pieces e) :
    PiecesRead keywords Operand (.keyword n :: pieces) (k.text :: e)

theorem PiecesRead.staysOpen {Operand : Text → List Text → Prop}
    (h : PiecesRead keywords Operand pieces tokens) (opened : StaysOpen tokens) :
    PiecesRead keywords (fun text d => Operand text d ∧ StaysOpen d) pieces tokens := by
  induction h with
  | nil => exact .nil
  | operand reads _ ih =>
    have parts := List.pairwise_append.mp opened
    exact .operand ⟨reads, parts.1⟩ (ih parts.2.1)
  | keyword found _ ih => exact .keyword found (ih opened.of_cons)

theorem legible_ofPlain (h : Legible strings keywords groups parts u tokens) :
    Piece.ofPlain u = [] ∧ tokens = [] ∨
      Piece.ofPlain u = [.operand (Text.strip u)] ∧
      Legible strings keywords groups parts (Text.strip u) tokens := by
  unfold Piece.ofPlain
  split
  · next blank =>
    have nothing : u.atoms = [] := by
      rw [← Text.atoms_strip, List.isEmpty_iff.mp blank]
      rfl
    have reads := h.reads
    rw [nothing] at reads
    cases reads
    exact .inl ⟨rfl, rfl⟩
  · exact .inr ⟨rfl, Legible.strip_iff.mpr h⟩

/-- What a text around the token of a keyword stands for. -/
theorem Legible.of_keywordToken {w : Text}
    (found : keywordTokenAt (lastChar previous u) (w ++ t) = some (digits, w.length))
    (h : Legible strings keywords groups parts (u ++ (w ++ t)) tokens) :
    ∃ d n k e, tokens = d ++ k.text :: e ∧ digits = Text.ofNat n ∧ keywords[n]? = some k ∧
      Legible strings keywords groups parts u d ∧ Legible strings keywords groups parts t e := by
  obtain ⟨before, behind, rest, same, width, nonempty, all, blank, blank', edge, edge'⟩ :=
    keywordTokenAt_eq_some found
  obtain ⟨rfl, rfl⟩ := List.append_inj same width
  have edgeU : before = [] → isWordEdge (lastChar none u) := fun empty => by
    cases u with
    | nil => rfl
    | cons c cs => exact edge empty
  have first : WordParted u (before ++ ("PLA".toList ++ digits) ++ behind ++ t) := by
    cases before with
    | nil =>
      intro a b last _ word
      have := edgeU rfl
      simp [last, isWordEdge, word] at this
    | cons c cs =>
      exact wordParted_of_not_word (isWordChar_eq_false_of_isBlank (blank c (by simp))) _ _
  have second : WordParted (before ++ ("PLA".toList ++ digits) ++ behind) t := by
    intro a b last head word
    rcases List.eq_nil_or_concat behind with rfl | ⟨cs, c, rfl⟩
    · simpa [head, isWordEdge] using edge' rfl
    · obtain rfl : c = a := by simpa [lastChar_append, lastChar] using last
      rw [isWordChar_eq_false_of_isBlank (blank' c (by simp))] at word
      cases word
  have marked := h.marked
  rw [first.keywordsFrom_none, second.keywordsFrom_none, List.append_eq_nil_iff,
    List.append_eq_nil_iff] at marked
  have atoms : Text.atoms (u ++ (before ++ ("PLA".toList ++ digits) ++ behind ++ t)) =
      u.atoms ++ .token .keyword digits :: t.atoms := by
    have alone : isAlone ("PLA".toList ++ digits) := by
      rw [isAlone, digitsBehind?_append _ nonempty all]
      simp
    have edgeBehind : isWordEdge (behind ++ t).head? := by
      cases behind with
      | nil => exact edge' rfl
      | cons c cs => simp [isWordEdge, isWordChar_eq_false_of_isBlank (blank' c (by simp))]
    have tail :=
      Text.atoms_of_forall_dropped (fun c member => Text.isDropped_of_isBlank (blank' c member)) t
    cases before with
    | nil =>
      have whole := Text.atoms_append_alone (x := u) alone (edgeU rfl) edgeBehind
      rw [ofWord_digits nonempty all, tail] at whole
      simpa using whole
    | cons c cs =>
      have inside := Text.atoms_of_forall_dropped (w := cs)
        (fun c member => Text.isDropped_of_isBlank (blank c (by simp [member])))
        ("PLA".toList ++ digits ++ (behind ++ t))
      have whole := Text.atoms_append_dropped (Text.isDropped_of_isBlank (blank c (by simp))) u
        (cs ++ ("PLA".toList ++ digits ++ (behind ++ t)))
      rw [inside, Text.atoms_alone alone edgeBehind, ofWord_digits nonempty all, tail] at whole
      simpa using whole
  have reads := h.reads
  rw [atoms] at reads
  obtain ⟨d, e, rfl, readsU, readsRest⟩ := reads.of_append
  cases readsRest with
  | keyword named later =>
    exact ⟨d, _, _, _, rfl, rfl, named, ⟨readsU, marked.1⟩, later, marked.2.2⟩

theorem Piece.ofText_cons_eq_ok {head next : Text} {tail : List (Text × Text)} (h : (do
      let rest ← ((digits, next) :: tail).mapM fun (digits, plain) => do
        return Piece.keyword (← tokenNumber digits) :: Piece.ofPlain plain
      return Piece.ofPlain head ++ rest.flatten) = Except.ok pieces) :
    ∃ n rest, tokenNumber digits = .ok n ∧ pieces = Piece.ofPlain head ++ .keyword n :: rest ∧ (do
      let rest ← tail.mapM fun (digits, plain) => do
        return Piece.keyword (← tokenNumber digits) :: Piece.ofPlain plain
      return Piece.ofPlain next ++ rest.flatten) = Except.ok rest := by
  simp only [List.mapM_cons, bind_eq_ok_iff, pure_eq_ok_iff] at h ⊢
  obtain ⟨lists, ⟨first, ⟨n, number, rfl⟩, later, rest, rfl⟩, rfl⟩ := h
  exact ⟨n, _, number, by simp, later, rest, rfl⟩

/-- Cutting a level at its keywords keeps its tokens. -/
theorem piecesRead_of_legible (legible : Legible strings keywords groups parts t tokens)
    (h : Piece.ofText t = .ok pieces) :
    PiecesRead keywords (Legible strings keywords groups parts) pieces tokens := by
  have scanned : Scans keywordTokenAt none t (t.split keywordTokenAt) :=
    Split.scans measured_keywordTokenAt none t
  rw [Piece.ofText] at h
  generalize t.split keywordTokenAt = s at scanned h
  generalize (none : Option Char) = previous at scanned
  have plain : ∀ {u d ps e}, Legible strings keywords groups parts u d →
      PiecesRead keywords (Legible strings keywords groups parts) ps e →
      PiecesRead keywords (Legible strings keywords groups parts) (Piece.ofPlain u ++ ps)
        (d ++ e) := by
    intro u d ps e reads rest
    rcases legible_ofPlain reads with ⟨none, rfl⟩ | ⟨one, stripped⟩
    · rwa [none]
    · rw [one]
      exact .operand stripped rest
  induction scanned generalizing tokens pieces with
  | @text previous t quiet =>
    obtain rfl : Piece.ofPlain t ++ [] = pieces := Except.ok.inj h
    simpa using plain legible .nil
  | @mark previous u w t next digits tail quiet nonempty found rest ih =>
    obtain ⟨n, later, number, rfl, read⟩ := Piece.ofText_cons_eq_ok h
    obtain ⟨d, m, k, e, rfl, rfl, named, first, second⟩ := legible.of_keywordToken found
    obtain rfl := eq_of_tokenNumber_ofNat number
    exact plain first (.keyword named (ih second read))

end Pieces

section Level

variable {fail : Fault → Error} {operand : Text → Except Error Expr}
  {Operand : Text → List Text → Prop} {pieces : List Piece}

/-- The tokens of the left operand of a connective and of the connective. -/
def Waiting.tokens : Option Waiting → List Text
  | some w => w.left.tokens ++ [w.keyword.text]
  | none => []

/-- Joining puts the tokens one behind the other. -/
theorem tokens_join (waiting : Option Waiting) (e : Expr) :
    (Waiting.join waiting e).tokens = Waiting.tokens waiting ++ e.tokens := by
  cases waiting with
  | none => rfl
  | some w => simp [Waiting.join, Waiting.tokens, Expr.tokens]

/-- A negation has its keyword before the operand. -/
theorem tokens_negate (nots : List Nat) (e : Expr) :
    (negate nots e).tokens = nots.map (fun _ => Keyword.not.text) ++ e.tokens := by
  induction nots generalizing e with
  | nil => rfl
  | cons n nots ih =>
    have later : negate (n :: nots) e = negate nots (.negation n e) := rfl
    have same : Keyword.not.text :: nots.map (fun _ => Keyword.not.text) =
        nots.map (fun _ => Keyword.not.text) ++ [Keyword.not.text] := by
      simp [List.map_const', ← List.replicate_succ, ← List.replicate_succ']
    rw [later, ih, Expr.tokens, List.map_cons, same]
    simp

/-- A level that is read has the tokens that its pieces stand for. -/
theorem tokens_readOperand
    (each : ∀ text d e, Operand text d → operand text = .ok e → e.tokens = d) :
    (∀ waiting nots e tokens, PiecesRead keywords Operand pieces tokens →
      readOperand keywords fail operand waiting nots pieces = .ok e →
      e.tokens = Waiting.tokens waiting ++ (nots.map (fun _ => Keyword.not.text) ++ tokens)) ∧
    ∀ left e tokens, PiecesRead keywords Operand pieces tokens →
      readConnective keywords fail operand left pieces = .ok e →
      e.tokens = left.tokens ++ tokens := by
  induction pieces with
  | nil =>
    refine ⟨fun waiting nots e tokens _ h => ?_, fun left e tokens reads h => ?_⟩
    · cases h
    · obtain rfl := Except.ok.inj h
      cases reads
      simp
  | cons piece pieces ih =>
    refine ⟨fun waiting nots e tokens reads h => ?_, fun left e tokens reads h => ?_⟩
    · cases reads with
      | @operand text _ d rest reads later =>
        rw [readOperand] at h
        split at h
        · cases h
        · next inner read =>
          rw [ih.2 _ _ _ later h, tokens_join, tokens_negate, each text d inner reads read]
          simp
      | @keyword n k _ rest found later =>
        rw [readOperand, nthEntry_eq_ok_iff.mpr found] at h
        cases k with
        | not =>
          have same : nots.map (fun _ => Keyword.not.text) ++ [Keyword.not.text] =
              (n :: nots).map fun _ => Keyword.not.text := by
            simp [List.map_const', ← List.replicate_succ, ← List.replicate_succ']
          rw [ih.1 _ _ _ _ later h, ← same]
          simp
        | and | or => cases h
    · cases reads with
      | operand reads later => cases h
      | @keyword n k _ rest found later =>
        rw [readConnective, nthEntry_eq_ok_iff.mpr found] at h
        cases k with
        | not => cases h
        | and | or =>
          rw [ih.1 _ _ _ _ later h]
          simp [Waiting.tokens]

end Level

end PolicyRules
