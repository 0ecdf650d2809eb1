import PolicyRules.Proofs.LeafReading

/-!
# Reading logical levels back

A logical level is cut at the tokens of its keywords. The texts between them have the layouts
between the keywords, so the pieces of a level follow the structure of the expression: the operands
and keywords are joined again as they were printed, with groups in parentheses read as levels of
their own.

Main statement: `SetAside.parseWithin_eq_ok_of_shows`.
-/

namespace PolicyRules

/-- The layouts between the keywords of a layout: the first one, and each keyword with the one
behind it. -/
def Layout.runs : Layout → Layout × List ((Keyword × Int) × Layout)
  | nil => (nil, [])
  | item (.keyword k ordinal) rest => (nil, ((k, ordinal), rest.runs.1) :: rest.runs.2)
  | item (.lexeme x) rest => (item (.lexeme x) rest.runs.1, rest.runs.2)
  | nested b inner rest => (nested b inner rest.runs.1, rest.runs.2)

/-- A keyword ends a run. -/
theorem Layout.runs_append_keyword (l m : Layout) (k : Keyword) (ordinal : Int) :
    (l ++ item (.keyword k ordinal) m).runs =
      (l.runs.1, l.runs.2 ++ ((k, ordinal), m.runs.1) :: m.runs.2) := by
  induction l with
  | nil => rfl
  | item i rest ih => cases i <;> simp [runs, ih]
  | nested b inner rest _ ih => simp [runs, ih]

/-- Whether a token and the text behind it are those of a keyword and the layout behind it. -/
def CutsRun (v : View) (keywords : List Keyword) (run : (Keyword × Int) × Layout)
    (mark : Text × Text) : Prop :=
  (∃ n : Nat, run.1.2 = n ∧ keywords[n]? = some run.1.1 ∧ mark.1 = Text.ofNat n) ∧
    Shows v run.2 mark.2

/-- Whether a text that is cut at the tokens of keywords has the layouts between the keywords. -/
def Cuts (v : View) (keywords : List Keyword) (runs : Layout × List ((Keyword × Int) × Layout))
    (s : Split Text) : Prop :=
  Shows v runs.1 s.head ∧ List.Forall₂ (CutsRun v keywords) runs.2 s.tail

/-- A view of a level: words other than keywords are passed over, keywords are tokens of the list
that they are set aside in, and no bracketed part stands in the text. -/
structure View.IsLevel (v : View) (keywords : List Keyword) : Prop where
  plain : ∀ {l rest w}, v.Leads l rest w → IsPlain w
  lexeme : ∀ {x w}, v.item (.lexeme x) w → Passes keywordWordAt w
  token : ∀ {b inner w}, v.token b inner w → Passes keywordWordAt w
  keyword : ∀ {k ordinal w}, v.item (.keyword k ordinal) w → keywordMarked keywords k ordinal w
  raw : ∀ {b inner}, ¬ v.raw b inner

variable {previous : Option Char} {w t : Text} {l : Layout} {ps : List Piece} {e : Expr}

theorem quiet_keywordTokenAt_of_isPlain (solid : ∀ c ∈ w, isBlank c = false)
    (h : Quiet keywordWordAt previous w t) : Quiet keywordTokenAt previous w t := by
  induction w generalizing previous with
  | nil => trivial
  | cons c cs ih =>
    obtain ⟨here, later⟩ := List.forall_mem_cons.mp solid
    refine ⟨?_, ih later h.2⟩
    rw [List.cons_append, keywordTokenAt_of_not_blank here, ← List.cons_append, h.1,
      Option.map_none]

theorem keywordTokenAt_width_pos {found : Text × Nat} (h : keywordTokenAt previous t = some found) :
    0 < found.2 := by
  unfold keywordTokenAt at h
  dsimp only at h
  split at h
  · obtain ⟨rest, -, h⟩ := Option.bind_eq_some_iff.mp h
    obtain ⟨digits, -, h⟩ := Option.bind_eq_some_iff.mp h
    split at h
    · cases h
      simp
    · cases h
  · cases h

/-- A token behind a space is found at the space, and taken with it. -/
theorem scan_space (previous : Option Char) (t : Text) :
    Split.scan keywordTokenAt 0 previous (' ' :: t) =
        (Split.scan keywordTokenAt 0 (some ' ') t).consText [' '] ∨
      Split.scan keywordTokenAt 0 previous (' ' :: t) = Split.scan keywordTokenAt 0 (some ' ') t ∧
        (Split.scan keywordTokenAt 0 (some ' ') t).head = [] := by
  rw [Split.scan, keywordTokenAt_blank (by decide)]
  cases found : keywordTokenAt (some ' ') t with
  | none => exact .inl rfl
  | some mark =>
    obtain ⟨digits, width⟩ := mark
    have pos : 0 < width := keywordTokenAt_width_pos found
    obtain ⟨width, rfl⟩ : ∃ k, width = k + 1 := ⟨width - 1, by omega⟩
    cases t with
    | nil => simp [keywordTokenAt, Text.dropStart?] at found
    | cons c cs =>
      have here : Split.scan keywordTokenAt 0 (some ' ') (c :: cs) =
          (Split.scan keywordTokenAt width (some c) cs).consMark digits := by
        rw [Split.scan, found]
        rfl
      exact .inr ⟨by rw [here]; rfl, by rw [here]; rfl⟩

theorem scan_append_of_passes (plain : IsPlain w)
    (passes : Passes keywordWordAt w) (begins : BeginsWord previous) (gap : Gap t) :
    Split.scan keywordTokenAt 0 previous (w ++ t) =
      (Split.scan keywordTokenAt 0 (lastChar previous w) t).consText w := by
  refine Split.scan_append_of_quiet (quiet_keywordTokenAt_of_isPlain (fun c member => ?_) ?_)
  · exact isBlank_eq_false_of_isPlainChar (plain.2 c member)
  · simpa using passes previous t begins (by simpa using gap.endsWord endsWord_nil)

/-- The token of a keyword is taken with the blanks behind it. -/
theorem scan_keywordWord (begins : BeginsWord previous) (gap : Gap t) (n : Nat) :
    Split.scan keywordTokenAt 0 previous (keywordWord n ++ t) =
      (Split.scan keywordTokenAt (t.takeWhile isBlank).length (lastChar previous (keywordWord n))
        t).consMark (Text.ofNat n) := by
  have ends : EndsWord t := by simpa using gap.endsWord endsWord_nil
  have found := (taken_keywordWord n).2 previous t begins ends
  obtain ⟨c, cs, word_eq⟩ := List.exists_cons_of_ne_nil (taken_keywordWord n).1
  have solid : isBlank c = false :=
    isBlank_eq_false_of_isPlainChar ((isPlain_keywordWord n).2 c (by simp [word_eq]))
  have taken : keywordTokenAt previous (keywordWord n ++ t) =
      some (Text.ofNat n, (keywordWord n).length + (t.takeWhile isBlank).length) := by
    rw [word_eq, List.cons_append] at found ⊢
    rw [keywordTokenAt_of_not_blank solid, found, Option.map_some, ← List.cons_append,
      List.drop_left]
  rw [word_eq, List.cons_append] at taken ⊢
  have width_eq : (c :: cs).length + (t.takeWhile isBlank).length - 1 =
      (t.takeWhile isBlank).length + cs.length := by
    rw [List.length_cons]
    omega
  rw [Split.scan, taken]
  simp only [width_eq, Split.scan_skip]
  rfl

namespace Shows

variable {v : View} {keywords : List Keyword} {l : Layout} {t : Text}

/-- Cutting a text at the tokens of keywords, also when the blanks before it have been taken with
the token before them. -/
theorem cuts (level : v.IsLevel keywords) (h : Shows v l t) :
    ∀ {previous : Option Char}, BeginsWord previous ∨ Gap t →
      Cuts v keywords l.runs (Split.scan keywordTokenAt 0 previous t) ∧
      (Gap t → Gap (Split.scan keywordTokenAt 0 previous t).head) ∧
      Cuts v keywords l.runs
        (Split.scan keywordTokenAt (t.takeWhile isBlank).length previous t) := by
  have firm : v.Firm := fun _ _ _ leads => (level.plain leads).firm
  have unblank : ∀ {l rest w}, v.Leads l rest w → ∀ t, (w ++ t).takeWhile isBlank = [] := by
    intro l rest w leads t
    obtain ⟨c, cs, -, -, rfl, solid, -, -⟩ := firm l rest w leads
    simp [solid]
  induction h with
  | nil => exact fun _ => ⟨⟨.nil, .nil⟩, fun _ => gap_nil, .nil, .nil⟩
  | @space l t h ih =>
    intro previous _
    obtain ⟨cut, -, cut'⟩ := ih (.inl beginsWord_space)
    refine ⟨?_, fun _ => ?_, cut'⟩
    · rcases scan_space previous t with same | ⟨same, -⟩ <;> rw [same]
      · exact ⟨.space cut.1, cut.2⟩
      · exact cut
    · rcases scan_space previous t with same | ⟨same, empty⟩ <;> rw [same]
      · exact gap_space _
      · rw [empty]
        exact gap_nil
  | @item i w t rest shown gap h ih =>
    intro previous begins
    have leads : v.Leads (.item i rest) rest w := .item shown
    have begins' := begins.resolve_right (firm.not_gap leads t)
    rw [unblank leads]
    suffices Cuts v keywords (Layout.item i rest).runs
        (Split.scan keywordTokenAt 0 previous (w ++ t)) from
      ⟨this, fun gap => absurd gap (firm.not_gap leads t), this⟩
    obtain ⟨cut, gap', cut'⟩ := ih (.inr gap)
    cases i with
    | lexeme x =>
      rw [scan_append_of_passes (level.plain leads) (level.lexeme shown) begins' gap]
      exact ⟨.item shown (gap' gap) cut.1, cut.2⟩
    | keyword k ordinal =>
      obtain ⟨n, rfl, found, rfl⟩ := level.keyword shown
      rw [scan_keywordWord begins' gap]
      exact ⟨.nil, .cons ⟨⟨n, rfl, found, rfl⟩, cut'.1⟩ cut'.2⟩
  | @token b inner rest w t shown gap h ih =>
    intro previous begins
    have leads : v.Leads (.nested b inner rest) rest w := .token shown
    have begins' := begins.resolve_right (firm.not_gap leads t)
    rw [unblank leads]
    suffices Cuts v keywords (Layout.nested b inner rest).runs
        (Split.scan keywordTokenAt 0 previous (w ++ t)) from
      ⟨this, fun gap => absurd gap (firm.not_gap leads t), this⟩
    obtain ⟨cut, gap', -⟩ := ih (.inr gap)
    rw [scan_append_of_passes (level.plain leads) (level.token shown) begins' gap]
    exact ⟨.token shown (gap' gap) cut.1, cut.2⟩
  | raw stands => exact absurd stands level.raw

end Shows

section Pieces

variable (v : View) (keywords : List Keyword)

/-- The piece of a layout between keywords, if there is anything in it. -/
def RunPieces (l : Layout) (ps : List Piece) : Prop :=
  l = .nil ∧ ps = [] ∨ l ≠ .nil ∧ ∃ t, ps = [.operand (Text.strip t)] ∧ Shows v l t

/-- The pieces of keywords and of the layouts behind them. -/
def KeywordPieces : List ((Keyword × Int) × Layout) → List Piece → Prop
  | [], ps => ps = []
  | run :: runs, ps => ∃ (n : Nat) (first rest : List Piece), ps = .keyword n :: (first ++ rest) ∧
      run.1.2 = n ∧ keywords[n]? = some run.1.1 ∧ RunPieces v run.2 first ∧ KeywordPieces runs rest

/-- The pieces of a level. -/
def LevelPieces (l : Layout) (ps : List Piece) : Prop :=
  ∃ first rest, ps = first ++ rest ∧ RunPieces v l.runs.1 first ∧
    KeywordPieces v keywords l.runs.2 rest

variable {v keywords}

/-- A run is read as one operand, or none. -/
theorem runPieces_ofPlain (firm : v.Firm) (h : Shows v l t) : RunPieces v l (Piece.ofPlain t) := by
  unfold Piece.ofPlain
  split
  · next empty =>
    have stripped := h.strip firm
    rw [List.isEmpty_iff.mp empty] at stripped
    exact .inl ⟨stripped.eq_nil_of_empty firm, rfl⟩
  · next nonempty =>
    refine .inr ⟨?_, t, rfl, h⟩
    rintro rfl
    have blank : ∀ c ∈ t, isBlank c := fun c member => by
      rw [h.eq_space_of_nil c member]
      decide
    have dropped : t.dropWhile isBlank = [] := List.dropWhile_eq_nil_iff.mpr (by simpa using blank)
    simp [Text.strip, dropped] at nonempty

/-- The cuts of a level are read as its keywords and runs. -/
theorem keywordPieces_of_cuts (firm : v.Firm) (small : keywords.length ≤ 10 ^ maxDecimalDigits)
    {runs : List ((Keyword × Int) × Layout)} {tail : List (Text × Text)}
    (h : List.Forall₂ (CutsRun v keywords) runs tail) : ∃ pss, (tail.mapM fun mark => do
        return Piece.keyword (← tokenNumber mark.1) :: Piece.ofPlain mark.2) = Except.ok pss ∧
      KeywordPieces v keywords runs pss.flatten := by
  induction h with
  | nil => exact ⟨[], rfl, rfl⟩
  | @cons run mark runs tail first rest ih =>
    obtain ⟨⟨n, ordinal_eq, found, digits_eq⟩, shown⟩ := first
    obtain ⟨pss, mapped, pieces⟩ := ih
    have lt : n < keywords.length := (List.getElem?_eq_some_iff.mp found).1
    refine ⟨(.keyword n :: Piece.ofPlain mark.2) :: pss, ?_, n, _, _, by simp, ordinal_eq, found,
      runPieces_ofPlain firm shown, pieces⟩
    simp only [List.mapM_cons, bind_eq_ok_iff, pure_eq_ok_iff]
    refine ⟨_, ⟨n, ?_, rfl⟩, pss, mapped, rfl⟩
    rw [digits_eq]
    exact tokenNumber_ofNat (by omega)

/-- The pieces of a text are those of its layout. -/
theorem levelPieces_of_shows (level : v.IsLevel keywords)
    (small : keywords.length ≤ 10 ^ maxDecimalDigits) (h : Shows v l t) :
    ∃ ps, Piece.ofText t = .ok ps ∧ LevelPieces v keywords l ps := by
  have firm : v.Firm := fun _ _ _ leads => (level.plain leads).firm
  obtain ⟨⟨head_shown, tail_cut⟩, -, -⟩ := h.cuts level (.inl beginsWord_none)
  obtain ⟨pss, mapped, pieces⟩ := keywordPieces_of_cuts firm small tail_cut
  refine ⟨_, ?_, _, _, rfl, runPieces_ofPlain firm head_shown, pieces⟩
  simp only [Piece.ofText, bind_eq_ok_iff, pure_eq_ok_iff]
  exact ⟨pss, mapped, rfl⟩

/-- Pieces are divided where the runs are. -/
theorem KeywordPieces.of_append {runs runs' : List ((Keyword × Int) × Layout)}
    (h : KeywordPieces v keywords (runs ++ runs') ps) :
    ∃ qs qs', ps = qs ++ qs' ∧ KeywordPieces v keywords runs qs ∧
      KeywordPieces v keywords runs' qs' := by
  induction runs generalizing ps with
  | nil => exact ⟨[], ps, rfl, rfl, h⟩
  | cons run runs ih =>
    obtain ⟨n, first, rest, rfl, ordinal_eq, found, run_pieces, rest_pieces⟩ := h
    obtain ⟨qs, qs', rfl, before, behind⟩ := ih rest_pieces
    exact ⟨_, qs', by simp, ⟨n, first, qs, rfl, ordinal_eq, found, run_pieces, before⟩, behind⟩

/-- The pieces around a keyword. -/
theorem LevelPieces.of_append {m : Layout} {k : Keyword} {ordinal : Int}
    (h : LevelPieces v keywords (l ++ .item (.keyword k ordinal) m) ps) :
    ∃ (n : Nat) (qs qs' : List Piece), ps = qs ++ .keyword n :: qs' ∧ ordinal = n ∧
      keywords[n]? = some k ∧ LevelPieces v keywords l qs ∧ LevelPieces v keywords m qs' := by
  obtain ⟨first, rest, rfl, first_pieces, rest_pieces⟩ := h
  rw [Layout.runs_append_keyword] at first_pieces rest_pieces
  obtain ⟨qs, qs', rfl, before, n, run, behind, rfl, ordinal_eq, found, run_pieces,
    behind_pieces⟩ :=
    rest_pieces.of_append
  exact ⟨n, first ++ qs, run ++ behind, by simp, ordinal_eq, found,
    ⟨first, qs, rfl, first_pieces, before⟩, run, behind, rfl, run_pieces, behind_pieces⟩

theorem LevelPieces.of_nil (h : LevelPieces v keywords .nil ps) : ps = [] := by
  obtain ⟨first, rest, rfl, ⟨-, rfl⟩ | ⟨nonempty, -⟩, rest_pieces⟩ := h
  · exact rest_pieces
  · exact absurd rfl nonempty

/-- A layout without keywords is a single piece. -/
theorem LevelPieces.of_single (h : LevelPieces v keywords l ps) (single : l.runs = (l, []))
    (nonempty : l ≠ .nil) : ∃ t, ps = [.operand (Text.strip t)] ∧ Shows v l t := by
  obtain ⟨first, rest, rfl, first_pieces, rest_pieces⟩ := h
  rw [single] at first_pieces rest_pieces
  cases rest_pieces
  rcases first_pieces with ⟨empty, -⟩ | ⟨-, t, rfl, shown⟩
  · exact absurd empty nonempty
  · exact ⟨t, by simp, shown⟩

end Pieces

theorem Layout.runs_of_isLeaf (h : l.IsLeaf) : l.runs = (l, []) := by
  induction l with
  | nil => rfl
  | item i rest ih =>
    cases i with
    | lexeme x => rw [runs, ih h]
    | keyword k ordinal => exact h.elim
  | nested b inner rest _ ih =>
    cases b with
    | round => rw [runs, ih h.2]
    | square => rw [runs, ih h]

theorem Layout.append_item_ne_nil (l m : Layout) (i : Item) : l ++ item i m ≠ nil := by
  cases l <;> simp

namespace Expr

theorem isLeaf_body (leaf : e.isConnective = false) : e.body.IsLeaf := by
  rw [← layout_leaf_zero leaf]
  exact e.isLeaf_layout 0

theorem body_ne_nil (printable : e.Printable) : e.body ≠ .nil := by
  cases e with
  | hole => exact printable.elim
  | mapped key tracker | binary op left right | logical op ordinal left right
  | updateMapped op key tracker value => exact Layout.append_item_ne_nil _ _ _
  | _ => simp [body]

end Expr

section Reading

variable {v : View} {keywords : List Keyword} {fail : Fault → Error}
  {operand : Text → Except Error Expr}

variable (leaf : ∀ e t, e.Printable → e.Legible → e.isConnective = false → Shows v e.body t →
    operand (Text.strip t) = .ok e)
  (group : ∀ e t, e.Printable → e.Legible → Shows v (.nested .round e.body .nil) t →
    operand (Text.strip t) = .ok e)

include leaf

/-- Reading a leaf expression, and what follows it. -/
theorem readOperand_of_leaf (printable : e.Printable) (legible : e.Legible)
    (isLeaf : e.isConnective = false) (h : LevelPieces v keywords e.body ps)
    (waiting : Option Waiting) (nots : List Nat) (rest : List Piece) :
    readOperand keywords fail operand waiting nots (ps ++ rest) =
      readConnective keywords fail operand (Waiting.join waiting (negate nots e)) rest := by
  obtain ⟨t, rfl, shown⟩ :=
    h.of_single (Layout.runs_of_isLeaf (Expr.isLeaf_body isLeaf)) (Expr.body_ne_nil printable)
  simp only [List.singleton_append, readOperand, leaf e t printable legible isLeaf shown]

include group

variable (fail) in
/-- Reading an operand, and what follows it. -/
theorem readOperand_of_operand (printable : e.Printable) (legible : e.Legible)
    (h : LevelPieces v keywords (e.layout .operand) ps) (waiting : Option Waiting) (nots : List Nat)
    (rest : List Piece) :
    readOperand keywords fail operand waiting nots (ps ++ rest) =
      readConnective keywords fail operand (Waiting.join waiting (negate nots e)) rest := by
  induction e generalizing ps nots with
  | logical op ordinal left right =>
    obtain ⟨t, rfl, shown⟩ :=
      h.of_single rfl (by simp [Expr.layout, Expr.brackets, Layout.bracketed])
    simp only [List.singleton_append, readOperand, group _ t printable legible shown]
  | negation ordinal e ih =>
    obtain ⟨n, qs, qs', rfl, rfl, found, before, behind⟩ := LevelPieces.of_append (l := .nil) h
    rw [before.of_nil, List.nil_append, List.cons_append, readOperand,
      nthEntry_eq_ok_iff.mpr found]
    exact ih printable legible behind (n :: nots)
  | _ => exact readOperand_of_leaf leaf printable legible rfl h waiting nots rest

variable (fail operand) in
/-- Reading a level, and what follows it. -/
theorem readOperand_of_level (printable : e.Printable) (legible : e.Legible)
    (h : LevelPieces v keywords e.body ps) (rest : List Piece) :
    readOperand keywords fail operand none [] (ps ++ rest) =
      readConnective keywords fail operand e rest := by
  induction e generalizing ps rest with
  | logical op ordinal left right ihl =>
    obtain ⟨connective, printable_left, printable_right⟩ := printable
    obtain ⟨legible_left, legible_right⟩ := Expr.legible_append legible
    obtain ⟨n, qs, qs', rfl, rfl, found, before, behind⟩ := h.of_append
    rw [List.append_assoc, List.cons_append, ihl printable_left legible_left before]
    have read := readOperand_of_operand fail leaf group printable_right legible_right behind
      (some ⟨left, op, n⟩) [] rest
    rw [readConnective, nthEntry_eq_ok_iff.mpr found]
    cases op with
    | and | or => exact read
    | not => exact absurd rfl connective
  | negation ordinal e =>
    exact readOperand_of_operand fail leaf group printable legible h none [] rest
  | _ => exact readOperand_of_leaf leaf printable legible rfl h none [] rest

end Reading

section Collapsed

variable {strings : List Text} {keywords : List Keyword} {table : List (Text × Expr)}
  {start n : Nat} {groups : List Text}

theorem View.isLevel_collapsed :
    (View.collapsed strings keywords table start groups n).IsLevel keywords where
  plain := isPlain_of_collapsed
  lexeme {x w} shown := by
    rw [View.collapsed, View.aside_item] at shown
    refine shown.elim_lexeme
      (fun x proper plain => (proper.isUnreserved plain).passes_keywordWordAt) ?_
    rintro text - ⟨n, -, rfl⟩
    exact (isUnreserved_stringToken n).passes_keywordWordAt
  token {b inner w} shown := by
    rcases View.aside_token.mp shown with ⟨-, m, rfl, -⟩ | ⟨m, -, -, -, rfl, -⟩
    · exact passes_keywordWordAt_subexpressionToken m
    · exact (isUnreserved_numbered (by decide) (by decide) _).passes_keywordWordAt
  keyword {k ordinal w} shown := by
    rw [View.collapsed, View.aside_item] at shown
    exact shown.2
  raw {b inner} stands := by
    rw [View.collapsed, View.aside_raw] at stands
    exact stands.1 stands.2

theorem Layout.append_item_ne_nested (l m inner : Layout) (i : Item) (b : Bracket) :
    l ++ item i m ≠ nested b inner nil := by
  cases l with
  | nil => simp
  | item j rest => simp
  | nested c inner' rest =>
    intro same
    exact append_item_ne_nil rest m i (Layout.nested.inj same).2.2

theorem Expr.body_ne_nested (leaf : e.isConnective = false) (b : Bracket) (inner : Layout) :
    e.body ≠ .nested b inner .nil := by
  cases e with
  | mapped key tracker | binary op left right | updateMapped op key tracker value =>
    exact Layout.append_item_ne_nested _ _ _ _ _
  | logical op ordinal left right | negation ordinal operand => cases leaf
  | _ => simp [body]

/-- The token of a group is its digits behind the letter. -/
theorem groupToken?_eq_some {u digits : Text} (h : groupToken? u = some digits) :
    u = 'i' :: ':' :: digits ∧ digits ≠ [] ∧ ∀ c ∈ digits, isDecimalDigit c := by
  obtain ⟨rest, start, h⟩ := Option.bind_eq_some_iff.mp h
  rw [Text.dropStart?_eq_some_iff] at start
  split at h
  · next holds =>
    cases h
    simp only [Bool.and_eq_true, Bool.not_eq_true', List.isEmpty_eq_false_iff, List.all_eq_true]
      at holds
    exact ⟨start, holds⟩
  · cases h

theorem groupToken?_ofNat (n : Nat) :
    groupToken? ('i' :: ':' :: Text.ofNat n) = some (Text.ofNat n) := by
  have digits : ∀ c ∈ Text.ofNat n, isDecimalDigit c := fun c member =>
    isDecimalDigit_of_isDigit (isDigit_of_mem_ofNat member)
  simpa [groupToken?, Text.dropStart?, ofNat_ne_nil n] using digits

theorem passes_groupTokenAt_of_collapsed {i : Item}
    (shown : (View.collapsed strings keywords table start groups n).item i w) :
    Passes groupTokenAt w := by
  rw [View.collapsed, View.aside_item] at shown
  refine shown.elim (fun x proper plain => proper.passes_numberedAt plain 'i') ?_ ?_
  · rintro text - ⟨n, -, rfl⟩
    exact passes_groupTokenAt_stringToken n
  · rintro k ordinal ⟨n, -, -, rfl⟩
    exact passes_numberedAt_of_not_mem
      (not_mem_append_ofNat "PLA".toList (by decide) (by decide) n)

/-- A leaf expression is not the token of a group. -/
theorem groupToken?_eq_none {u : Text} (leaf : e.isConnective = false)
    (h : Shows (.collapsed strings keywords table start groups n) e.body u) :
    groupToken? u = none := by
  cases found : groupToken? u with
  | none => rfl
  | some digits =>
    exfalso
    obtain ⟨text_eq, nonempty, all⟩ := groupToken?_eq_some found
    have firm : (View.collapsed strings keywords table start groups n).Firm :=
      fun _ _ _ leads => (isPlain_of_collapsed leads).firm
    have noSpace : ' ' ∉ u := by
      rw [text_eq]
      intro member
      have digit : ' ' ∈ digits := by simpa using member
      cases all ' ' digit
    have noGap : ∀ {w t : Text}, u = w ++ t → Gap t → t = [] := by
      rintro w t rfl gap
      cases t with
      | nil => rfl
      | cons c cs => cases gap c rfl; simp at noSpace
    generalize body_eq : e.body = l at h
    cases h with
    | nil | space h => cases text_eq
    | @item i w t rest shown gap h =>
      cases noGap rfl gap
      rw [List.append_nil] at text_eq
      have passed := passes_groupTokenAt_of_collapsed shown none [] beginsWord_none endsWord_nil
      have run : digits.takeWhile isDecimalDigit = digits := by simpa using all
      have digits_eq : digitsAt? digits = some digits := by
        rw [digitsAt?, run]
        simp [nonempty]
      have taken : groupTokenAt none ('i' :: ':' :: digits) = some (digits, digits.length + 2) := by
        simp [groupTokenAt, numberedAt, isClear_of_beginsWord, Text.dropStart?, digits_eq]
      rw [text_eq] at passed
      have here := passed.1
      rw [List.append_nil, taken] at here
      cases here
    | @token b inner rest w t shown gap h =>
      cases noGap rfl gap
      cases h.eq_nil_of_empty firm
      exact Expr.body_ne_nested leaf b inner body_eq
    | raw stands => exact View.isLevel_collapsed.raw stands

/-- A text that is a single token, without the blanks around it. -/
theorem Shows.strip_token {v : View} (firm : v.Firm) (unraw : ∀ b inner, ¬ v.raw b inner)
    {b : Bracket} {inner : Layout} (h : Shows v (.nested b inner .nil) t) :
    v.token b inner (Text.strip t) := by
  generalize layout_eq : Layout.nested b inner .nil = l at h
  induction h with
  | nil | item => cases layout_eq
  | @space l t h ih => exact ih layout_eq
  | @token c inner' rest w t shown gap h ih =>
    cases layout_eq
    obtain ⟨e, cs, d, ds, first, solid, last, solid'⟩ := firm _ .nil _ (.token shown)
    have blank : t.rdropWhile isBlank = [] := by
      rw [List.rdropWhile_eq_nil_iff]
      intro c member
      rw [h.eq_space_of_nil c member]
      decide
    have strip_eq : Text.strip (w ++ t) = w := by
      have start : (w ++ t).dropWhile isBlank = w ++ t := by simp [first, solid]
      have whole := Shows.rdropWhile_append_solid (t := t) last solid'
      rw [blank, List.append_nil] at whole
      rw [Text.strip, start]
      exact whole
    rw [strip_eq]
    exact shown
  | raw stands => exact absurd stands (unraw _ _)

end Collapsed

namespace SetAside

variable {s : SetAside} {start : Nat} {groups : List Text}

/-- Reads an operand of a level: a group, which is a level that is nested less deep, or a leaf
expression. -/
def operandWithin (s : SetAside) (depth : Nat) (text : Text) : Except Error Expr :=
  match groupToken? text with
  | some digits => do s.parseWithin depth (← tokenEntry s.groups digits)
  | none => s.parseOperand text

theorem parseWithin_succ (s : SetAside) (depth : Nat) (t : Text) : s.parseWithin (depth + 1) t = (do
      let pieces ← Piece.ofText t
      if pieces.isEmpty then throw (.malformed .empty (← s.expand t) none)
      readOperand s.keywords (s.faultIn t) (s.operandWithin depth) none [] pieces) := rfl

/-- The text of a level is read as the expression that it was printed for. -/
theorem parseWithin_eq_ok_of_shows
    (found : ∀ n group, groups[n]? = some group → s.groups[start + n]? = some group)
    (smallGroups : s.groups.length ≤ 10 ^ maxDecimalDigits)
    (smallStrings : s.strings.length ≤ 10 ^ maxDecimalDigits)
    (smallKeywords : s.keywords.length ≤ 10 ^ maxDecimalDigits) (keyed : Keyed s.subexpressions)
    {n depth : Nat} (deep : n < depth) (le : depth ≤ s.depth) (printable : e.Printable)
    (legible : e.Legible)
    (h : Shows (.collapsed s.strings s.keywords s.subexpressions start groups n) e.body t) :
    s.parseWithin depth t = .ok e := by
  induction depth generalizing n e t with
  | zero => omega
  | succ depth ih =>
    have level : (View.collapsed s.strings s.keywords s.subexpressions start groups n).IsLevel
        s.keywords :=
      View.isLevel_collapsed
    have firm : (View.collapsed s.strings s.keywords s.subexpressions start groups n).Firm :=
      fun l rest w leads => (level.plain leads).firm
    obtain ⟨ps, pieces_eq, pieces⟩ := levelPieces_of_shows level smallKeywords h
    have read :=
      readOperand_of_level (s.faultIn t) (s.operandWithin depth) ?_ ?_ printable legible pieces []
    · rw [List.append_nil, readConnective] at read
      rw [parseWithin_succ, pieces_eq]
      cases ps with
      | nil => cases read
      | cons p ps => exact read
    · intro e t printable legible leaf shown
      have stripped := shown.strip firm
      rw [operandWithin, groupToken?_eq_none leaf stripped]
      exact parseOperand_eq_ok_of_shows found smallGroups smallStrings (by omega) keyed printable
        legible leaf stripped
    · intro e t printable legible shown
      have token := shown.strip_token firm fun _ _ => level.raw
      rcases View.aside_token.mp token with ⟨⟨⟩, -⟩ | ⟨m, lt, -, -, text_eq, group, isGroup, inside⟩
      have entry := found m group isGroup
      have lt' : start + m < s.groups.length := (List.getElem?_eq_some_iff.mp entry).1
      simp only [text_eq, operandWithin, groupToken?_ofNat]
      rw [tokenEntry_ofNat (by omega) entry]
      exact ih (by omega) (by omega) printable legible inside

end SetAside

end PolicyRules
