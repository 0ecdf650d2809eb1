import PolicyRules.Proofs.Success
import PolicyRules.Tree.Build

/-!
# What holds of every tree that is built

A property of expressions that each step of tree building keeps holds of every tree that is built.
The steps are those of the logical level, which join the expressions of operands, and those of the
leaf level, which make expressions of phrases. The levels are kept apart, so that a property of the
names in a tree can be followed into the texts of its operands.

Main statements: `parseWithin_induction` for a level, `build_closed` for a whole text.
-/

namespace PolicyRules

/-- A property of expressions that joining operands keeps. The ordinal of a logical node is the
place of its keyword. -/
structure LevelClosed (keywords : List Keyword) (P : Expr → Prop) : Prop where
  logical : ∀ {keyword : Keyword} {n : Nat} {left right : Expr}, keywords[n]? = some keyword →
    keyword ≠ .not → P left → P right → P (.logical keyword n left right)
  negation : ∀ {n : Nat} {operand : Expr}, keywords[n]? = some .not → P operand →
    P (.negation n operand)

variable {e : Expr} {t : Text} {s' s : SetAside}

namespace LevelClosed

variable {keywords : List Keyword} {P : Expr → Prop}

/-- A property that levels keep holds behind negations. -/
theorem negate (closed : LevelClosed keywords P) {nots : List Nat}
    (numbered : ∀ n ∈ nots, keywords[n]? = some .not) (he : P e) : P (negate nots e) := by
  induction nots generalizing e with
  | nil => exact he
  | cons n nots ih =>
    have first := closed.negation (numbered n (by simp)) he
    exact ih (fun m member => numbered m (List.mem_cons_of_mem _ member)) first

/-- Whether what waits for its right operand can be joined to one. -/
def Joinable (keywords : List Keyword) (P : Expr → Prop) (waiting : Option Waiting) : Prop :=
  ∀ w, waiting = some w → keywords[w.ordinal]? = some w.keyword ∧ w.keyword ≠ .not ∧ P w.left

/-- A property that levels keep holds of what is joined. -/
theorem join (closed : LevelClosed keywords P) {waiting : Option Waiting}
    (joinable : Joinable keywords P waiting) (he : P e) : P (Waiting.join waiting e) := by
  cases waiting with
  | none => exact he
  | some w =>
    obtain ⟨found, connective, left⟩ := joinable w rfl
    exact closed.logical found connective left he

/-- Reading the pieces of a level keeps the property, if the operands among them have it. -/
theorem read (closed : LevelClosed keywords P) {fail : Fault → Error}
    {operand : Text → Except Error Expr} {pieces : List Piece}
    (operands : ∀ t e, .operand t ∈ pieces → operand t = .ok e → P e) :
    (∀ waiting nots e, Joinable keywords P waiting → (∀ n ∈ nots, keywords[n]? = some .not) →
      readOperand keywords fail operand waiting nots pieces = .ok e → P e) ∧
    (∀ left e, P left → readConnective keywords fail operand left pieces = .ok e → P e) := by
  induction pieces with
  | nil =>
    refine ⟨fun _ _ _ _ _ h => by simp [readOperand] at h, fun left e hleft h => ?_⟩
    simp only [readConnective, Except.ok.injEq] at h
    exact h ▸ hleft
  | cons piece rest ih =>
    obtain ⟨ihOperand, ihConnective⟩ :=
      ih fun t e member => operands t e (List.mem_cons_of_mem _ member)
    cases piece with
    | operand t =>
      refine ⟨fun waiting nots e joinable numbered h => ?_, fun _ _ _ h => by
        simp [readConnective] at h⟩
      simp only [readOperand] at h
      split at h
      · cases h
      · next first hfirst =>
        have here := operands t first (by simp) hfirst
        exact ihConnective _ e (closed.join joinable (closed.negate numbered here)) h
    | keyword n =>
      refine ⟨fun waiting nots e joinable numbered h => ?_, fun left e hleft h => ?_⟩
      · simp only [readOperand] at h
        split at h
        · cases h
        · next found =>
          rw [nthEntry_eq_ok_iff] at found
          exact ihOperand waiting (n :: nots) e joinable (by simpa [found] using numbered) h
        · cases h
      · simp only [readConnective] at h
        split at h
        · cases h
        · cases h
        · next keyword connective found =>
          rw [nthEntry_eq_ok_iff] at found
          refine ihOperand _ [] e ?_ (by simp) h
          rintro w ⟨⟩
          exact ⟨found, connective, hleft⟩

end LevelClosed

namespace SetAside

variable {s : SetAside} {P : Expr → Prop}

/-- A property that joining operands keeps holds of a level, if it holds of the leaf expressions of
the level and of its groups. `Level` can say something of the texts of levels, and `Operand` of the
texts of their operands. -/
theorem parseWithin_induction (closed : LevelClosed s.keywords P) {Level Operand : Text → Prop}
    (pieces : ∀ t, Level t → ∀ ps, Piece.ofText t = .ok ps → ∀ u, .operand u ∈ ps → Operand u)
    (groups : ∀ t ∈ s.groups, Level t)
    (leaf : ∀ t e, Operand t → s.parseOperand t = .ok e → P e) {depth : Nat}
    (level : Level t) (h : s.parseWithin depth t = .ok e) : P e := by
  induction depth generalizing t e with
  | zero => simp [parseWithin] at h
  | succ depth ih =>
    simp only [parseWithin, bind_eq_ok_iff] at h
    obtain ⟨ps, hps, h⟩ := h
    split at h
    · obtain ⟨_, _, h⟩ := bind_eq_ok_iff.mp h
      cases h
    · refine (closed.read ?_).1 none [] e (by simp [LevelClosed.Joinable]) (by simp) h
      intro u first member hfirst
      split at hfirst
      · obtain ⟨group, hgroup, hfirst⟩ := bind_eq_ok_iff.mp hfirst
        obtain ⟨n, -, hn⟩ := bind_eq_ok_iff.mp hgroup
        rw [nthEntry_eq_ok_iff] at hn
        exact ih (groups group (List.mem_of_getElem? hn)) hfirst
      · exact leaf u first (pieces t level ps hps u member) hfirst

@[simp] theorem collapseGroups_strings (t : Text) : (s.collapseGroups t).2.strings = s.strings := by
  unfold collapseGroups
  split <;> rfl

@[simp] theorem collapseGroups_keywords (t : Text) :
    (s.collapseGroups t).2.keywords = s.keywords := by
  unfold collapseGroups
  split <;> rfl

@[simp] theorem collapseGroups_subexpressions (t : Text) :
    (s.collapseGroups t).2.subexpressions = s.subexpressions := by
  unfold collapseGroups
  split <;> rfl

/-- A level is built by collapsing its groups and reading the rest. -/
theorem buildLevel_eq_ok_iff : buildLevel t s = .ok e s' ↔
      (s.collapseGroups t).2 = s' ∧ s'.parseLevel (s.collapseGroups t).1 = .ok e := by
  simp only [buildLevel, Attempt.bind_eq_ok_iff, Attempt.modifyGet_eq_ok_iff, Attempt.get_eq_ok_iff,
    Attempt.ofExcept_eq_ok_iff]
  constructor
  · rintro ⟨collapsed, s₁, hcollapse, _, _, ⟨rfl, rfl⟩, hparse, rfl⟩
    rw [hcollapse]
    exact ⟨rfl, hparse⟩
  · rintro ⟨rfl, hparse⟩
    exact ⟨_, _, rfl, _, _, ⟨rfl, rfl⟩, hparse, rfl⟩

theorem buildSubexpression_eq_ok_iff {n : Nat} : buildSubexpression t n s = .ok () s' ↔
      ∃ e u, buildLevel t s = .ok e u ∧
        { u with subexpressions := Table.insert (subexpressionToken n) e u.subexpressions } =
          s' := by
  simp only [buildSubexpression, Attempt.bind_eq_ok_iff, Attempt.modify_eq_ok_iff]

/-- Building the tree of a text takes these steps: strings are masked, brackets are checked,
keywords are marked, subexpressions are taken out and built one after the other, and the rest is
built last. -/
theorem build_eq_ok_iff : build t s = .ok e s' ↔
      ∃ masked s₁ marked s₂ rest parts u, s.maskStrings t = (masked, s₁) ∧
        checkBalanced masked = .ok () ∧ s₁.markKeywords masked = (marked, s₂) ∧
        extractSubexpressions s₂.subexpressions.length marked = .ok (rest, parts) ∧
        (parts.zipIdx s₂.subexpressions.length).forM
          (fun part : Text × Nat => buildSubexpression part.1 part.2) s₂ = .ok () u ∧
        buildLevel rest u = .ok e s' := by
  simp only [build, Attempt.bind_eq_ok_iff, Attempt.modifyGet_eq_ok_iff, Attempt.get_eq_ok_iff,
    Attempt.ofExcept_eq_ok_iff]
  constructor
  · rintro ⟨masked, s₁, hmask, _, _, ⟨hbalanced, rfl⟩, marked, s₂, hmark, _, _, ⟨rfl, rfl⟩,
      ⟨rest, parts⟩, _, ⟨hextract, rfl⟩, _, u, hparts, hrest⟩
    exact ⟨masked, s₁, marked, s₂, rest, parts, u, hmask, hbalanced, hmark, hextract, hparts, hrest⟩
  · rintro ⟨masked, s₁, marked, s₂, rest, parts, u, hmask, hbalanced, hmark, hextract,
      hparts, hrest⟩
    exact ⟨masked, s₁, hmask, (), s₁, ⟨hbalanced, rfl⟩, marked, s₂, hmark, s₂, s₂, ⟨rfl, rfl⟩,
      (rest, parts), s₂, ⟨hextract, rfl⟩, (), u, hparts, hrest⟩

/-- What holds of the state while subexpressions are built one after the other. -/
theorem buildParts_induction {parts : List (Text × Nat)} {Inv : SetAside → Prop}
    (step : ∀ part ∈ parts, ∀ u u', Inv u → buildSubexpression part.1 part.2 u = .ok () u' → Inv u')
    (start : Inv s)
    (h : parts.forM (fun part : Text × Nat => buildSubexpression part.1 part.2) s = .ok () s') :
    Inv s' := by
  induction parts generalizing s with
  | nil =>
    rw [List.forM_eq_forM, List.forM_nil, Attempt.pure_eq_ok_iff] at h
    exact h.2 ▸ start
  | cons part parts ih =>
    rw [List.forM_eq_forM, List.forM_cons, Attempt.bind_eq_ok_iff] at h
    obtain ⟨_, u, hpart, hparts⟩ := h
    exact ih (fun p member => step p (List.mem_cons_of_mem _ member))
      (step part (by simp) s u start hpart) hparts

/-- A state of tree building in which the strings and keywords are those given, the groups satisfy
`Level` and the subexpressions `P`. -/
structure Keeps (strings : List Text) (keywords : List Keyword) (Level : Text → Prop)
    (P : Expr → Prop) (s : SetAside) : Prop where
  strings_eq : s.strings = strings
  keywords_eq : s.keywords = keywords
  groups : ∀ t ∈ s.groups, Level t
  subexpressions : ∀ entry ∈ s.subexpressions, P entry.2

/-- Rules by which a property of expressions follows from properties of the texts they are read
from: of the whole text and the subexpressions taken out of it, of levels, and of operands. -/
structure Rules (strings : List Text) (keywords : List Keyword) (Whole Level Operand : Text → Prop)
    (P : Expr → Prop) : Prop where
  closed : LevelClosed keywords P
  collapse : ∀ {u : SetAside} {t : Text}, u.Keeps strings keywords Level P → Whole t →
    Level (u.collapseGroups t).1 ∧ ∀ group ∈ (u.collapseGroups t).2.groups, Level group
  pieces : ∀ t, Level t → ∀ ps, Piece.ofText t = .ok ps → ∀ u, .operand u ∈ ps → Operand u
  leaf : ∀ {u : SetAside} {t : Text} {e : Expr}, u.Keeps strings keywords Level P → Operand t →
    u.parseOperand t = .ok e → P e

namespace Rules

variable {strings : List Text} {keywords : List Keyword} {Whole Level Operand : Text → Prop}

theorem trivial :
    Rules strings keywords (fun _ => True) (fun _ => True) (fun _ => True) (fun _ => True) :=
  ⟨⟨by simp, by simp⟩, by simp, by simp, by simp⟩

/-- The rules hold of a level that is built. -/
theorem buildLevel (rules : Rules strings keywords Whole Level Operand P)
    (keeps : s.Keeps strings keywords Level P) (whole : Whole t)
    (h : buildLevel t s = .ok e s') : P e ∧ s'.Keeps strings keywords Level P := by
  obtain ⟨rfl, hparse⟩ := buildLevel_eq_ok_iff.mp h
  obtain ⟨level, groups⟩ := rules.collapse keeps whole
  have after : (s.collapseGroups t).2.Keeps strings keywords Level P :=
    ⟨by simp [keeps.strings_eq], by simp [keeps.keywords_eq], groups,
      by simpa using keeps.subexpressions⟩
  refine ⟨?_, after⟩
  have closed := after.keywords_eq ▸ rules.closed
  exact parseWithin_induction closed rules.pieces groups (fun _ _ => rules.leaf after) level hparse

/-- The rules hold of a subexpression that is built. -/
theorem buildSubexpression (rules : Rules strings keywords Whole Level Operand P) {n : Nat}
    (keeps : s.Keeps strings keywords Level P) (whole : Whole t)
    (h : buildSubexpression t n s = .ok () s') : s'.Keeps strings keywords Level P := by
  obtain ⟨e, u, hlevel, rfl⟩ := buildSubexpression_eq_ok_iff.mp h
  obtain ⟨he, after⟩ := rules.buildLevel keeps whole hlevel
  refine ⟨after.strings_eq, after.keywords_eq, after.groups, ?_⟩
  intro entry member
  rcases List.mem_append.mp member with earlier | last
  · exact after.subexpressions entry earlier
  · exact List.mem_singleton.mp last ▸ he

/-- A property that follows from the texts of a tree holds of the tree and of all subexpressions
kept. -/
theorem build {masked marked : Text} {s₁ s₂ : SetAside}
    (hmask : s.maskStrings t = (masked, s₁)) (hmark : s₁.markKeywords masked = (marked, s₂))
    (rules : Rules s₂.strings s₂.keywords Whole Level Operand P)
    (keeps : s₂.Keeps s₂.strings s₂.keywords Level P)
    (whole : ∀ rest parts,
      extractSubexpressions s₂.subexpressions.length marked = .ok (rest, parts) →
      ∀ text ∈ rest :: parts, Whole text)
    (h : build t s = .ok e s') : P e ∧ s'.Keeps s₂.strings s₂.keywords Level P := by
  obtain ⟨_, _, _, _, rest, parts, u, hmask', -, hmark', hextract, hparts, hrest⟩ :=
    build_eq_ok_iff.mp h
  cases hmask.symm.trans hmask'
  cases hmark.symm.trans hmark'
  have wholes := whole rest parts hextract
  refine rules.buildLevel ?_ (wholes rest (by simp)) hrest
  refine buildParts_induction (fun part member u u' inv step => ?_) keeps hparts
  have member' : part.1 ∈ parts := by
    simpa using List.mem_map_of_mem member (f := Prod.fst)
  exact rules.buildSubexpression inv (wholes part.1 (List.mem_cons_of_mem _ member')) step

end Rules

end SetAside

/-- The names of a phrase that are read for their values. -/
def Phrase.names : Phrase → List Text
  | name text => [text]
  | number _ | string _ => []
  | mapped key _ => key.names
  | binary _ left right => left.names ++ right.names
  | update _ target value => target :: value.names
  | updateMapped _ key _ value => key.names ++ value.names

/-- A property of expressions that giving phrases a meaning keeps, if `Name` holds of the names that
are read. -/
structure LeafClosed (Name : Text → Prop) (P : Expr → Prop) : Prop where
  number : ∀ {text : Text} {l : Literal}, Literal.ofNumber text = .ok l → P (.literal l)
  quoted : ∀ text, P (.literal (.ofQuoted text))
  bool : ∀ text, P (.literal (.ofBool text))
  name : ∀ {text : Text}, Name text → P (.name text)
  mapped : ∀ {key : Expr} {tracker : Text}, (trackerReference? tracker).isSome → P key →
    P (.mapped key tracker)
  binary : ∀ {op : Operator} {left right : Expr}, P left → P right → P (.binary op left right)
  update : ∀ {op : UpdateOperator} {tracker : Text} {value : Expr},
    (trackerReference? tracker).isSome → Name tracker → P value → P (.update op tracker value)
  updateMapped : ∀ {op : UpdateOperator} {key : Expr} {tracker : Text} {value : Expr},
    (trackerReference? tracker).isSome → P key → P value → P (.updateMapped op key tracker value)

theorem requireTracker_eq_ok_iff {name : Text} {u : Unit} :
    requireTracker name = .ok u ↔ (trackerReference? name).isSome := by
  unfold requireTracker
  split <;> simp_all

namespace LeafClosed

variable {Name : Text → Prop} {P : Expr → Prop} {subexpressions : List (Text × Expr)}

theorem ofName (closed : LeafClosed Name P) (entries : ∀ entry ∈ subexpressions, P entry.2)
    {text : Text} (name : Name text) : P (.ofName subexpressions text) := by
  unfold Expr.ofName
  split
  · next e found =>
    obtain ⟨entry, hentry, rfl⟩ := Option.map_eq_some_iff.mp found
    exact entries entry (Table.mem_of_find? hentry)
  · split
    · exact closed.bool text
    · exact closed.name name

/-- The expression of a phrase is made of its names, by the rules. -/
theorem toExpr (closed : LeafClosed Name P) (entries : ∀ entry ∈ subexpressions, P entry.2)
    {phrase : Phrase} (names : ∀ name ∈ phrase.names, Name name)
    (h : phrase.toExpr subexpressions = .ok e) : P e := by
  induction phrase generalizing e with
  | name text =>
    cases h
    exact closed.ofName entries (names text (by simp [Phrase.names]))
  | number text =>
    simp only [Phrase.toExpr] at h
    split at h <;> cases h
    next read => exact closed.number read
  | string text =>
    cases h
    exact closed.quoted text
  | mapped key tracker ih =>
    simp only [Phrase.toExpr, bind_eq_ok_iff, pure_eq_ok_iff, requireTracker_eq_ok_iff] at h
    obtain ⟨key', hkey, _, known, rfl⟩ := h
    exact closed.mapped known (ih names hkey)
  | binary op left right ihl ihr =>
    simp only [Phrase.names, List.mem_append, or_imp, forall_and] at names
    simp only [Phrase.toExpr, bind_eq_ok_iff, pure_eq_ok_iff] at h
    obtain ⟨left', hleft, right', hright, rfl⟩ := h
    exact closed.binary (ihl names.1 hleft) (ihr names.2 hright)
  | update op target value ih =>
    simp only [Phrase.names, List.mem_cons, or_imp, forall_and, forall_eq] at names
    simp only [Phrase.toExpr, bind_eq_ok_iff] at h
    obtain ⟨value', hvalue, h⟩ := h
    split at h
    · next known =>
      obtain rfl := pure_eq_ok_iff.mp h
      exact closed.update known names.1 (ih names.2 hvalue)
    · cases h
  | updateMapped op key tracker value ihk ihv =>
    simp only [Phrase.names, List.mem_append, or_imp, forall_and] at names
    simp only [Phrase.toExpr, bind_eq_ok_iff, pure_eq_ok_iff, requireTracker_eq_ok_iff] at h
    obtain ⟨key', hkey, _, known, value', hvalue, rfl⟩ := h
    exact closed.updateMapped known (ihk names.1 hkey) (ihv names.2 hvalue)

end LeafClosed

namespace SetAside

theorem parseOperand_eq_ok (h : s.parseOperand t = .ok e) :
    ∃ leaf phrase, s.expand t = .ok leaf ∧ Phrase.ofText leaf = .ok phrase ∧
      phrase.toExpr s.subexpressions = .ok e := by
  obtain ⟨leaf, hleaf, h⟩ := bind_eq_ok_iff.mp h
  split at h
  · unfold parseLeaf at h
    split at h
    · next phrase hphrase => exact ⟨leaf, phrase, hleaf, hphrase, h⟩
    · cases h
  · cases h

/-- A property that joining operands keeps holds of every tree, if it holds of the leaf
expressions. -/
theorem build_induction {P : Expr → Prop} (h : build t s = .ok e s')
    (level : LevelClosed s'.keywords P)
    (leaf : ∀ {u : SetAside} {t : Text} {e : Expr}, (∀ entry ∈ u.subexpressions, P entry.2) →
      u.parseOperand t = .ok e → P e)
    (earlier : ∀ entry ∈ s.subexpressions, P entry.2) :
    P e ∧ ∀ entry ∈ s'.subexpressions, P entry.2 := by
  obtain ⟨masked, s₁, marked, s₂, rest, parts, u, hmask, -, hmark, -⟩ := build_eq_ok_iff.mp h
  have kept : s₂.subexpressions = s.subexpressions := by
    simp only [maskStrings, Prod.mk.injEq] at hmask
    simp only [markKeywords, Prod.mk.injEq] at hmark
    rw [← hmark.2, ← hmask.2]
  have keywords_eq : s'.keywords = s₂.keywords :=
    (Rules.trivial.build hmask hmark ⟨rfl, rfl, by simp, by simp⟩ (by simp) h).2.keywords_eq
  have rules : Rules s₂.strings s₂.keywords (fun _ => True) (fun _ => True) (fun _ => True) P :=
    ⟨keywords_eq ▸ level, by simp, by simp, fun keeps _ => leaf keeps.subexpressions⟩
  have keeps : s₂.Keeps s₂.strings s₂.keywords (fun _ => True) P :=
    ⟨rfl, rfl, by simp, kept ▸ earlier⟩
  obtain ⟨he, after⟩ := rules.build hmask hmark keeps (by simp) h
  exact ⟨he, after.subexpressions⟩

/-- A property that every step of tree building keeps holds of every tree. -/
theorem build_closed {P : Expr → Prop} (h : build t s = .ok e s')
    (level : LevelClosed s'.keywords P) (leaf : LeafClosed (fun _ => True) P)
    (earlier : ∀ entry ∈ s.subexpressions, P entry.2) :
    P e ∧ ∀ entry ∈ s'.subexpressions, P entry.2 := by
  refine build_induction h level (fun entries hoperand => ?_) earlier
  obtain ⟨_, phrase, -, -, hphrase⟩ := parseOperand_eq_ok hoperand
  exact leaf.toExpr entries (by simp) hphrase

end SetAside

end PolicyRules
