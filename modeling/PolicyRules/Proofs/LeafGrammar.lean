import PolicyRules.Proofs.PhraseText

/-!
# The grammar of leaf expressions

The grammar as an inductive relation between lists of lexemes and phrases, apart from the reader.
Sums and products are derived from the left, a keyed access takes its key from a primary, and an
expression has at most one comparison or update outside parentheses.

Main statements: the reader accepts the sentences of the grammar and gives their phrases
(`ofText_joined`), and a text that it accepts is a sentence with white space between its lexemes
(`sentence_of_ofText`).
-/

namespace PolicyRules

/-- The categories of the grammar, from the loosest to the tightest. -/
inductive Category where
  | expression
  | sum
  | product
  | atom
  | primary
  deriving DecidableEq, Repr

/-- The rank of a category among the places of the reader. -/
def Category.rank : Category → Nat
  | expression => 0
  | sum => 1
  | product => 2
  | atom => 3
  | primary => 4

/-- The category of what can stand at a place that asks for a rank. -/
def Category.ofRank : Nat → Category
  | 0 => expression
  | 1 => sum
  | 2 => product
  | 3 => atom
  | _ => primary

/-- Whether lexemes are of a category, with the phrase that they are derived as. -/
inductive Derives : Category → List Lexeme → Phrase → Prop
  | ofSum {xs : List Lexeme} {p : Phrase} (h : Derives .sum xs p) : Derives .expression xs p
  | compare {xs ys : List Lexeme} {left right : Phrase} {op : Operator}
    (fits : op.isComparison) (h : Derives .sum xs left) (h' : Derives .sum ys right) :
    Derives .expression (xs ++ .operator op :: ys) (.binary op left right)
  | update {ys : List Lexeme} {value : Phrase} {target : Text} (op : UpdateOperator)
    (name : IsName target) (h : Derives .sum ys value) :
    Derives .expression (.name target :: .update op :: ys) (.update op target value)
  | updateMapped {xs ys : List Lexeme} {key value : Phrase} {tracker : Text} (op : UpdateOperator)
    (h : Derives .primary xs key) (name : IsName tracker) (h' : Derives .sum ys value) :
    Derives .expression (xs ++ .bar :: .name tracker :: .update op :: ys)
      (.updateMapped op key tracker value)
  | ofProduct {xs : List Lexeme} {p : Phrase} (h : Derives .product xs p) : Derives .sum xs p
  | add {xs ys : List Lexeme} {left right : Phrase} {op : Operator} (fits : op.isAdditive)
    (h : Derives .sum xs left) (h' : Derives .product ys right) :
    Derives .sum (xs ++ .operator op :: ys) (.binary op left right)
  | ofAtom {xs : List Lexeme} {p : Phrase} (h : Derives .atom xs p) : Derives .product xs p
  | multiply {xs ys : List Lexeme} {left right : Phrase} {op : Operator}
    (fits : op.isMultiplicative) (h : Derives .product xs left) (h' : Derives .atom ys right) :
    Derives .product (xs ++ .operator op :: ys) (.binary op left right)
  | ofPrimary {xs : List Lexeme} {p : Phrase} (h : Derives .primary xs p) : Derives .atom xs p
  | mapped {xs : List Lexeme} {key : Phrase} {tracker : Text} (h : Derives .primary xs key)
    (name : IsName tracker) : Derives .atom (xs ++ [.bar, .name tracker]) (.mapped key tracker)
  | name {text : Text} (h : IsName text) : Derives .primary [.name text] (.name text)
  | number {text : Text} (h : IsNumber text) : Derives .primary [.number text] (.number text)
  | string {text : Text} (h : IsQuoted text) : Derives .primary [.string text] (.string text)
  | paren {xs : List Lexeme} {p : Phrase} (h : Derives .expression xs p) :
    Derives .primary (.leftParen :: xs ++ [.rightParen]) p

/-- Whether lexemes are a sentence of the grammar. -/
def Sentence (xs : List Lexeme) (p : Phrase) : Prop := Derives .expression xs p

variable {op : Operator} {xs : List Lexeme} {p : Phrase} {expecting : Expecting} {t w : Text}

namespace Derives

open Reader Phrase

variable {c : Category} {xs : List Lexeme} {p : Phrase}

theorem not_multiplicative_of_additive (h : op.isAdditive) : ¬ op.isMultiplicative := by
  cases op <;> simp_all [Operator.isAdditive, Operator.isMultiplicative]

theorem not_arithmetic_of_comparison (h : op.isComparison) :
    ¬ op.isMultiplicative ∧ ¬ op.isAdditive := by
  cases op <;> simp_all [Operator.isAdditive, Operator.isMultiplicative, Operator.isComparison]

/-- The reader reads what the grammar derives. -/
theorem run (h : Derives c xs p) {r : Reader} (ready : r.Ready c.rank) :
    ∃ r', r.run xs = some r' ∧ HasRead c.rank r p r' := by
  induction h generalizing r with
  | ofSum h ih =>
    obtain ⟨r', run_eq, hasRead⟩ := ih (ready.mono (Nat.zero_le 1))
    exact ⟨r', run_eq, hasRead.weaken ready⟩
  | compare fits h h' ih ih' =>
    obtain ⟨not_mult, not_additive⟩ := not_arithmetic_of_comparison fits
    obtain ⟨r₁, run_left, read_left⟩ := ih (ready.mono (Nat.zero_le 1))
    exact run_comparison fits not_mult not_additive (ready.side rfl) run_left read_left
      fun r ready => ih' ready
  | @update ys value target op name h ih =>
    have run_target : r.run [.name target] = some ⟨r.inner, r.outer, .name target⟩ := by
      simp [run_cons, Reader.read, ready.stage_eq]
    have run_sign : r.run ([.name target] ++ [.update op]) =
        some ⟨⟨.update target op, none, none⟩, r.outer, .operand⟩ := run_update ready run_target rfl
    obtain ⟨r', run_eq, outer, side, x, complete, closed⟩ :=
      run_rightSide run_sign fun r ready => ih ready
    refine ⟨r', run_eq, outer, x, complete, ?_⟩
    rw [Partial.close, side, closed]
  | @updateMapped xs ys key value tracker op h name h' ih ih' =>
    obtain ⟨r₁, run_key, read_key⟩ := ih (ready.mono (Nat.zero_le 4))
    have run_target : r.run (xs ++ [.bar, .name tracker] ++ [.update op]) =
        some ⟨⟨.updateMapped key tracker op, none, none⟩, r.outer, .operand⟩ :=
      run_update ready (run_keyed tracker run_key read_key) rfl
    obtain ⟨r', run_eq, outer, side, x, complete, closed⟩ :=
      run_rightSide run_target fun r ready => ih' ready
    refine ⟨r', by simpa using run_eq, outer, x, complete, ?_⟩
    rw [Partial.close, side, closed]
  | ofProduct h ih | ofAtom h ih | ofPrimary h ih =>
    obtain ⟨r', run_eq, hasRead⟩ := ih (ready.mono (by decide))
    exact ⟨r', run_eq, hasRead.weaken ready⟩
  | add fits h h' ih ih' =>
    obtain ⟨r₁, run_left, read_left⟩ := ih ready
    exact run_sum fits (not_multiplicative_of_additive fits) run_left read_left
      fun r ready => ih' ready
  | multiply fits h h' ih ih' =>
    obtain ⟨r₁, run_left, read_left⟩ := ih ready
    exact run_product fits run_left read_left fun r ready => ih' ready
  | @mapped xs key tracker h name ih =>
    obtain ⟨r₁, run_key, read_key⟩ := ih (ready.mono (by decide))
    have hasRead : HasRead 3 r (.mapped key tracker) ⟨r.inner, r.outer, .mapped key tracker⟩ :=
      ⟨rfl, rfl, rfl⟩
    exact ⟨_, run_keyed tracker run_key read_key, hasRead⟩
  | name h => exact run_operand (.name _) (by simp [Reader.read, ready.stage_eq]) rfl
  | number h | string h =>
    exact run_operand (.primary _) (by simp [Reader.read, ready.stage_eq]) rfl
  | paren h ih => exact run_paren (fun r ready => ih ready) ready

/-- What is assigned is not compared or computed with. -/
theorem ne_assign_of_isInfix (h : op.isInfix) : op ≠ .assign := by
  rintro rfl
  cases h

/-- What the grammar derives is looked for, lexeme by lexeme, at a place of an operand, and what can
follow an operand can follow it. An update has to begin the expression. -/
theorem lexable (h : Derives c xs p) {first : Bool} (begins : c = .expression → first)
    {rest : List Lexeme} (follows : ∀ updatable, Lexable (.operator updatable) rest) :
    Lexable (.operand first) (xs ++ rest) := by
  induction h generalizing first rest with
  | ofSum h ih | ofProduct h ih | ofAtom h ih | ofPrimary h ih => exact ih nofun follows
  | compare fits h h' ih ih' | add fits h h' ih ih' | multiply fits h h' ih ih' =>
    rw [List.append_assoc]
    exact ih nofun fun _ => ⟨ne_assign_of_isInfix (by simp [Operator.isInfix, fits]),
      ih' nofun follows⟩
  | update op name h ih =>
    obtain rfl := begins rfl
    exact ⟨name, rfl, ih nofun follows⟩
  | updateMapped op h name h' ih ih' =>
    rw [List.append_assoc]
    exact ih nofun fun _ => ⟨trivial, name, rfl, ih' nofun follows⟩
  | mapped h name ih =>
    rw [List.append_assoc]
    exact ih nofun fun _ => ⟨trivial, name, follows _⟩
  | name h | number h | string h => exact ⟨h, follows _⟩
  | @paren xs p h ih =>
    have inner : Lexable (.operand true) (xs ++ .rightParen :: rest) :=
      ih (fun _ => rfl) fun _ => ⟨trivial, follows _⟩
    have whole : Lexable (.operand first) (.leftParen :: (xs ++ .rightParen :: rest)) :=
      ⟨trivial, inner⟩
    simpa using whole

/-- What binds more tightly than asked can stand at a place. -/
theorem ofRank_mono {asked own : Nat} (h : Derives (.ofRank own) xs p) (le : asked ≤ own) :
    Derives (.ofRank asked) xs p := by
  induction le with
  | refl => exact h
  | @step own le ih =>
    rcases own with _ | _ | _ | _ | own
    · exact ih (.ofSum h)
    · exact ih (.ofProduct h)
    · exact ih (.ofAtom h)
    · exact ih (.ofPrimary h)
    · exact ih h

/-- What binds less tightly than asked can stand at a place in parentheses. -/
theorem parenthesize {asked : Nat} (own : Nat) (h : Derives (.ofRank own) xs p) :
    Derives (.ofRank asked) (parenthesize (own < asked) xs) p := by
  by_cases needed : own < asked
  · have operand : Derives (.ofRank (asked + operandRank)) (.leftParen :: xs ++ [.rightParen]) p :=
      .paren (h.ofRank_mono (Nat.zero_le own))
    simpa [PolicyRules.parenthesize, needed] using operand.ofRank_mono
      (Nat.le_add_right asked operandRank)
  · simpa [PolicyRules.parenthesize, needed] using h.ofRank_mono (Nat.not_lt.mp needed)

/-- The left operand of an operator may have its rank, and the right one has to bind more
tightly. -/
theorem binary {ys : List Lexeme} {left right : Phrase} (isInfix : op.isInfix)
    (h : Derives (.ofRank (max 1 op.rank)) xs left)
    (h' : Derives (.ofRank (op.rank + 1)) ys right) :
    Derives (.ofRank op.rank) (xs ++ .operator op :: ys) (.binary op left right) := by
  simp only [Operator.isInfix, Bool.or_eq_true] at isInfix
  rcases isInfix with (multiplicative | additive) | comparison
  · have rank_eq : op.rank = 2 := by simp [Operator.rank, multiplicative]
    rw [rank_eq] at h h' ⊢
    exact .multiply multiplicative h h'
  · have rank_eq : op.rank = 1 := by
      simp [Operator.rank, not_multiplicative_of_additive additive, additive]
    rw [rank_eq] at h h' ⊢
    exact .add additive h h'
  · have rank_eq : op.rank = 0 := by simp [Operator.rank, not_arithmetic_of_comparison comparison]
    rw [rank_eq] at h h' ⊢
    exact .compare comparison h h'

end Derives

/-- The lexemes of a sentence are looked for at their places. -/
theorem Sentence.lexable (h : Sentence xs p) : Lexable (.operand true) xs := by
  have follows : ∀ updatable, Lexable (.operator updatable) [] := fun _ => trivial
  simpa using Derives.lexable h (fun _ => rfl) follows

/-- Lexemes with single spaces between them. -/
def joined (xs : List Lexeme) : Text := [' '].intercalate (xs.map Lexeme.text)

/-- Lexemes that are looked for at their places are found in the text that has spaces between
them. -/
theorem lexes_joined (h : Lexable expecting xs) : Lexes expecting (joined xs) xs := by
  induction xs generalizing expecting with
  | nil => exact .nil
  | cons x xs ih =>
    cases xs with
    | nil => simpa [joined] using Lexes.lexeme h.1 (.inr endsWord_nil) .nil
    | cons y ys =>
      have split : joined (x :: y :: ys) = x.text ++ ' ' :: joined (y :: ys) := by
        simp [joined, List.intercalate]
      rw [split]
      exact .lexeme h.1 (.inr (endsWord_space _)) (ih h.2).space

/-- A text whose lexemes go to its end and are a sentence is read as the phrase that it is derived
as. -/
theorem ofText_of_sentence (complete : (lexemes t).stopped = none)
    (h : Sentence ((lexemes t).found.map Prod.snd) p) : Phrase.ofText t = .ok p := by
  have ready : Reader.Ready 0 {} := ⟨rfl, fun _ => rfl, fun _ => rfl, fun _ => rfl⟩
  obtain ⟨r', run_eq, outer, x, ended, closed⟩ := Derives.run h ready
  have finished : r'.finish? = some p := by
    simp [Reader.finish?, outer, ended, closed]
  rw [Phrase.ofText, complete]
  exact Reader.readAll_of_run run_eq finished

/-- A text that is read as the lexemes of a sentence has its phrase. -/
theorem ofText_of_lexes (lexes : Lexes (.operand true) t xs) (h : Sentence xs p) :
    Phrase.ofText t = .ok p := by
  obtain ⟨found, complete⟩ := lexes 0
  exact ofText_of_sentence complete (found ▸ h)

/-- A sentence, written with single spaces, is read as the phrase that it is derived as. -/
theorem ofText_joined (h : Sentence xs p) : Phrase.ofText (joined xs) = .ok p :=
  ofText_of_lexes (lexes_joined h.lexable) h

section Lexemes

/-- Whether a text is a list of lexemes with white space before, between and behind them. -/
inductive Spread : Text → List Lexeme → Prop
  | nil {t : Text} (layout : ∀ c ∈ t, isLayout c) : Spread t []
  | cons {gap rest : Text} {x : Lexeme} {xs : List Lexeme} (layout : ∀ c ∈ gap, isLayout c)
    (h : Spread rest xs) : Spread (gap ++ (x.text ++ rest)) (x :: xs)

theorem Spread.layout {c : Char} (isLayout : isLayout c) (h : Spread t xs) :
    Spread (c :: t) xs := by
  cases h with
  | nil layout => exact .nil (List.forall_mem_cons.mpr ⟨isLayout, layout⟩)
  | @cons gap rest x xs layout h =>
    have begins : Spread ((c :: gap) ++ (x.text ++ rest)) (x :: xs) :=
      .cons (List.forall_mem_cons.mpr ⟨isLayout, layout⟩) h
    exact begins

theorem plainName?_isPrefix (h : plainName? t = some w) : w <+: t := by
  cases t with
  | nil => cases h
  | cons c cs =>
    simp only [plainName?, Option.ite_none_right_eq_some, Option.some.injEq] at h
    obtain ⟨-, rfl⟩ := h
    exact (List.prefix_cons_inj c).mpr (List.takeWhile_prefix _)

theorem nameLexeme?_isPrefix (h : nameLexeme? t = some w) : w <+: t := by
  unfold nameLexeme? at h
  split at h
  · next digits found =>
    obtain rfl := Option.some.inj h
    unfold callNumber? at found
    split at found
    · next rest start =>
      simp only [Option.ite_none_left_eq_some, Option.some.injEq] at found
      obtain ⟨-, rfl⟩ := found
      rw [Text.dropStart?_eq_some_iff.mp start]
      exact (List.prefix_append_right_inj _).mpr (List.takeWhile_prefix _)
    · cases found
  · split at h
    · cases h
    · next name found =>
      have begins := plainName?_isPrefix found
      split at h
      · next rest after =>
        split at h
        · next second found' =>
          obtain rfl := Option.some.inj h
          have behind : t = name ++ (':' :: rest) := by
            rw [← after]
            exact (List.prefix_iff_eq_append.mp begins).symm
          rw [behind]
          exact (List.prefix_append_right_inj _).mpr
            ((List.prefix_cons_inj _).mpr (plainName?_isPrefix found'))
        · exact Option.some.inj h ▸ begins
      · exact Option.some.inj h ▸ begins

theorem numberLexeme?_isPrefix (h : numberLexeme? t = some w) : w <+: t := by
  have decimal : ∀ {w}, (if (t.takeWhile Char.isDigit).isEmpty then none
      else some (t.takeWhile Char.isDigit)) = some w → w <+: t := by
    intro w h
    simp only [Option.ite_none_left_eq_some, Option.some.injEq] at h
    exact h.2 ▸ List.takeWhile_prefix _
  simp only [numberLexeme?] at h
  split at h
  · next rest start =>
    split at h
    · exact decimal h
    · obtain rfl := Option.some.inj h
      rw [Text.dropStart?_eq_some_iff.mp start]
      exact (List.prefix_append_right_inj _).mpr (List.takeWhile_prefix _)
  · exact decimal h

theorem stringLexeme?_isPrefix (h : stringLexeme? t = some w) : w <+: t := by
  cases t with
  | nil => cases h
  | cons c cs =>
    simp only [stringLexeme?, Option.ite_none_right_eq_some, Bool.and_eq_true, decide_eq_true_eq,
      Option.some.injEq] at h
    obtain ⟨⟨-, closed⟩, rfl⟩ := h
    refine (List.prefix_cons_inj c).mpr ?_
    have split := List.takeWhile_append_dropWhile (p := (· != c)) (l := cs)
    cases rest : cs.dropWhile (· != c) with
    | nil =>
      rw [rest, List.append_nil] at split
      rw [split] at closed
      exact absurd closed (Nat.lt_irrefl _)
    | cons d ds =>
      have same : d = c := by
        have stops := List.head_dropWhile_not (· != c) (l := cs) (by simp [rest])
        simpa [rest] using stops
      rw [rest, same] at split
      exact ⟨ds, by simpa using split⟩

/-- What is found at a place is looked for there, and the text begins with it. -/
theorem lexeme?_sound {x : Lexeme} (h : expecting.lexeme? t = some x) :
    x.FitsAt expecting ∧ x.text <+: t := by
  cases expecting with
  | operand first =>
    simp only [Expecting.lexeme?, operandLexeme?] at h
    split at h
    · next text _ _ found =>
      obtain rfl := Option.some.inj h
      exact ⟨isName_of_nameLexeme? found, nameLexeme?_isPrefix found⟩
    · next text _ found =>
      obtain rfl := Option.some.inj h
      exact ⟨isNumber_of_numberLexeme? found, numberLexeme?_isPrefix found⟩
    · next text found =>
      obtain rfl := Option.some.inj h
      exact ⟨isQuoted_of_stringLexeme? found, stringLexeme?_isPrefix found⟩
    · simp only [Option.ite_none_right_eq_some, Option.some.injEq] at h
      obtain ⟨head, rfl⟩ := h
      cases t with
      | nil => cases head
      | cons c cs =>
        obtain rfl := Option.some.inj head
        exact ⟨trivial, cs, rfl⟩
  | tracker =>
    obtain ⟨text, found, rfl⟩ := Option.map_eq_some_iff.mp h
    exact ⟨isName_of_nameLexeme? found, nameLexeme?_isPrefix found⟩
  | operator updatable =>
    have found : (if updatable then updateSigns else signs).find?
        (fun sign => Text.startsWith sign.text t) =
        some x := by
      cases updatable <;> exact h
    have begins : Text.startsWith x.text t := by simpa using List.find?_some found
    refine ⟨?_, Text.startsWith_iff_isPrefix.mp begins⟩
    have fits : ∀ y ∈ (if updatable then updateSigns else signs), y.FitsAt
        (.operator updatable) := by
      cases updatable <;> simp [updateSigns, signs, Lexeme.FitsAt]
    exact fits x (List.mem_of_find?_eq_some found)

/-- A text that is read to its end is its lexemes with white space around them. -/
theorem readLexemes_sound {skip position : Nat}
    (h : (readLexemes skip position expecting t).stopped = none) :
    Lexable expecting ((readLexemes skip position expecting t).found.map Prod.snd) ∧
      Spread (t.drop skip) ((readLexemes skip position expecting t).found.map Prod.snd) := by
  induction t generalizing skip position expecting with
  | nil => exact ⟨trivial, by simpa [readLexemes] using Spread.nil (t := []) (by simp)⟩
  | cons c cs ih =>
    cases skip with
    | succ skip => exact ih h
    | zero =>
      rw [readLexemes] at h ⊢
      split at h
      · next layout =>
        rw [if_pos layout]
        obtain ⟨lexable, spread⟩ := ih h
        exact ⟨lexable, .layout layout spread⟩
      · next notLayout =>
        rw [if_neg notLayout]
        split at h
        · cases h
        · next x found =>
          obtain ⟨fits, rest, text_eq⟩ := lexeme?_sound found
          obtain ⟨lexable, spread⟩ := ih h
          refine ⟨⟨fits, lexable⟩, ?_⟩
          obtain ⟨d, ds, x_eq, -⟩ := fits.head
          rw [x_eq, List.cons_append] at text_eq
          obtain ⟨rfl, rfl⟩ := List.cons.inj text_eq
          have behind : (ds ++ rest).drop (x.text.length - 1) = rest := by simp [x_eq]
          rw [behind] at spread
          have whole : Spread ([] ++ (x.text ++ rest)) (x :: _) := .cons (by simp) spread
          simpa [x_eq] using whole

end Lexemes

section Reader

/-- The lexemes of the left side of an expression, with its sign. -/
inductive Side.Shows : Side → List Lexeme → Prop
  | none : Shows .none []
  | compare {xs : List Lexeme} {left : Phrase} {op : Operator} (fits : op.isComparison)
    (h : Derives .sum xs left) : Shows (.compare left op) (xs ++ [.operator op])
  | update {target : Text} (op : UpdateOperator) (name : IsName target) :
    Shows (.update target op) [.name target, .update op]
  | updateMapped {xs : List Lexeme} {key : Phrase} {tracker : Text} (op : UpdateOperator)
    (h : Derives .primary xs key) (name : IsName tracker) :
    Shows (.updateMapped key tracker op) (xs ++ [.bar, .name tracker, .update op])

/-- The lexemes of a sum or product that has been begun, with the sign before its next operand. -/
inductive Begun (c : Category) (fits : Operator → Bool) :
    Option (Phrase × Operator) → List Lexeme → Prop
  | none : Begun c fits none []
  | some {xs : List Lexeme} {left : Phrase} {op : Operator} (sign : fits op)
    (h : Derives c xs left) :
    Begun c fits (some (left, op)) (xs ++ [.operator op])

/-- The lexemes of an expression up to the operand that comes next. -/
structure Partial.Shows (p : Partial) (side sum product : List Lexeme) : Prop where
  side : p.side.Shows side
  sum : Begun .sum Operator.isAdditive p.sum sum
  product : Begun .product Operator.isMultiplicative p.product product

/-- The lexemes of the operand that is being read. -/
inductive Stage.Shows : Stage → List Lexeme → Prop
  | operand : Shows .operand []
  | tracker {xs : List Lexeme} {key : Phrase} (h : Derives .primary xs key) :
    Shows (.tracker key) (xs ++ [.bar])
  | name {text : Text} (h : IsName text) : Shows (.name text) [.name text]
  | primary {xs : List Lexeme} {p : Phrase} (h : Derives .primary xs p) : Shows (.primary p) xs
  | mapped {xs : List Lexeme} {key : Phrase} {tracker : Text} (h : Derives .primary xs key)
    (name : IsName tracker) : Shows (.mapped key tracker) (xs ++ [.bar, .name tracker])

/-- The lexemes before the innermost open parenthesis, and the parenthesis. -/
inductive OuterShows : List Partial → List Lexeme → Prop
  | nil : OuterShows [] []
  | cons {p : Partial} {outer : List Partial} {xs side sum product : List Lexeme}
    (h : p.Shows side sum product) (rest : OuterShows outer xs) :
    OuterShows (p :: outer) (xs ++ (side ++ (sum ++ product)) ++ [.leftParen])

/-- Whether lexemes are what a reader has read. -/
def Reader.Shows (r : Reader) (xs : List Lexeme) : Prop :=
  ∃ before side sum product operand, xs = before ++ (side ++ (sum ++ (product ++ operand))) ∧
    OuterShows r.outer before ∧ r.inner.Shows side sum product ∧ r.stage.Shows operand

/-- A stage that is complete shows an atom. -/
theorem Stage.Shows.atom {stage : Stage} {x : Phrase} (h : stage.Shows xs)
    (complete : stage.complete? = some x) : Derives .atom xs x := by
  cases h with
  | operand | tracker h => cases complete
  | name h =>
    cases complete
    exact .ofPrimary (.name h)
  | primary h =>
    cases complete
    exact .ofPrimary h
  | mapped h name =>
    cases complete
    exact .mapped h name

theorem Stage.Shows.key {stage : Stage} {x : Phrase} (h : stage.Shows xs)
    (key : stage.key? = some x) : Derives .primary xs x := by
  cases h with
  | operand | tracker h | mapped h name => cases key
  | name h =>
    cases key
    exact .name h
  | primary h =>
    cases key
    exact h

namespace Partial.Shows

variable {p : Partial} {side sum product operand : List Lexeme} {x : Phrase}

/-- Closing a product shows a product. -/
theorem closeProduct (h : p.Shows side sum product) (atom : Derives .atom operand x) :
    Derives .product (product ++ operand) (p.closeProduct x) := by
  obtain ⟨pside, psum, pproduct⟩ := p
  unfold Partial.closeProduct
  cases h.product with
  | none => exact .ofAtom atom
  | some sign left => simpa [joinLeft] using Derives.multiply sign left atom

/-- Closing a sum shows a sum. -/
theorem closeSum (h : p.Shows side sum product) (atom : Derives .atom operand x) :
    Derives .sum (sum ++ (product ++ operand)) (p.closeSum x) := by
  have last := h.closeProduct atom
  obtain ⟨pside, psum, pproduct⟩ := p
  unfold Partial.closeSum
  cases h.sum with
  | none => exact .ofProduct last
  | some sign left => simpa [joinLeft] using Derives.add sign left last

/-- Closing what is open shows an expression. -/
theorem close (h : p.Shows side sum product) (atom : Derives .atom operand x) :
    Derives .expression (side ++ (sum ++ (product ++ operand))) (p.close x) := by
  have last := h.closeSum atom
  obtain ⟨pside, psum, pproduct⟩ := p
  unfold Partial.close
  cases h.side with
  | none => exact .ofSum last
  | compare sign left => simpa using Derives.compare sign left last
  | update op name => exact .update op name last
  | updateMapped op key name => simpa using Derives.updateMapped op key name last

end Partial.Shows

theorem Lexable.isWord (h : Lexable expecting xs) : ∀ x ∈ xs, x.IsWord := by
  induction xs generalizing expecting with
  | nil => simp
  | cons x xs ih => exact List.forall_mem_cons.mpr ⟨h.1.isWord, ih h.2⟩

namespace Reader.Shows

variable {r r' : Reader} {xs : List Lexeme}

/-- Reading an operator shows what is read so far. -/
theorem readOperator {operand : Phrase} (h : r.Shows xs)
    (complete : r.stage.complete? = some operand) (read : r.readOperator operand op = some r') :
    r'.Shows (xs ++ [.operator op]) := by
  obtain ⟨before, side, sum, product, last, rfl, outer, inner, stage⟩ := h
  have atom := stage.atom complete
  unfold Reader.readOperator at read
  split at read
  · next sign =>
    obtain rfl := Option.some.inj read
    exact ⟨before, side, sum, _, [], by simp, outer,
      ⟨inner.side, inner.sum, .some sign (inner.closeProduct atom)⟩, .operand⟩
  · split at read
    · next sign =>
      obtain rfl := Option.some.inj read
      exact ⟨before, side, _, [], [], by simp, outer,
        ⟨inner.side, .some sign (inner.closeSum atom), .none⟩, .operand⟩
    · split at read
      · next sign =>
        obtain rfl := Option.some.inj read
        simp only [Bool.and_eq_true, beq_iff_eq] at sign
        have noSide : side = [] := by
          have shown := inner.side
          rw [sign.2] at shown
          cases shown
          rfl
        subst noSide
        exact ⟨before, _, [], [], [], by simp, outer,
          ⟨.compare sign.1 (inner.closeSum atom), .none, .none⟩, .operand⟩
      · cases read

/-- Reading the sign of an update shows what is read so far. -/
theorem readUpdate {op : UpdateOperator} (h : r.Shows xs) (read : r.readUpdate op = some r') :
    r'.Shows (xs ++ [.update op]) := by
  obtain ⟨before, side, sum, product, last, rfl, outer, inner, stage⟩ := h
  unfold Reader.readUpdate at read
  split at read
  · next fresh =>
    obtain ⟨newSide, target, rfl⟩ := Option.map_eq_some_iff.mp read
    obtain ⟨⟨pside, psum, pproduct⟩, routers, rstage⟩ := r
    simp only [Partial.isFresh, Bool.and_eq_true, beq_iff_eq, Option.isNone_iff_eq_none] at fresh
    obtain ⟨⟨rfl, rfl⟩, rfl⟩ := fresh
    obtain ⟨shownSide, shownSum, shownProduct⟩ := inner
    cases shownSide
    cases shownSum
    cases shownProduct
    have shown : newSide.Shows (last ++ [.update op]) := by
      cases stage with
      | operand | tracker h | primary h => cases target
      | name h =>
        cases target
        exact .update op h
      | mapped h name =>
        cases target
        simpa using Side.Shows.updateMapped op h name
    exact ⟨before, _, [], [], [], by simp, outer, ⟨shown, .none, .none⟩, .operand⟩
  · cases read

/-- Closing a parenthesis shows what is read so far. -/
theorem closeParen {operand : Phrase} (h : r.Shows xs) (complete : r.stage.complete? = some operand)
    (read : r.closeParen operand = some r') : r'.Shows (xs ++ [.rightParen]) := by
  obtain ⟨before, side, sum, product, last, rfl, outer, inner, stage⟩ := h
  have whole := inner.close (stage.atom complete)
  unfold Reader.closeParen at read
  obtain ⟨rinner, router, rstage⟩ := r
  cases outer with
  | nil => cases read
  | cons shown rest =>
    cases read
    exact ⟨_, _, _, _, _, by simp, rest, shown, .primary (.paren whole)⟩

/-- What one step of the reader does to the lexemes that it has read. -/
theorem read {x : Lexeme} (word : x.IsWord) (h : r.Shows xs) (read : r.read x = some r') :
    r'.Shows (xs ++ [x]) := by
  cases x with
  | bar =>
    rw [read_bar] at read
    obtain ⟨key, isKey, rfl⟩ := Option.map_eq_some_iff.mp read
    obtain ⟨before, side, sum, product, last, rfl, outer, inner, stage⟩ := h
    exact ⟨before, side, sum, product, _, by simp, outer, inner, .tracker (stage.key isKey)⟩
  | operator op =>
    rw [read_operator] at read
    obtain ⟨operand, complete, read⟩ := Option.bind_eq_some_iff.mp read
    exact h.readOperator complete read
  | update op =>
    rw [read_update] at read
    exact h.readUpdate read
  | rightParen =>
    rw [read_rightParen] at read
    obtain ⟨operand, complete, read⟩ := Option.bind_eq_some_iff.mp read
    exact h.closeParen complete read
  | name text =>
    obtain ⟨before, side, sum, product, last, rfl, outer, inner, stage⟩ := h
    obtain ⟨rinner, router, rstage⟩ := r
    cases stage with
    | operand =>
      cases read
      exact ⟨before, side, sum, product, _, by simp, outer, inner, .name word⟩
    | tracker key =>
      cases read
      exact ⟨before, side, sum, product, _, by simp, outer, inner, .mapped key word⟩
    | _ => cases read
  | number text =>
    obtain ⟨before, side, sum, product, last, rfl, outer, inner, stage⟩ := h
    obtain ⟨rinner, router, rstage⟩ := r
    cases stage with
    | operand =>
      cases read
      exact ⟨before, side, sum, product, _, by simp, outer, inner, .primary (.number word)⟩
    | _ => cases read
  | string text =>
    obtain ⟨before, side, sum, product, last, rfl, outer, inner, stage⟩ := h
    obtain ⟨rinner, router, rstage⟩ := r
    cases stage with
    | operand =>
      cases read
      exact ⟨before, side, sum, product, _, by simp, outer, inner, .primary (.string word)⟩
    | _ => cases read
  | leftParen =>
    obtain ⟨before, side, sum, product, last, rfl, outer, inner, stage⟩ := h
    obtain ⟨rinner, router, rstage⟩ := r
    cases stage with
    | operand =>
      cases read
      exact ⟨_, [], [], [], [], by simp, .cons inner outer, ⟨.none, .none, .none⟩, .operand⟩
    | _ => cases read

/-- What a whole run of the reader accepts is a sentence, of a text that was read to its end. -/
theorem readAll {found : List (Nat × Lexeme)} {last : Nat} {stopped : Option Nat}
    (words : ∀ entry ∈ found, entry.2.IsWord) (h : r.Shows xs)
    (read : r.readAll last stopped found = .ok p) :
    stopped = none ∧ Sentence (xs ++ found.map Prod.snd) p := by
  induction found generalizing r last xs with
  | nil =>
    unfold Reader.readAll at read
    split at read
    · cases read
    · next q finished =>
      obtain rfl := Except.ok.inj read
      obtain ⟨before, side, sum, product, operand, rfl, outer, inner, stage⟩ := h
      obtain ⟨rinner, router, rstage⟩ := r
      obtain ⟨empty, ended⟩ := Option.ite_none_right_eq_some.mp finished
      obtain rfl := List.isEmpty_iff.mp empty
      obtain ⟨x, complete, rfl⟩ := Option.map_eq_some_iff.mp ended
      cases outer
      exact ⟨rfl, by simpa [Sentence] using inner.close (stage.atom complete)⟩
    · cases read
  | cons entry rest ih =>
    unfold Reader.readAll at read
    split at read
    · next step =>
      have shown := h.read (words _ List.mem_cons_self) step
      simpa using ih (fun e member => words e (List.mem_cons_of_mem _ member)) shown read
    · cases read

end Reader.Shows

/-- A lexeme that is read where it is looked for has the form of its kind. -/
theorem isWord_of_mem_readLexemes {skip position : Nat}
    {entry : Nat × Lexeme} (h : entry ∈ (readLexemes skip position expecting t).found) :
    entry.2.IsWord := by
  induction t generalizing skip position expecting with
  | nil => simp [readLexemes] at h
  | cons c cs ih =>
    cases skip with
    | succ skip => exact ih h
    | zero =>
      rw [readLexemes] at h
      split at h
      · exact ih h
      · split at h
        · cases h
        · next x found =>
          rcases List.mem_cons.mp h with rfl | rest
          · exact (lexeme?_sound found).1.isWord
          · exact ih rest

/-- A text that is read as a phrase has lexemes up to its end, and they are a sentence. -/
theorem lexemes_of_ofText (h : Phrase.ofText t = .ok p) :
    (lexemes t).stopped = none ∧ Sentence ((lexemes t).found.map Prod.snd) p := by
  have start : Reader.Shows {} [] :=
    ⟨[], [], [], [], [], rfl, .nil, ⟨.none, .none, .none⟩, .operand⟩
  exact start.readAll (fun _ => isWord_of_mem_readLexemes) h

/-- A text that is read as a phrase is a sentence with white space between its lexemes. -/
theorem sentence_of_ofText (h : Phrase.ofText t = .ok p) :
    ∃ xs, Spread t xs ∧ Lexable (.operand true) xs ∧ Sentence xs p := by
  obtain ⟨complete, sentence⟩ := lexemes_of_ofText h
  obtain ⟨lexable, spread⟩ := readLexemes_sound complete
  exact ⟨_, spread, lexable, sentence⟩

end Reader

end PolicyRules
