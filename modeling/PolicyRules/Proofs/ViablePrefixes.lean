import PolicyRules.Proofs.LeafMeaning
import PolicyRules.Proofs.LikeLeaves
import PolicyRules.Proofs.LongestLexemes

/-!
# Where a text stops fitting the grammar

A text that does not fit the grammar is refused at the first place that is at fault. What stands
before that place can be completed: a missing operand is written and the open parentheses are
closed. What stands up to the end of the lexeme there cannot be completed behind a space: the
lexemes before the place are found again, the reader is in the same state then, and it refuses the
same lexeme. There are two exceptions. If all lexemes are read and only the end of the text is
refused, the last lexeme is reported, and nothing is wrong with it. And a quotation mark that is not
closed can begin a string if the text goes on.

Main statement: `refused_at_first_fault`.
-/

namespace PolicyRules

section Reading

variable {r r₁ : Reader} {e : Expecting} {t rest : Text} {x : Lexeme} {c : Char}

/-- Reads a text from a state on, whose last lexeme was at `last` and whose next character is at
`position`. -/
def Reader.readFrom (r : Reader) (e : Expecting) (last position : Nat) (t : Text) :
    Except Nat Phrase :=
  r.readAll last (readLexemes 0 position e t).stopped (readLexemes 0 position e t).found

/-- Induction along the places of a text at which lexemes are looked for. -/
theorem lexing_induction {motive : Expecting → Text → Prop} (nil : ∀ e, motive e [])
    (layout : ∀ e c cs, isLayout c → motive e cs → motive e (c :: cs))
    (stop : ∀ e c cs, isLayout c = false → e.lexeme? (c :: cs) = none → motive e (c :: cs))
    (lexeme : ∀ (e : Expecting) (x : Lexeme) (rest : Text), e.lexeme? (x.text ++ rest) = some x →
      motive (e.after x) rest → motive e (x.text ++ rest)) (e : Expecting) (t : Text) :
    motive e t := by
  induction size : t.length using Nat.strong_induction_on generalizing e t with
  | _ n ih =>
    subst size
    cases t with
    | nil => exact nil e
    | cons c cs =>
      cases isLayout_c : isLayout c with
      | true => exact layout e c cs isLayout_c (ih _ (Nat.lt_succ_self _) e cs rfl)
      | false =>
        cases found : e.lexeme? (c :: cs) with
        | none => exact stop e c cs isLayout_c found
        | some x =>
          obtain ⟨fits, rest, rest_eq⟩ := lexeme?_sound found
          obtain ⟨d, ds, text_eq, -⟩ := fits.head
          rw [← rest_eq] at found ih ⊢
          have shorter : rest.length < (x.text ++ rest).length := by
            rw [List.length_append, text_eq, List.length_cons]
            omega
          exact lexeme e x rest found (ih _ shorter _ rest rfl)

namespace Reader

theorem readFrom_layout (isLayout : isLayout c) (last position : Nat) :
    r.readFrom e last position (c :: t) = r.readFrom e last (position + 1) t := by
  rw [readFrom, readLexemes, if_pos isLayout, readFrom]

theorem readFrom_lexeme (found : e.lexeme? (x.text ++ rest) = some x) (read : r.read x = some r₁)
    (last position : Nat) :
    r.readFrom e last position (x.text ++ rest) =
      r₁.readFrom (e.after x) position (position + x.text.length) rest := by
  rw [readFrom, readLexemes_lexeme (lexeme?_sound found).1 found, readAll, read, readFrom]

/-- Whether a text begins, without white space, with what cannot continue what has been read. -/
def Refuses (r : Reader) (e : Expecting) (t : Text) : Prop :=
  ∃ c cs, t = c :: cs ∧ isLayout c = false ∧ ∀ x, e.lexeme? t = some x → r.read x = none

theorem Refuses.readFrom (h : r.Refuses e t) (last position : Nat) :
    r.readFrom e last position t = .error position := by
  obtain ⟨c, cs, rfl, notLayout, refused⟩ := h
  cases found : e.lexeme? (c :: cs) with
  | none =>
    rw [Reader.readFrom, readLexemes_stopped notLayout found]
    rfl
  | some x =>
    rw [Reader.readFrom, readLexemes, if_neg (by simp [notLayout]), found, readAll, refused x found]

end Reader

end Reading

section Reached

/-- How the front of a text is read: the state that is reached before the rest. -/
inductive Reader.Reaches : Reader → Expecting → (front rest : Text) → Reader → Expecting → Prop
  | here {r : Reader} {e : Expecting} {rest : Text} : r.Reaches e [] rest r e
  | layout {r r' : Reader} {e e' : Expecting} {c : Char} {front rest : Text}
    (isLayout : isLayout c) (h : r.Reaches e front rest r' e') :
    r.Reaches e (c :: front) rest r' e'
  | lexeme {r r₁ r' : Reader} {e e' : Expecting} {x : Lexeme} {front rest : Text}
    (found : e.lexeme? (x.text ++ (front ++ rest)) = some x) (read : r.read x = some r₁)
    (h : r₁.Reaches (e.after x) front rest r' e') : r.Reaches e (x.text ++ front) rest r' e'

variable {r r' : Reader} {e e' : Expecting} {front rest t v : Text}

namespace Reader.Reaches

/-- Reading a text is reading its rest from the state that is reached before it. -/
theorem readFrom (h : r.Reaches e front rest r' e') (last position : Nat) :
    ∃ last', r.readFrom e last position (front ++ rest) =
      r'.readFrom e' last' (position + front.length) rest := by
  induction h generalizing last position with
  | here => exact ⟨last, rfl⟩
  | layout isLayout h ih =>
    obtain ⟨last', same⟩ := ih last (position + 1)
    refine ⟨last', ?_⟩
    rw [List.cons_append, Reader.readFrom_layout isLayout, same, List.length_cons, Nat.add_assoc,
      Nat.add_comm 1]
  | @lexeme _ _ _ _ _ x front rest found read h ih =>
    obtain ⟨last', same⟩ := ih position (position + x.text.length)
    refine ⟨last', ?_⟩
    rw [List.append_assoc, Reader.readFrom_lexeme found read, same, List.length_append,
      Nat.add_assoc]

/-- The state is reached also if the text is cut behind the front and goes on with a space. -/
theorem cut (h : r.Reaches e front rest r' e') (begins : v <+: rest) (w : Text) :
    r.Reaches e front (v ++ ' ' :: w) r' e' := by
  induction h with
  | here => exact .here
  | layout isLayout h ih => exact .layout isLayout (ih begins)
  | @lexeme _ _ _ e _ x front rest found read h ih =>
    refine .lexeme ?_ read (ih begins)
    have inside : x.text ++ (front ++ v) <+: x.text ++ (front ++ rest) := by
      simpa only [List.prefix_append_right_inj] using begins
    have again := lexeme?_of_cut (w := w) found inside (List.prefix_append _ _)
    simpa only [List.append_assoc] using again

end Reader.Reaches

/-- A text is refused where the reader refuses what comes next, or, if all of it is read, at its
last lexeme. -/
theorem exists_reaches_of_error {last position p : Nat}
    (h : r.readFrom e last position t = .error p) :
    (∃ front rest r' e', t = front ++ rest ∧ p = position + front.length ∧
      r.Reaches e front rest r' e' ∧
      (r'.Refuses e' rest ∨ ∃ r'' e'', r.Reaches e t [] r'' e'')) ∨
    p = last ∧ ∃ r'' e'', r.Reaches e t [] r'' e'' := by
  induction e, t using lexing_induction generalizing r last position with
  | nil e =>
    refine .inr ⟨?_, r, e, .here⟩
    cases finished : r.finish? with
    | some phrase => simp [Reader.readFrom, readLexemes, Reader.readAll, finished] at h
    | none => simpa [Reader.readFrom, readLexemes, Reader.readAll, finished, eq_comm] using h
  | layout e c cs isLayout ih =>
    rw [Reader.readFrom_layout isLayout] at h
    rcases ih h with ⟨front, rest, r', e', rfl, rfl, reaches, outcome⟩ | ⟨rfl, r'', e'', through⟩
    · refine .inl ⟨c :: front, rest, r', e', rfl,
        by simp [Nat.add_assoc, Nat.add_comm 1], .layout isLayout reaches, ?_⟩
      exact outcome.imp_right (Exists.imp fun _ => Exists.imp fun _ => .layout isLayout)
    · exact .inr ⟨rfl, r'', e'', .layout isLayout through⟩
  | stop e c cs notLayout none =>
    have refuses : r.Refuses e (c :: cs) := ⟨c, cs, rfl, notLayout, by simp [none]⟩
    rw [refuses.readFrom] at h
    exact .inl ⟨[], c :: cs, r, e, rfl, (Except.error.inj h).symm, .here, .inl refuses⟩
  | lexeme e x rest found ih =>
    cases read : r.read x with
    | none =>
      obtain ⟨c, cs, text_eq, notLayout⟩ := (lexeme?_sound found).1.head
      have refuses : r.Refuses e (x.text ++ rest) := by
        refine ⟨c, cs ++ rest, by rw [text_eq]; rfl, notLayout, fun y found' => ?_⟩
        rwa [← Option.some.inj (found.symm.trans found')]
      rw [refuses.readFrom] at h
      exact .inl ⟨[], _, r, e, rfl, (Except.error.inj h).symm, .here, .inl refuses⟩
    | some r₁ =>
      rw [Reader.readFrom_lexeme found read] at h
      have further : ∀ {r'' e''}, r₁.Reaches (e.after x) rest [] r'' e'' →
          r.Reaches e (x.text ++ rest) [] r'' e'' :=
        fun through => .lexeme (by simpa using found) read through
      rcases ih h with ⟨front, rest', r', e', rfl, rfl, reaches, outcome⟩ | ⟨rfl, r'', e'', through⟩
      · refine .inl ⟨x.text ++ front, rest', r', e', by simp,
          by simp [Nat.add_assoc], .lexeme found read reaches, ?_⟩
        exact outcome.imp_right (Exists.imp fun _ => Exists.imp fun _ => further)
      · exact .inl ⟨[], _, r, e, rfl, rfl, .here, .inr ⟨r'', e'', further through⟩⟩

/-- Whether the reader takes all lexemes of a text, so that only its end can be refused. -/
def ReadThrough (t : Text) : Prop :=
  (lexemes t).stopped = none ∧ (Reader.run {} ((lexemes t).found.map Prod.snd)).isSome

instance (t : Text) : Decidable (ReadThrough t) := inferInstanceAs (Decidable (_ ∧ _))

/-- A state is reached at the end of a text exactly if all its lexemes are found and taken. -/
theorem exists_reaches_end_iff (position : Nat) : (∃ r' e', r.Reaches e t [] r' e') ↔
    (readLexemes 0 position e t).stopped = none ∧
      (r.run ((readLexemes 0 position e t).found.map Prod.snd)).isSome := by
  constructor
  · rintro ⟨r', e', h⟩
    generalize nothing : ([] : Text) = rest at h
    induction h generalizing position with
    | here => exact ⟨rfl, rfl⟩
    | layout isLayout h ih =>
      rw [readLexemes, if_pos isLayout]
      exact ih (position + 1) nothing
    | @lexeme _ _ _ _ _ x front rest found read h ih =>
      subst nothing
      rw [List.append_nil] at found
      rw [readLexemes_lexeme (lexeme?_sound found).1 found, List.map_cons, Reader.run_cons, read]
      exact ih (position + x.text.length) rfl
  · rintro ⟨complete, taken⟩
    induction e, t using lexing_induction generalizing r position with
    | nil e => exact ⟨r, e, .here⟩
    | layout e c cs isLayout ih =>
      rw [readLexemes, if_pos isLayout] at complete taken
      obtain ⟨r', e', through⟩ := ih (position + 1) complete taken
      exact ⟨r', e', .layout isLayout through⟩
    | stop e c cs notLayout none =>
      rw [readLexemes_stopped notLayout none] at complete
      cases complete
    | lexeme e x rest found ih =>
      rw [readLexemes_lexeme (lexeme?_sound found).1 found] at complete taken
      rw [List.map_cons, Reader.run_cons] at taken
      cases read : r.read x with
      | none =>
        rw [read] at taken
        cases taken
      | some r₁ =>
        rw [read] at taken
        obtain ⟨r', e', through⟩ := ih (position + x.text.length) complete taken
        exact ⟨r', e', .lexeme (by rwa [List.append_nil]) read through⟩

end Reached

section Completion

variable {r r' : Reader} {e e' : Expecting} {front rest : Text}

/-- Whether a lexeme is looked for that the reader can take. -/
def Stage.Expects : Stage → Expecting → Prop
  | .operand, .operand _ | .tracker _, .tracker => True
  | .name _, .operator _ | .primary _, .operator _ | .mapped _ _, .operator _ => True
  | _, _ => False

theorem Reader.expects_of_read {x : Lexeme} (read : r.read x = some r') :
    r'.stage.Expects (e.after x) := by
  cases x with
  | bar =>
    rw [read_bar] at read
    obtain ⟨key, -, rfl⟩ := Option.map_eq_some_iff.mp read
    trivial
  | operator op =>
    rw [read_operator] at read
    obtain ⟨operand, -, read⟩ := Option.bind_eq_some_iff.mp read
    unfold readOperator at read
    split at read
    · cases read
      trivial
    · split at read
      · cases read
        trivial
      · split at read
        · cases read
          trivial
        · cases read
  | update op =>
    rw [read_update, readUpdate] at read
    split at read
    · obtain ⟨side, -, rfl⟩ := Option.map_eq_some_iff.mp read
      trivial
    · cases read
  | rightParen =>
    rw [read_rightParen] at read
    obtain ⟨operand, -, read⟩ := Option.bind_eq_some_iff.mp read
    unfold closeParen at read
    split at read
    · cases read
    · cases read
      trivial
  | name w | number w | string w | leftParen =>
    unfold Reader.read at read
    cases stage : r.stage <;> rw [stage] at read <;> cases read <;> trivial

theorem Reader.Reaches.expects (h : r.Reaches e front rest r' e') (begins : r.stage.Expects e) :
    r'.stage.Expects e' := by
  induction h with
  | here => exact begins
  | layout isLayout h ih => exact ih begins
  | lexeme found read h ih => exact ih (Reader.expects_of_read read)

theorem lexable_rightParens (n : Nat) (updatable : Bool) :
    Lexable (.operator updatable) (List.replicate n .rightParen) := by
  induction n generalizing updatable with
  | zero => trivial
  | succ n ih => exact ⟨trivial, ih false⟩

/-- Behind an operand the text can end when the open parentheses are closed. -/
theorem Reader.exists_closing {operand : Phrase} (complete : r.stage.complete? = some operand) :
    ∃ r' p, r.run (List.replicate r.outer.length .rightParen) = some r' ∧ r'.finish? = some p := by
  obtain ⟨inner, outer, stage⟩ := r
  induction outer generalizing inner stage operand with
  | nil => exact ⟨_, _, rfl, by simp [finish?, complete]; rfl⟩
  | cons next outer ih =>
    obtain ⟨r', p, run_eq, finished⟩ := ih next (.primary (inner.close operand)) rfl
    refine ⟨r', p, ?_, finished⟩
    rw [List.length_cons, List.replicate_succ, run_cons, read_rightParen, complete]
    exact run_eq

/-- What has been read can be completed from every state: by an operand, if one has to come next,
and by parentheses. -/
theorem Reader.exists_completion (h : r.stage.Expects e) :
    ∃ xs r' p, Lexable e xs ∧ r.run xs = some r' ∧ r'.finish? = some p := by
  have name : IsName ['a'] := .plain ⟨'a', [], rfl, by decide, by simp⟩
  obtain ⟨inner, outer, stage⟩ := r
  cases e with
  | operand first =>
    cases stage with
    | operand =>
      obtain ⟨r', p, run_eq, finished⟩ := exists_closing (r := ⟨inner, outer, .name ['a']⟩) rfl
      exact ⟨.name ['a'] :: _, r', p, ⟨name, lexable_rightParens _ _⟩, run_eq, finished⟩
    | _ => cases h
  | tracker =>
    cases stage with
    | tracker key =>
      obtain ⟨r', p, run_eq, finished⟩ :=
        exists_closing (r := ⟨inner, outer, .mapped key ['a']⟩) rfl
      exact ⟨.name ['a'] :: _, r', p, ⟨name, lexable_rightParens _ _⟩, run_eq, finished⟩
    | _ => cases h
  | operator updatable =>
    obtain ⟨operand, complete⟩ : ∃ operand, stage.complete? = some operand := by
      cases stage with
      | operand | tracker key => cases h
      | _ => exact ⟨_, rfl⟩
    obtain ⟨r', p, run_eq, finished⟩ := exists_closing (r := ⟨inner, outer, stage⟩) complete
    exact ⟨_, r', p, lexable_rightParens _ updatable, run_eq, finished⟩

end Completion

section Viable

variable {r : Reader} {e : Expecting} {front rest t : Text}

/-- Whether a text fits the grammar. -/
def FitsGrammar (t : Text) : Prop := ∃ p, Phrase.ofText t = .ok p

/-- Whether a text can be continued to one that fits the grammar. -/
def Viable (t : Text) : Prop := ∃ rest, FitsGrammar (t ++ rest)

/-- What has been read without a fault is viable, also with a space behind it. -/
theorem Reader.Reaches.viable (h : Reader.Reaches {} (.operand true) front rest r e) :
    Viable (front ++ [' ']) := by
  obtain ⟨xs, r', p, lexable, run_eq, finished⟩ := Reader.exists_completion (h.expects trivial)
  have reaches : Reader.Reaches {} (.operand true) front (' ' :: joined xs) r e :=
    h.cut List.nil_prefix _
  obtain ⟨last, same⟩ := reaches.readFrom 0 0
  obtain ⟨found, complete⟩ := (lexes_joined lexable).space (0 + front.length)
  rw [← found] at run_eq
  refine ⟨joined xs, p, ?_⟩
  have completed : r.readFrom e last (0 + front.length) (' ' :: joined xs) = .ok p := by
    rw [Reader.readFrom, complete]
    exact Reader.readAll_of_run run_eq finished
  rw [List.append_assoc]
  exact same.trans completed

/-- Whether a text begins with a quotation mark that is not closed. -/
def beginsUnclosed : Text → Bool
  | [] => false
  | c :: cs => isQuoteMark c && ! cs.contains c

/-- Where the longest lexeme at a position ends; behind one character if there is none. -/
def lexemeEnd (t : Text) (position : Nat) : Nat :=
  position + max 1 (longestLexeme (t.drop position))

/-- A text begins with a string if the quotation mark that it begins with is closed. -/
theorem exists_isQuoted_isPrefix {c : Char} {cs : Text} (mark : isQuoteMark c) (closed : c ∈ cs) :
    ∃ s, IsQuoted s ∧ s <+: c :: cs := by
  obtain ⟨body, rest, rfl, first⟩ := List.eq_append_cons_of_mem closed
  exact ⟨_, .mk (isQuoteMark_iff.mp mark) first, rest, by simp⟩

/-- What is refused is refused also if the text is cut behind the longest lexeme there and goes on
with a space. -/
theorem Reader.Refuses.cut (h : r.Refuses e rest) (closed : beginsUnclosed rest = false)
    (w : Text) : r.Refuses e (rest.take (max 1 (longestLexeme rest)) ++ ' ' :: w) := by
  obtain ⟨c, cs, rfl, notLayout, refused⟩ := h
  obtain ⟨n, le, size⟩ : ∃ n, longestLexeme (c :: cs) ≤ n + 1 ∧
    max 1 (longestLexeme (c :: cs)) = n + 1 :=
    ⟨max 1 (longestLexeme (c :: cs)) - 1, by omega, by omega⟩
  have same : e.lexeme? ((c :: cs).take (n + 1) ++ ' ' :: w) = e.lexeme? (c :: cs) := by
    refine lexeme?_cut (List.take_prefix _ _) (fun y fits begins => ?_) (fun s quoted begins => ?_)
    · exact isPrefix_take_longestLexeme ⟨y, fits.isWord, rfl⟩ begins le
    -- A string begins at the mark, so the one that is closed in the text is found.
    · have mark : isQuoteMark c := by
        obtain ⟨isMark, -⟩ := quoted
        rw [List.take_succ_cons, List.cons_append, List.cons_append, List.cons_prefix_cons]
          at begins
        exact begins.1 ▸ isQuoteMark_iff.mpr isMark
      have closed : c ∈ cs := by simpa [beginsUnclosed, mark] using closed
      obtain ⟨s', quoted', begins'⟩ := exists_isQuoted_isPrefix mark closed
      have inside := isPrefix_take_longestLexeme ⟨.string s', quoted', rfl⟩ begins' le
      rwa [quoted.eq_of_isPrefix quoted' begins (inside.trans (List.prefix_append _ _))]
  rw [size]
  exact ⟨c, _, rfl, notLayout, fun x found => refused x (same.symm.trans found)⟩

/-- What a phrase yields is no fault with a place. -/
theorem Phrase.Yields.ne_placed {table : List (Text × Expr)} {p : Phrase}
    {result : Except Error Expr} (h : p.Yields table result) (fault : Fault) (source : Text)
    (position : Nat) : result ≠ .error (.malformed fault source (some position)) := by
  induction h with
  | mappedKey h ih | binaryLeft h ih | updateValue h ih | updateMappedKey h ih => exact ih
  | binaryRight h h' ih ih' | updateMappedValue h isTracker h' ih ih' => exact ih'
  | _ => simp

/-- A fault with a place is one of the grammar. -/
theorem ofText_of_parseLeaf {table : List (Text × Expr)} {fault : Fault} {source : Text}
    {position : Nat} (h : parseLeaf table t = .error (.malformed fault source (some position))) :
    Phrase.ofText t = .error position := by
  cases read : Phrase.ofText t with
  | ok p =>
    obtain ⟨-, sentence⟩ := lexemes_of_ofText read
    rw [parseLeaf_of_ofText table read] at h
    exact absurd h ((Phrase.yields_toExpr sentence.spelled).ne_placed fault source position)
  | error place =>
    rw [parseLeaf, read] at h
    simp only [Except.error.injEq, Error.malformed.injEq, Option.some.injEq, Int.natCast_inj] at h
    rw [h.2.2]

theorem Viable.of_append {u : Text} (h : Viable (t ++ u)) : Viable t := by
  obtain ⟨rest, fits⟩ := h
  exact ⟨u ++ rest, by rwa [← List.append_assoc]⟩

/-- A leaf expression that is refused at a place is viable up to that place. If all its lexemes are
read, it is viable as a whole. Otherwise it is not viable up to the end of the longest lexeme at the
place, behind a space, unless there is a quotation mark that is not closed. -/
theorem refused_at_first_fault {table : List (Text × Expr)} {fault : Fault} {source : Text}
    {position : Nat} (h : parseLeaf table t = .error (.malformed fault source (some position))) :
    Viable (t.take position) ∧ (ReadThrough t → Viable (t ++ [' '])) ∧
      (¬ ReadThrough t → beginsUnclosed (t.drop position) = false →
        ¬ Viable (t.take (lexemeEnd t position) ++ [' '])) := by
  have refused : Reader.readFrom {} (.operand true) 0 0 t = .error position := ofText_of_parseLeaf h
  have through : ReadThrough t ↔ ∃ r e, Reader.Reaches {} (.operand true) t [] r e :=
    (exists_reaches_end_iff 0).symm
  refine ⟨?_, fun all => ?_, fun partly closed => ?_⟩
  · rcases exists_reaches_of_error refused with ⟨front, rest, r, e, rfl, rfl, reaches, -⟩ | ⟨rfl, -⟩
    · rw [Nat.zero_add, List.take_left]
      exact reaches.viable.of_append
    · have start : Reader.Reaches {} (.operand true) [] [] {} (.operand true) := .here
      exact start.viable.of_append
  · obtain ⟨r, e, reaches⟩ := through.mp all
    exact reaches.viable
  · rcases exists_reaches_of_error refused with ⟨front, rest, r, e, rfl, rfl, reaches,
      refuses | all⟩ | ⟨-, all⟩
    · rintro ⟨w, p, fits⟩
      rw [Nat.zero_add, List.drop_left] at closed
      have upTo : (front ++ rest).take (lexemeEnd (front ++ rest) (0 + front.length)) =
          front ++ rest.take (max 1 (longestLexeme rest)) := by
        rw [lexemeEnd, Nat.zero_add, List.drop_left, List.take_length_add_append]
      obtain ⟨last, same⟩ := (reaches.cut (List.take_prefix _ _) w).readFrom 0 0
      rw [(refuses.cut closed w).readFrom] at same
      rw [upTo, List.append_assoc, List.append_assoc] at fits
      exact absurd (fits.symm.trans same) (by simp)
    · exact absurd (through.mpr all) partly
    · exact absurd (through.mpr all) partly

theorem refused_at_first_fault_update :
    parseLeaf [] "(k | TR:m) += 1".toList =
      .error
        (.malformed (.unexpected "(k | TR:m) += 1".toList 13) "(k | TR:m) += 1".toList (some 12)) ∧
    Viable "(k | TR:m) +".toList ∧ ¬ Viable "(k | TR:m) += ".toList ∧
    parseLeaf [] "1 < (2 +".toList =
      .error (.malformed (.unexpected "1 < (2 +".toList 8) "1 < (2 +".toList (some 7)) ∧
    Viable "1 < (2 + ".toList := by
  have refused : parseLeaf [] "(k | TR:m) += 1".toList =
      .error (.malformed (.unexpected "(k | TR:m) += 1".toList 13) "(k | TR:m) += 1".toList
        (some 12)) := by
    decide
  have early : parseLeaf [] "1 < (2 +".toList =
      .error (.malformed (.unexpected "1 < (2 +".toList 8) "1 < (2 +".toList (some 7)) := by
    decide
  obtain ⟨viable, -, faulty⟩ := refused_at_first_fault refused
  obtain ⟨-, whole, -⟩ := refused_at_first_fault early
  exact ⟨refused, viable, faulty (by decide) (by decide), early, whole (by decide)⟩

end Viable

end PolicyRules
