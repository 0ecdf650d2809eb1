import PolicyRules.Proofs.InStep
import PolicyRules.Proofs.LeafGrammar

/-!
# Like leaf expressions

Leaf expressions whose lexemes agree but for some of their names and strings have the same
structure: the grammar derives both or neither (`inStep_ofText`), and the expressions of their
phrases are alike, if those of the names are (`Phrase.Like.inStep_toExpr`).
-/

namespace PolicyRules

section Likeness

variable (names strings : Text → Text → Prop)

/-- Whether two lexemes are the same, or names or strings in the given relations. -/
inductive Lexeme.Like : Lexeme → Lexeme → Prop
  | name {w w' : Text} (h : names w w') : Like (.name w) (.name w')
  | number (w : Text) : Like (.number w) (.number w)
  | string {w w' : Text} (h : strings w w') : Like (.string w) (.string w')
  | operator (op : Operator) : Like (.operator op) (.operator op)
  | update (op : UpdateOperator) : Like (.update op) (.update op)
  | bar : Like .bar .bar
  | leftParen : Like .leftParen .leftParen
  | rightParen : Like .rightParen .rightParen

/-- Whether two phrases differ at most in names and strings, and there as the given relations
allow. -/
inductive Phrase.Like : Phrase → Phrase → Prop
  | name {w w' : Text} (h : names w w') : Like (.name w) (.name w')
  | number (w : Text) : Like (.number w) (.number w)
  | string {w w' : Text} (h : strings w w') : Like (.string w) (.string w')
  | mapped {key key' : Phrase} {w w' : Text} (first : Like key key') (h : names w w') :
    Like (.mapped key w) (.mapped key' w')
  | binary (op : Operator) {left left' right right' : Phrase} (first : Like left left')
    (second : Like right right') :
    Like (.binary op left right) (.binary op left' right')
  | update (op : UpdateOperator) {w w' : Text} {value value' : Phrase} (h : names w w')
    (second : Like value value') :
    Like (.update op w value) (.update op w' value')
  | updateMapped (op : UpdateOperator) {key key' value value' : Phrase} {w w' : Text}
    (first : Like key key') (h : names w w') (second : Like value value') :
    Like (.updateMapped op key w value) (.updateMapped op key' w' value')

end Likeness

section Reading

variable {names strings : Text → Text → Prop}

theorem Lexeme.Like.symm {x y : Lexeme} (h : x.Like names strings y) :
    y.Like (fun w w' => names w' w) (fun w w' => strings w' w) x := by
  cases h with
  | name h => exact .name h
  | string h => exact .string h
  | _ => constructor

theorem forall₂_append_left {α β : Type} {R : α → β → Prop} {xs ys : List α} {zs : List β}
    (h : List.Forall₂ R (xs ++ ys) zs) :
    ∃ us vs, zs = us ++ vs ∧ List.Forall₂ R xs us ∧ List.Forall₂ R ys vs := by
  refine ⟨zs.take xs.length, zs.drop xs.length, (List.take_append_drop _ _).symm, ?_, ?_⟩
  · exact (List.forall₂_take_append zs xs ys h.flip).flip
  · exact (List.forall₂_drop_append zs xs ys h.flip).flip

/-- Lexemes that are like a sum, a product or a comparison are two like parts with the same sign
between them. -/
theorem exists_operands {R : Lexeme → Lexeme → Prop} {op : Operator} {xs ys zs : List Lexeme}
    (same : ∀ x, R (.operator op) x → x = .operator op)
    (h : List.Forall₂ R (xs ++ .operator op :: ys) zs) :
    ∃ us vs, zs = us ++ .operator op :: vs ∧ List.Forall₂ R xs us ∧ List.Forall₂ R ys vs := by
  obtain ⟨us, _, rfl, first, rest⟩ := forall₂_append_left h
  obtain ⟨x, vs, sign, second, rfl⟩ := List.forall₂_cons_left_iff.mp rest
  exact ⟨us, vs, by rw [same x sign], first, second⟩

/-- What is like lexemes that the grammar derives is derived as a like phrase. -/
theorem Derives.exists_like {c : Category} {xs ys : List Lexeme} {p : Phrase} (h : Derives c xs p)
    (like : List.Forall₂ (fun x y => y.IsWord ∧ x.Like names strings y) xs ys) :
    ∃ q, Derives c ys q ∧ p.Like names strings q := by
  have sign : ∀ {op : Operator} x, x.IsWord ∧ Lexeme.Like names strings (.operator op) x →
      x = .operator op := by
    rintro op _ ⟨-, ⟨⟩⟩
    rfl
  induction h generalizing ys with
  | ofSum h ih =>
    obtain ⟨q, derives, related⟩ := ih like
    exact ⟨q, .ofSum derives, related⟩
  | compare fits h h' ih ih' =>
    obtain ⟨us, vs, rfl, first, second⟩ := exists_operands sign like
    obtain ⟨p, left, related⟩ := ih first
    obtain ⟨q, right, related'⟩ := ih' second
    exact ⟨_, .compare fits left right, .binary _ related related'⟩
  | update op name h ih =>
    rcases like with _ | ⟨⟨word, ⟨target⟩⟩, _ | ⟨⟨-, ⟨⟩⟩, rest⟩⟩
    obtain ⟨q, value, related⟩ := ih rest
    exact ⟨_, .update op word value, .update op target related⟩
  | updateMapped op h name h' ih ih' =>
    obtain ⟨us, _, rfl, first, behind⟩ := forall₂_append_left like
    rcases behind with _ | ⟨⟨-, ⟨⟩⟩, _ | ⟨⟨word, ⟨tracker⟩⟩, _ | ⟨⟨-, ⟨⟩⟩, second⟩⟩⟩
    obtain ⟨p, key, related⟩ := ih first
    obtain ⟨q, value, related'⟩ := ih' second
    exact ⟨_, .updateMapped op key word value, .updateMapped op related tracker related'⟩
  | ofProduct h ih =>
    obtain ⟨q, derives, related⟩ := ih like
    exact ⟨q, .ofProduct derives, related⟩
  | add fits h h' ih ih' =>
    obtain ⟨us, vs, rfl, first, second⟩ := exists_operands sign like
    obtain ⟨p, left, related⟩ := ih first
    obtain ⟨q, right, related'⟩ := ih' second
    exact ⟨_, .add fits left right, .binary _ related related'⟩
  | ofAtom h ih =>
    obtain ⟨q, derives, related⟩ := ih like
    exact ⟨q, .ofAtom derives, related⟩
  | multiply fits h h' ih ih' =>
    obtain ⟨us, vs, rfl, first, second⟩ := exists_operands sign like
    obtain ⟨p, left, related⟩ := ih first
    obtain ⟨q, right, related'⟩ := ih' second
    exact ⟨_, .multiply fits left right, .binary _ related related'⟩
  | ofPrimary h ih =>
    obtain ⟨q, derives, related⟩ := ih like
    exact ⟨q, .ofPrimary derives, related⟩
  | mapped h name ih =>
    obtain ⟨us, _, rfl, first, behind⟩ := forall₂_append_left like
    rcases behind with _ | ⟨⟨-, ⟨⟩⟩, _ | ⟨⟨word, ⟨tracker⟩⟩, ⟨⟩⟩⟩
    obtain ⟨q, key, related⟩ := ih first
    exact ⟨_, .mapped key word, .mapped related tracker⟩
  | name h =>
    rcases like with _ | ⟨⟨word, ⟨related⟩⟩, ⟨⟩⟩
    exact ⟨_, .name word, .name related⟩
  | number h =>
    rcases like with _ | ⟨⟨word, ⟨⟩⟩, ⟨⟩⟩
    exact ⟨_, .number word, .number _⟩
  | string h =>
    rcases like with _ | ⟨⟨word, like⟩, ⟨⟩⟩
    cases like with
    | string related => exact ⟨_, .string word, .string related⟩
  | paren h ih =>
    rcases like with _ | ⟨⟨-, ⟨⟩⟩, behind⟩
    obtain ⟨us, _, rfl, inner, last⟩ := forall₂_append_left behind
    rcases last with _ | ⟨⟨-, ⟨⟩⟩, ⟨⟩⟩
    obtain ⟨q, derives, related⟩ := ih inner
    exact ⟨q, .paren derives, related⟩

/-- A text with lexemes like those of a phrase is a like phrase. -/
theorem exists_ofText_like {t t' : Text} {p : Phrase}
    (like : List.Forall₂ (fun x y => x.2.Like names strings y.2) (lexemes t).found
      (lexemes t').found) (same : (lexemes t).stopped.isSome = (lexemes t').stopped.isSome)
    (h : Phrase.ofText t = .ok p) : ∃ q, Phrase.ofText t' = .ok q ∧ p.Like names strings q := by
  obtain ⟨complete, sentence⟩ := lexemes_of_ofText h
  have words : List.Forall₂ (fun x y => y.IsWord ∧ x.Like names strings y)
      ((lexemes t).found.map Prod.snd) ((lexemes t').found.map Prod.snd) := by
    rw [List.forall₂_map_left_iff, List.forall₂_map_right_iff]
    exact ((List.forall₂_and_left _ _).mpr ⟨fun entry => isWord_of_mem_readLexemes, like.flip⟩).flip
  obtain ⟨q, derives, related⟩ := Derives.exists_like sentence words
  rw [complete, eq_comm, Option.isSome_none, Option.isSome_eq_false_iff, Option.isNone_iff_eq_none]
    at same
  exact ⟨q, ofText_of_sentence same derives, related⟩

/-- Texts with like lexemes are like phrases, or neither is a phrase. -/
theorem inStep_ofText {t t' : Text}
    (like : List.Forall₂ (fun x y => x.2.Like names strings y.2) (lexemes t).found
      (lexemes t').found) (same : (lexemes t).stopped.isSome = (lexemes t').stopped.isSome) :
    InStep (Phrase.Like names strings) (Phrase.ofText t) (Phrase.ofText t') := by
  cases read : Phrase.ofText t with
  | ok p =>
    obtain ⟨q, read', related⟩ := exists_ofText_like like same read
    rw [read']
    exact .ok related
  | error position =>
    cases read' : Phrase.ofText t' with
    | ok q =>
      have like' := like.flip.imp fun x y related => Lexeme.Like.symm related
      obtain ⟨p, back, -⟩ := exists_ofText_like like' same.symm read'
      cases read.symm.trans back
    | error position' => exact .error _ _

end Reading

section Meaning

variable {names strings : Text → Text → Prop} {ordinals : Int → Int → Prop}
  {literals : Literal → Literal → Prop} {table table' : List (Text × Expr)}

/-- Whether related names and strings stand for alike expressions. Names that are not the same refer
to no tracker. -/
structure LikeMeanings (names strings : Text → Text → Prop) (ordinals : Int → Int → Prop)
    (literals : Literal → Literal → Prop) (table table' : List (Text × Expr)) : Prop where
  name : ∀ w w', names w w' → Expr.Alike ordinals literals (.ofName table w) (.ofName table' w')
  tracker : ∀ w w', names w w' → w = w' ∨ trackerReference? w = none ∧ trackerReference? w' = none
  string : ∀ w w', strings w w' → literals (.ofQuoted w) (.ofQuoted w')
  same : ∀ l, literals l l

/-- Names stand for alike expressions, if both are in the tables under alike ones or they are the
same in neither. -/
theorem Expr.Alike.ofName {w w' : Text} (same : ∀ l, literals l l)
    (found : Option.Rel (Alike ordinals literals) (Table.value? w table) (Table.value? w' table'))
    (unbound : Table.value? w table = none → w = w') :
    Alike ordinals literals (.ofName table w) (.ofName table' w') := by
  unfold Expr.ofName
  generalize Table.value? w table = e at found unbound
  generalize Table.value? w' table' = e' at found
  cases found with
  | some alike => exact alike
  | none =>
    obtain rfl := unbound rfl
    split_ifs
    · exact .literal (same _)
    · exact .name w

/-- Like phrases have alike expressions, or both are refused. -/
theorem Phrase.Like.inStep_toExpr (h : LikeMeanings names strings ordinals literals table table')
    {p p' : Phrase} (like : p.Like names strings p') :
    InStep (Expr.Alike ordinals literals) (p.toExpr table) (p'.toExpr table') := by
  have tracker : ∀ w w', names w w' → InStep (fun _ _ => w = w') (requireTracker w)
      (requireTracker w') := by
    intro w w' related
    unfold requireTracker
    rcases h.tracker w w' related with rfl | ⟨none, none'⟩
    · split_ifs
      · exact .ok rfl
      · exact .error _ _
    · rw [none, none']
      exact .error _ _
  induction like with
  | name related => exact .ok (h.name _ _ related)
  | number w =>
    simp only [toExpr]
    split
    · exact .ok (.literal (h.same _))
    · exact .error _ _
    · exact .error _ _
  | string related => exact .ok (.literal (h.string _ _ related))
  | mapped _ related ih =>
    simp only [toExpr]
    apply ih.bind
    intro key key' alike
    apply (tracker _ _ related).bind
    rintro _ _ rfl
    exact .ok (.mapped alike _)
  | binary op _ _ ih ih' =>
    simp only [toExpr]
    apply ih.bind
    intro left left' first
    apply ih'.bind
    intro right right' second
    exact .ok (.binary op first second)
  | @update op w w' _ _ related _ ih =>
    simp only [toExpr]
    apply ih.bind
    intro value value' alike
    rcases h.tracker w w' related with rfl | ⟨none, none'⟩
    · split_ifs
      · exact .ok (.update op _ alike)
      · exact .error _ _
    · rw [none, none']
      exact .error _ _
  | updateMapped op _ related _ ih ih' =>
    simp only [toExpr]
    apply ih.bind
    intro key key' first
    apply (tracker _ _ related).bind
    rintro _ _ rfl
    apply ih'.bind
    intro value value' second
    exact .ok (.updateMapped op _ first second)

end Meaning

end PolicyRules
