import PolicyRules.Proofs.LikeLeaves
import PolicyRules.Proofs.Workspaces

/-!
# Trees of texts with open places

Parts in brackets are taken out of a text in the same way whatever the writing is (`exists_unnest`).
So a tree is built in step from two writings of its subexpressions and of the rest of its text
(`Parallel.inStep_buildFrom`), if each level has like pieces in the two writings.
-/

namespace PolicyRules

section Unnesting

variable {br : Bracket} {tok : Nat → List Glyph} {Good : Nat → List Glyph → Prop}

/-- Whether the parts of a text, which is read backwards up to some place, are taken out alike in
every writing, or cannot be taken out in any. -/
def UnnestsAlike (br : Bracket) (tok : Nat → List Glyph) (Good : Nat → List Glyph → Prop)
    (current : List Glyph) (behind parts : List (List Glyph)) (gs : List Glyph) : Prop :=
  (∀ ω : Writing, ∃ e, unnestFrom br (fun n => ω.text (tok n))
    ⟨ω.text current, behind.map ω.text, parts.map ω.text⟩ (ω.text gs).reverse = .error e) ∨
  ∃ (rest : List Glyph) (all : List (List Glyph)),
    (∀ ω : Writing, unnestFrom br (fun n => ω.text (tok n))
      ⟨ω.text current, behind.map ω.text, parts.map ω.text⟩ (ω.text gs).reverse =
        .ok ⟨ω.text rest, [], all.map ω.text⟩) ∧
    Good all.length rest ∧ ∀ n part, all[n]? = some part → Good n part

theorem UnnestsAlike.of_eq {current current' gs gs' : List Glyph}
    {behind behind' parts parts' : List (List Glyph)}
    (same : ∀ ω : Writing, unnestFrom br (fun n => ω.text (tok n))
        ⟨ω.text current, behind.map ω.text, parts.map ω.text⟩ (ω.text gs).reverse =
      unnestFrom br (fun n => ω.text (tok n))
        ⟨ω.text current', behind'.map ω.text, parts'.map ω.text⟩ (ω.text gs').reverse)
    (h : UnnestsAlike br tok Good current' behind' parts' gs') :
    UnnestsAlike br tok Good current behind parts gs := by
  rcases h with failed | ⟨rest, all, done, good⟩
  · exact .inl fun ω => by rw [same]; exact failed ω
  · exact .inr ⟨rest, all, fun ω => (same ω).trans (done ω), good⟩

theorem token_no_bracket {g : Glyph} (token : g.isToken) (br : Bracket) {ω : Writing} :
    ∀ c ∈ ω.glyph g, c ≠ br.opening ∧ c ≠ br.closing := by
  intro c member
  have letters : "PLAH".toList.all fun c => ! bracketChars.contains c := by decide
  refine ne_of_not_mem_bracketChars ?_ br
  rcases (Written.mem_token token).1 c member with letter | digit
  · simpa using List.all_eq_true.mp letters c letter
  · intro bracket
    have others : bracketChars.all fun c => ! c.isDigit := by decide
    have other := List.all_eq_true.mp others c bracket
    simp [digit] at other

variable (step : ∀ n x part y, Good n (x ++ .char br.opening :: (part ++ .char br.closing :: y)) →
  Good n part ∧ Good (n + 1) (x ++ (tok n ++ y)))
include step

theorem unnestsAlike {gs : List Glyph} (noString : ∀ n, .string n ∉ gs) (current : List Glyph)
    (behind parts : List (List Glyph))
    (whole : Good parts.length (gs ++ (current ++ behind.flatMap (.char br.closing :: ·))))
    (done : ∀ n part, parts[n]? = some part → Good n part) :
    UnnestsAlike br tok Good current behind parts gs := by
  induction gs using List.reverseRecOn generalizing current behind parts with
  | nil =>
    cases behind with
    | nil => exact .inr ⟨current, parts, fun ω => rfl, by simpa using whole, done⟩
    | cons next behind => exact .inl fun ω => ⟨_, rfl⟩
  | append_singleton gs g ih =>
    have noString' : ∀ n, .string n ∉ gs :=
      fun n member => noString n (List.mem_append_left _ member)
    have plain : (∀ ω : Writing, ∀ c ∈ ω.glyph g, c ≠ br.opening ∧ c ≠ br.closing) →
        UnnestsAlike br tok Good current behind parts (gs ++ [g]) := by
      intro plain
      refine .of_eq (fun ω => ?_)
        (ih noString' (g :: current) behind parts (by simpa using whole) done)
      simp only [Writing.text_append, List.reverse_append, Writing.text_cons, Writing.text_nil,
        List.append_nil]
      exact Shows.unnestFrom_plain (plain ω) _ _ _ _
    cases g with
    | keyword n | part n => exact plain fun ω => token_no_bracket rfl br
    | string n => exact absurd (by simp) (noString n)
    | char c =>
      have reversed : ∀ ω : Writing, (ω.text (gs ++ [.char c])).reverse =
          c :: (ω.text gs).reverse := fun ω => by simp
      by_cases closing : c = br.closing
      · subst closing
        refine .of_eq (fun ω => ?_)
          (ih noString' [] (current :: behind) parts (by simpa using whole) done)
        rw [reversed, Shows.unnestFrom_closing]
        rfl
      by_cases opening : c = br.opening
      · subst opening
        cases behind with
        | nil =>
          refine .inl fun ω => ?_
          rw [reversed, unnestFrom, if_neg closing, if_pos rfl]
          exact ⟨_, rfl⟩
        | cons next behind =>
          obtain ⟨inner, outer⟩ := step parts.length gs current
            (next ++ behind.flatMap (.char br.closing :: ·)) (by simpa using whole)
          refine .of_eq (fun ω => ?_)
            (ih noString' (tok parts.length ++ next) behind (parts ++ [current])
              (by simpa using outer) fun n part found => ?_)
          · rw [reversed, List.map_cons, Shows.unnestFrom_opening]
            simp
          · rw [List.getElem?_append] at found
            split at found
            · exact done n part found
            · next outside =>
              rw [List.getElem?_singleton, Option.ite_none_right_eq_some] at found
              obtain ⟨rfl, rfl⟩ : n = parts.length ∧ current = part :=
                ⟨by omega, Option.some.inj found.2⟩
              exact inner
      · refine plain fun ω d member => ?_
        obtain rfl := List.mem_singleton.mp member
        exact ⟨opening, closing⟩

variable (br tok Good) in
/-- Parts in brackets are taken out of a text alike in every writing, or in none. -/
theorem exists_unnest {gs : List Glyph} (noString : ∀ n, .string n ∉ gs) (whole : Good 0 gs) :
    (∀ ω : Writing, ∃ e, unnest br (fun n => ω.text (tok n)) (ω.text gs) = .error e) ∨
    ∃ (rest : List Glyph) (parts : List (List Glyph)),
      (∀ ω : Writing, unnest br (fun n => ω.text (tok n)) (ω.text gs) = .ok (ω.text rest,
        parts.map ω.text)) ∧
      Good parts.length rest ∧ ∀ n part, parts[n]? = some part → Good n part := by
  rcases unnestsAlike step noString [] [] [] (by simpa using whole) (by simp) with failed |
    ⟨rest, parts, done, good⟩
  · refine .inl fun ω => ?_
    obtain ⟨e, failed⟩ := failed ω
    exact ⟨e, by rw [unnest]; exact congrArg (Except.map _) failed⟩
  · exact .inr ⟨rest, parts, fun ω => by rw [unnest]; exact congrArg (Except.map _) (done ω), good⟩

end Unnesting

/-- Whether two attempts succeed with results and states in relations, or both fail. -/
inductive Attempt.InStep {σ α : Type} (S : σ → σ → Prop) (R : α → α → Prop) :
    EStateM.Result Error σ α → EStateM.Result Error σ α → Prop
  | ok {a b : α} {s s' : σ} (state : S s s') (related : R a b) : InStep S R (.ok a s) (.ok b s')
  | error (e e' : Error) (s s' : σ) : InStep S R (.error e s) (.error e' s')

theorem Attempt.InStep.bind {σ α β : Type} {S T : σ → σ → Prop} {R : α → α → Prop}
    {Q : β → β → Prop} {x x' : Attempt σ α} {f f' : α → Attempt σ β} {s s' : σ}
    (first : InStep S R (x s) (x' s'))
    (next : ∀ a b u u', S u u' → R a b → InStep T Q (f a u) (f' b u')) :
    InStep T Q ((x >>= f) s) ((x' >>= f') s') := by
  generalize result : x s = r at first
  generalize result' : x' s' = r' at first
  cases first with
  | ok state related =>
    rw [bind_of_ok result, bind_of_ok result']
    exact next _ _ _ _ state related
  | error e e' u u' =>
    rw [bind_of_error result, bind_of_error result']
    exact .error e e' u u'

theorem Attempt.InStep.mono {σ α : Type} {S T : σ → σ → Prop} {R : α → α → Prop}
    {r r' : EStateM.Result Error σ α} (h : InStep S R r r') (weaker : ∀ s s', S s s' → T s s') :
    InStep T R r r' := by
  cases h with
  | ok state related => exact .ok (weaker _ _ state) related
  | error e e' s s' => exact .error e e' s s'

/-- Trees are built in step, if subexpressions are taken out in step and the parts of the text are
then read in step. -/
theorem SetAside.inStep_build {s s' : SetAside} {t t' : Text} {S : SetAside → SetAside → Prop}
    {R : Expr → Expr → Prop} {Q : Text × List Text → Text × List Text → Prop}
    (masked : (s.maskStrings t).1 = (s'.maskStrings t').1)
    (extracted : PolicyRules.InStep Q (extractSubexpressions s.subexpressions.length (s.marked t).1)
      (extractSubexpressions s'.subexpressions.length (s'.marked t').1))
    (read : ∀ x x', Q x x' → Attempt.InStep S R (buildFrom s.subexpressions.length x.2 x.1
      (s.marked t).2) (buildFrom s'.subexpressions.length x'.2 x'.1 (s'.marked t').2)) :
    Attempt.InStep S R (build t s) (build t' s') := by
  rcases build_cases t s with ⟨e, unbalanced, failed⟩ | ⟨balanced, outcome⟩
  · rcases build_cases t' s' with ⟨e', -, failed'⟩ | ⟨balanced', -⟩
    · rw [failed, failed']
      exact .error e e' _ _
    · rw [masked, balanced'] at unbalanced
      cases unbalanced
  · rcases build_cases t' s' with ⟨e', unbalanced', -⟩ | ⟨-, outcome'⟩
    · rw [← masked, balanced] at unbalanced'
      cases unbalanced'
    · rcases outcome with ⟨e, unextracted, failed⟩ | ⟨rest, parts, done, built⟩
      · rcases outcome' with ⟨e', -, failed'⟩ | ⟨_, _, done', -⟩
        · rw [failed, failed']
          exact .error e e' _ _
        · rw [unextracted, done'] at extracted
          cases extracted
      · rcases outcome' with ⟨e', unextracted', -⟩ | ⟨rest', parts', done', built'⟩
        · rw [done, unextracted'] at extracted
          cases extracted
        · rw [done, done'] at extracted
          obtain ⟨related⟩ := extracted
          rw [built, built']
          exact read _ _ related

/-- Whether levels and tables of subexpressions are read in step in two writings. `L b` are the
lists of glyphs that can be a level while `b` subexpressions have been built, and `T b` relates the
tables of these subexpressions. -/
structure Parallel (count : Nat) (avoided : Text → Prop) (ordinals : Int → Int → Prop)
    (literals : Literal → Literal → Prop) (ω ω' : Writing) (L : Nat → List Glyph → Prop)
    (T : Nat → List (Text × Expr) → List (Text × Expr) → Prop) : Prop where
  plain : ∀ u, avoided u → u ≠ [] ∧ '(' ∉ u ∧ ')' ∉ u
  inert : ω.Inert count
  inert' : ω'.Inert count
  written : ∀ b gs, L b gs → Written count b avoided gs ∧ ∀ n, .string n ∉ gs
  grow : ∀ b gs, L b gs → L (b + 1) gs
  group : ∀ b n x part y, L b (x ++ .char '(' :: (part ++ .char ')' :: y)) →
    L b part ∧ L b (x ++ ((groupToken n).map .char ++ y))
  pieces : ∀ b gs, L b gs → InStep (List.Forall₂ (Piece.Like ordinals (Rewritten ω ω' (L b))))
    (Piece.ofText (ω.text gs)) (Piece.ofText (ω'.text gs))
  meanings : ∀ b table table', T b table table' →
    LikeMeanings (LikeNames b avoided ω ω') (LikeStrings count ω ω') ordinals literals table table'
  insert : ∀ b table table' e e', T b table table' → Expr.Alike ordinals literals e e' →
    T (b + 1) (Table.insert (ω.glyph (.part b)) e table)
    (Table.insert (ω'.glyph (.part b)) e' table')

/-- Whether two states hold what is set aside in two writings, with `b` subexpressions built. -/
structure Alongside (ordinals : Int → Int → Prop) (ω ω' : Writing) (L : Nat → List Glyph → Prop)
    (T : Nat → List (Text × Expr) → List (Text × Expr) → Prop) (b : Nat) (s s' : SetAside) :
    Prop where
  groups : List.Forall₂ (Rewritten ω ω' (L b)) s.groups s'.groups
  strings : s.strings = ω.strings
  strings' : s'.strings = ω'.strings
  keywords : ∀ n n' : Nat, ordinals n n' → s.keywords[n]? = s'.keywords[n']?
  tables : T b s.subexpressions s'.subexpressions

section Building

variable {count : Nat} {avoided : Text → Prop} {ordinals : Int → Int → Prop}
  {literals : Literal → Literal → Prop} {ω ω' : Writing} {L : Nat → List Glyph → Prop}
  {T : Nat → List (Text × Expr) → List (Text × Expr) → Prop} {b : Nat} {s s' : SetAside}
  {t t' : Text}

theorem Rewritten.mono {P Q : List Glyph → Prop} (h : Rewritten ω ω' P t t')
    (weaker : ∀ gs, P gs → Q gs) : Rewritten ω ω' Q t t' := by
  obtain ⟨gs, holds, written⟩ := h
  exact ⟨gs, weaker gs holds, written⟩

/-- A text that is the token of a group is so in every writing. -/
theorem groupToken?_text {gs : List Glyph} (noString : ∀ n, .string n ∉ gs) (ω ω' : Writing) :
    groupToken? (ω.text gs) = groupToken? (ω'.text gs) := by
  have letter : ∀ (ω : Writing) (g : Glyph), g.isToken → 'P' ∈ ω.glyph g := by
    intro ω g token
    cases g with
    | keyword n | part n => exact List.mem_cons_self
    | char c | string n => cases token
  by_cases tokens : ∃ g ∈ gs, g.isToken
  · -- The letter of a token is neither the sign of a group nor a digit.
    obtain ⟨g, member, token⟩ := tokens
    have none : ∀ ω : Writing, groupToken? (ω.text gs) = none := by
      intro ω
      rw [Option.eq_none_iff_forall_ne_some]
      intro digits found
      obtain ⟨rest, start, found⟩ := Option.bind_eq_some_iff.mp found
      obtain ⟨all, -⟩ := Option.ite_none_right_eq_some.mp found
      rw [Text.dropStart?_eq_some_iff] at start
      simp only [Bool.and_eq_true, List.all_eq_true] at all
      have inside : 'P' ∈ ['i', ':'] ++ rest :=
        start ▸ List.mem_flatMap.mpr ⟨g, member, letter ω g token⟩
      rcases List.mem_append.mp inside with sign | digit
      · exact absurd sign (by decide)
      · exact absurd (all.2 _ digit) (by decide)
    rw [none ω, none ω']
  · obtain ⟨u, place, rfl, stop⟩ := Written.exists_lead gs
    obtain rfl : place = [] := by
      cases place with
      | nil => rfl
      | cons g place =>
        cases g with
        | char c => exact absurd rfl (stop c)
        | string n => exact absurd (by simp) (noString n)
        | keyword n => exact absurd ⟨.keyword n, by simp, rfl⟩ tokens
        | part n => exact absurd ⟨.part n, by simp, rfl⟩ tokens
    simp

namespace Parallel

variable (h : Parallel count avoided ordinals literals ω ω' L T)
include h

section

variable (states : Alongside ordinals ω ω' L T b s s')
include states

theorem twins :
    SetAside.Twins ordinals literals (Rewritten ω ω' (L b)) (Rewritten ω ω' (L b)) s s' where
  keywords := states.keywords
  groups := states.groups
  pieces := by
    rintro t t' ⟨gs, level, rfl, rfl⟩
    exact h.pieces b gs level
  token := by
    rintro t t' ⟨gs, level, rfl, rfl⟩
    exact groupToken?_text (h.written b gs level).2 ω ω'
  leaf := by
    intro t t' related
    exact inStep_parseOperand h.plain h.inert h.inert' states.strings states.strings'
      (states.groups.imp fun _ _ group => group.mono (h.written b)) (h.meanings b _ _ states.tables)
        (related.mono (h.written b))

/-- Groups are set aside in step. -/
theorem collapseGroups (related : Rewritten ω ω' (L b) t t') :
    Alongside ordinals ω ω' L T b (s.collapseGroups t).2 (s'.collapseGroups t').2 ∧
      Rewritten ω ω' (L b) (s.collapseGroups t).1 (s'.collapseGroups t').1 := by
  obtain ⟨gs, level, rfl, rfl⟩ := related
  have tokens : ∀ ω : Writing, (fun n => ω.text ((groupToken (s.groups.length + n)).map .char)) =
      fun n => groupToken (s.groups.length + n) := fun ω => funext fun n => by simp
  have length_eq : s'.groups.length = s.groups.length := states.groups.length_eq.symm
  unfold SetAside.collapseGroups
  rw [length_eq]
  rcases exists_unnest .round (fun n => (groupToken (s.groups.length + n)).map .char) (fun _ => L b)
    (fun n => h.group b (s.groups.length + n)) (h.written b gs level).2 level with
    failed | ⟨rest, groups, done, goodRest, good⟩
  · obtain ⟨e, failed'⟩ := failed ω'
    obtain ⟨e, failed⟩ := failed ω
    rw [tokens] at failed failed'
    rw [failed, failed']
    exact ⟨states, gs, level, rfl, rfl⟩
  · have done' := done ω'
    have done := done ω
    rw [tokens] at done done'
    rw [done, done']
    refine ⟨{ states with groups := ?_ }, rest, goodRest, rfl, rfl⟩
    refine List.rel_append states.groups ?_
    rw [List.forall₂_map_left_iff, List.forall₂_map_right_iff, List.forall₂_same]
    intro group member
    obtain ⟨n, found⟩ := List.mem_iff_getElem?.mp member
    exact ⟨group, good n group found, rfl, rfl⟩

/-- Levels are read in step. -/
theorem inStep_buildLevel (related : Rewritten ω ω' (L b) t t') :
    Attempt.InStep (Alongside ordinals ω ω' L T b) (Expr.Alike ordinals literals)
      (SetAside.buildLevel t s) (SetAside.buildLevel t' s') := by
  obtain ⟨collapsed, text⟩ := h.collapseGroups states related
  have read := (h.twins collapsed).inStep_parseLevel text
  have level : ∀ (t : Text) (s : SetAside), SetAside.buildLevel t s =
      Attempt.ofExcept ((s.collapseGroups t).2.parseLevel (s.collapseGroups t).1)
      (s.collapseGroups t).2 := fun _ _ => rfl
  rw [level, level]
  generalize (s.collapseGroups t).2.parseLevel (s.collapseGroups t).1 = r at read
  generalize (s'.collapseGroups t').2.parseLevel (s'.collapseGroups t').1 = r' at read
  cases read with
  | ok alike => exact .ok collapsed alike
  | error e e' => exact .error e e' _ _

theorem inStep_buildSubexpression (related : Rewritten ω ω' (L b) t t') :
    Attempt.InStep (Alongside ordinals ω ω' L T (b + 1)) (fun _ _ => True)
      (SetAside.buildSubexpression t (ω.parts + b) s)
      (SetAside.buildSubexpression t' (ω'.parts + b) s') := by
  apply (h.inStep_buildLevel states related).bind
  intro e e' u u' states alike
  refine .ok ⟨?_, states.strings, states.strings', states.keywords,
    h.insert b _ _ e e' states.tables alike⟩ trivial
  exact states.groups.imp fun _ _ group => group.mono (h.grow b)

end

/-- Subexpressions are built in step, and then the rest of the text. -/
theorem inStep_buildFrom {parts parts' : List Text} (length_eq : parts.length = parts'.length)
    (texts : ∀ n t t', parts[n]? = some t → parts'[n]? = some t' → Rewritten ω ω' (L (b + n)) t t')
    (last : Rewritten ω ω' (L (b + parts.length)) t t')
    (states : Alongside ordinals ω ω' L T b s s') :
    Attempt.InStep (Alongside ordinals ω ω' L T (b + parts.length)) (Expr.Alike ordinals literals)
      (SetAside.buildFrom (ω.parts + b) parts t s)
      (SetAside.buildFrom (ω'.parts + b) parts' t' s') := by
  induction parts generalizing parts' b s s' with
  | nil =>
    obtain rfl : parts' = [] := List.eq_nil_of_length_eq_zero length_eq.symm
    exact h.inStep_buildLevel states last
  | cons part parts ih =>
    obtain ⟨part', parts', rfl⟩ := List.exists_cons_of_length_eq_add_one length_eq.symm
    have unfolded : ∀ (start : Nat) part (parts : List Text) t,
        SetAside.buildFrom start (part :: parts) t =
        SetAside.buildSubexpression part start >>= fun _ => SetAside.buildFrom (start + 1)
          parts t := by
      intro start part parts t
      simp [SetAside.buildFrom]
    rw [unfolded, unfolded]
    apply (h.inStep_buildSubexpression states (texts 0 part part' rfl rfl)).bind
    intro _ _ u u' states _
    rw [List.length_cons, Nat.add_comm parts.length 1, ← Nat.add_assoc] at last ⊢
    refine ih (by simpa using length_eq) (fun n t t' found found' => ?_) last states
    rw [Nat.add_assoc, Nat.add_comm 1 n]
    exact texts (n + 1) t t' found found'

end Parallel

end Building

end PolicyRules
