import PolicyRules.Proofs.Stream
import PolicyRules.Proofs.UnclosedQuotes

/-!
# Workspaces that conversions leave

Conversions that share a workspace leave behind what they have set aside and emitted, also when they
fail: keywords, subexpressions, half of an instruction list with its pending keywords. This module
says what is known of every such workspace. Subexpressions are kept under their numbers and in
order, the ordinals in them and in the instructions are those of keywords, and nothing has been
emitted but operations, operands and literals.

Main statements: a conversion keeps a workspace sound and finished instructions as they are, whether
or not it succeeds (`Workspace.meets_convert`), and so do conversions one after the other
(`Workspace.Evolves.soundBehind`).
-/

namespace PolicyRules

namespace Attempt

variable {σ α β : Type}

/-- The state that an attempt leaves, whether or not it succeeds. -/
def stateAfter (x : Attempt σ α) (s : σ) : σ :=
  match x s with
  | .ok _ s' | .error _ s' => s'

section

variable {x : Attempt σ α} {f : α → Attempt σ β} {s s' : σ} {a : α} {e : Error}

theorem stateAfter_of_ok (h : x s = .ok a s') : x.stateAfter s = s' := by
  rw [stateAfter, h]

theorem stateAfter_of_error (h : x s = .error e s') : x.stateAfter s = s' := by
  rw [stateAfter, h]

theorem bind_of_ok (h : x s = .ok a s') : (x >>= f) s = f a s' := by
  change EStateM.bind x f s = _
  rw [EStateM.bind, h]

/-- An error ends the computation. -/
theorem bind_of_error (h : x s = .error e s') : (x >>= f) s = .error e s' := by
  change EStateM.bind x f s = _
  rw [EStateM.bind, h]

theorem stateAfter_bind_of_ok (h : x s = .ok a s') :
    (x >>= f).stateAfter s = (f a).stateAfter s' := by
  rw [stateAfter, bind_of_ok h, stateAfter]

theorem stateAfter_bind_of_error (h : x s = .error e s') : (x >>= f).stateAfter s = s' :=
  stateAfter_of_error (bind_of_error h)

end

namespace Meets

variable {Inv : σ → Prop} {Q : α → Prop} {x : Attempt σ α} {s s' : σ} {a : α}

/-- The invariant holds in the state that an attempt leaves, failed or not. -/
theorem stateAfter (h : x.Meets Inv Q) (holds : Inv s) : Inv (x.stateAfter s) := by
  have after := h s holds
  unfold Attempt.stateAfter
  cases result : x s with
  | ok a s' =>
    rw [result] at after
    exact after.1
  | error e s' =>
    rw [result] at after
    exact after

theorem of_ok (h : x.Meets Inv Q) (holds : Inv s) (ok : x s = .ok a s') : Inv s' ∧ Q a := by
  have after := h s holds
  rwa [ok] at after

theorem throw (e : Error) : (throw e : Attempt σ α).Meets Inv Q := fun _ holds => holds

theorem pure (h : Q a) : (pure a : Attempt σ α).Meets Inv Q := fun _ holds => ⟨holds, h⟩

theorem discard (h : x.Meets Inv Q) : (discard x).Meets Inv fun _ => True := by
  intro s holds
  have after := h s holds
  cases result : x s with
  | ok a s' =>
    rw [result] at after
    have mapped : (Functor.discard x) s = .ok () s' := Attempt.discard_eq_ok_iff.mpr ⟨a, result⟩
    rw [mapped]
    exact ⟨after.1, trivial⟩
  | error e s' =>
    rw [result] at after
    have mapped : (Functor.discard x) s = .error e s' := by
      change EStateM.map _ x s = _
      rw [EStateM.map, result]
    rw [mapped]
    exact after

end Meets

end Attempt

/-- More keywords at the end leave the ordinals valid. -/
theorem Expr.Numbered.mono {keywords keywords' : List Keyword} (h : keywords <+: keywords')
    {e : Expr} (numbered : e.Numbered keywords) : e.Numbered keywords' := by
  have later : ∀ {ordinal : Int} {op : Keyword}, (∃ n : Nat, ordinal = n ∧ keywords[n]? = some op) →
      ∃ n : Nat, ordinal = n ∧ keywords'[n]? = some op := by
    rintro ordinal op ⟨n, rfl, found⟩
    obtain ⟨more, rfl⟩ := h
    refine ⟨n, rfl, ?_⟩
    rw [List.getElem?_append_left (List.getElem?_eq_some_iff.mp found).1, found]
  induction e with
  | hole | literal l | name text => trivial
  | mapped key tracker ih | update op tracker value ih => exact ih numbered
  | binary op left right ihl ihr => exact ⟨ihl numbered.1, ihr numbered.2⟩
  | logical op ordinal left right ihl ihr =>
    exact ⟨later numbered.1, ihl numbered.2.1, ihr numbered.2.2⟩
  | negation ordinal operand ih => exact ⟨later numbered.1, ih numbered.2⟩
  | updateMapped op key tracker value ihk ihv => exact ⟨ihk numbered.1, ihv numbered.2⟩

/-- What is known of every tree that is built with a keyword list. -/
structure Expr.Sound (keywords : List Keyword) (e : Expr) : Prop where
  numbered : e.Numbered keywords
  connected : e.Connected
  written : e.Written
  tokenised : e.Tokenised

namespace Expr.Sound

variable {keywords keywords' : List Keyword} {e : Expr}

theorem mono (prefixed : keywords <+: keywords') (h : e.Sound keywords) : e.Sound keywords' :=
  { h with numbered := h.numbered.mono prefixed }

/-- Joining sound expressions gives sound ones. -/
theorem levelClosed (keywords : List Keyword) : LevelClosed keywords (Sound keywords) where
  logical := fun found connective left right =>
    ⟨⟨⟨_, rfl, found⟩, left.numbered, right.numbered⟩,
      ⟨connective, left.connected, right.connected⟩, (Written.levelClosed keywords).logical found
        connective left.written right.written,
      (Tokenised.levelClosed keywords).logical found connective left.tokenised right.tokenised⟩
  negation := fun found operand =>
    ⟨⟨⟨_, rfl, found⟩, operand.numbered⟩, operand.connected,
      (Written.levelClosed keywords).negation found operand.written,
      (Tokenised.levelClosed keywords).negation found operand.tokenised⟩

end Expr.Sound

namespace SetAside

variable {s s' : SetAside} {t : Text} {e : Expr}

/-- An operand is sound if the subexpressions are. -/
theorem sound_parseOperand {keywords : List Keyword}
    (entries : ∀ entry ∈ s.subexpressions, entry.2.Sound keywords) (h : s.parseOperand t = .ok e) :
    e.Sound keywords := by
  obtain ⟨_, phrase, -, -, given⟩ := parseOperand_eq_ok h
  obtain ⟨numbered, connected⟩ := (leafClosed_numbered keywords).toExpr
    (fun entry member => ⟨(entries entry member).numbered, (entries entry member).connected⟩)
      (by simp) given
  exact ⟨numbered, connected,
    Expr.Written.wordClosed.parseOperand (fun entry member => (entries entry member).written) h,
    Expr.Tokenised.wordClosed.parseOperand (fun entry member => (entries entry member).tokenised) h⟩

/-- Whether subexpressions are kept in order under the tokens of their numbers. -/
def InOrder (table : List (Text × Expr)) : Prop :=
  table.map Prod.fst = (List.range table.length).map fun n : Nat => subexpressionToken n

theorem InOrder.insert {table : List (Text × Expr)} (h : InOrder table) (e : Expr) :
    InOrder (Table.insert (subexpressionToken table.length) e table) := by
  rw [InOrder] at h
  simp [InOrder, Table.insert, h, List.range_succ]

/-- The keys of a table in order are tokens of subexpressions. -/
theorem InOrder.keyed {table : List (Text × Expr)} (h : InOrder table) : Keyed table := by
  intro entry member
  have listed : entry.1 ∈ (List.range table.length).map fun n : Nat => subexpressionToken n :=
    h ▸ List.mem_map_of_mem member
  obtain ⟨n, -, same⟩ := List.mem_map.mp listed
  exact ⟨n, same.symm⟩

/-- What is known of everything that has been set aside. -/
structure Sound (s : SetAside) : Prop where
  inOrder : InOrder s.subexpressions
  trees : ∀ entry ∈ s.subexpressions, entry.2.Sound s.keywords

/-- A sound state with a given keyword list and a given number of subexpressions. -/
structure SoundWith (keywords : List Keyword) (parts : Nat) (s : SetAside) : Prop where
  sound : s.Sound
  keywords_eq : s.keywords = keywords
  length_eq : s.subexpressions.length = parts

section Steps

variable {keywords : List Keyword} {parts : Nat}

theorem SoundWith.insert (h : s.SoundWith keywords parts) (he : e.Sound keywords) :
    SoundWith keywords (parts + 1)
      { s with subexpressions := Table.insert (subexpressionToken parts) e s.subexpressions } := by
  obtain ⟨⟨inOrder, trees⟩, rfl, rfl⟩ := h
  refine ⟨⟨inOrder.insert e, ?_⟩, rfl, by simp [Table.insert]⟩
  intro entry member
  rcases List.mem_append.mp member with earlier | last
  · exact trees entry earlier
  · exact List.mem_singleton.mp last ▸ he

/-- Building a level gives a sound expression. -/
theorem sound_buildLevel (t : Text) :
    (buildLevel t).Meets (SoundWith keywords parts) (Expr.Sound keywords) := by
  have collapse : (modifyGet (collapseGroups · t) : Attempt SetAside Text).Meets
      (SoundWith keywords parts) fun _ => True := by
    refine .modifyGet fun s h => ⟨⟨?_, ?_⟩, ?_, ?_⟩
    · simpa using h.sound.inOrder
    · simpa using h.sound.trees
    · simpa using h.keywords_eq
    · simpa using h.length_eq
  refine collapse.bind fun collapsed _ => .bind .get fun s h => .ofExcept fun e parsed => ?_
  obtain ⟨⟨-, trees⟩, rfl, -⟩ := h
  have groups : ∀ t ∈ s.groups, True := fun _ _ => trivial
  have operands : ∀ t e, True → s.parseOperand t = .ok e → e.Sound s.keywords :=
    fun _ _ _ => sound_parseOperand trees
  exact parseWithin_induction (Expr.Sound.levelClosed s.keywords) (by simp) groups operands
    trivial parsed

/-- Subexpressions are built one after the other, and each of them is kept under the next number. -/
theorem sound_buildParts (texts : List Text) (h : s.SoundWith keywords parts) :
    ∃ more, SoundWith keywords more (Attempt.stateAfter
      ((texts.zipIdx parts).forM fun part : Text × Nat => buildSubexpression part.1 part.2) s) := by
  induction texts generalizing s parts with
  | nil => exact ⟨parts, h⟩
  | cons text texts ih =>
    rw [List.zipIdx_cons, List.forM_eq_forM, List.forM_cons]
    have level : (buildLevel text).Meets (SoundWith keywords parts) (Expr.Sound keywords) :=
      sound_buildLevel text
    cases built : buildLevel text s with
    | error fault u =>
      have failed : buildSubexpression text parts s = .error fault u := Attempt.bind_of_error built
      rw [Attempt.stateAfter_bind_of_error failed]
      have kept := level.stateAfter h
      rw [Attempt.stateAfter_of_error built] at kept
      exact ⟨parts, kept⟩
    | ok e u =>
      obtain ⟨kept, he⟩ := level.of_ok h built
      have done : buildSubexpression text parts s = .ok () { u with
          subexpressions := Table.insert (subexpressionToken parts) e u.subexpressions } :=
        buildSubexpression_eq_ok_iff.mpr ⟨e, u, built, rfl⟩
      rw [Attempt.stateAfter_bind_of_ok done]
      exact ih (kept.insert he)

end Steps

/-- The state in which the strings of a text are masked and its keywords are marked, with the marked
text. -/
def marked (s : SetAside) (t : Text) : Text × SetAside :=
  (s.maskStrings t).2.markKeywords (s.maskStrings t).1

/-- Builds the subexpressions of a text, the first of them with the number given, and then the rest
of the text. -/
def buildFrom (start : Nat) (parts : List Text) (rest : Text) : Attempt SetAside Expr := do
  (parts.zipIdx start).forM fun (part, n) => buildSubexpression part n
  buildLevel rest

/-- Building a tree fails because of the brackets of the text, or it goes on from the state in which
strings are masked and keywords are marked. -/
theorem build_cases (t : Text) (s : SetAside) :
    (∃ e, checkBalanced (s.maskStrings t).1 = .error e ∧ build t s = .error e (s.maskStrings t).2) ∨
      checkBalanced (s.maskStrings t).1 = .ok () ∧
        ((∃ e, extractSubexpressions s.subexpressions.length (s.marked t).1 = .error e ∧
            build t s = .error e (s.marked t).2) ∨
          ∃ rest parts, extractSubexpressions s.subexpressions.length (s.marked t).1 = .ok (rest,
            parts) ∧
            build t s = buildFrom s.subexpressions.length parts rest (s.marked t).2) := by
  have masked : (modifyGet (maskStrings · t) : Attempt SetAside Text) s = .ok (s.maskStrings t).1
      (s.maskStrings t).2 := rfl
  rw [build, Attempt.bind_of_ok masked]
  cases balanced : checkBalanced (s.maskStrings t).1 with
  | error e => exact .inl ⟨e, rfl, rfl⟩
  | ok u =>
    refine .inr ⟨rfl, ?_⟩
    have remaining : (Attempt.ofExcept (.ok u) >>= fun _ => modifyGet
        (markKeywords · (s.maskStrings t).1) >>= fun marked =>
        get >>= fun here => Attempt.ofExcept
          (extractSubexpressions here.subexpressions.length marked) >>= fun result =>
          buildFrom here.subexpressions.length result.2 result.1 : Attempt SetAside
            Expr) (s.maskStrings t).2 =
        (Attempt.ofExcept (extractSubexpressions s.subexpressions.length (s.marked t).1) >>=
          fun result =>
          buildFrom s.subexpressions.length result.2 result.1) (s.marked t).2 := rfl
    cases extracted : extractSubexpressions s.subexpressions.length (s.marked t).1 with
    | error e =>
      rw [extracted] at remaining
      exact .inl ⟨e, rfl, remaining⟩
    | ok result =>
      rw [extracted] at remaining
      exact .inr ⟨result.1, result.2, rfl, remaining⟩

/-- Building a tree keeps what has been set aside sound, also where the text cannot be read. -/
theorem sound_build (t : Text) (h : s.Sound) :
    Sound (Attempt.stateAfter (build t) s) ∧
      s.keywords <+: (Attempt.stateAfter (build t) s).keywords ∧
      ∀ e s', build t s = .ok e s' → e.Sound s'.keywords := by
  have marked_eq : (s.marked t).2.subexpressions = s.subexpressions := rfl
  have longer : s.keywords <+: (s.marked t).2.keywords := List.prefix_append _ _
  have start : (s.marked t).2.SoundWith (s.marked t).2.keywords s.subexpressions.length :=
    ⟨⟨h.inOrder, fun entry member => (h.trees entry member).mono longer⟩, rfl, rfl⟩
  rcases build_cases t s with ⟨e, -, failed⟩ | ⟨-, ⟨e, -, failed⟩ | ⟨rest, parts, -, built⟩⟩
  · rw [Attempt.stateAfter_of_error failed, failed]
    exact ⟨⟨h.inOrder, h.trees⟩, List.prefix_refl _, nofun⟩
  · rw [Attempt.stateAfter_of_error failed, failed]
    exact ⟨start.sound, longer, nofun⟩
  · have afterwards : Attempt.stateAfter (build t) s =
        Attempt.stateAfter (buildFrom s.subexpressions.length parts rest) (s.marked t).2 := by
      rw [Attempt.stateAfter, built, Attempt.stateAfter]
    rw [afterwards, built]
    obtain ⟨more, kept⟩ := sound_buildParts parts start
    cases run : (parts.zipIdx s.subexpressions.length).forM
        (fun part : Text × Nat => buildSubexpression part.1 part.2) (s.marked t).2 with
    | error e u =>
      rw [Attempt.stateAfter_of_error run] at kept
      rw [buildFrom, Attempt.stateAfter_bind_of_error run, Attempt.bind_of_error run]
      exact ⟨kept.sound, kept.keywords_eq ▸ longer, nofun⟩
    | ok _ u =>
      rw [Attempt.stateAfter_of_ok run] at kept
      rw [buildFrom, Attempt.stateAfter_bind_of_ok run, Attempt.bind_of_ok run]
      have level : (buildLevel rest).Meets (SoundWith (s.marked t).2.keywords more)
          (Expr.Sound (s.marked t).2.keywords) := sound_buildLevel rest
      have last := level.stateAfter kept
      refine ⟨last.sound, last.keywords_eq ▸ longer, fun e s' done => ?_⟩
      obtain ⟨after, he⟩ := level.of_ok kept done
      exact after.keywords_eq ▸ he

end SetAside

/-- The tokens that lowering emits, if the keywords with ordinals are those of a list. Without
keywords, these are the tokens of an instruction set that is finished. -/
inductive Token.Known (keywords : List Keyword) : Token → Prop
  | operation (op : Operation) : Known keywords (.operation op)
  | pending {n : Nat} (lt : n < keywords.length) : Known keywords (.opcode (.pending n))
  | operand (n : Int) : Known keywords (.operand n)
  | written {l : Literal} (h : l.Written) : Known keywords (.literal l)
  | unbound (name : Text) : Known keywords (.literal (.ofUnbound name))

namespace Token.Known

variable {keywords keywords' : List Keyword} {token : Token}

theorem mono (prefixed : keywords <+: keywords') (h : token.Known keywords) :
    token.Known keywords' := by
  cases h with
  | operation op => exact .operation op
  | pending lt => exact .pending (Nat.lt_of_lt_of_le lt prefixed.length_le)
  | operand n => exact .operand n
  | written h => exact .written h
  | unbound name => exact .unbound name

theorem of_numbered {ordinal : Int} {op : Keyword}
    (h : ∃ n : Nat, ordinal = n ∧ keywords[n]? = some op) :
    Known keywords (.opcode (.pending ordinal)) := by
  obtain ⟨n, rfl, found⟩ := h
  exact .pending (List.getElem?_eq_some_iff.mp found).1

/-- A finished token stays as it is. -/
theorem restore_eq (h : token.Known []) (keywords : List Keyword) :
    token.restore keywords = .ok token := by
  cases h with
  | operation op | operand n | written h | unbound name => rfl
  | pending lt => exact absurd lt (Nat.not_lt_zero _)

/-- A pending keyword can be put in its place, and all else stays. -/
theorem exists_restore (h : token.Known keywords) :
    ∃ restored, token.restore keywords = .ok restored ∧ restored.Known [] := by
  cases h with
  | operation op => exact ⟨_, rfl, .operation op⟩
  | @pending n lt =>
    have found : nthEntry keywords n = .ok keywords[n] :=
      nthEntry_eq_ok_iff.mpr (List.getElem?_eq_getElem lt)
    refine ⟨.operation (.ofKeyword keywords[n]), ?_, .operation _⟩
    change (nthEntry keywords n).map _ = _
    rw [found]
    rfl
  | operand n => exact ⟨_, rfl, .operand n⟩
  | written h => exact ⟨_, rfl, .written h⟩
  | unbound name => exact ⟨_, rfl, .unbound name⟩

end Token.Known

variable {tokens finished : List Token}

namespace Emission

variable {b : Bindings} {keywords : List Keyword} {first : List Token}

/-- Whether all tokens emitted so far are known ones. -/
def Known (keywords : List Keyword) (e : Emission) : Prop :=
  ∀ token ∈ e.tokens, token.Known keywords

/-- Whether known tokens have been emitted behind those that were there at first. -/
def Extends (first : List Token) (keywords : List Keyword) (e : Emission) : Prop :=
  ∃ more, e.tokens = first ++ more ∧ ∀ token ∈ more, token.Known keywords

/-- Emitting known tokens adds to what has been emitted. -/
theorem extends_emit (h : ∀ token ∈ tokens, token.Known keywords) :
    (emit tokens).Meets (Extends first keywords) fun _ => True := by
  refine .modify fun e ⟨more, tokens_eq, known⟩ =>
    ⟨more ++ tokens, ?_, List.forall_mem_append.mpr ⟨known, h⟩⟩
  rw [tokens_eq, List.append_assoc]

theorem extends_push : push.Meets (Extends first keywords) fun _ => True :=
  .modifyGet fun _ known => known

theorem extends_consume (count : Int) :
    (consume count).Meets (Extends first keywords) fun _ => True := by
  intro e known
  by_cases short : (e.slots.length : Int) < count
  · rw [consume_eq, if_pos short]
    exact known
  · rw [consume_eq, if_neg short]
    exact ⟨known, trivial⟩

theorem extends_pop : pop.Meets (Extends first keywords) fun _ => True := by
  refine Attempt.Meets.get.bind fun e known => ?_
  split
  · exact .bind (.modify fun _ _ => known) fun _ _ => .pure trivial
  · exact .throw _

theorem extends_emitOperator {op : Opcode} (h : Token.Known keywords (.opcode op)) (arity : Nat) :
    (emitOperator op arity).Meets (Extends first keywords) fun _ => True := by
  refine (extends_consume arity).bind fun slots _ => .bind (extends_emit ?_) fun _ _ =>
    extends_push.discard
  refine List.forall_mem_cons.mpr ⟨h, fun token member => ?_⟩
  obtain ⟨slot, -, rfl⟩ := List.mem_map.mp member
  exact .operand slot

theorem extends_loadLiteral {l : Literal} (h : Token.Known keywords (.literal l)) :
    (loadLiteral l).Meets (Extends first keywords) fun _ => True :=
  (extends_emit (by simpa using ⟨.operation .literal, h⟩)).bind fun _ _ => extends_push.discard

theorem extends_readName (name : Text) :
    (readName b name).Meets (Extends first keywords) fun _ => True := by
  unfold readName
  split
  · exact extends_loadLiteral (.unbound name)
  · refine .bind (.ofExcept (Q := fun _ => True) (by simp)) fun place _ => ?_
    exact (extends_emit (by simpa using ⟨.operation .placeholder, .operand _⟩)).bind fun _ _ =>
      extends_push.discard

theorem extends_readMapped (tracker : Text) :
    (readMapped b tracker).Meets (Extends first keywords) fun _ => True := by
  refine extends_pop.bind fun slot _ => .bind (.ofExcept (Q := fun _ => True) (by simp))
    fun found _ => ?_
  refine (extends_emit (by simpa using ⟨.operation .mapped, .operand _, .operand _⟩)).bind
    fun _ _ => ?_
  exact extends_push.discard.bind fun _ _ => .pure trivial

theorem extends_writeTracker (tracker : Text) (id : Int) (backed : Bool) (key : Option Nat) :
    (writeTracker tracker id backed key).Meets (Extends first keywords) fun _ => True := by
  refine extends_pop.bind fun slot _ => .bind (.modify fun _ known => known) fun _ _ => ?_
  cases key with
  | none =>
    refine (extends_emit ?_).bind fun _ _ => extends_push.discard
    simpa using ⟨.operation .write, .operand _, .operand _, .operand _⟩
  | some k =>
    refine (extends_emit ?_).bind fun _ _ => extends_push.discard
    simpa using ⟨.operation .writeMapped, .operand _, .operand _, .operand _, .operand _⟩

/-- Lowering a tree emits known tokens behind those that there are, also where it fails. -/
theorem extends_lowerExpr {e : Expr} (numbered : e.Numbered keywords) (written : e.Written) :
    (lowerExpr b e).Meets (Extends first keywords) fun _ => True := by
  induction e with
  | hole => exact .throw _
  | literal l => exact extends_loadLiteral (.written (written l (by simp [Expr.literals])))
  | name name => exact extends_readName name
  | mapped key tracker ih =>
    exact (ih numbered written).bind fun _ _ => (extends_readMapped tracker).discard
  | binary op left right ihl ihr =>
    obtain ⟨first, second⟩ := List.forall_mem_append.mp written
    exact (ihl numbered.1 first).bind fun _ _ => (ihr numbered.2 second).bind fun _ _ =>
      extends_emitOperator (.operation _) 2
  | logical op ordinal left right ihl ihr =>
    obtain ⟨first, second⟩ := List.forall_mem_append.mp written
    exact (ihl numbered.2.1 first).bind fun _ _ => (ihr numbered.2.2 second).bind fun _ _ =>
      extends_emitOperator (.of_numbered numbered.1) 2
  | negation ordinal operand ih =>
    exact (ih numbered.2 written).bind fun _ _ => extends_emitOperator (.of_numbered numbered.1) 1
  | update op tracker value ih =>
    refine .bind (.ofExcept (Q := fun _ => True) (by simp)) fun found _ =>
      (extends_readName tracker).bind fun _ _ => ?_
    exact (ih numbered written).bind fun _ _ => (extends_emitOperator (.operation _) 2).bind
      fun _ _ =>
      extends_writeTracker tracker _ _ _
  | updateMapped op key tracker value ihk ihv =>
    obtain ⟨first, second⟩ := List.forall_mem_append.mp written
    refine .bind (.ofExcept (Q := fun _ => True) (by simp)) fun found _ =>
      (ihk numbered.1 first).bind fun _ _ => ?_
    refine (extends_readMapped tracker).bind fun slot _ => (ihv numbered.2 second).bind
      fun _ _ => ?_
    exact (extends_emitOperator (.operation _) 2).bind fun _ _ => extends_writeTracker tracker _ _ _

/-- The pending keywords among known tokens can be put in their places. -/
theorem Known.exists_restored {e : Emission} (known : e.Known keywords) :
    ∃ tokens, e.tokens.mapM (Token.restore keywords) = .ok tokens ∧
      ∀ token ∈ tokens, token.Known [] := by
  obtain ⟨tokens, restored⟩ : ∃ tokens, e.tokens.mapM (Token.restore keywords) = .ok tokens :=
    exists_mapM_eq_ok_iff.mpr fun token member => (known token member).exists_restore.imp
      fun _ h => h.1
  refine ⟨tokens, restored, fun token member => ?_⟩
  obtain ⟨raw, listed, same⟩ := (mem_of_mapM_eq_ok restored).mp member
  obtain ⟨token', restored', finished⟩ := (known raw listed).exists_restore
  exact Except.ok.inj (same.symm.trans restored') ▸ finished

/-- Finished tokens at the beginning stay as they are. -/
theorem isPrefix_of_restored {raw : List Token} (all : ∀ token ∈ finished, token.Known [])
    (h : raw.mapM (Token.restore keywords) = .ok tokens) (starts : finished <+: raw) :
    finished <+: tokens := by
  have unchanged : finished.mapM (Token.restore keywords) = .ok finished := by
    rw [mapM_eq_ok_iff, List.forall₂_same]
    exact fun token member => (all token member).restore_eq keywords
  obtain ⟨more, rfl⟩ := starts
  obtain ⟨finished', more', restored, -, rfl⟩ := mapM_append_eq_ok_iff.mp h
  obtain rfl := Except.ok.inj (unchanged.symm.trans restored)
  exact List.prefix_append _ _

/-- Lowering a tree behind known tokens keeps them known and leaves finished ones at the beginning
as they are. -/
theorem meets_lower {tree : Expr} (all : ∀ token ∈ finished, token.Known [])
    (numbered : tree.Numbered keywords) (written : tree.Written) :
    (lower b keywords tree).Meets (fun e => e.Known keywords ∧ finished <+: e.tokens)
      fun tokens => ∀ token ∈ tokens, token.Known [] := by
  intro e ⟨known, starts⟩
  have lowered :=
    extends_lowerExpr (b := b) numbered written e ⟨[], (List.append_nil _).symm, by simp⟩
  have behind : ∀ e', Extends e.tokens keywords e' → e'.Known keywords ∧
      finished <+: e'.tokens := by
    rintro e' ⟨more, tokens_eq, knownMore⟩
    refine ⟨?_, tokens_eq ▸ starts.trans (List.prefix_append _ _)⟩
    rw [Known, tokens_eq]
    exact List.forall_mem_append.mpr ⟨known, knownMore⟩
  unfold lower
  cases result : lowerExpr b tree e with
  | error fault e' =>
    rw [result] at lowered
    rw [Attempt.bind_of_error result]
    exact behind e' lowered
  | ok _ e' =>
    rw [result] at lowered
    obtain ⟨known', starts'⟩ := behind e' lowered.1
    obtain ⟨tokens, restored, done⟩ := known'.exists_restored
    have put : restoreKeywords keywords e' = .ok () { e' with tokens := tokens } := by
      simp only [restoreKeywords, Attempt.bind_eq_ok_iff, Attempt.get_eq_ok_iff,
        Attempt.ofExcept_eq_ok_iff, Attempt.modify_eq_ok_iff]
      exact ⟨e', e', ⟨rfl, rfl⟩, tokens, e', ⟨restored, rfl⟩, rfl⟩
    rw [Attempt.bind_of_ok result, Attempt.bind_of_ok put]
    exact ⟨⟨fun token member => (done token member).mono List.nil_prefix,
      isPrefix_of_restored all restored starts'⟩, done⟩

end Emission

namespace Workspace

variable {b : Bindings} {t : Text} {w w' : Workspace}

/-- What is known of every workspace that conversions leave. -/
structure Sound (w : Workspace) : Prop where
  setAside : w.setAside.Sound
  emitted : w.emission.Known w.keywords

theorem sound_empty : Sound {} := ⟨⟨rfl, by simp [Workspace.setAside]⟩, by simp [Emission.Known]⟩

/-- Whether a workspace is sound and has finished instructions at the beginning. -/
structure SoundBehind (finished : List Token) (w : Workspace) : Prop where
  sound : w.Sound
  starts : finished <+: w.emission.tokens

/-- A conversion keeps a workspace sound, whether or not it succeeds, and leaves finished
instructions as they are. What it gives is finished. -/
theorem meets_convert (all : ∀ token ∈ finished, token.Known []) (b : Bindings) (t : Text) :
    (convert b t).Meets (SoundBehind finished) fun tokens => ∀ token ∈ tokens, token.Known [] := by
  intro w ⟨sound, starts⟩
  obtain ⟨kept, longer, tree_sound⟩ := SetAside.sound_build t sound.setAside
  cases built : SetAside.build t w.setAside with
  | error fault s =>
    have failed : buildTree t w =
        .error fault { w with keywords := s.keywords, subexpressions := s.subexpressions } := by
      rw [buildTree, built]
    rw [Attempt.stateAfter_of_error built] at kept longer
    rw [convert, Attempt.bind_of_error failed]
    exact ⟨⟨⟨kept.inOrder, kept.trees⟩,
      fun token member => (sound.emitted token member).mono longer⟩, starts⟩
  | ok tree s =>
    have done : buildTree t w =
        .ok tree { w with keywords := s.keywords, subexpressions := s.subexpressions } := by
      rw [buildTree, built]
    rw [Attempt.stateAfter_of_ok built] at kept longer
    have he := tree_sound tree s built
    rw [convert, Attempt.bind_of_ok done]
    have known : w.emission.Known s.keywords :=
      fun token member => (sound.emitted token member).mono longer
    have lowered := Emission.meets_lower (b := { b with source := t }) all he.numbered he.written
      w.emission ⟨known, starts⟩
    unfold lower
    dsimp only
    cases result : Emission.lower { b with source := t } s.keywords tree w.emission with
    | ok tokens e =>
      rw [result] at lowered
      exact ⟨⟨⟨⟨kept.inOrder, kept.trees⟩, lowered.1.1⟩, lowered.1.2⟩, lowered.2⟩
    | error fault e =>
      rw [result] at lowered
      exact ⟨⟨⟨kept.inOrder, kept.trees⟩, lowered.1⟩, lowered.2⟩

/-- What a conversion gives in a sound workspace is finished. -/
theorem Sound.finished_of_convert (h : w.Sound) (converted : convert b t w = .ok tokens w') :
    ∀ token ∈ tokens, token.Known [] :=
  ((meets_convert (by simp) b t).of_ok ⟨h, List.nil_prefix⟩ converted).2

/-- Whether conversions of allowed texts, each of which may fail, lead from one workspace to
another. -/
inductive Evolves (Allowed : Text → Prop) (w : Workspace) : Workspace → Prop
  | refl : Evolves Allowed w w
  | convert {w' : Workspace} (b : Bindings) {t : Text} (allowed : Allowed t)
    (h : Evolves Allowed w w') :
    Evolves Allowed w ((convert b t).stateAfter w')

section Evolves

variable {Allowed : Text → Prop}

theorem Evolves.soundBehind (all : ∀ token ∈ finished, token.Known []) (h : Evolves Allowed w w')
    (start : w.SoundBehind finished) : w'.SoundBehind finished := by
  induction h with
  | refl => exact start
  | convert b allowed h ih => exact (meets_convert all b _).stateAfter ih

/-- A workspace stays sound, whatever is converted in it. -/
theorem Evolves.sound (h : Evolves Allowed w w') (start : w.Sound) : w'.Sound :=
  (h.soundBehind (by simp) ⟨start, List.nil_prefix⟩).sound

end Evolves

end Workspace

end PolicyRules
