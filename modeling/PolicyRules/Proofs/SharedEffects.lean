import PolicyRules.Proofs.SharedPlaceholders

/-!
# Effects that share placeholders

The effects of one case of a rule are compiled with one list of placeholders for all of them.
`EffectRecord.bind?` replaces the places of placeholders in an effect by the index and flag of what
they bind; then nothing is left that depends on the list, and an effect is the same whether it is
compiled alone or with others.

Main statement: `Policy.compileEffects_bound`.
-/

namespace PolicyRules

/-- A token, or the index and flag of the value that is read in its place. -/
inductive BoundToken where
  | token (t : Token)
  | value (index flag : Int)
  deriving DecidableEq, Repr

/-- The tokens with each place of a placeholder replaced by what the placeholder binds. -/
def bindTokens? (placeholders : List Placeholder) : List Token → Option (List BoundToken)
  | .opcode (.operation .placeholder) :: .operand (.ofNat k) :: rest => do
    let q ← placeholders[k]?
    return .token (.operation .placeholder) :: .value q.index q.flag ::
      (← bindTokens? placeholders rest)
  | .opcode (.operation .placeholder) :: _ => none
  | token :: rest => do return .token token :: (← bindTokens? placeholders rest)
  | [] => some []

/-- An effect without places of placeholders. -/
structure BoundEffect where
  /-- The record, with neither tokens nor a placeholder. -/
  record : EffectRecord
  tokens : List BoundToken
  /-- The index and flag of the value that is the parameter of an event. -/
  parameter : Option (Int × Int)
  deriving DecidableEq, Repr

/-- The record with each place of a placeholder replaced by what the placeholder binds. -/
def EffectRecord.bind? (placeholders : List Placeholder) (r : EffectRecord) :
    Option BoundEffect := do
  let tokens ← bindTokens? placeholders r.tokens
  let rest := { r with tokens := [], placeholder := 0 }
  if r.isBound then
    let q ← placeholders[r.placeholder]?
    return ⟨rest, tokens, some (q.index, q.flag)⟩
  else return ⟨rest, tokens, none⟩

section Instructions

variable {placeholders placeholders' : List Placeholder}

/-- Whether two instructions differ only in the place of a placeholder, and read the same value. -/
inductive Instruction.ReadsAlike (placeholders placeholders' : List Placeholder) :
    Instruction → Instruction → Prop
  | same {i : Instruction} (other : i.opcode ≠ .operation .placeholder) :
    ReadsAlike placeholders placeholders' i i
  | read {k k' : Nat} {q q' : Placeholder} (here : placeholders[k]? = some q)
    (there : placeholders'[k']? = some q') (same : q.Same q') :
    ReadsAlike placeholders placeholders' (.read k) (.read k')

theorem bindTokens?_cons {token : Token} (other : token ≠ .operation .placeholder)
    (rest : List Token) :
    bindTokens? placeholders (token :: rest) = (bindTokens? placeholders rest).map
      (.token token :: ·) := by
  rw [bindTokens?]
  · cases bindTokens? placeholders rest <;> rfl
  · rintro k _ rfl
    exact absurd rfl other
  · rintro rfl
    exact absurd rfl other

theorem bindTokens?_append {tokens : List Token}
    (others : ∀ token ∈ tokens, token ≠ .operation .placeholder) (rest : List Token) :
    bindTokens? placeholders (tokens ++ rest) = (bindTokens? placeholders rest).map
      (tokens.map .token ++ ·) := by
  induction tokens with
  | nil => simp
  | cons token tokens ih =>
    obtain ⟨here, later⟩ := List.forall_mem_cons.mp others
    rw [List.cons_append, bindTokens?_cons here, ih later, Option.map_map]
    rfl

theorem bindTokens?_read {k : Nat} {q : Placeholder} (here : placeholders[k]? = some q)
    (rest : List Token) :
    bindTokens? placeholders ((Instruction.read k).tokens ++ rest) =
      (bindTokens? placeholders rest).map
        ([.token (.operation .placeholder), .value q.index q.flag] ++ ·) := by
  change (placeholders[k]?.bind fun q => (bindTokens? placeholders rest).bind fun bound =>
    some (.token (.operation .placeholder) :: .value q.index q.flag :: bound)) = _
  rw [here]
  cases bindTokens? placeholders rest <;> rfl

/-- The tokens of instructions that read the same values are bound alike. -/
theorem exists_bindTokens {code code' : List Instruction} (complete : ∀ i ∈ code, i.IsComplete)
    (h : List.Forall₂ (Instruction.ReadsAlike placeholders placeholders') code code') :
    ∃ bound, bindTokens? placeholders (code.flatMap Instruction.tokens) = some bound ∧
      bindTokens? placeholders' (code'.flatMap Instruction.tokens) = some bound := by
  induction h with
  | nil => exact ⟨[], rfl, rfl⟩
  | @cons i i' rest rest' first later ih =>
    obtain ⟨completeFirst, completeRest⟩ := List.forall_mem_cons.mp complete
    obtain ⟨bound, bound_eq, bound_eq'⟩ := ih completeRest
    cases first with
    | same other =>
      have others : ∀ token ∈ i.tokens, token ≠ .operation .placeholder := by
        refine List.forall_mem_cons.mpr ⟨fun same => other (Token.opcode.inj same),
          fun token member => ?_⟩
        rintro rfl
        have closed := completeFirst.closed _ member
        cases closed
      refine ⟨i.tokens.map .token ++ bound, ?_, ?_⟩
      · rw [List.flatMap_cons, bindTokens?_append others, bound_eq]
        rfl
      · rw [List.flatMap_cons, bindTokens?_append others, bound_eq']
        rfl
    | @read k k' q q' here there same =>
      refine ⟨.token (.operation .placeholder) :: .value q.index q.flag :: bound, ?_, ?_⟩
      · rw [List.flatMap_cons, bindTokens?_read here, bound_eq]
        rfl
      · rw [List.flatMap_cons, bindTokens?_read there, bound_eq', same.1, same.2]
        rfl

theorem rawDataFrom_append_congr {strict : Bool} {rest rest' : List Token}
    (h : ∀ position, rawDataFrom strict position rest = rawDataFrom strict position rest')
    (tokens : List Token) (position : Nat) :
    rawDataFrom strict position (tokens ++ rest) = rawDataFrom strict
      position (tokens ++ rest') := by
  induction tokens generalizing position with
  | nil => exact h position
  | cons token tokens ih =>
    cases token with
    | literal l => simp only [List.cons_append, rawDataFrom, ih]
    | opcode op | operand n => exact ih (position + 1)

/-- Instructions that differ only in places of placeholders have the same raw data. -/
theorem rawData_eq {code code' : List Instruction}
    (h : List.Forall₂ (Instruction.ReadsAlike placeholders placeholders') code code')
    (strict : Bool) :
    rawData strict (code.flatMap Instruction.tokens) =
      rawData strict (code'.flatMap Instruction.tokens) := by
  have each : ∀ position, rawDataFrom strict position (code.flatMap Instruction.tokens) =
      rawDataFrom strict position (code'.flatMap Instruction.tokens) := by
    induction h with
    | nil => exact fun _ => rfl
    | @cons i i' rest rest' first later ih =>
      intro position
      rw [List.flatMap_cons, List.flatMap_cons]
      cases first with
      | same other => exact rawDataFrom_append_congr ih i.tokens position
      | read => exact ih (position + 2)
  exact each 0

end Instructions

/-- What bindings are made of for a list of components: what the tables give, with the placeholders
that bind it. -/
structure Bindings.MadeFor (tables : Tables) (b : Bindings) : Prop where
  gives : ∀ c ∈ b.components, tables.Gives c
  placeholders : Placeholder.ofComponents b.components = .ok b.placeholders
  trackers : b.trackers = tables.trackers

section Lowering

variable {tables : Tables} {b b' : Bindings} {e : Expr} {n r : Nat} {code : List Instruction}
  {name : Text}

theorem Code.of_emits {i : Instruction} (h : b.Emits name i) (n : Nat) :
    Code b (.name name) n [i] n := by
  rcases h with ⟨free, rfl⟩ | ⟨c, place, found, placed, rfl⟩
  · exact .unbound n free
  · exact .bound n found placed

/-- A name that is resolved alike is read alike. -/
theorem Bindings.Emits.exists_readsAlike (made' : b'.MadeFor tables)
    (alike : ResolvesAlike b.components b'.components name) {i : Instruction} (h : b.Emits name i) :
    ∃ i', b'.Emits name i' ∧ i.ReadsAlike b.placeholders b'.placeholders i' := by
  rcases alike with ⟨free, free'⟩ | ⟨c, c', q, found, found', bound, bound'⟩
  · rcases h with ⟨-, rfl⟩ | ⟨c, place, found, -⟩
    · exact ⟨_, .inl ⟨free', rfl⟩, .same (by simp [Instruction.load, Opcode.operation.injEq])⟩
    · exact absurd (found.symm.trans free) (by simp)
  · rcases h with ⟨free, -⟩ | ⟨d, place, foundD, placed, rfl⟩
    · exact absurd (found.symm.trans free) (by simp)
    · obtain rfl := Option.some.inj (found.symm.trans foundD)
      obtain ⟨p, here, binds⟩ := Placeholder.ordinal_eq_ok placed
      obtain ⟨k, p', placed', there, same'⟩ :=
        Placeholder.exists_ordinal made'.placeholders (resolve_eq_some found').1 bound' b'.source
      have same := Placeholder.same_of_binds binds bound
      exact ⟨.read k, .inr ⟨c', k, found', placed', rfl⟩,
        .read here there ⟨same.1.trans same'.1.symm, same.2.trans same'.2.symm⟩⟩

/-- The id of a tracker is that of the table. -/
theorem Bindings.MadeFor.trackerId_eq (declared : tables.Declared) (made : b.MadeFor tables)
    (made' : b'.MadeFor tables) (isTracker : (trackerReference? name).isSome)
    {x : Int × Bool} (h : b.trackerId name = .ok x) : b'.trackerId name = .ok x := by
  obtain ⟨tracker, found, rfl⟩ :=
    Tables.exists_tracker_of_trackerId declared made.trackers made.gives isTracker h
  unfold trackerId
  rw [made'.trackers, found]

/-- The code of an expression for one list of components has a counterpart for another one, if names
are resolved alike. -/
theorem Code.exists_readsAlike (declared : tables.Declared) (made : b.MadeFor tables)
    (made' : b'.MadeFor tables) (h : Code b e n code r)
    (names : ∀ name ∈ e.names, ResolvesAlike b.components b'.components name)
    (trackers : ∀ tracker ∈ e.trackers, (trackerReference? tracker).isSome) :
    ∃ code', Code b' e n code' r ∧
      List.Forall₂ (Instruction.ReadsAlike b.placeholders b'.placeholders) code code' := by
  have tracked : ∀ {tracker x}, (trackerReference? tracker).isSome →
      b.trackerId tracker = .ok x →
      b'.trackerId tracker = .ok x :=
    fun isTracker known => made.trackerId_eq declared made' isTracker known
  have named : ∀ {name code n r}, ResolvesAlike b.components b'.components name →
      Code b (.name name) n code r →
      ∃ code', Code b' (.name name) n code' r ∧
        List.Forall₂ (Instruction.ReadsAlike b.placeholders b'.placeholders) code code' := by
    intro name code n r alike read
    obtain ⟨i, rfl, rfl, emits⟩ := read.exists_emits
    obtain ⟨i', emits', shared⟩ := emits.exists_readsAlike made' alike
    exact ⟨[i'], .of_emits emits' r, .cons shared .nil⟩
  have operator : ∀ op : Operator, Operation.ofOperator op ≠ .placeholder := by
    intro op
    cases op <;> decide
  have keyword : ∀ keyword : Keyword, Operation.ofKeyword keyword ≠ .placeholder := by
    intro keyword
    cases keyword <;> decide
  induction h with
  | literal l n => exact ⟨_, .literal l n, .cons (.same (by simp [Instruction.load])) .nil⟩
  | unbound n free => exact named (List.forall_mem_singleton.mp names) (.unbound n free)
  | bound n found placed => exact named (List.forall_mem_singleton.mp names) (.bound n found placed)
  | mapped known hk ih =>
    obtain ⟨here, inKey⟩ := List.forall_mem_cons.mp trackers
    obtain ⟨code', hk', shared⟩ := ih names inKey
    exact ⟨_, .mapped (tracked here known) hk',
      List.rel_append shared (.cons (.same (by simp [Instruction.readMapped])) .nil)⟩
  | @binary op left right n r r' code code' hl hr ihl ihr =>
    obtain ⟨namesL, namesR⟩ := List.forall_mem_append.mp names
    obtain ⟨trackersL, trackersR⟩ := List.forall_mem_append.mp trackers
    obtain ⟨_, hl', shared⟩ := ihl namesL trackersL
    obtain ⟨_, hr', shared'⟩ := ihr namesR trackersR
    exact ⟨_, .binary hl' hr', List.rel_append (List.rel_append shared shared')
      (.cons (.same (by simp [Instruction.compute, operator])) .nil)⟩
  | @logical op ordinal left right n r r' code code' hl hr ihl ihr =>
    obtain ⟨namesL, namesR⟩ := List.forall_mem_append.mp names
    obtain ⟨trackersL, trackersR⟩ := List.forall_mem_append.mp trackers
    obtain ⟨_, hl', shared⟩ := ihl namesL trackersL
    obtain ⟨_, hr', shared'⟩ := ihr namesR trackersR
    exact ⟨_, .logical hl' hr', List.rel_append (List.rel_append shared shared')
      (.cons (.same (by simp [Instruction.compute, keyword])) .nil)⟩
  | negation ho ih =>
    obtain ⟨_, ho', shared⟩ := ih names trackers
    exact ⟨_, .negation ho',
      List.rel_append shared (.cons (.same (by simp [Instruction.compute])) .nil)⟩
  | @update op tracker value n r r' code code' id backed known ht hv iht ihv =>
    obtain ⟨here, inValue⟩ := List.forall_mem_cons.mp trackers
    obtain ⟨target, namesV⟩ := List.forall_mem_cons.mp names
    obtain ⟨_, ht', shared⟩ := named target ht
    obtain ⟨_, hv', shared'⟩ := ihv namesV inValue
    exact ⟨_, .update (tracked here known) ht' hv', List.rel_append (List.rel_append shared shared')
      (.cons (.same (by simp [Instruction.compute, operator]))
        (.cons (.same (by simp [Instruction.write])) .nil))⟩
  | @updateMapped op key tracker value n k r code code' id backed known hk hv ihk ihv =>
    obtain ⟨here, inBoth⟩ := List.forall_mem_cons.mp trackers
    obtain ⟨trackersK, trackersV⟩ := List.forall_mem_append.mp inBoth
    obtain ⟨namesK, namesV⟩ := List.forall_mem_append.mp names
    obtain ⟨_, hk', shared⟩ := ihk namesK trackersK
    obtain ⟨_, hv', shared'⟩ := ihv namesV trackersV
    exact ⟨_, .updateMapped (tracked here known) hk' hv',
      List.rel_append
        (List.rel_append
          (List.rel_append shared (.cons (.same (by simp [Instruction.readMapped])) .nil)) shared')
          (.cons (.same (by simp [Instruction.compute, operator]))
            (.cons (.same (by simp [Instruction.writeMapped])) .nil))⟩

end Lowering

variable {placeholders : List Placeholder} {effect : Effect} {body name : Text}

namespace Effect

/-- What follows the word of an event, if a text is one. -/
def eventBody? (t : Text) : Option Text :=
  ((afterWord? "emit".toList (Text.strip t)).map (·.dropWhile isBlank)).filter (! ·.contains '\n')

/-- Whether a text is compiled as an expression: it neither emits an event nor reverts. -/
def IsExpression (t : Text) : Prop :=
  eventBody? t = none ∧ afterWord? "revert".toList (Text.strip t) = none

instance (t : Text) : Decidable (IsExpression t) := inferInstanceAs (Decidable (_ ∧ _))

/-- The names that are looked up when a text is compiled as an effect. -/
inductive Names (t : Text) : Text → Prop
  | parameter {body : Text} (event : eventBody? t = some body)
    (nonempty : Text.strip (Text.after ',' body) ≠ []) :
    Names t (Text.strip (Text.after ',' body))
  | operand {tree : Expr} {aside : SetAside} {name : Text} (isExpression : IsExpression t)
    (built : SetAside.build (Text.strip t) {} = .ok tree aside) (member : name ∈ tree.names) :
    Names t name

/-- Whether two effects differ only in places of placeholders, and read the same values. -/
inductive ReadsAlike (placeholders placeholders' : List Placeholder) : Effect → Effect → Prop
  | revert (message : Text) :
    ReadsAlike placeholders placeholders' (.revert message) (.revert message)
  | event (name : Text) {parameter : Option Parameter}
    (free : ∀ k type text, parameter ≠ some (.bound k type text)) :
    ReadsAlike placeholders placeholders' (.event name parameter) (.event name parameter)
  | bound (name : Text) {k k' : Nat} {q q' : Placeholder} (type : ParamType) (text : Text)
    (here : placeholders[k]? = some q) (there : placeholders'[k']? = some q') (same : q.Same q') :
    ReadsAlike placeholders placeholders' (.event name (some (.bound k type text)))
      (.event name (some (.bound k' type text)))
  | expression {code code' : List Instruction} (data : List RawDatum)
    (complete : ∀ i ∈ code, i.IsComplete)
    (h : List.Forall₂ (Instruction.ReadsAlike placeholders placeholders') code code') :
    ReadsAlike placeholders placeholders' (.expression (code.flatMap Instruction.tokens) data)
      (.expression (code'.flatMap Instruction.tokens) data)

/-- Effects that read the same values are bound alike. -/
theorem ReadsAlike.exists_bind {placeholders' : List Placeholder} {effect' : Effect}
    (h : ReadsAlike placeholders placeholders' effect effect') :
    ∃ bound, effect.record.bind? placeholders = some bound ∧
      effect'.record.bind? placeholders' = some bound := by
  cases h with
  | revert message => exact ⟨_, rfl, rfl⟩
  | @event name parameter free =>
    cases parameter with
    | none => exact ⟨_, rfl, rfl⟩
    | some parameter =>
      cases parameter with
      | bound k type text => exact absurd rfl (free k type text)
      | address text | number n | string text => exact ⟨_, rfl, rfl⟩
  | @bound name k k' q q' type text here there same =>
    refine ⟨⟨{
        kind := 1, text := name, parameterType := type, parameterValue := .text text,
        isBound := true }, [], some (q.index, q.flag)⟩, ?_, ?_⟩
    · simp [record, EffectRecord.bind?, bindTokens?, here]
    · simp [record, EffectRecord.bind?, bindTokens?, there, same.1, same.2]
  | expression data complete alike =>
    obtain ⟨bound, bound_eq, bound_eq'⟩ := exists_bindTokens complete alike
    refine ⟨⟨{ kind := 2, data := data }, bound, none⟩, ?_, ?_⟩
    · simp [record, EffectRecord.bind?, bound_eq]
    · simp [record, EffectRecord.bind?, bound_eq']

section

variable {t : Text} {b b' : Bindings} {strict : Bool}

theorem ofText_of_event (h : eventBody? t = some body) : ofText b strict t = ofEvent b body := by
  unfold eventBody? at h
  simp only [ofText, h]

theorem ofText_of_isExpression (h : IsExpression t) :
    ofText b strict t = ofExpression b strict (Text.strip t) := by
  obtain ⟨noEvent, noRevert⟩ := h
  unfold eventBody? at noEvent
  simp only [ofText, noEvent, noRevert]

/-- A revert looks nothing up. -/
theorem ofText_of_revert {rest : Text} (noEvent : eventBody? t = none)
    (isRevert : afterWord? "revert".toList (Text.strip t) = some rest)
    (h : ofText b strict t = .ok effect) :
    ofText b' strict t = .ok effect ∧ ∃ message, effect = .revert message := by
  unfold eventBody? at noEvent
  simp only [ofText, noEvent, isRevert] at h ⊢
  refine ⟨h, ?_⟩
  split at h
  · exact ⟨_, (Except.ok.inj h).symm⟩
  · cases h

theorem ofEvent_eq_ok_iff :
    ofEvent b body = .ok effect ↔ unquote (Text.strip (Text.before ',' body)) ≠ [] ∧
      ((Text.strip (Text.after ',' body) = [] ∧
        effect = .event (unquote (Text.strip (Text.before ',' body))) none) ∨
      (Text.strip (Text.after ',' body) ≠ [] ∧
        ∃ parameter, Parameter.ofText b (Text.strip (Text.after ',' body)) = .ok parameter ∧
          effect = .event (unquote (Text.strip (Text.before ',' body))) (some parameter))) := by
  unfold ofEvent
  cases unquote (Text.strip (Text.before ',' body)) with
  | nil => simp [throw, throwThe, MonadExceptOf.throw, bind, Except.bind]
  | cons c name =>
    cases Text.strip (Text.after ',' body) with
    | nil => simp [pure_eq_ok_iff, @eq_comm _ effect]
    | cons d parameter => simp [-bind_pure_comp, bind_eq_ok_iff, pure_eq_ok_iff, @eq_comm _ effect]

end

end Effect

section Effects

variable {tables : Tables} {b b' : Bindings} {t : Text} {strict : Bool}

/-- A parameter that is resolved alike is read alike. -/
theorem Parameter.exists_readsAlike (made' : b'.MadeFor tables)
    (alike : ResolvesAlike b.components b'.components t) {parameter : Parameter}
    (h : ofText b t = .ok parameter) (name : Text) : ∃ parameter', ofText b' t = .ok parameter' ∧
      Effect.ReadsAlike b.placeholders b'.placeholders (.event name (some parameter))
      (.event name (some parameter')) := by
  rcases alike with ⟨free, free'⟩ | ⟨c, c', q, found, found', bound, bound'⟩
  · have same : ofText b' t = ofText b t := by
      simp only [ofText, free, free']
    refine ⟨parameter, same.trans h, .event name fun k type text isBound => ?_⟩
    obtain rfl := Option.some.inj isBound
    simp only [ofText, free] at h
    split at h
    · cases h
    · split at h
      · split at h <;> cases h
      · cases h
  · simp only [ofText, found, bind_eq_ok_iff, pure_eq_ok_iff] at h
    obtain ⟨k, placed, rfl⟩ := h
    obtain ⟨p, here, binds⟩ := Placeholder.ordinal_eq_ok placed
    obtain ⟨k', p', placed', there, same'⟩ :=
      Placeholder.exists_ordinal made'.placeholders (resolve_eq_some found').1 bound' []
    have same := Placeholder.same_of_binds binds bound
    have types : c.type = c'.type := by
      obtain ⟨flag, -, made⟩ := bind_eq_ok_iff.mp bound
      obtain ⟨flag', -, made'⟩ := bind_eq_ok_iff.mp bound'
      exact (congrArg Placeholder.type (pure_eq_ok_iff.mp made)).trans
        (congrArg Placeholder.type (pure_eq_ok_iff.mp made')).symm
    refine ⟨.bound k' c.type t, ?_, .bound name c.type t here there
      ⟨same.1.trans same'.1.symm, same.2.trans same'.2.symm⟩⟩
    simp only [ofText, found', placed', types]
    rfl

/-- A text whose names are resolved alike is compiled alike. -/
theorem Effect.exists_readsAlike (declared : tables.Declared) (made : b.MadeFor tables)
    (made' : b'.MadeFor tables)
    (alike : ∀ name, Names t name → ResolvesAlike b.components b'.components name)
    (h : ofText b strict t = .ok effect) :
    ∃ effect', ofText b' strict t = .ok effect' ∧
      effect.ReadsAlike b.placeholders b'.placeholders effect' := by
  cases event : eventBody? t with
  | some body =>
    rw [ofText_of_event event, ofEvent_eq_ok_iff] at h
    obtain ⟨named, ⟨absent, rfl⟩ | ⟨nonempty, parameter, read, rfl⟩⟩ := h
    · refine ⟨_, ?_, .event _ (by simp)⟩
      rw [ofText_of_event event, ofEvent_eq_ok_iff]
      exact ⟨named, .inl ⟨absent, rfl⟩⟩
    · obtain ⟨parameter', read', readsAlike⟩ :=
        Parameter.exists_readsAlike made' (alike _ (.parameter event nonempty)) read
          (unquote (Text.strip (Text.before ',' body)))
      refine ⟨_, ?_, readsAlike⟩
      rw [ofText_of_event event, ofEvent_eq_ok_iff]
      exact ⟨named, .inr ⟨nonempty, parameter', read', rfl⟩⟩
  | none =>
    cases revert : afterWord? "revert".toList (Text.strip t) with
    | some rest =>
      obtain ⟨same, message, reverts⟩ := ofText_of_revert event revert h
      exact ⟨_, same, reverts ▸ .revert message⟩
    | none =>
      have isExpression : IsExpression t := ⟨event, revert⟩
      rw [ofText_of_isExpression isExpression] at h ⊢
      simp only [ofExpression, bind_eq_ok_iff, pure_eq_ok_iff, Policy.convertText_eq_ok_iff] at h ⊢
      obtain ⟨tokens, ⟨w, converted⟩, data, raw, rfl⟩ := h
      obtain ⟨tree, aside, code, r, built, -, hcode, rfl, -⟩ := Workspace.convert_code converted
      have sourced : ∀ {b : Bindings}, b.MadeFor tables →
          ({ b with source := Text.strip t } : Bindings).MadeFor tables :=
        fun made => ⟨made.gives, made.placeholders, made.trackers⟩
      obtain ⟨code', hcode', readsAlike⟩ := hcode.exists_readsAlike declared (sourced made)
        (sourced made') (fun name member => alike name (.operand isExpression built member))
          (SetAside.trackers_of_build built)
      obtain ⟨w', converted'⟩ := Workspace.convert_of_code built hcode'
      exact ⟨_, ⟨_, ⟨w', converted'⟩, data, (rawData_eq readsAlike strict).symm.trans raw, rfl⟩,
        .expression data hcode.isComplete readsAlike⟩

/-- The parameter of an event stands at the end of its text, behind a comma and blanks. -/
theorem Effect.exists_suffix_of_event (event : eventBody? t = some body)
    (nonempty : Text.strip (Text.after ',' body) ≠ []) :
    ∃ before behind, ',' :: (before ++ (Text.strip (Text.after ',' body) ++ behind)) <:+ t ∧
      (∀ c ∈ before, isBlank c) ∧ ∀ c ∈ behind, isBlank c := by
  obtain ⟨opening, ending, whole, -, endBlank⟩ := Text.exists_append_strip t
  obtain ⟨before, behind, inner, left, right⟩ := Text.exists_append_strip (Text.after ',' body)
  refine ⟨before, behind ++ ending, ?_, left, fun c member => ?_⟩
  · have inText : body <:+ Text.strip t := by
      obtain ⟨word, -⟩ := Option.filter_eq_some_iff.mp event
      obtain ⟨rest, found, rfl⟩ := Option.map_eq_some_iff.mp word
      unfold afterWord? at found
      split at found
      · next rest' start =>
        split at found
        · obtain rfl := Option.some.inj found
          rw [Text.dropStart?_eq_some_iff.mp start]
          exact (List.dropWhile_suffix _).trans (List.suffix_append _ _)
        · cases found
      · cases found
    have inBody : ',' :: Text.after ',' body <:+ body := by
      refine List.IsSuffix.trans ?_ (List.dropWhile_suffix (· != ','))
      rw [Text.after] at nonempty ⊢
      cases dropped : body.dropWhile (· != ',') with
      | nil =>
        rw [dropped] at nonempty
        exact absurd rfl nonempty
      | cons c rest =>
        have comma : c = ',' := by
          have first := List.head?_dropWhile_not (· != ',') body
          simpa [dropped] using first
        rw [comma]
        exact List.suffix_rfl
    obtain ⟨u, same⟩ := inBody.trans inText
    refine ⟨opening ++ u, ?_⟩
    calc opening ++ u ++ ',' :: (before ++ (Text.strip (Text.after ',' body) ++ (behind ++ ending)))
        = opening ++ (u ++ ',' :: (before ++ (Text.strip (Text.after ',' body) ++ behind)) ++
          ending) := by simp
      _ = t := by rw [← inner, same, ← whole]
  · rcases List.mem_append.mp member with first | second
    · exact right c first
    · exact endBlank c second

/-- A name that is looked up stands outside quotes in the text of the effect. -/
theorem Effect.Names.stands (h : Names t name) (closed : IsExpression t → t.QuotesClosed)
    (noToken : ∀ q ∈ t.segments.marks, hasNumbered "q:".toList q.text = false)
    (unmarked : Tables.Unmarked name) : ∃ part ∈ t.unquoted, Stands name none part := by
  cases h with
  | @parameter body event nonempty =>
    obtain ⟨before, behind, ends, left, right⟩ := exists_suffix_of_event event nonempty
    have free : QuoteFree (',' :: (before ++ (Text.strip (Text.after ',' body) ++ behind))) := by
      have blank : ∀ {u : Text}, (∀ c ∈ u, isBlank c) → QuoteFree u := fun blanks c member =>
        isQuoteMark_eq_false_of_isBlank (blanks c member)
      exact List.forall_mem_cons.mpr ⟨rfl, (blank left).append (unmarked.2.append (blank right))⟩
    obtain ⟨part, listed, u, rfl⟩ := exists_unquoted_of_suffix free ends
    refine ⟨_, listed, .of_separator (by decide) (.inr ⟨before, behind, rfl, ?_, ?_⟩)⟩
    · exact isClearOfTokens_lastChar_of_isBlank left
    · exact isClearOfTokens_head_of_isBlank right
  | @operand tree aside name isExpression built member =>
    obtain ⟨marks, parts⟩ := segments_strip t
    have closedStrip : (Text.strip t).QuotesClosed := by
      intro part listed
      obtain ⟨x, y, inText, -⟩ := parts part listed
      exact (closed isExpression _ inText).of_isInfix ⟨x, y, by simp⟩
    obtain ⟨part, listed, here⟩ := (SetAside.stands_of_build built closedStrip
      (fun q inMarks => noToken q (marks ▸ inMarks)) name member).2 unmarked.1
    obtain ⟨x, y, inText, left, right⟩ := parts part listed
    have clear : Stands name (lastChar none x) part :=
      here.of_clear (isClearOfTokens_lastChar_of_isBlank left)
    exact ⟨_, inText, .append_right (clear.append_left (isClearOfTokens_head_of_isBlank right))⟩

end Effects

theorem ResolvesAlike.symm {components components' : List Component}
    (h : ResolvesAlike components components' name) :
    ResolvesAlike components' components name := by
  rcases h with ⟨free, free'⟩ | ⟨c, c', q, found, found', bound, bound'⟩
  · exact .inl ⟨free', free⟩
  · exact .inr ⟨c', c, q, found', found, bound', bound⟩

theorem Placeholder.exists_ofComponents {tables : Tables} (plain : tables.PlainArguments)
    {components : List Component} (gives : ∀ c ∈ components, tables.Gives c) :
    ∃ placeholders, ofComponents components = .ok placeholders := by
  obtain ⟨list, each⟩ := exists_mapM_eq_ok_iff.mpr fun c member =>
    let ⟨q, _, bound⟩ := (gives c member).ofComponent_eq plain
    (⟨q, bound⟩ : ∃ q, ofComponent c = .ok q)
  exact ⟨list.foldl addTo [], bind_eq_ok_iff.mpr ⟨list, each, rfl⟩⟩

/-- Effects that are compiled together, without places of placeholders. -/
def Effects.bound (shared : Effects) : List (Option BoundEffect) :=
  shared.effects.map (·.record.bind? shared.placeholders)

namespace Policy

variable {p : Policy} {source : Text} {sources : List Text} {extracts : List Extract}
  {extracted : Extract} {effect : Effect}

/-- The placeholders with which an effect is compiled alone. -/
def effectPlaceholders (p : Policy) (source : Text) : Except Error (List Placeholder) := do
  Placeholder.ofComponents (← p.process source).components

/-- An effect that is compiled alone, without places of placeholders. -/
def boundEffect (p : Policy) (source : Text) : Except Error (Option BoundEffect) := do
  let effect ← p.compileEffect source
  return effect.record.bind? (← p.effectPlaceholders source)

/-- The components with which the effects of extracted texts are compiled together. -/
def sharedComponents (extracts : List Extract) : List Component :=
  mergeComponents (extracts.map (·.components))

/-- Whether names of an effect are followed into its text: it has no number sign and no number of a
quoted segment, no digit behind a parenthesis, and the quotes of an expression are closed. -/
structure IsTraceable (p : Policy) (source : Text) : Prop where
  noHash : '#' ∉ source
  noNumber : Tables.NoNumberBehind source
  noString : hasNumbered "q:".toList source = false
  closed : Effect.IsExpression (p.normalize source) → p.QuotesClosed source

instance (p : Policy) (source : Text) : Decidable (p.IsTraceable source) :=
  decidable_of_iff ('#' ∉ source ∧ Tables.NoNumberBehind source ∧
      hasNumbered "q:".toList source = false ∧
      (Effect.IsExpression (p.normalize source) → p.QuotesClosed source))
    ⟨fun ⟨noHash, noNumber, noString, closed⟩ => ⟨noHash, noNumber, noString, closed⟩,
      fun h => ⟨h.noHash, h.noNumber, h.noString, h.closed⟩⟩

theorem compileEffect_eq_ok_iff : p.compileEffect source = .ok effect ↔
    ∃ extracted placeholders, p.process source = .ok extracted ∧
    p.effectPlaceholders source = .ok placeholders ∧
      Effect.ofText (p.bindings extracted.components placeholders) p.strict
        extracted.text = .ok effect := by
  simp only [compileEffect, effectPlaceholders, bind_eq_ok_iff]
  constructor
  · rintro ⟨extracted, processed, placeholders, bound, compiled⟩
    exact ⟨extracted, placeholders, processed, ⟨extracted, processed, bound⟩, compiled⟩
  · rintro ⟨extracted, placeholders, processed, ⟨extracted', processed', bound⟩, compiled⟩
    obtain rfl := Except.ok.inj (processed.symm.trans processed')
    exact ⟨extracted, processed, placeholders, bound, compiled⟩

theorem compileEffects_eq_ok_iff {shared : Effects} : p.compileEffects sources = .ok shared ↔
    ∃ extracts, sources.mapM p.process = .ok extracts ∧
      Placeholder.ofComponents (sharedComponents extracts) = .ok shared.placeholders ∧
      extracts.mapM (fun extracted =>
        Effect.ofText (p.bindings (sharedComponents extracts) shared.placeholders)
          p.strict extracted.text) = .ok shared.effects := by
  simp only [compileEffects, bind_eq_ok_iff, pure_eq_ok_iff]
  constructor
  · rintro ⟨extracts, processed, placeholders, bound, effects, compiled, rfl⟩
    exact ⟨extracts, processed, bound, compiled⟩
  · rintro ⟨extracts, processed, bound, compiled⟩
    exact ⟨extracts, processed, _, bound, _, compiled, rfl⟩

section

variable (declared : p.Declared) (ids : (p.calls.map ForeignCall.id).Nodup)
  (unmarked : ∀ name ∈ p.names, Tables.Unmarked name)

include declared

theorem madeFor_own (processed : p.process source = .ok extracted)
    (bound : Placeholder.ofComponents extracted.components = .ok placeholders) :
    (p.bindings extracted.components placeholders).MadeFor p.toTables :=
  ⟨(process_arranged declared.plainArguments processed).1, bound, rfl⟩

theorem madeFor_shared (processed : sources.mapM p.process = .ok extracts)
    (bound : Placeholder.ofComponents (sharedComponents extracts) = .ok placeholders) :
    (p.bindings (sharedComponents extracts) placeholders).MadeFor p.toTables :=
  ⟨(merge_arranged declared.plainArguments processed).1, bound, rfl⟩

include ids unmarked

/-- The names of an effect are resolved in the shared components as in its own. -/
theorem resolvesAlike_shared (processed : sources.mapM p.process = .ok extracts)
    (member : extracted ∈ extracts) (own : p.process source = .ok extracted)
    (traceable : p.IsTraceable source) (h : Effect.Names extracted.text name) :
    ResolvesAlike extracted.components (sharedComponents extracts) name := by
  have gives : ∀ l ∈ extracts.map (·.components), ∀ c ∈ l, p.Gives c := by
    refine List.forall_mem_map.mpr fun e listed => ?_
    obtain ⟨source', -, processed'⟩ := (mem_of_mapM_eq_ok processed).mp listed
    exact (process_arranged declared.plainArguments processed').1
  have covers := Tables.covers_mergeComponents declared gives (List.mem_map_of_mem member)
  obtain ⟨order, -, f, rfl⟩ := process_eq_ok_iff.mp own
  exact f.resolvesAlike declared ids unmarked traceable.noHash traceable.noNumber
    (merge_arranged declared.plainArguments processed).1 covers
    (h.stands (fun isExpression => Tables.quotesClosed_normalize (traceable.closed isExpression))
      fun q => Tables.hasNumbered_of_mem_marks traceable.noString)

variable (processed : sources.mapM p.process = .ok extracts)
  (bound : Placeholder.ofComponents (sharedComponents extracts) = .ok placeholders)
  (traceable : p.IsTraceable source) (own : p.process source = .ok extracted)
  (member : extracted ∈ extracts)
include processed bound traceable own member

/-- An effect that is compiled with the shared list is the one that is compiled alone. -/
theorem exists_bound_of_shared
    (compiled : Effect.ofText (p.bindings (sharedComponents extracts) placeholders) p.strict
      extracted.text = .ok effect) :
    ∃ result, p.boundEffect source = .ok (some result) ∧
      effect.record.bind? placeholders = some result := by
  obtain ⟨placeholders', bound'⟩ := Placeholder.exists_ofComponents declared.plainArguments
    (process_arranged declared.plainArguments own).1
  obtain ⟨effect', compiled', alike⟩ := Effect.exists_readsAlike declared
    (madeFor_shared declared processed bound) (madeFor_own declared own bound')
    (fun name h =>
      (resolvesAlike_shared declared ids unmarked processed member own traceable h).symm) compiled
  obtain ⟨result, here, there⟩ := alike.exists_bind
  have ownBound : p.effectPlaceholders source = .ok placeholders' :=
    bind_eq_ok_iff.mpr ⟨extracted, own, bound'⟩
  have alone := compileEffect_eq_ok_iff.mpr ⟨extracted, placeholders', own, ownBound, compiled'⟩
  refine ⟨result, ?_, here⟩
  rw [boundEffect, alone, ownBound, ← there]
  rfl

/-- An effect that is compiled alone is compiled with the shared list. -/
theorem exists_shared_of_own (compiled : p.compileEffect source = .ok effect) :
    ∃ effect', Effect.ofText (p.bindings (sharedComponents extracts) placeholders) p.strict
      extracted.text =
      .ok effect' := by
  obtain ⟨extracted', placeholders', own', ownBound, compiled⟩ :=
    compileEffect_eq_ok_iff.mp compiled
  obtain ⟨_, own'', bound'⟩ := bind_eq_ok_iff.mp ownBound
  obtain rfl := Except.ok.inj (own.symm.trans own')
  obtain rfl := Except.ok.inj (own.symm.trans own'')
  obtain ⟨effect', compiled', -⟩ := Effect.exists_readsAlike declared
    (madeFor_own declared own bound') (madeFor_shared declared processed bound)
    (fun name => resolvesAlike_shared declared ids unmarked processed member own traceable) compiled
  exact ⟨effect', compiled'⟩

end

/-- Sharing placeholders changes no effect: a list of effects is compiled exactly if each of them is
alone, and then the effects are those that are compiled alone, up to the places of placeholders. -/
theorem compileEffects_bound {declaration : Text} {trackers : List Tracker}
    {calls : List ForeignCall} {settings : Settings}
    (made : ofDeclaration declaration trackers calls settings = .ok p)
    (names : ∀ name ∈ p.names, IsTableName name ∧ hasNumbered "PLH".toList name = false)
    (ids : (p.calls.map ForeignCall.id).Nodup)
    (traceable : ∀ source ∈ sources, p.IsTraceable source) :
    ((∃ shared, p.compileEffects sources = .ok shared) ↔
      ∀ source ∈ sources, ∃ effect, p.compileEffect source = .ok effect) ∧
    ∀ shared, p.compileEffects sources = .ok shared →
      sources.mapM p.boundEffect = .ok shared.bound ∧ none ∉ shared.bound := by
  obtain ⟨declared, -⟩ := declared_of_made made fun name member => (names name member).1
  have unmarked : ∀ name ∈ p.names, Tables.Unmarked name := fun name member =>
    ⟨(names name member).2, (names name member).1.quoteFree⟩
  refine ⟨⟨?_, fun compiled => ?_⟩, fun shared compiled => ?_⟩
  · rintro ⟨shared, compiled⟩ source member
    obtain ⟨extracts, processed, bound, effects⟩ := compileEffects_eq_ok_iff.mp compiled
    obtain ⟨extracted, listed, own⟩ := exists_of_mapM_eq_ok processed member
    obtain ⟨effect, -, compiled⟩ := exists_of_mapM_eq_ok effects listed
    obtain ⟨result, alone, -⟩ :=
      exists_bound_of_shared declared ids unmarked processed bound (traceable source member) own
        listed compiled
    obtain ⟨effect', compiled', -⟩ := bind_eq_ok_iff.mp alone
    exact ⟨effect', compiled'⟩
  · obtain ⟨extracts, processed⟩ := exists_mapM_eq_ok_iff.mpr fun source member =>
      let ⟨_, alone⟩ := compiled source member
      let ⟨extracted, _, own, _⟩ := compileEffect_eq_ok_iff.mp alone
      (⟨extracted, own⟩ : ∃ extracted, p.process source = .ok extracted)
    obtain ⟨placeholders, bound⟩ := Placeholder.exists_ofComponents declared.plainArguments
      (merge_arranged declared.plainArguments processed).1
    obtain ⟨effects, each⟩ := exists_mapM_eq_ok_iff.mpr fun extracted listed =>
      let ⟨source, member, own⟩ := (mem_of_mapM_eq_ok processed).mp listed
      let ⟨_, alone⟩ := compiled source member
      exists_shared_of_own declared ids unmarked processed bound (traceable source member) own
        listed alone
    exact ⟨⟨effects, placeholders⟩, compileEffects_eq_ok_iff.mpr ⟨extracts, processed, bound, each⟩⟩
  · obtain ⟨extracts, processed, bound, effects⟩ := compileEffects_eq_ok_iff.mp compiled
    have pairs := forall₂_of_mapM_eq_ok processed effects
      fun source member extracted listed effect own compiled =>
      exists_bound_of_shared declared ids unmarked processed bound (traceable source member) own
        listed compiled
    refine ⟨mapM_eq_ok_iff.mpr (List.forall₂_map_right_iff.mpr (pairs.imp ?_)), fun unbound => ?_⟩
    · rintro source effect ⟨result, alone, here⟩
      rw [alone, here]
    · obtain ⟨effect, listed, isNone⟩ := List.mem_map.mp unbound
      obtain ⟨extracted, inExtracts, compiled⟩ := (mem_of_mapM_eq_ok effects).mp listed
      obtain ⟨source, member, own⟩ := (mem_of_mapM_eq_ok processed).mp inExtracts
      obtain ⟨result, -, here⟩ :=
        exists_bound_of_shared declared ids unmarked processed bound (traceable source member) own
          inExtracts compiled
      exact absurd (here.symm.trans isNone) (by simp)

/-- Effects of each kind. The second reads an argument that the first does not, and the call of the
last is needed by none of the others. -/
def paymentEffects : List Text :=
  ["TRU:limit += value".toList, "emit \"paid\", to".toList, "revert('stop')".toList,
    "TRU:limit -= FC:score(value) + value".toList]

theorem compileEffects_bound_payments :
    ∃ shared, payments.compileEffects paymentEffects = .ok shared ∧
    shared.placeholders.map (fun q => (q.index, q.flag)) = [(0, 0), (4, 2), (1, 0), (7, 1)] ∧
    paymentEffects.mapM payments.boundEffect = .ok shared.bound ∧ none ∉ shared.bound := by
  have scored : dependencyOrder payments.calls
      "TRU:limit -= FC:score(value) + value".toList = .ok ["FC:score".toList] := by
    rw [dependencyOrder, show callNames "TRU:limit -= FC:score(value) + value".toList =
      ["score".toList] by decide +kernel]
    cbv
  have compiled : (payments.compileEffects paymentEffects).toOption.map
      (·.placeholders.map fun q => (q.index, q.flag)) = some [(0, 0), (4, 2), (1, 0), (7, 1)] := by
    simp only [compileEffects, paymentEffects, List.mapM_cons, process, scored,
      dependencyOrder_of_callNames_eq_nil (show callNames "TRU:limit += value".toList =
        [] by decide +kernel),
      dependencyOrder_of_callNames_eq_nil (show callNames "emit \"paid\", to".toList =
        [] by decide +kernel),
      dependencyOrder_of_callNames_eq_nil (show callNames "revert('stop')".toList =
        [] by decide +kernel)]
    decide +kernel
  have traceable : ∀ source ∈ paymentEffects, payments.IsTraceable source := by decide +kernel
  have names : ∀ name ∈ payments.names, IsTableName name ∧ hasNumbered "PLH".toList name = false :=
    fun name member => (wellNamed_payments.plain name member).imp_left IsPlainName.isTableName
  obtain ⟨shared, accepted, placeholders⟩ := map_toOption_eq_some_iff.mp compiled
  exact ⟨shared, accepted, placeholders,
    (compileEffects_bound made_payments names wellNamed_payments.callIds traceable).2
      shared accepted⟩

/-- Whether effects are compiled together and alone, and are not the same then. -/
def ChangedBySharing (p : Policy) (sources : List Text) : Prop :=
  ∃ shared own, p.compileEffects sources = .ok shared ∧ sources.mapM p.boundEffect = .ok own ∧
    own ≠ shared.bound

theorem changedBySharing_of_toOption
    (h : (p.compileEffects sources).toOption.map (fun shared =>
      (sources.mapM p.boundEffect).toOption.map fun own => own == shared.bound) =
        some (some false)) :
    p.ChangedBySharing sources := by
  obtain ⟨shared, compiled, differ⟩ := map_toOption_eq_some_iff.mp h
  obtain ⟨own, alone, differ⟩ := map_toOption_eq_some_iff.mp differ
  exact ⟨shared, own, compiled, alone, beq_eq_false_iff_ne.mp differ⟩

/-- Two effects, the first of which has the argument of the second in quotes. -/
def hiddenEffects : List Text := [hiddenValue, "value > 1".toList]

/-- A policy whose argument has a name like the token of a subexpression. -/
def numberedArgument : Policy where
  arguments := [.ofArgument "PLH0x".toList 0 "uint256".toList]
  trackers := [⟨"total".toList, 1, .uint256⟩]
  strict := false

/-- Two effects, the first of which has the argument of the second once its part in brackets is
taken out. -/
def numberedEffects : List Text := ["TRU:total += [1]x".toList, "TRU:total += PLH0x".toList]

/-- Sharing placeholders changes an effect if a quotation mark is not closed, and if an argument has
a name like the token of a subexpression: the tree of the effect reads an argument then that only
the other effect names. -/
theorem effects_changed_by_sharing :
    (payments.WellNamed ∧
      (∀ source ∈ hiddenEffects, '#' ∉ source ∧ Tables.NoNumberBehind source ∧
        hasNumbered "q:".toList source = false) ∧
      payments.ChangedBySharing hiddenEffects) ∧
    (ofDeclaration "uint256 PLH0x".toList numberedArgument.trackers numberedArgument.calls
        numberedArgument.toSettings = .ok numberedArgument ∧
      (∀ name ∈ numberedArgument.names, IsTableName name) ∧
      (∀ source ∈ numberedEffects, numberedArgument.IsTraceable source) ∧
      numberedArgument.ChangedBySharing numberedEffects) := by
  have unnamed : ∀ source ∈ hiddenEffects ++ numberedEffects, callNames source = [] := by
    decide +kernel
  have order : ∀ {source}, source ∈ hiddenEffects ++ numberedEffects →
      ∀ calls, dependencyOrder calls source = .ok [] :=
    fun member _ => dependencyOrder_of_callNames_eq_nil (unnamed _ member)
  have names : ∀ name ∈ numberedArgument.names, plainName? name = some name := by decide +kernel
  refine ⟨⟨wellNamed_payments, by decide +kernel, changedBySharing_of_toOption ?_⟩,
    by decide +kernel, fun name member => (isPlainName_of_plainName?
      (names name member)).isTableName, by decide +kernel,
    changedBySharing_of_toOption ?_⟩
  · simp only [compileEffects, hiddenEffects, List.mapM_cons, boundEffect, compileEffect,
      effectPlaceholders, process, order (show hiddenValue ∈ _ by decide), order
        (show "value > 1".toList ∈ _ by decide)]
    decide +kernel
  · simp only [compileEffects, numberedEffects, List.mapM_cons, boundEffect, compileEffect,
      effectPlaceholders, process, order (show "TRU:total += [1]x".toList ∈ _ by decide), order
        (show "TRU:total += PLH0x".toList ∈ _ by decide)]
    decide +kernel

end Policy

end PolicyRules
