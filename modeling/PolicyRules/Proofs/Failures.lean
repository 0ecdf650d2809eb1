import PolicyRules.Proofs.DependencyCycles
import PolicyRules.Proofs.NameBinding
import PolicyRules.Proofs.TreeFailures

/-!
# How compiling a condition can fail

Compiling a condition fails only with errors about the rule, and with that of a decimal number with
more digits than are read, unless its normal form has tokens of its own. The references of a text
are found or reported as unknown, a tree that is built has an expression in every place, and each
operator that is lowered finds its operands.

Main statement: `Policy.compiles_or_fails_expectedly`.
-/

namespace PolicyRules

section References

/-- A search for dependencies fails because of a cycle or an unknown call. -/
theorem failsExpectedly_dependencyOrder (calls : List ForeignCall) (source : Text) :
    FailsExpectedly (dependencyOrder calls source) := by
  intro e failed
  cases thwarts_of_dependencyOrder failed <;> exact .inl rfl

theorem failsExpectedly_require {α : Type} (entry : Option α) (reference source : Text) :
    FailsExpectedly (require entry reference source) := by
  cases entry with
  | none => exact .of_isAboutRule rfl
  | some a => exact .ok a

/-- Extraction succeeds or fails as expected. -/
theorem failsExpectedly_extract (tables : Tables) (source : Text)
    (dependencies : Option (List Text)) : FailsExpectedly (tables.extract source dependencies) := by
  have named : FailsExpectedly (tables.namedCalls source (Text.clean source)) :=
    .mapM fun name _ => failsExpectedly_require _ _ _
  refine named.bind fun namedCalls _ => ?_
  refine .bind (.mapM fun reference _ => failsExpectedly_require _ _ _) fun neededCalls _ => ?_
  refine .bind (.mapM fun mark _ => .map _ (failsExpectedly_require _ _ _)) fun namedTrackers _ =>
    ?_
  refine .bind (.mapM fun reference _ => failsExpectedly_require _ _ _) fun neededTrackers _ => ?_
  exact .bind (.mapM fun reference _ => failsExpectedly_require _ _ _) fun globals _ => .ok _

theorem Policy.failsExpectedly_process (p : Policy) (source : Text) :
    FailsExpectedly (p.process source) :=
  .bind (failsExpectedly_dependencyOrder p.calls source) fun _ _ => failsExpectedly_extract _ _ _

end References

theorem SetAside.filled_of_build {t : Text} {e : Expr} {s : SetAside} (h : build t {} = .ok e s) :
    e.Filled := by
  have level : LevelClosed s.keywords Expr.Filled := ⟨fun _ _ hl hr => ⟨hl, hr⟩, fun _ ho => ho⟩
  have leaf : LeafClosed (fun _ => True) Expr.Filled := {
    number := fun _ => trivial
    quoted := fun _ => trivial
    bool := fun _ => trivial
    name := fun _ => trivial
    mapped := fun _ hk => hk
    binary := fun hl hr => ⟨hl, hr⟩
    update := fun _ _ hv => hv
    updateMapped := fun _ hk hv => ⟨hk, hv⟩ }
  exact (build_closed h level leaf (by simp)).1

section Lowering

variable {b : Bindings}

theorem failsExpectedly_ordinal {c : Component} (flagged : ∃ flag, c.flag = .ok flag)
    (placeholders : List Placeholder) (source : Text) :
    FailsExpectedly (Placeholder.ordinal placeholders source c) := by
  obtain ⟨flag, hflag⟩ := flagged
  have found : ∀ place list, ∃ o, Placeholder.ordinalFrom c place list = .ok o := by
    intro place list
    induction list generalizing place with
    | nil => exact ⟨none, rfl⟩
    | cons p list ih =>
      obtain ⟨binds, hbinds⟩ : ∃ binds, p.binds c = .ok binds := by
        unfold Placeholder.binds
        split
        · exact ⟨_, bind_eq_ok_iff.mpr ⟨flag, hflag, rfl⟩⟩
        · exact ⟨false, rfl⟩
      rw [Placeholder.ordinalFrom, hbinds]
      cases binds with
      | true => exact ⟨some place, rfl⟩
      | false => exact ih (place + 1)
  obtain ⟨o, placed⟩ := found 0 placeholders
  rw [Placeholder.ordinal, placed]
  cases o with
  | none => exact .of_isAboutRule rfl
  | some place => exact .ok place

theorem failsExpectedly_trackerId (b : Bindings) (name : Text) :
    FailsExpectedly (b.trackerId name) := by
  unfold Bindings.trackerId
  split
  · exact .ok _
  · split
    · exact .ok _
    · exact .of_isAboutRule rfl

/-- Lowering fails only because of a name that is not bound. -/
theorem expected_of_blocked (flags : ∀ c ∈ b.components, ∃ flag, c.flag = .ok flag) {tree : Expr}
    (filled : tree.Filled) {error : Error} (h : Blocked b tree error) : error.Expected := by
  rcases h.reason filled with ⟨tracker, failed⟩ | ⟨name, c, found, failed⟩
  · exact failsExpectedly_trackerId b tracker error failed
  · exact failsExpectedly_ordinal (flags c (resolve_eq_some found).1) _ _ error failed

/-- Lowering a tree with numbered keywords fails as expected. -/
theorem failsExpectedly_lower {keywords : List Keyword}
    (flags : ∀ c ∈ b.components, ∃ flag, c.flag = .ok flag) {tree : Expr} (filled : tree.Filled)
    (numbered : tree.Numbered keywords) : (Emission.lower b keywords tree).FailsExpectedly {} := by
  have ends := Emission.ends_lowerExpr numbered b {}
  refine .bind (fun error e failed => ?_) fun _ e hlower => ?_
  · exact expected_of_blocked flags filled (failed ▸ ends).refused_of_error
  obtain ⟨raw, code, r, -, restores, grows⟩ := (hlower ▸ ends).holds
  have restored : e.tokens.mapM (Token.restore keywords) = .ok
      (code.flatMap Instruction.tokens) := by
    rw [grows.tokens_eq]
    exact restores
  refine .bind ?_ fun _ _ _ => .of_ok rfl
  refine .bind (.of_ok rfl) fun _ _ got => ?_
  obtain ⟨rfl, rfl⟩ := Attempt.get_eq_ok_iff.mp got
  rw [restored]
  exact .of_ok rfl

/-- Converting a text without tokens of its own fails only because of the text. -/
theorem failsExpectedly_convertText (flags : ∀ c ∈ b.components, ∃ flag, c.flag = .ok flag)
    {t : Text} (free : t.FreeOfTokens) (short : t.length ≤ 10 ^ maxDecimalDigits) :
    FailsExpectedly (convertText b t) := by
  have converts : (Workspace.convert b t).FailsExpectedly {} := by
    refine .bind (fun error w failed => ?_) fun tree w built => ?_
    · unfold Workspace.buildTree at failed
      split at failed <;> cases failed
      next s failed => exact SetAside.failsExpectedly_build free short error s failed
    · unfold Workspace.buildTree at built
      split at built <;> cases built
      next s built =>
      intro error w failed
      unfold Workspace.lower at failed
      split at failed <;> cases failed
      next e failed =>
      obtain ⟨numbered, -⟩ := SetAside.build_numbered built (by simp [Workspace.setAside])
      exact failsExpectedly_lower (b := { b with source := t }) flags
        (SetAside.filled_of_build built) numbered error e failed
  unfold convertText
  split
  · exact .ok _
  · next error w failed =>
    rintro _ ⟨⟩
    exact converts _ _ failed

end Lowering

theorem failsExpectedly_rawData (strict : Bool) (tokens : List Token) :
    FailsExpectedly (rawData strict tokens) := by
  unfold rawData
  generalize 0 = position
  fun_induction rawDataFrom strict position tokens with
  | case1 position | case3 position l rest bound data read ih => exact .ok _
  | case2 position l rest unbound => exact .of_isAboutRule rfl
  | case4 position l rest bound e failed ih =>
    rw [failed] at ih
    exact fun e' same => ih e' (by cases same; rfl)
  | case5 position token rest other ih => exact ih

namespace Policy

variable {p : Policy} {declaration source : Text} {trackers : List Tracker}
  {calls : List ForeignCall} {settings : Settings}

/-- Every component of a text has a flag. -/
theorem exists_flag (made : ofDeclaration declaration trackers calls settings = .ok p)
    {extracted : Extract} (processed : p.process source = .ok extracted) {c : Component}
    (member : c ∈ extracted.components) : ∃ flag, c.flag = .ok flag := by
  obtain ⟨arguments, declared, rfl⟩ := ofDeclaration_eq_ok_iff.mp made
  obtain ⟨order, -, f, rfl⟩ := process_eq_ok_iff.mp processed
  cases f.gives member with
  | argument first =>
    obtain ⟨position, typeName, same⟩ :=
      exists_ofArgument_of_mem declared (List.mem_of_find?_eq_some first)
    rw [same]
    exact ⟨0, rfl⟩
  | call found token own => exact ⟨1, rfl⟩
  | read found | updated found => exact ⟨2, rfl⟩
  | @global g found =>
    refine ⟨g.flag, ?_⟩
    simp [Component.flag, GlobalVariable.component, found]

theorem failsExpectedly_compileCondition
    (made : ofDeclaration declaration trackers calls settings = .ok p)
    (free : (p.normalize source).FreeOfTokens)
    (short : (p.normalize source).length ≤ 10 ^ maxDecimalDigits) :
    FailsExpectedly (p.compileCondition source) := by
  refine .bind (p.failsExpectedly_process source) fun extracted processed => ?_
  have flags : ∀ c ∈ extracted.components, ∃ flag, c.flag = .ok flag :=
    fun c => exists_flag made processed
  have text_eq : extracted.text = p.normalize source := by
    obtain ⟨_, -, _, rfl⟩ := process_eq_ok_iff.mp processed
    rfl
  have placeholders : FailsExpectedly (Placeholder.ofComponents extracted.components) := by
    refine .bind (.mapM fun c member => ?_) fun _ _ => .ok _
    obtain ⟨flag, hflag⟩ := flags c member
    rw [Placeholder.ofComponent, hflag]
    exact .ok _
  refine placeholders.bind fun placeholders _ => ?_
  rw [text_eq]
  refine .bind (failsExpectedly_convertText flags free short) fun tokens _ => ?_
  exact .bind (failsExpectedly_rawData _ _) fun _ _ => .ok _

/-- A condition whose normal form has no tokens of its own is compiled, or refused with an expected
error. -/
theorem compiles_or_fails_expectedly
    (made : ofDeclaration declaration trackers calls settings = .ok p)
    (free : (p.normalize source).FreeOfTokens)
    (short : (p.normalize source).length ≤ 10 ^ maxDecimalDigits) :
    (∃ condition, p.compileCondition source = .ok condition) ∨
      ∃ e, p.compileCondition source = .error e ∧ e.Expected := by
  cases result : p.compileCondition source with
  | ok condition => exact .inl ⟨condition, rfl⟩
  | error e => exact .inr ⟨e, rfl, failsExpectedly_compileCondition made free short e result⟩

/-- A condition with a string, a subexpression and a group in another group, that ends with a
connective. -/
def danglingConnective : Text := "NOT ((value > [1 + 2]) AND \"x\" == \"y\") OR".toList

theorem compiles_or_fails_expectedly_dangling :
    (payments.normalize danglingConnective).FreeOfTokens ∧
    ∃ e, payments.compileCondition danglingConnective = .error e ∧ e.Expected := by
  have free : (payments.normalize danglingConnective).FreeOfTokens := by
    refine ⟨fun kind => ?_, by decide +kernel⟩
    cases kind <;> decide +kernel
  have short : (payments.normalize danglingConnective).length ≤ 10 ^ maxDecimalDigits :=
    calc (payments.normalize danglingConnective).length ≤ 10 ^ 2 := by decide +kernel
      _ ≤ 10 ^ maxDecimalDigits := Nat.pow_le_pow_right (by decide) (by decide)
  have refused : (payments.compileCondition danglingConnective).toOption.isSome = false := by
    rw [compileCondition, process, dependencyOrder_of_callNames_eq_nil (by decide +kernel)]
    decide +kernel
  refine ⟨free, (compiles_or_fails_expectedly made_payments free short).resolve_left ?_⟩
  rintro ⟨condition, compiled⟩
  rw [compiled] at refused
  cases refused

end Policy

end PolicyRules
