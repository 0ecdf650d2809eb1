import PolicyRules.Proofs.Workspaces

/-!
# The numeric form of an instruction set

An instruction set has a numeric form, in which its opcodes are replaced by their codes, and a plain
form, which forgets what is an opcode and what is a literal. Mapping the mnemonics in the plain form
gives the numeric form, as long as no literal reads like a mnemonic. Numbers have no mnemonics and
strings keep their quotes, but a name that nothing binds stands in the plain form as it is.

Main statement: `mapOpcodes_plainForm`.
-/

namespace PolicyRules

/-- Whether a token is a name that nothing binds and that is the mnemonic of an operation. -/
def Token.NamesOperation (token : Token) : Prop :=
  ∃ name op, token = .literal (.ofUnbound name) ∧ Operation.ofName? name = some op

theorem Operation.ofName?_eq_none_of_mark {c : Char} (mark : isQuoteMark c) (cs : Text) :
    ofName? (c :: cs) = none := by
  have heads : ∀ op : Operation, op.name.head? ≠ some c := by
    intro op
    rcases isQuoteMark_iff.mp mark with rfl | rfl <;> cases op <;> decide
  refine List.find?_eq_none.mpr fun op _ same => heads op ?_
  rw [eq_of_beq same]
  rfl

theorem Operation.ofName?_eq_none_of_isQuoted {w : Text} (h : IsQuoted w) : ofName? w = none := by
  obtain ⟨isMark, -⟩ := h
  exact ofName?_eq_none_of_mark (isQuoteMark_iff.mpr isMark) _

namespace Token.Known

variable {token : Token}

/-- A finished token has a numeric form, which its mapped plain form differs from only where it is a
name like a mnemonic. -/
theorem exists_numeric (h : token.Known []) :
    ∃ value, token.numeric = .ok value ∧
      (token.plain.mapOpcode ≠ value ↔ token.NamesOperation) := by
  cases h with
  | operation op =>
    refine ⟨.int op.code, rfl, ?_⟩
    simp [NamesOperation, Token.operation, Token.plain, Opcode.name, Value.mapOpcode,
      Operation.ofName?_name]
  | pending lt => exact absurd lt (Nat.not_lt_zero _)
  | operand n => exact ⟨.int n, rfl, by simp [Token.plain, Value.mapOpcode, NamesOperation]⟩
  | @written l h =>
    cases h with
    | @word _ n value nonneg fits =>
      have other : ¬ NamesOperation (.literal l) := by
        rintro ⟨name, op, same, -⟩
        rw [Token.literal.inj same] at value
        cases value
      refine ⟨_, rfl, ?_⟩
      simp [other, Token.plain, value, Value.mapOpcode]
    | @quoted w h =>
      have other : ¬ NamesOperation (.literal (.ofQuoted w)) := by
        rintro ⟨name, op, same, -⟩
        have void : (Literal.ofQuoted w).type = .void := by rw [Token.literal.inj same]; rfl
        rw [Literal.ofQuoted] at void
        split at void <;> cases void
      have plain : (Token.literal (.ofQuoted w)).plain = .text w := rfl
      refine ⟨_, rfl, ?_⟩
      simp [other, plain, Value.mapOpcode, Operation.ofName?_eq_none_of_isQuoted h]
  | unbound name =>
    refine ⟨.text name, rfl, ?_⟩
    have plain : (Token.literal (.ofUnbound name)).plain = .text name := rfl
    rw [plain, Value.mapOpcode]
    cases found : Operation.ofName? name with
    | none =>
      have other : ¬ NamesOperation (.literal (.ofUnbound name)) := by
        rintro ⟨name', op, same, found'⟩
        obtain rfl : name = name' := congrArg Literal.text (Token.literal.inj same)
        rw [found] at found'
        cases found'
      simp [other]
    | some op => exact ⟨fun _ => ⟨name, op, rfl, found⟩, fun _ => by simp⟩

/-- Mapping changes the plain form of a finished token if it is an opcode or a name like a
mnemonic. -/
theorem mapOpcode_ne_iff (h : token.Known []) :
    token.plain.mapOpcode ≠ token.plain ↔ token.isOpcode ∨ token.NamesOperation := by
  obtain ⟨value, numeric, differs⟩ := h.exists_numeric
  cases token with
  | opcode op =>
    cases h with
    | operation op =>
      simp [Token.plain, Opcode.name, Value.mapOpcode, Operation.ofName?_name, Token.isOpcode]
    | pending lt => exact absurd lt (Nat.not_lt_zero _)
  | operand n | literal l =>
    obtain rfl := Except.ok.inj numeric
    simpa [Token.isOpcode] using differs

end Token.Known

/-- The plain form of an instruction set, with the codes in place of mnemonics, is its numeric form
but for the names that nothing binds and that are mnemonics: these are replaced by codes, too.
Everything else but the opcodes is left as it is. -/
theorem mapOpcodes_plainForm {b : Bindings} {t : Text} {w w' : Workspace} {tokens : List Token}
    (reached : Workspace.Evolves (fun _ => True) {} w)
    (h : Workspace.convert b t w = .ok tokens w') :
    ∃ values, numericForm tokens = .ok values ∧
      (mapOpcodes (plainForm tokens) = values ↔ ∀ token ∈ tokens, ¬ token.NamesOperation) ∧
      ∀ (position : Nat) (token : Token), tokens[position]? = some token →
        ((mapOpcodes (plainForm tokens))[position]? ≠ values[position]? ↔ token.NamesOperation) ∧
        ((mapOpcodes (plainForm tokens))[position]? ≠ (plainForm tokens)[position]? ↔
          token.isOpcode = true ∨ token.NamesOperation) := by
  have known : ∀ token ∈ tokens, token.Known [] :=
    (reached.sound Workspace.sound_empty).finished_of_convert h
  obtain ⟨values, numeric⟩ : ∃ values, numericForm tokens = .ok values :=
    exists_mapM_eq_ok_iff.mpr fun token member => (known token member).exists_numeric.imp
      fun _ h => h.1
  have at_position : ∀ (position : Nat) (token : Token), tokens[position]? = some token →
      ((mapOpcodes (plainForm tokens))[position]? ≠ values[position]? ↔ token.NamesOperation) := by
    intro position token found
    obtain ⟨value, given, numeric_eq⟩ := getElem?_of_mapM_eq_ok numeric found
    obtain ⟨value', numeric_eq', differs⟩ :=
      (known token (List.mem_of_getElem? found)).exists_numeric
    obtain rfl := Except.ok.inj (numeric_eq.symm.trans numeric_eq')
    simpa [mapOpcodes, plainForm, found, given] using differs
  refine ⟨values, numeric, ⟨fun same token member names => ?_, fun none_named => ?_⟩,
    fun position token found =>
    ⟨at_position position token found, ?_⟩⟩
  · obtain ⟨position, found⟩ := List.mem_iff_getElem?.mp member
    exact (at_position position token found).mpr names (by rw [same])
  · refine List.ext_getElem? fun position => ?_
    cases found : tokens[position]? with
    | none =>
      have beyond : tokens.length ≤ position := List.getElem?_eq_none_iff.mp found
      have length_eq : values.length = tokens.length := (mapM_eq_ok_iff.mp numeric).length_eq.symm
      rw [List.getElem?_eq_none (by simpa [mapOpcodes, plainForm] using beyond),
        List.getElem?_eq_none (by omega)]
    | some token =>
      by_contra differs
      exact none_named token (List.mem_of_getElem? found)
        ((at_position position token found).mp differs)
  · simpa [mapOpcodes, plainForm, found]
      using (known token (List.mem_of_getElem? found)).mapOpcode_ne_iff

/-- A name like a mnemonic beside one that is none, behind a conversion that failed. -/
theorem mapOpcodes_plainForm_mnemonic :
    let w := (Workspace.convert {} "a AND".toList).stateAfter {}
    Workspace.Evolves (fun _ => True) {} w ∧
      ∃ tokens w', Workspace.convert {} "N == NN".toList w = .ok tokens w' ∧
        numericForm tokens =
          .ok [.int 0, .text ['N'], .int 0, .text ['N', 'N'], .int 11, .int 0, .int 1] ∧
        mapOpcodes (plainForm tokens) =
          [.int 0, .int 0, .int 0, .text ['N', 'N'], .int 11, .int 0, .int 1] ∧
        ∀ (position : Nat) (token : Token), tokens[position]? = some token →
          (position = 1 ↔ token.NamesOperation) := by
  intro w
  have reached : Workspace.Evolves (fun _ => True) {} w := .convert {} trivial .refl
  have given : (Workspace.convert {} "N == NN".toList).value? w =
      some [.operation .literal, .literal (.ofUnbound ['N']), .operation .literal, .literal
        (.ofUnbound ['N', 'N']), .operation .eq, .operand 0, .operand 1] := by
    decide +kernel
  obtain ⟨w', converted⟩ := Attempt.value?_eq_some_iff.mp given
  obtain ⟨values, numeric, -, at_position⟩ := mapOpcodes_plainForm reached converted
  obtain rfl := Except.ok.inj numeric
  refine ⟨reached, _, w', converted, rfl, rfl, fun position token found => ?_⟩
  rw [← (at_position position token found).1]
  rcases position with _ | _ | _ | _ | _ | _ | _ | position
  case succ.succ.succ.succ.succ.succ.succ => cases found
  all_goals decide

end PolicyRules
