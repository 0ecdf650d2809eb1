import PolicyRules.Program.Convert
import PolicyRules.Program.RawData
import PolicyRules.Proofs.BuiltTree
import PolicyRules.Proofs.SlotFlow

/-!
# Instruction sets of texts

What is known of every instruction set that a text is converted to: it is a list of well-formed
instructions, all its values but the last are used, it has a numeric form, and its raw data are the
operands of its loads.

Main statement: `convert_isProgram`.
-/

namespace PolicyRules

variable {s : SetAside} {t : Text} {b : Bindings} {w : Workspace} {code : List Instruction}

namespace SetAside

/-- Leaves have no logical nodes. -/
theorem leafClosed_numbered (keywords : List Keyword) :
    LeafClosed (fun _ => True) fun e => e.Numbered keywords ∧ e.Connected where
  number _ := ⟨trivial, trivial⟩
  quoted _ := ⟨trivial, trivial⟩
  bool _ := ⟨trivial, trivial⟩
  name _ := ⟨trivial, trivial⟩
  mapped _ hk := hk
  binary hl hr := ⟨⟨hl.1, hr.1⟩, hl.2, hr.2⟩
  update _ _ hv := hv
  updateMapped _ hk hv := ⟨⟨hk.1, hv.1⟩, hk.2, hv.2⟩

/-- The logical nodes of a tree that is built carry the ordinals of their keywords. -/
theorem build_numbered {s' : SetAside} {e : Expr} (h : build t s = .ok e s')
    (earlier : ∀ entry ∈ s.subexpressions, entry.2.Numbered s'.keywords ∧ entry.2.Connected) :
    e.Numbered s'.keywords ∧ e.Connected := by
  have level : LevelClosed s'.keywords fun e => e.Numbered s'.keywords ∧ e.Connected := by
    refine ⟨?_, ?_⟩
    · intro keyword n left right found connective hl hr
      exact ⟨⟨⟨n, rfl, found⟩, hl.1, hr.1⟩, connective, hl.2, hr.2⟩
    · intro n operand found ho
      exact ⟨⟨⟨n, rfl, found⟩, ho.1⟩, ho.2⟩
  exact (build_closed h level (leafClosed_numbered _) earlier).1

end SetAside

namespace Workspace

/-- Converting a text is building its tree and lowering the tree with the keywords found so far. -/
theorem convert_eq_ok {w' : Workspace} {tokens : List Token} (h : convert b t w = .ok tokens w') :
    ∃ tree s e, SetAside.build t w.setAside = .ok tree s ∧
      Emission.lower { b with source := t } s.keywords tree w.emission = .ok tokens e ∧
      w' = ⟨s.keywords, s.subexpressions, e⟩ := by
  obtain ⟨tree, w₁, hbuild, hlower⟩ := Attempt.bind_eq_ok_iff.mp h
  unfold buildTree at hbuild
  split at hbuild <;> cases hbuild
  next s built =>
  unfold lower at hlower
  split at hlower <;> cases hlower
  next e lowered => exact ⟨tree, s, e, built, lowered, rfl⟩

theorem convert_of_lower {tree : Expr} {tokens : List Token}
    {e : Emission} (built : SetAside.build t w.setAside = .ok tree s)
    (lowered : Emission.lower { b with source := t } s.keywords tree w.emission = .ok tokens e) :
    convert b t w = .ok tokens ⟨s.keywords, s.subexpressions, e⟩ := by
  refine Attempt.bind_eq_ok_iff.mpr
    ⟨tree, { w with keywords := s.keywords, subexpressions := s.subexpressions }, ?_, ?_⟩
  · rw [buildTree, built]
  · rw [lower, lowered]

/-- In a workspace of its own, a text is converted to the code of its tree. -/
theorem convert_code {tokens : List Token} (h : convert b t {} = .ok tokens w) :
    ∃ tree s code r, SetAside.build t {} = .ok tree s ∧ tree.Connected ∧
      Code { b with source := t } tree 0 code r ∧ tokens = code.flatMap Instruction.tokens ∧
      w.emission.slots = [r] ∧ w.emission.next = r + 1 := by
  obtain ⟨tree, s, e, built, lowered, rfl⟩ := convert_eq_ok h
  obtain ⟨numbered, connected⟩ := SetAside.build_numbered built (by simp [setAside])
  obtain ⟨earlier, code, r, hcode, restored, rfl, -, slots, next⟩ :=
    Emission.lower_eq_ok numbered lowered
  cases restored
  exact ⟨tree, s, code, r, built, connected, hcode, rfl, slots, next⟩

/-- A text is converted in a workspace of its own if its tree has code. -/
theorem convert_of_code {tree : Expr} {r : Nat}
    (built : SetAside.build t {} = .ok tree s) (h : Code { b with source := t } tree 0 code r) :
    ∃ w, convert b t {} = .ok (code.flatMap Instruction.tokens) w := by
  obtain ⟨numbered, -⟩ := SetAside.build_numbered built (by simp)
  have nothing : ([] : List Token).mapM (Token.restore s.keywords) = .ok [] := rfl
  obtain ⟨e, lowered⟩ := Emission.lower_of_code (e := {}) numbered h nothing
  exact ⟨_, convert_of_lower built lowered⟩

end Workspace

namespace Instruction

/-- Whether instructions form a program: the one at place `k` is well formed as the owner of slot
`k`, and every slot is used but for the last. -/
structure IsProgram (places : Nat) (code : List Instruction) : Prop where
  wellFormed : ∀ (k : Nat) (i : Instruction), code[k]? = some i → i.WellFormed places k
  used : ∀ slot, slot + 1 < code.length → Used 0 code slot
  result : code ≠ [] ∧ readers 0 code (code.length - 1) = []

theorem isProgram_of_code {e : Expr} {r : Nat}
    (h : Code b e 0 code r) (connected : e.Connected) : IsProgram b.placeholders.length code := by
  obtain ⟨length, flow, wellFormed⟩ := h.block connected
  refine ⟨fun k i hi => ?_, fun slot below => ?_, ?_, ?_⟩
  · exact wellFormed (i, k) (by simpa [List.mem_zipIdx_iff_getElem?] using hi)
  · exact flow.used slot (Nat.zero_le _) (by omega) (by simp; omega)
  · rintro rfl
    simp at length
  · exact flow.unread _ (by simp; omega)

/-- Instructions without pending keywords have a numeric form. -/
theorem exists_numericForm (complete : ∀ i ∈ code, i.IsComplete) :
    ∃ values, numericForm (code.flatMap tokens) = .ok values := by
  refine exists_mapM_eq_ok_iff.mpr fun token member => ?_
  obtain ⟨i, hi, inside⟩ := List.mem_flatMap.mp member
  obtain ⟨⟨op, hop⟩, closed⟩ := complete i hi
  rcases List.mem_cons.mp inside with rfl | argument
  · exact ⟨.int op.code, by rw [hop]; rfl⟩
  · have notOpcode := closed token argument
    cases token with
    | opcode op => cases notOpcode
    | operand n | literal l => exact ⟨_, rfl⟩

/-- Whether the literals of a token list are the tokens behind the opcodes of loads. -/
def LiteralsLoaded (tokens : List Token) : Prop :=
  ∀ p, (∃ l, tokens[p]? = some (.literal l)) ↔
    ∃ q, p = q + 1 ∧ tokens[q]? = some (.operation .literal)

theorem LiteralsLoaded.append {tokens tokens' : List Token} (h : LiteralsLoaded tokens)
    (h' : LiteralsLoaded tokens') : LiteralsLoaded (tokens ++ tokens') := by
  intro p
  by_cases first : p < tokens.length
  · rw [List.getElem?_append_left first, h p]
    refine exists_congr fun q => and_congr_right fun hq => ?_
    rw [List.getElem?_append_left (by omega)]
  · rw [List.getElem?_append_right (by omega), h' (p - tokens.length)]
    constructor
    · rintro ⟨q, hq, found⟩
      refine ⟨tokens.length + q, by omega, ?_⟩
      rw [List.getElem?_append_right (by omega)]
      simpa using found
    · rintro ⟨q, rfl, found⟩
      -- A load at the end of the first list would have its literal there, too.
      by_cases inFirst : q < tokens.length
      · rw [List.getElem?_append_left inFirst] at found
        obtain ⟨l, hl⟩ := (h (q + 1)).mpr ⟨q, rfl, found⟩
        exact absurd (List.getElem?_eq_some_iff.mp hl).1 first
      · rw [List.getElem?_append_right (by omega)] at found
        exact ⟨q - tokens.length, by omega, found⟩

theorem literalsLoaded_of_forall {tokens : List Token}
    (h : ∀ token ∈ tokens, (∀ l, token ≠ .literal l) ∧ token ≠ .operation .literal) :
    LiteralsLoaded tokens := by
  intro p
  constructor
  · rintro ⟨l, hl⟩
    exact absurd rfl ((h _ (List.mem_of_getElem? hl)).1 l)
  · rintro ⟨q, -, hq⟩
    exact absurd rfl (h _ (List.mem_of_getElem? hq)).2

theorem WellFormed.literalsLoaded {places slot : Nat} {i : Instruction}
    (h : i.WellFormed places slot) : LiteralsLoaded i.tokens := by
  cases h with
  | load l =>
    intro p
    match p with
    | 0 => simp [tokens, Instruction.load]
    | 1 => simp [tokens, Instruction.load, Token.operation]
    | p + 2 => cases p <;> simp [tokens, Instruction.load, Token.operation]
  | read known =>
    exact literalsLoaded_of_forall (by simp [tokens, Instruction.read, Token.operation])
  | readMapped id earlier =>
    exact literalsLoaded_of_forall (by simp [tokens, Instruction.readMapped, Token.operation])
  | @compute op left right binary ordered earlier =>
    have op_ne : op ≠ .literal := by
      rintro rfl
      cases binary
    exact literalsLoaded_of_forall (by simp [tokens, Instruction.compute, Token.operation, op_ne])
  | negate earlier =>
    exact literalsLoaded_of_forall (by simp [tokens, Instruction.compute, Token.operation])
  | write id backed earlier =>
    exact literalsLoaded_of_forall (by simp [tokens, Instruction.write, Token.operation])
  | writeMapped id backed earlier earlierKey =>
    exact literalsLoaded_of_forall (by simp [tokens, Instruction.writeMapped, Token.operation])

theorem literalsLoaded_flatMap_tokens
    (h : ∀ i ∈ code, LiteralsLoaded i.tokens) : LiteralsLoaded (code.flatMap tokens) := by
  induction code with
  | nil => exact literalsLoaded_of_forall (by simp)
  | cons i rest ih =>
    rw [List.flatMap_cons]
    exact (h i (by simp)).append (ih fun other member => h other (List.mem_cons_of_mem _ member))

end Instruction

/-- The raw datum of a token at a position, if it is a literal. -/
def RawDatum.of? (entry : Token × Nat) : Option RawDatum :=
  match entry.1 with
  | .literal l => some ⟨entry.2, l.value, l.type⟩
  | _ => none

/-- Without the check of unbound names, raw data are the literals with their positions. -/
theorem rawDataFrom_false (n : Nat) (tokens : List Token) :
    rawDataFrom false n tokens = .ok ((tokens.zipIdx n).filterMap RawDatum.of?) := by
  induction tokens generalizing n with
  | nil => rfl
  | cons token rest ih => cases token <;> simp [rawDataFrom, ih, RawDatum.of?, List.filterMap_cons]

theorem mem_position_rawData_iff {tokens : List Token} {data : List RawDatum}
    (h : rawData false tokens = .ok data) (p : Nat) :
    p ∈ data.map RawDatum.position ↔ ∃ l, tokens[p]? = some (.literal l) := by
  rw [rawData, rawDataFrom_false, Except.ok.injEq] at h
  subst h
  constructor
  · intro member
    obtain ⟨datum, hdatum, rfl⟩ := List.mem_map.mp member
    obtain ⟨⟨token, q⟩, hentry, found⟩ := List.mem_filterMap.mp hdatum
    cases token with
    | literal l =>
      cases found
      exact ⟨l, List.mem_zipIdx_iff_getElem?.mp hentry⟩
    | opcode op | operand n => cases found
  · rintro ⟨l, hl⟩
    have entry : (.literal l, p) ∈ tokens.zipIdx := List.mem_zipIdx_iff_getElem?.mpr hl
    exact List.mem_map.mpr ⟨⟨p, l.value, l.type⟩, List.mem_filterMap.mpr ⟨_, entry, rfl⟩, rfl⟩

theorem pairwise_position_rawData {tokens : List Token} {data : List RawDatum}
    (h : rawData false tokens = .ok data) : (data.map RawDatum.position).Pairwise (· < ·) := by
  rw [rawData, rawDataFrom_false, Except.ok.injEq] at h
  subst h
  have increasing : (tokens.zipIdx.map Prod.snd).Pairwise (· < ·) := by
    rw [List.zipIdx_map_snd]
    exact List.pairwise_lt_range'
  rw [List.pairwise_map, List.pairwise_filterMap]
  refine (List.pairwise_map.mp increasing).imp ?_
  rintro ⟨token, p⟩ ⟨token', p'⟩ before datum found datum' found'
  cases token <;> cases found
  cases token' <;> cases found'
  exact before

/-- Every text that is converted in a workspace of its own is converted to a program. The program is
all that has been emitted, its last slot is the only one still to be used, its numeric form exists,
and its raw data stand behind the opcodes of its loads, in order. -/
theorem convert_isProgram {b : Bindings} {t : Text} {tokens : List Token} {w : Workspace}
    (h : Workspace.convert b t {} = .ok tokens w) :
    ∃ code, Instruction.ofTokens? tokens = some code ∧ code.flatMap Instruction.tokens = tokens ∧
      Instruction.IsProgram b.placeholders.length code ∧
      w.emission.slots = [code.length - 1] ∧ w.emission.next = code.length ∧
      (∃ values, numericForm tokens = .ok values) ∧
      ∃ data, rawData false tokens = .ok data ∧ (data.map RawDatum.position).Pairwise (· < ·) ∧
        ∀ p, p ∈ data.map RawDatum.position ↔
          ∃ q, p = q + 1 ∧ tokens[q]? = some (.operation .literal) := by
  obtain ⟨tree, s, code, r, -, connected, hcode, rfl, slots, next⟩ := Workspace.convert_code h
  have length := hcode.length_eq
  have program := Instruction.isProgram_of_code hcode connected
  have loaded := Instruction.literalsLoaded_flatMap_tokens fun i member => by
    obtain ⟨k, hk⟩ := List.mem_iff_getElem?.mp member
    exact (program.wellFormed k i hk).literalsLoaded
  refine ⟨code, Instruction.ofTokens?_flatMap_tokens hcode.isComplete, rfl, program, ?_, ?_,
    Instruction.exists_numericForm hcode.isComplete, _, rawDataFrom_false 0 _,
    pairwise_position_rawData (rawDataFrom_false 0 _), fun p => ?_⟩
  · rw [slots, show code.length - 1 = r by omega]
  · omega
  · exact (mem_position_rawData_iff (rawDataFrom_false 0 _) p).trans (loaded p)

/-- An update by key, a negated group and a subexpression that holds connectives. -/
theorem convert_isProgram_keyed_update :
    let b : Bindings := {
      components := [.ofArgument ['k'] 0 "uint256".toList]
      placeholders := [⟨.uint256, 0, 0⟩]
      trackers := [⟨['t'], 4, .uint256⟩] }
    let t := "k | TRU:t += 1 AND NOT ([k > 2 OR x == 'a'] == true)".toList
    ∃ tokens w, Workspace.convert b t {} = .ok tokens w ∧
      ∃ code, Instruction.ofTokens? tokens = some code ∧ code.flatMap Instruction.tokens = tokens ∧
        Instruction.IsProgram 1 code ∧
        w.emission.slots = [code.length - 1] ∧ w.emission.next = code.length ∧
        (∃ values, numericForm tokens = .ok values) ∧
        ∃ data, rawData false tokens = .ok data ∧ (data.map RawDatum.position).Pairwise (· < ·) ∧
          ∀ p, p ∈ data.map RawDatum.position ↔
            ∃ q, p = q + 1 ∧ tokens[q]? = some (.operation .literal) := by
  intro b t
  have succeeds : Attempt.succeeds (Workspace.convert b t) {} := by decide +kernel
  obtain ⟨tokens, w, converted⟩ := Attempt.succeeds_iff.mp succeeds
  exact ⟨tokens, w, converted, convert_isProgram converted⟩

end PolicyRules
