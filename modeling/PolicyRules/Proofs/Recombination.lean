import PolicyRules.Proofs.Stream

/-!
# Putting literals back

The literals of an instruction set are kept apart from it, each with its position. Nothing is lost
by that: the instruction set with its literals blanked out, filled again from the positions, values
and types, is the instruction set that it was, up to the texts that the literals were written as.

Main statement: `rawData_recombines`.
-/

namespace PolicyRules

namespace Token

/-- The token, unless it is a literal. -/
def blanked : Token → Option Token
  | literal _ => none
  | token => some token

/-- The token without the text that its literal was written as. -/
def textless : Token → Token
  | literal l => literal { l with text := [] }
  | token => token

/-- The value and the type of a literal. -/
def content? : Token → Option (Value × ParamType)
  | literal l => some (l.value, l.type)
  | _ => none

/-- The literal of a value and a type, without a text. -/
def ofContent (content : Value × ParamType) : Token := literal ⟨content.1, content.2, []⟩

end Token

/-- An instruction set with its literals blanked out. -/
def skeleton (tokens : List Token) : List (Option Token) := tokens.map Token.blanked

/-- Puts literals into a skeleton, each at its position, whatever stands there. -/
def refill (positions : List Nat) (values : List Value) (types : List ParamType)
    (blanked : List (Option Token)) : List (Option Token) :=
  blanked.mapIdx fun i entry => (((positions.zip (values.zip types)).lookup i).map
    Token.ofContent).or entry

section Positions

/-- A raw datum under its position. -/
def RawDatum.entry (d : RawDatum) : Nat × Value × ParamType := (d.position, d.value, d.type)

/-- The literals of the tokens from a position on, under their positions. -/
def entriesFrom (n : Nat) (tokens : List Token) : List (Nat × Value × ParamType) :=
  ((tokens.zipIdx n).filterMap RawDatum.of?).map RawDatum.entry

theorem entriesFrom_cons (n : Nat) (token : Token) (rest : List Token) :
    entriesFrom n (token :: rest) = (token.content?.map (n, ·)).toList ++
      entriesFrom (n + 1) rest := by
  cases token <;> simp [entriesFrom, RawDatum.of?, RawDatum.entry, Token.content?,
    List.filterMap_cons]

theorem lookup_append_of_ne {p n : Nat} (other : p ≠ n) (content : Option (Value × ParamType))
    (entries : List (Nat × Value × ParamType)) :
    ((content.map (n, ·)).toList ++ entries).lookup p = entries.lookup p := by
  have apart : (p == n) = false := by simpa using other
  cases content <;> simp [List.lookup_cons, apart]

/-- The literals of the tokens from a position on are not before it. -/
theorem lookup_entriesFrom_of_lt {p n : Nat} (before : p < n) (tokens : List Token) :
    (entriesFrom n tokens).lookup p = none := by
  induction tokens generalizing n with
  | nil => rfl
  | cons token rest ih =>
    rw [entriesFrom_cons, lookup_append_of_ne (Nat.ne_of_lt before)]
    exact ih (Nat.lt_succ_of_lt before)

/-- Under each position is the literal that stands there. -/
theorem lookup_entriesFrom (n p : Nat) (tokens : List Token) :
    (entriesFrom n tokens).lookup (n + p) = tokens[p]?.bind Token.content? := by
  induction tokens generalizing n p with
  | nil => rfl
  | cons token rest ih =>
    rw [entriesFrom_cons]
    cases p with
    | zero =>
      have behind := lookup_entriesFrom_of_lt (Nat.lt_succ_self n) rest
      cases content : token.content? <;> simp [content, behind]
    | succ p =>
      rw [lookup_append_of_ne (by omega), ← Nat.succ_add_eq_add_succ]
      exact ih (n + 1) p

theorem zip_eq_entriesFrom (tokens : List Token) :
    let data := tokens.zipIdx.filterMap RawDatum.of?
    (data.map RawDatum.position).zip ((data.map RawDatum.value).zip (data.map RawDatum.type)) =
      entriesFrom 0 tokens := by
  intro data
  rw [List.zip_map', List.zip_map']
  rfl

end Positions

section Refilling

variable {tokens tokens' : List Token} {data : List RawDatum}

theorem rawData_eq_ok_iff :
    rawData false tokens = .ok data ↔ data = tokens.zipIdx.filterMap RawDatum.of? := by
  rw [rawData, rawDataFrom_false, Except.ok.injEq, eq_comm]

/-- A token that is blanked out is filled again from its content. -/
theorem Token.fill_blanked (token : Token) :
    (token.content?.map ofContent).or token.blanked = some token.textless := by
  cases token <;> rfl

/-- A skeleton is filled from raw data up to the texts of literals. -/
theorem refill_skeleton (h : rawData false tokens = .ok data) :
    refill (data.map RawDatum.position) (data.map RawDatum.value) (data.map RawDatum.type)
      (skeleton tokens) =
      tokens.map fun token => some token.textless := by
  obtain rfl := rawData_eq_ok_iff.mp h
  rw [refill, zip_eq_entriesFrom]
  refine List.ext_getElem? fun p => ?_
  have found := lookup_entriesFrom 0 p tokens
  rw [Nat.zero_add] at found
  rw [List.getElem?_mapIdx, skeleton, List.getElem?_map, List.getElem?_map, found]
  cases tokens[p]? with
  | none => rfl
  | some token => exact congrArg some token.fill_blanked

/-- Tokens are known, up to the texts of literals, from their skeleton and their raw data. -/
theorem textless_eq_of_skeleton_eq (same : skeleton tokens' = skeleton tokens)
    (h : rawData false tokens = .ok data) (h' : rawData false tokens' = .ok data) :
    tokens'.map Token.textless = tokens.map Token.textless := by
  have filled := refill_skeleton h'
  rw [same, refill_skeleton h] at filled
  refine (List.map_inj_right fun _ _ => Option.some.inj).mp ?_
  simpa [Function.comp_def] using filled.symm

theorem position_lt_length (h : rawData false tokens = .ok data) {p : Nat}
    (member : p ∈ data.map RawDatum.position) : p < tokens.length := by
  obtain ⟨l, found⟩ := (mem_position_rawData_iff h p).mp member
  exact (List.getElem?_eq_some_iff.mp found).1

end Refilling

section Strict

variable {tokens : List Token}

/-- Where every literal is bound, raw data are the same with and without the check. -/
theorem rawDataFrom_true_of_bound (bound : ∀ l, .literal l ∈ tokens → l.isUnbound = false)
    (n : Nat) : rawDataFrom true n tokens = rawDataFrom false n tokens := by
  induction tokens generalizing n with
  | nil => rfl
  | cons token rest ih =>
    have later := ih (fun l member => bound l (List.mem_cons_of_mem _ member)) (n + 1)
    cases token with
    | literal l => simp [rawDataFrom, bound l List.mem_cons_self, later]
    | opcode op | operand k => exact later

/-- The first literal that nothing binds is refused, with its text and its position. -/
theorem rawDataFrom_true_of_unbound {before after : List Token} {l : Literal}
    (unbound : l.isUnbound) (first : ∀ l', .literal l' ∈ before → l'.isUnbound = false) (n : Nat) :
    rawDataFrom true n (before ++ .literal l :: after) = .error
      (.unquoted l.text (n + before.length : Nat) []) := by
  induction before generalizing n with
  | nil => simp [rawDataFrom, unbound]
  | cons token rest ih =>
    have later := ih (fun l' member => first l' (List.mem_cons_of_mem _ member)) (n + 1)
    have place : n + 1 + rest.length = n + (token :: rest).length := by
      rw [List.length_cons]
      omega
    rw [place] at later
    cases token with
    | literal l' => simp [rawDataFrom, first l' List.mem_cons_self, later]
    | opcode op | operand k => exact later

end Strict

/-- Raw data and instructions recombine. The raw data of an instruction set are three lists of one
length, with increasing positions in range, from which the skeleton is filled again up to the texts
of literals; so two instruction sets with one skeleton and the same raw data differ in such texts
only. With the check of unbound names the raw data are the same, unless a literal is unbound: then
the first such literal is reported. -/
theorem rawData_recombines (tokens : List Token) :
    ∃ data, rawData false tokens = .ok data ∧
      (data.map RawDatum.position).length = (data.map RawDatum.value).length ∧
      (data.map RawDatum.value).length = (data.map RawDatum.type).length ∧
      (data.map RawDatum.position).Pairwise (· < ·) ∧
      (∀ p ∈ data.map RawDatum.position, p < tokens.length) ∧
      refill (data.map RawDatum.position) (data.map RawDatum.value) (data.map RawDatum.type)
          (skeleton tokens) =
        (tokens.map fun token => some token.textless) ∧
      (∀ tokens', skeleton tokens' = skeleton tokens → rawData false tokens' = .ok data →
        tokens'.map Token.textless = tokens.map Token.textless) ∧
      ((∀ l, .literal l ∈ tokens → l.isUnbound = false) → rawData true tokens = .ok data) ∧
      ∀ before l after, tokens = before ++ .literal l :: after → l.isUnbound = true →
        (∀ l', .literal l' ∈ before → l'.isUnbound = false) →
        rawData true tokens = .error (.unquoted l.text before.length []) := by
  have lifted : rawData false tokens = .ok (tokens.zipIdx.filterMap RawDatum.of?) :=
    rawDataFrom_false 0 tokens
  refine ⟨_, lifted, by simp, by simp, pairwise_position_rawData lifted,
    fun p => position_lt_length lifted, refill_skeleton lifted, fun tokens' same =>
      textless_eq_of_skeleton_eq same lifted, fun bound => ?_, ?_⟩
  · exact (rawDataFrom_true_of_bound bound 0).trans lifted
  · rintro before l after rfl unbound first
    simpa [rawData] using rawDataFrom_true_of_unbound unbound first 0

/-- The comparison of a number with a name that nothing binds. -/
def looseComparison (number : Text) : List Token := [
  .operation .literal, .literal ⟨.int 26, .uint256, number⟩, .operation .literal, .literal
    (.ofUnbound ['x']),
  .operation .eq, .operand 0, .operand 1]

theorem rawData_recombines_comparison :
    rawData false (looseComparison "0x1A".toList) =
      .ok [⟨1, .int 26, .uint256⟩, ⟨3, .text ['x'], .void⟩] ∧
    refill [1, 3] [.int 26, .text ['x']] [.uint256, .void]
      (skeleton (looseComparison "0x1A".toList)) =
      ((looseComparison "0x1A".toList).map fun token => some token.textless) ∧
    (looseComparison "26".toList).map Token.textless =
      (looseComparison "0x1A".toList).map Token.textless ∧
    rawData true (looseComparison "0x1A".toList) = .error (.unquoted ['x'] 3 []) := by
  obtain ⟨data, lifted, -, -, -, -, filled, unique, -, refused⟩ :=
    rawData_recombines (looseComparison "0x1A".toList)
  have data_eq : rawData false (looseComparison "0x1A".toList) =
      .ok [⟨1, .int 26, .uint256⟩, ⟨3, .text ['x'], .void⟩] := rfl
  obtain rfl := Except.ok.inj (data_eq.symm.trans lifted)
  refine ⟨data_eq, filled, unique _ rfl rfl, ?_⟩
  refine refused ((looseComparison "0x1A".toList).take 3) (.ofUnbound ['x']) _ rfl rfl
    fun l member => ?_
  obtain rfl : l = ⟨.int 26, .uint256, "0x1A".toList⟩ := by
    simpa [looseComparison, Token.operation] using member
  rfl

end PolicyRules
