import PolicyRules.Proofs.LeafGrammar
import PolicyRules.Proofs.LeafReading

/-!
# The meaning of leaf expressions

What a phrase yields, as a relation apart from the function that computes it: an expression, or the
fault that is met first when operands are taken from the left and before what is made of them. A
number yields its literal if it fits into a word, but a decimal number with more than
`maxDecimalDigits` digits is not read, even if most of them are leading zeros.

Main statement: the leaf expressions are the sentences of the grammar, each with what its phrase
yields (`parseLeaf_grammar`).
-/

namespace PolicyRules

/-- Whether a numeral has more decimal digits than are read. -/
def IsOverlong (t : Text) : Prop :=
  Text.startsWith "0x".toList t = false ∧ maxDecimalDigits < t.length

instance (t : Text) : Decidable (IsOverlong t) := inferInstanceAs (Decidable (_ ∧ _))

/-- What a phrase yields, with the expressions that names stand for. -/
inductive Phrase.Yields (table : List (Text × Expr)) : Phrase → Except Error Expr → Prop
  | subexpression {text : Text} {e : Expr} (bound : Table.value? text table = some e) :
    Yields table (.name text) (.ok e)
  | truth {text : Text} (unbound : Table.value? text table = none)
    (h : text = "true".toList ∨ text = "false".toList) :
    Yields table (.name text) (.ok (.literal (.ofBool text)))
  | name {text : Text} (unbound : Table.value? text table = none)
    (h : ¬ (text = "true".toList ∨ text = "false".toList)) :
    Yields table (.name text) (.ok (.name text))
  | number {text : Text} (short : ¬ IsOverlong text) (fits : (numeralValue text : Int) ≤ maxWord) :
    Yields table (.number text) (.ok (.literal (.ofNumeral text)))
  | numberRange {text : Text} (short : ¬ IsOverlong text) (exceeds : maxWord < numeralValue text) :
    Yields table (.number text) (.error (.numberRange text maxWord))
  | tooManyDigits {text : Text} (long : IsOverlong text) :
    Yields table (.number text) (.error (.number (.tooManyDigits text.length)))
  | string {text : Text} : Yields table (.string text) (.ok (.literal (.ofQuoted text)))
  | mapped {key : Phrase} {k : Expr} {tracker : Text} (h : Yields table key (.ok k))
    (isTracker : (trackerReference? tracker).isSome) :
    Yields table (.mapped key tracker) (.ok (.mapped k tracker))
  | mappedKey {key : Phrase} {tracker : Text} {ε : Error} (h : Yields table key (.error ε)) :
    Yields table (.mapped key tracker) (.error ε)
  | mappedName {key : Phrase} {k : Expr} {tracker : Text} (h : Yields table key (.ok k))
    (other : ¬ (trackerReference? tracker).isSome) :
    Yields table (.mapped key tracker) (.error (.malformed (.mappedName tracker) tracker none))
  | binary {op : Operator} {left right : Phrase} {l r : Expr} (h : Yields table left (.ok l))
    (h' : Yields table right (.ok r)) : Yields table (.binary op left right) (.ok (.binary op l r))
  | binaryLeft {op : Operator} {left right : Phrase} {ε : Error}
    (h : Yields table left (.error ε)) :
    Yields table (.binary op left right) (.error ε)
  | binaryRight {op : Operator} {left right : Phrase} {l : Expr} {ε : Error}
    (h : Yields table left (.ok l)) (h' : Yields table right (.error ε)) :
    Yields table (.binary op left right) (.error ε)
  | update {op : UpdateOperator} {target : Text} {value : Phrase} {v : Expr}
    (h : Yields table value (.ok v)) (isTracker : (trackerReference? target).isSome) :
    Yields table (.update op target value) (.ok (.update op target v))
  | updateValue {op : UpdateOperator} {target : Text} {value : Phrase} {ε : Error}
    (h : Yields table value (.error ε)) : Yields table (.update op target value) (.error ε)
  | updateTarget {op : UpdateOperator} {target : Text} {value : Phrase} {v : Expr}
    (h : Yields table value (.ok v)) (other : ¬ (trackerReference? target).isSome) :
    Yields table (.update op target value) (.error (.malformed .updateTarget [] none))
  | updateMapped {op : UpdateOperator} {key value : Phrase} {tracker : Text} {k v : Expr}
    (h : Yields table key (.ok k)) (isTracker : (trackerReference? tracker).isSome)
    (h' : Yields table value (.ok v)) :
    Yields table (.updateMapped op key tracker value) (.ok (.updateMapped op k tracker v))
  | updateMappedKey {op : UpdateOperator} {key value : Phrase} {tracker : Text} {ε : Error}
    (h : Yields table key (.error ε)) : Yields table (.updateMapped op key tracker value) (.error ε)
  | updateMappedName {op : UpdateOperator} {key value : Phrase} {tracker : Text} {k : Expr}
    (h : Yields table key (.ok k)) (other : ¬ (trackerReference? tracker).isSome) :
    Yields table (.updateMapped op key tracker value)
      (.error (.malformed (.mappedName tracker) tracker none))
  | updateMappedValue {op : UpdateOperator} {key value : Phrase} {tracker : Text} {k : Expr}
    {ε : Error} (h : Yields table key (.ok k)) (isTracker : (trackerReference? tracker).isSome)
    (h' : Yields table value (.error ε)) :
    Yields table (.updateMapped op key tracker value) (.error ε)

section Addresses

theorem Radix.digit?_lt {radix : Radix} {c : Char} {d : Nat} (h : radix.digit? c = some d) :
    d < 16 := by
  unfold Radix.digit? at h
  split at h
  · next e _ decimal =>
    obtain rfl := Option.some.inj h
    have := decimalDigit?_lt decimal
    omega
  · cases h
  · split at h
    · next bounds =>
      have upper : c.toNat ≤ 'f'.toNat := bounds.2
      obtain rfl := Option.some.inj h
      simp at upper ⊢
      omega
    · split at h
      · next bounds =>
        have upper : c.toNat ≤ 'F'.toNat := bounds.2
        obtain rfl := Option.some.inj h
        simp at upper ⊢
        omega
      · cases h

/-- A number of hexadecimal digits is below the power of its length. -/
theorem Radix.value_lt (digits : List Nat) (small : ∀ d ∈ digits, d < 16) :
    Radix.hexadecimal.value digits < Nat.pow 16 digits.length := by
  induction digits using List.reverseRecOn with
  | nil => decide
  | append_singleton digits d ih =>
    have before := ih fun e member => small e (by simp [member])
    have last := small d (by simp)
    rw [Radix.value_append, List.length_append, List.length_singleton, Radix.base,
      Nat.pow_eq, Nat.pow_succ]
    rw [Nat.pow_eq] at before
    omega

/-- An address fits into a word. -/
theorem numeralValue_le_of_isAddress {t : Text} (number : IsNumber t) (address : isAddress t) :
    (numeralValue t : Int) ≤ maxWord := by
  rw [isAddress, strip_eq_of_not_blank (isBlank_eq_false_of_isNumber number)] at address
  split at address
  · next digits dropped =>
    simp only [Bool.and_eq_true, decide_eq_true_eq] at address
    have small := Radix.value_lt (digits.filterMap Radix.hexadecimal.digit?) fun d member => by
      obtain ⟨c, -, digit⟩ := List.mem_filterMap.mp member
      exact Radix.digit?_lt digit
    have count : (digits.filterMap Radix.hexadecimal.digit?).length ≤ 40 :=
      address.1 ▸ List.length_filterMap_le ..
    have bound : Nat.pow 16 (digits.filterMap Radix.hexadecimal.digit?).length ≤ Nat.pow 16 40 :=
      Nat.pow_le_pow_right (by decide) count
    have word : Nat.pow 16 40 ≤ Nat.pow 2 256 - 1 := by decide +kernel
    rw [numeralValue, dropped, maxWord]
    simp only
    omega
  · cases address

end Addresses

/-- The literal of a numeral, or why it has none. -/
theorem Literal.ofNumber_of_isNumber {t : Text} (number : IsNumber t) :
    ofNumber t =
      if IsOverlong t then .error (.integer (.tooManyDigits t.length))
      else if maxWord < numeralValue t then .error (.numberRange t maxWord)
      else .ok (ofNumeral t) := by
  split
  · next long =>
    rw [ofNumber, strip_eq_of_not_blank (isBlank_eq_false_of_isNumber number)]
    simp only [read_numeral number, if_pos (show _ ∧ _ from long)]
  · next short =>
    split
    · next exceeds =>
      have other : ¬ isAddress t := fun address =>
        absurd (numeralValue_le_of_isAddress number address) (Int.not_le.mpr exceeds)
      rw [ofNumber, strip_eq_of_not_blank (isBlank_eq_false_of_isNumber number)]
      simp only [read_numeral number, if_neg (show ¬ (_ ∧ _) from short), if_neg other,
        if_pos exceeds]
    · next fits =>
      exact ofNumber_eq_ok number (Int.not_lt.mp fits) fun decimal =>
        Nat.not_lt.mp fun long => short ⟨decimal, long⟩

namespace Phrase

variable {table : List (Text × Expr)} {p : Phrase}

/-- What a phrase yields is what it is turned into. -/
theorem yields_toExpr (spelled : p.Spelled) : p.Yields table (p.toExpr table) := by
  induction p with
  | name text =>
    rw [toExpr, Expr.ofName]
    split
    · next e bound => exact .subexpression bound
    · next unbound =>
      split
      · next truth => exact .truth unbound truth
      · next other => exact .name unbound other
  | number text =>
    rw [toExpr, Literal.ofNumber_of_isNumber spelled]
    by_cases long : IsOverlong text
    · simpa [long] using Yields.tooManyDigits long
    · by_cases exceeds : maxWord < numeralValue text
      · simpa [long, exceeds] using Yields.numberRange long exceeds
      · simpa [long, exceeds] using Yields.number long (Int.not_lt.mp exceeds)
  | string text => exact .string
  | mapped key tracker ih =>
    have given := ih spelled.1
    rw [toExpr]
    cases result : key.toExpr table with
    | error ε => exact .mappedKey (result ▸ given)
    | ok k =>
      rw [result] at given
      by_cases isTracker : (trackerReference? tracker).isSome
      · rw [requireTracker, if_pos isTracker]
        exact .mapped given isTracker
      · rw [requireTracker, if_neg isTracker]
        exact .mappedName given isTracker
  | binary op left right ihl ihr =>
    have givenLeft := ihl spelled.2.1
    have givenRight := ihr spelled.2.2
    rw [toExpr]
    cases resultLeft : left.toExpr table with
    | error ε => exact .binaryLeft (resultLeft ▸ givenLeft)
    | ok l =>
      rw [resultLeft] at givenLeft
      cases resultRight : right.toExpr table with
      | error ε => exact .binaryRight givenLeft (resultRight ▸ givenRight)
      | ok r => exact .binary givenLeft (resultRight ▸ givenRight)
  | update op target value ih =>
    have given := ih spelled.2
    rw [toExpr]
    cases result : value.toExpr table with
    | error ε => exact .updateValue (result ▸ given)
    | ok v =>
      rw [result] at given
      by_cases isTracker : (trackerReference? target).isSome
      · simp only [if_pos isTracker]
        exact .update given isTracker
      · simp only [if_neg isTracker]
        exact .updateTarget given isTracker
  | updateMapped op key tracker value ihk ihv =>
    have givenKey := ihk spelled.1
    have givenValue := ihv spelled.2.2
    rw [toExpr]
    cases resultKey : key.toExpr table with
    | error ε => exact .updateMappedKey (resultKey ▸ givenKey)
    | ok k =>
      rw [resultKey] at givenKey
      by_cases isTracker : (trackerReference? tracker).isSome
      · rw [requireTracker, if_pos isTracker]
        cases resultValue : value.toExpr table with
        | error ε => exact .updateMappedValue givenKey isTracker (resultValue ▸ givenValue)
        | ok v => exact .updateMapped givenKey isTracker (resultValue ▸ givenValue)
      · rw [requireTracker, if_neg isTracker]
        exact .updateMappedName givenKey isTracker

/-- A phrase yields one result. -/
theorem Yields.unique {r r' : Except Error Expr} (h : p.Yields table r) (h' : p.Yields table r') :
    r = r' := by
  induction h generalizing r' <;> cases h' <;> grind

/-- What a phrase is turned into is the one thing that it yields. -/
theorem toExpr_eq_iff (spelled : p.Spelled) {r : Except Error Expr} :
    p.toExpr table = r ↔ p.Yields table r :=
  ⟨fun same => same ▸ yields_toExpr spelled, fun h => (yields_toExpr spelled).unique h⟩

end Phrase

theorem Derives.spelled {c : Category} {xs : List Lexeme} {p : Phrase} (h : Derives c xs p) :
    p.Spelled := by
  induction h with
  | ofSum h ih | ofProduct h ih | ofAtom h ih | ofPrimary h ih | paren h ih => exact ih
  | compare fits h h' ih ih' | add fits h h' ih ih' | multiply fits h h' ih ih' =>
    exact ⟨by simp [Operator.isInfix, fits], ih, ih'⟩
  | update op name h ih => exact ⟨name, ih⟩
  | updateMapped op h name h' ih ih' => exact ⟨ih, name, ih'⟩
  | mapped h name ih => exact ⟨ih, name⟩
  | name h | number h | string h => exact h

theorem Sentence.unique {xs : List Lexeme} {p q : Phrase} (h : Sentence xs p) (h' : Sentence xs q) :
    p = q :=
  Except.ok.inj ((ofText_joined h).symm.trans (ofText_joined h'))

theorem parseLeaf_of_ofText {t : Text} {p : Phrase} (table : List (Text × Expr))
    (h : Phrase.ofText t = .ok p) : parseLeaf table t = p.toExpr table := by
  rw [parseLeaf, h]

/-- The leaf expressions are the sentences of the grammar. A text that fits the grammar is a
sentence with white space between its lexemes, and each sentence fits the grammar when its lexemes
are joined by spaces. In both cases the result is what the phrase of the sentence yields. A text
that does not fit is refused at the place where it stops fitting. -/
theorem parseLeaf_grammar (table : List (Text × Expr)) :
    (∀ (t : Text) (p : Phrase), Phrase.ofText t = .ok p →
      ∃ xs, Spread t xs ∧ Sentence xs p ∧ ∀ r, parseLeaf table t = r ↔ p.Yields table r) ∧
    (∀ (xs : List Lexeme) (p : Phrase), Sentence xs p →
      Phrase.ofText (joined xs) = .ok p ∧ (∀ q, Sentence xs q → q = p) ∧
        ∀ r, parseLeaf table (joined xs) = r ↔ p.Yields table r) ∧
    ∀ (t : Text) (position : Nat), Phrase.ofText t = .error position →
      parseLeaf table t = .error
        (.malformed (.unexpected t (columnOf t position)) t (some position)) := by
  refine ⟨fun t p read => ?_, fun xs p sentence => ?_, fun t position refused => ?_⟩
  · obtain ⟨xs, spread, -, sentence⟩ := sentence_of_ofText read
    refine ⟨xs, spread, sentence, fun r => ?_⟩
    rw [parseLeaf_of_ofText table read]
    exact Phrase.toExpr_eq_iff sentence.spelled
  · have read := ofText_joined sentence
    refine ⟨read, fun q other => other.unique sentence, fun r => ?_⟩
    rw [parseLeaf_of_ofText table read]
    exact Phrase.toExpr_eq_iff sentence.spelled
  · rw [parseLeaf, refused]

/-- An update of a tracker by key, with a sum in parentheses and the name of a subexpression. -/
def keyedUpdate : Phrase :=
  .updateMapped .add (.name "k".toList) "TR:m".toList
    (.binary .mul (.binary .add (.number "1".toList) (.name "PLH0".toList)) (.number "2".toList))

/-- The lexemes of `keyedUpdate`. -/
def keyedUpdateLexemes : List Lexeme := [
  .name "k".toList, .bar, .name "TR:m".toList, .update .add, .leftParen, .number
    "1".toList, .operator .add,
  .name "PLH0".toList, .rightParen, .operator .mul, .number "2".toList]

theorem sentence_keyedUpdate : Sentence keyedUpdateLexemes keyedUpdate := by
  have one : IsNumber "1".toList := .decimal (by decide) (List.all_eq_true.mp (by decide))
  have two : IsNumber "2".toList := .decimal (by decide) (List.all_eq_true.mp (by decide))
  have sum := Derives.add (show Operator.add.isAdditive = true from rfl)
    (.ofProduct (.ofAtom (.ofPrimary (.number one))))
    (.ofAtom (.ofPrimary (.name (isName_subexpressionToken 0))))
  have product := Derives.multiply (show Operator.mul.isMultiplicative = true from rfl)
    (.ofAtom (.ofPrimary (.paren (.ofSum sum))))
    (.ofPrimary (.number two))
  exact .updateMapped .add (.name (isName_of_nameLexeme? (t := "k".toList) (by decide)))
    (isName_of_nameLexeme? (t := "TR:m".toList) (by decide)) (.ofProduct product)

theorem parseLeaf_grammar_keyedUpdate :
    (∃ xs, Spread "k|TR:m+=(1 +PLH0)*2".toList xs ∧ Sentence xs keyedUpdate) ∧
    Sentence keyedUpdateLexemes keyedUpdate ∧
    Phrase.ofText "k | TR:m += ( 1 + PLH0 ) * 2".toList = .ok keyedUpdate ∧
    parseLeaf [("PLH0".toList, .name "x".toList)] "k | TR:m += ( 1 + PLH0 ) * 2".toList =
      .ok (.updateMapped .add (.name "k".toList) "TR:m".toList
        (.binary .mul (.binary .add (.literal (.ofNumeral "1".toList)) (.name "x".toList))
          (.literal (.ofNumeral "2".toList)))) := by
  obtain ⟨sound, complete, -⟩ := parseLeaf_grammar [("PLH0".toList, .name "x".toList)]
  obtain ⟨read, -, yields⟩ := complete keyedUpdateLexemes keyedUpdate sentence_keyedUpdate
  obtain ⟨xs, spread, sentence, -⟩ := sound "k|TR:m+=(1 +PLH0)*2".toList keyedUpdate (by decide)
  refine ⟨⟨xs, spread, sentence⟩, sentence_keyedUpdate, read, (yields _).mpr ?_⟩
  exact .updateMapped (.name (by decide) (by decide)) (by decide)
    (.binary (.binary (.number (by decide) (by decide +kernel)) (.subexpression (by decide)))
      (.number (by decide) (by decide +kernel)))

end PolicyRules
