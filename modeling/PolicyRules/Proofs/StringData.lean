import Mathlib.Data.List.Permutation
import PolicyRules.Proofs.Cleaning
import PolicyRules.Proofs.Literals
import PolicyRules.Proofs.NameBinding
import PolicyRules.Proofs.TreeTokens

/-!
# Strings in the raw data

The strings of a condition are loaded in the order in which they are written, and nothing else that
a condition loads has the type of a string or of a byte sequence.

Main statement: the strings in the raw data of a compiled condition are the contents of the quoted
segments of its source, with the blanks in them squeezed (`Policy.textValues_of_compiled`).
-/

namespace PolicyRules

/-- Whether the values of a type are texts that were quoted. -/
def ParamType.isText : ParamType → Bool
  | .string | .bytes => true
  | _ => false

/-- The literals of an expression that were quoted. -/
def Expr.strings (e : Expr) : List Literal := e.literals.filter (·.type.isText)

/-- The values in raw data that were quoted. -/
def textValues (data : List RawDatum) : List Value := (data.filter (·.type.isText)).map (·.value)

section Lowering

/-- The literal of a token, if it was quoted. -/
def Token.string? : Token → Option Literal
  | .literal l => if l.type.isText then some l else none
  | _ => none

/-- The raw data that were quoted are the strings of an instruction set. -/
theorem textValues_of_rawDataFrom {strict : Bool} {position : Nat} {tokens : List Token}
    {data : List RawDatum} (h : rawDataFrom strict position tokens = .ok data) :
    textValues data = (tokens.filterMap Token.string?).map (·.value) := by
  induction tokens generalizing position data with
  | nil => cases h; rfl
  | cons token rest ih =>
    cases token with
    | literal l =>
      rw [rawDataFrom] at h
      split at h
      · cases h
      · split at h
        · next more read =>
          cases h
          have later := ih read
          rw [textValues] at later ⊢
          cases text : l.type.isText <;> simp [Token.string?, text, later]
        · cases h
    | opcode op | operand n => exact ih h

@[simp] theorem Token.string?_opcode (op : Opcode) : (Token.opcode op).string? = none := rfl

@[simp] theorem Token.string?_operand (n : Int) : (Token.operand n).string? = none := rfl

/-- Strings are loaded in the order in which they are written. -/
theorem Code.strings_eq {b : Bindings} {e : Expr} {n r : Nat} {code : List Instruction}
    (h : Code b e n code r) :
    (code.flatMap Instruction.tokens).filterMap Token.string? = e.strings := by
  induction h with
  | literal l n =>
    cases text : l.type.isText <;>
      simp [Expr.strings, Expr.literals, Instruction.load, Instruction.tokens, Token.string?,
        List.filterMap_cons, text]
  | unbound n free => rfl
  | bound n found placed => rfl
  | mapped known hk ih =>
    simp [Instruction.readMapped, Instruction.tokens, List.filterMap_cons, ih, Expr.strings,
      Expr.literals]
  | binary hl hr ihl ihr | logical hl hr ihl ihr =>
    simp [Instruction.compute, Instruction.tokens, List.filterMap_cons, ihl, ihr, Expr.strings,
      Expr.literals]
  | negation ho ih =>
    simp [Instruction.compute, Instruction.tokens, List.filterMap_cons, ih, Expr.strings,
      Expr.literals]
  | update known ht hv iht ihv =>
    simp [Instruction.compute, Instruction.write, Instruction.tokens, List.filterMap_cons, iht, ihv,
      Expr.strings, Expr.literals]
  | updateMapped known hk hv ihk ihv =>
    simp [Instruction.compute, Instruction.readMapped, Instruction.writeMapped, Instruction.tokens,
      List.filterMap_cons, ihk, ihv, Expr.strings, Expr.literals]

end Lowering

section Quotations

variable {e : Expr} {t w : Text}

/-- Whether a token is a quoted segment. -/
def isQuotation (w : Text) : Bool := w.head?.any isQuoteMark && decide (1 < w.length)

theorem isQuotation_text {q : Quotation} (mark : isQuoteMark q.mark) : isQuotation q.text := by
  simp [isQuotation, Quotation.text, mark]

theorem isQuotation_of_isWordChar {c : Char} (word : isWordChar c) (cs : Text) :
    isQuotation (c :: cs) = false := by
  have other : isQuoteMark c = false := by
    by_contra mark
    rcases isQuoteMark_iff.mp (by simpa using mark) with rfl | rfl <;> exact absurd word (by decide)
  simp [isQuotation, other]

/-- A quoted text is a quotation. -/
theorem IsQuoted.isQuotation (h : IsQuoted w) : isQuotation w := by
  obtain ⟨isMark, -⟩ := h
  exact isQuotation_text (q := ⟨_, _⟩) (isQuoteMark_iff.mpr isMark)

theorem IsName.isQuotation (h : IsName w) : isQuotation w = false := by
  obtain ⟨c, cs, rfl, start⟩ := h.head
  exact isQuotation_of_isWordChar (isWordChar_of_isNameStart start) cs

theorem IsNumber.isQuotation (h : IsNumber w) : isQuotation w = false := by
  obtain ⟨c, cs, rfl, digit⟩ := h.head
  exact isQuotation_of_isWordChar (by simp [isWordChar, Char.isAlphanum, digit]) cs

theorem isQuotation_signWord (t : Text) : isQuotation (signWord t) = false := by
  unfold signWord
  cases found : signTexts.find? fun sign => Text.startsWith sign t with
  | none => cases t <;> simp [isQuotation]
  | some sign =>
    have signs : signTexts.all (! isQuotation ·) := by decide
    simpa using List.all_eq_true.mp signs sign (List.mem_of_find?_eq_some found)

/-- Outside the quoted segments of a text no token is a quoted segment. -/
theorem isQuotation_of_mem_plainTokens (h : w ∈ t.plainTokens) : isQuotation w = false := by
  obtain ⟨u, v, width, rfl, found⟩ := Split.exists_of_mem_marks h
  cases v with
  | nil => cases found
  | cons c cs =>
    rw [wordAt] at found
    split at found
    · cases found
    · obtain ⟨rfl, -⟩ := Prod.mk.inj (Option.some.inj found)
      cases word : isWordChar c with
      | false => simpa [wordWith, plainRun, word] using isQuotation_signWord (c :: cs)
      | true =>
        have begins : wordWith plainRun isKeyword (c :: cs) <+: c :: cs :=
          wordWith_isPrefix (fun t => List.takeWhile_prefix _) _ _
        rcases List.prefix_cons_iff.mp begins with empty | ⟨rest, same, -⟩
        · exact absurd empty (wordWith_ne_nil (by simp))
        · exact same ▸ isQuotation_of_isWordChar word rest

/-- The quotations among the tokens of a split are its marks. -/
theorem Split.filter_tokens {s : Split Quotation} (marks : ∀ q ∈ s.marks, isQuoteMark q.mark) :
    s.tokens.filter isQuotation = s.marks.map Quotation.text := by
  have plain : ∀ u : Text, u.plainTokens.filter isQuotation = [] :=
    fun u => List.filter_eq_nil_iff.mpr fun w listed => by
      simp [isQuotation_of_mem_plainTokens listed]
  obtain ⟨head, tail⟩ := s
  simp only [Split.marks] at marks
  simp only [Split.tokens, List.filter_append, plain, List.nil_append, Split.marks]
  induction tail with
  | nil => rfl
  | cons piece tail ih =>
    simp only [List.map_cons, List.mem_cons, forall_eq_or_imp] at marks
    simp [isQuotation_text marks.1, plain, ih marks.2]

/-- The tokens of a text that are quoted segments are its quoted segments. -/
theorem Text.filter_tokens (t : Text) :
    t.tokens.filter isQuotation = t.segments.marks.map Quotation.text :=
  Split.filter_tokens fun _ => isQuoteMark_of_mem_segments

end Quotations

section Trees

variable {e : Expr} {t w : Text}

/-- Whether the strings of an expression are its tokens that are quoted segments. -/
def Expr.StringsQuoted (e : Expr) : Prop := e.strings = (e.tokens.filter isQuotation).map .ofQuoted

theorem isText_ofQuoted (w : Text) : (Literal.ofQuoted w).type.isText := by
  rw [Literal.ofQuoted]
  split <;> rfl

theorem isText_ofNumeral (w : Text) : (Literal.ofNumeral w).type.isText = false := by
  rw [Literal.ofNumeral]
  split <;> rfl

theorem isQuotation_operator (op : Operator) : isQuotation op.text = false := by
  cases op <;> decide

theorem isQuotation_update (op : UpdateOperator) : isQuotation op.text = false := by
  cases op <;> decide

theorem isQuotation_keyword (keyword : Keyword) : isQuotation keyword.text = false := by
  cases keyword <;> decide

namespace Expr.StringsQuoted

/-- Joining expressions brings no other strings in. -/
theorem levelClosed (keywords : List Keyword) : LevelClosed keywords StringsQuoted where
  logical := fun {keyword _ _ _} _ _ left right => by
    simp_all [StringsQuoted, strings, literals, tokens, isQuotation_keyword]
  negation := fun _ operand => by
    simp_all [StringsQuoted, strings, literals, tokens, isQuotation_keyword]

theorem of_name (name : isQuotation w = false) : (Expr.name w).StringsQuoted := by
  simp [StringsQuoted, strings, literals, tokens, name]

theorem of_plainLiteral {l : Literal} (plain : l.type.isText = false)
    (unquoted : isQuotation l.text = false) : (Expr.literal l).StringsQuoted := by
  simp [StringsQuoted, strings, literals, tokens, plain, unquoted]

theorem of_quoted (quoted : isQuotation w) : (Expr.literal (.ofQuoted w)).StringsQuoted := by
  have text : (Literal.ofQuoted w).text = w := rfl
  simp [StringsQuoted, strings, literals, tokens, isText_ofQuoted, text, quoted]

/-- Leaf expressions have strings where their phrases have quoted segments. -/
theorem wordClosed : WordClosed StringsQuoted where
  truth name := of_plainLiteral rfl name.isQuotation
  name name := of_name name.isQuotation
  number number _ := of_plainLiteral (isText_ofNumeral _) number.isQuotation
  string quoted := of_quoted quoted.isQuotation
  mapped name key := by simp_all [StringsQuoted, strings, literals, tokens, name.isQuotation]
  binary left right := by simp_all [StringsQuoted, strings, literals, tokens, isQuotation_operator]
  update name value := by
    simp_all [StringsQuoted, strings, literals, tokens, name.isQuotation, isQuotation_update]
  updateMapped name key value := by
    simp_all [StringsQuoted, strings, literals, tokens, name.isQuotation, isQuotation_update]

end Expr.StringsQuoted

namespace SetAside

variable {s s' : SetAside}

/-- The strings of a tree are its tokens that are quoted segments. -/
theorem stringsQuoted_build (h : build t {} = .ok e s) : e.StringsQuoted :=
  (build_induction h (Expr.StringsQuoted.levelClosed _) Expr.StringsQuoted.wordClosed.parseOperand
    (by simp)).1

/-- The strings of a tree that is built from a separable text are the quoted segments of the
text. -/
theorem strings_build (separable : t.Separable) (h : build t {} = .ok e s) :
    e.strings = t.segments.marks.map fun q => .ofQuoted q.text := by
  rw [stringsQuoted_build h, tokens_of_separable separable rfl (by simp [Keyed]) h,
    Text.filter_tokens, List.map_map]
  rfl

end SetAside

end Trees

namespace Policy

variable {p : Policy} {source : Text} {condition : Condition}

/-- The value of a quoted segment is its body. -/
theorem value_ofQuoted_text (q : Quotation) : (Literal.ofQuoted q.text).value = .text q.body := by
  simp [Literal.ofQuoted, Quotation.text]

/-- The strings in the raw data of a condition are the contents of its quoted segments, with blanks
squeezed. -/
theorem textValues_of_compiled (separable : (p.normalize source).Separable)
    (compiled : p.compileCondition source = .ok condition) :
    textValues condition.data = source.segments.marks.map fun q => .text (Text.squeeze q.body) := by
  simp only [compileCondition, bind_eq_ok_iff, pure_eq_ok_iff] at compiled
  obtain ⟨e, processed, placeholders, bound, tokens, converted, data, raw, rfl⟩ := compiled
  obtain ⟨order, -, f, rfl⟩ := process_eq_ok_iff.mp processed
  obtain ⟨w, converted⟩ := convertText_eq_ok_iff.mp converted
  obtain ⟨tree, aside, code, r, built, -, hcode, rfl, -⟩ := Workspace.convert_code converted
  have marks : (p.normalize source).segments.marks =
      source.segments.marks.map Quotation.squeeze := by
    rw [Tables.segments_normalize, ← marks_segments_clean]
    simp [Split.mapPlain, Split.marks, Function.comp_def]
  rw [textValues_of_rawDataFrom raw, hcode.strings_eq, SetAside.strings_build separable built,
    marks]
  simp [value_ofQuoted_text, Quotation.squeeze]

/-- A condition with a byte sequence, blanks and a sign inside its strings, and a string in a
group. -/
def memoText : Text := "\"0xAB  c\" == 'it\"s [1]' OR (value > 1 AND to == \"\")".toList

theorem textValues_of_compiled_memo : (payments.normalize memoText).Separable ∧
    ∃ condition, payments.compileCondition memoText = .ok condition ∧
      textValues condition.data = [.text "0xAB c".toList, .text "it\"s [1]".toList, .text []] := by
  have separable : (payments.normalize memoText).Separable := by
    refine ⟨⟨fun kind => ?_, by decide +kernel⟩, by decide +kernel, by decide +kernel⟩
    cases kind <;> decide +kernel
  have accepted : (payments.compileCondition memoText).toOption.map (fun _ => ()) = some () := by
    rw [compileCondition, process, dependencyOrder_of_callNames_eq_nil (by decide +kernel)]
    decide +kernel
  obtain ⟨condition, compiled, -⟩ := map_toOption_eq_some_iff.mp accepted
  refine ⟨separable, condition, compiled, (textValues_of_compiled separable compiled).trans ?_⟩
  decide +kernel

end Policy

end PolicyRules
