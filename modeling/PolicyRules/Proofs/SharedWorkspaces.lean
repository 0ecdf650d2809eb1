import PolicyRules.Proofs.Relabelling

/-!
# Conversions in a shared workspace

A conversion in a shared workspace goes on with the slots of earlier ones. The code of an expression
is the same at every slot but for the distance to it (`Code.relocate`), and the ordinals of
keywords, in which the trees of a plain text differ, do not show in it.

Main statement: conversions of plain texts that share a workspace do not disturb each other
(`Workspace.convert_undisturbed`).
-/

namespace PolicyRules

/-- An operand moved by a distance. Tokens of other kinds stay. -/
def Token.move (d : Int) : Token → Token
  | .operand n => .operand (n + d)
  | token => token

namespace Instruction

/-- An instruction with its slots moved by a distance. The operands that `reads` leaves out stay. -/
def moveSlots (d : Int) (i : Instruction) : Instruction :=
  match i.opcode with
  | .operation .literal | .operation .placeholder => i
  | .operation .mapped =>
    { i with arguments := i.arguments.take 1 ++ (i.arguments.drop 1).map (.move d) }
  | .operation .write | .operation .writeMapped =>
    { i with
      arguments := i.arguments.take 1 ++ (i.arguments.drop 1).dropLast.map (.move d) ++
        (i.arguments.drop 1).getLast?.toList }
  | _ => { i with arguments := i.arguments.map (.move d) }

section

variable {d : Int} {k k' r r' : Nat} {slots slots' : List Nat}

theorem moveSlots_readMapped (id : Int) (key : (k' : Int) = k + d) :
    (readMapped id k).moveSlots d = readMapped id k' := by
  simp [moveSlots, readMapped, Token.move, key]

theorem moveSlots_write (id : Int) (backed : Bool) (slot : (r' : Int) = r + d) :
    (write id r backed).moveSlots d = write id r' backed := by
  simp [moveSlots, write, Token.move, slot]

theorem moveSlots_writeMapped (id : Int) (backed : Bool) (slot : (r' : Int) = r + d)
    (key : (k' : Int) = k + d) :
    (writeMapped id r k backed).moveSlots d = writeMapped id r' k' backed := by
  simp [moveSlots, writeMapped, Token.move, slot, key]

/-- An operation all of whose operands are slots has all of them moved. -/
theorem moveSlots_compute {op : Operation} (all : (compute op slots).moveSlots d =
      ⟨.operation op, (compute op slots).arguments.map (Token.move d)⟩)
    (moved : List.Forall₂ (fun r r' : Nat => (r' : Int) = r + d) slots slots') :
    (compute op slots).moveSlots d = compute op slots' := by
  have operands : (compute op slots).arguments.map (Token.move d) =
      (compute op slots').arguments := by
    clear all
    induction moved with
    | nil => rfl
    | cons related _ ih => simpa [compute, Token.move, related] using ih
  rw [all, operands]
  rfl

end

end Instruction

theorem Expr.Alike.symm {ordinals : Int → Int → Prop} {literals : Literal → Literal → Prop}
    {e e' : Expr} (h : Alike ordinals literals e e') :
    Alike (fun n n' => ordinals n' n) (fun l l' => literals l' l) e' e := by
  induction h with
  | hole => exact .hole
  | literal h => exact .literal h
  | name w => exact .name w
  | mapped h tracker ih => exact .mapped ih tracker
  | binary op first second ihf ihs => exact .binary op ihf ihs
  | logical op number first second ihf ihs => exact .logical op number ihf ihs
  | negation number h ih => exact .negation number ih
  | update op tracker h ih => exact .update op tracker ih
  | updateMapped op tracker first second ihf ihs => exact .updateMapped op tracker ihf ihs

open Instruction in
/-- The code of an expression from another slot on is its code with all slots moved. Ordinals do not
count. -/
theorem Code.relocate {b : Bindings} {ordinals : Int → Int → Prop}
    {literals : Literal → Literal → Prop} {e e' : Expr} {n m r : Nat} {code : List Instruction}
    {d : Int} (h : Code b e n code r) (alike : Expr.Alike ordinals literals e e')
    (same : ∀ l l', literals l l' → l = l') (start : (m : Int) = n + d) :
    ∃ r' : Nat, (r' : Int) = r + d ∧ Code b e' m (code.map (moveSlots d)) r' := by
  induction h generalizing e' m with
  | literal l n =>
    cases alike with
    | literal related =>
      obtain rfl := same _ _ related
      exact ⟨m, start, .literal l m⟩
  | unbound n free =>
    cases alike
    exact ⟨m, start, .unbound m free⟩
  | bound n found placed =>
    cases alike
    exact ⟨m, start, .bound m found placed⟩
  | mapped known hk ih =>
    cases alike with
    | mapped alike =>
      obtain ⟨k', key, hk'⟩ := ih alike start
      refine ⟨k' + 1, by omega, ?_⟩
      rw [List.map_append, List.map_singleton, moveSlots_readMapped _ key]
      exact .mapped known hk'
  | @binary op left right n r r' code code' hl hr ihl ihr =>
    cases alike with
    | binary _ first second =>
      obtain ⟨p, left_eq, hl'⟩ := ihl first start
      obtain ⟨q, right_eq, hr'⟩ := ihr second (m := p + 1) (by omega)
      refine ⟨q + 1, by omega, ?_⟩
      rw [List.map_append, List.map_append, List.map_singleton,
        moveSlots_compute (by cases op <;> rfl) (.cons left_eq (.cons right_eq .nil))]
      exact .binary hl' hr'
  | @logical op ordinal left right n r r' code code' hl hr ihl ihr =>
    cases alike with
    | logical _ _ first second =>
      obtain ⟨p, left_eq, hl'⟩ := ihl first start
      obtain ⟨q, right_eq, hr'⟩ := ihr second (m := p + 1) (by omega)
      refine ⟨q + 1, by omega, ?_⟩
      rw [List.map_append, List.map_append, List.map_singleton,
        moveSlots_compute (by cases op <;> rfl) (.cons left_eq (.cons right_eq .nil))]
      exact .logical hl' hr'
  | negation ho ih =>
    cases alike with
    | negation _ alike =>
      obtain ⟨q, slot_eq, ho'⟩ := ih alike start
      refine ⟨q + 1, by omega, ?_⟩
      rw [List.map_append, List.map_singleton, moveSlots_compute rfl (.cons slot_eq .nil)]
      exact .negation ho'
  | @update op tracker value n r r' code code' id backed known ht hv iht ihv =>
    cases alike with
    | update _ _ alike =>
      obtain ⟨p, target_eq, ht'⟩ := iht (.name tracker) start
      obtain ⟨q, value_eq, hv'⟩ := ihv alike (m := p + 1) (by omega)
      have computed_eq : ((q + 1 : Nat) : Int) = (r' + 1 : Nat) + d := by omega
      refine ⟨q + 2, by omega, ?_⟩
      rw [List.map_append, List.map_append, List.map_cons, List.map_singleton,
        moveSlots_compute (by cases op <;> rfl) (.cons target_eq (.cons value_eq .nil)),
        moveSlots_write id backed computed_eq]
      exact .update known ht' hv'
  | @updateMapped op key tracker value n k r code code' id backed known hk hv ihk ihv =>
    cases alike with
    | updateMapped _ _ first second =>
      obtain ⟨p, key_eq, hk'⟩ := ihk first start
      obtain ⟨q, value_eq, hv'⟩ := ihv second (m := p + 2) (by omega)
      have read_eq : ((p + 1 : Nat) : Int) = (k + 1 : Nat) + d := by omega
      have computed_eq : ((q + 1 : Nat) : Int) = (r + 1 : Nat) + d := by omega
      refine ⟨q + 2, by omega, ?_⟩
      rw [List.map_append, List.map_append, List.map_append, List.map_singleton, List.map_cons,
        List.map_singleton, moveSlots_readMapped id key_eq, moveSlots_compute (by cases op <;> rfl)
        (.cons read_eq (.cons value_eq .nil)), moveSlots_writeMapped id backed computed_eq key_eq]
      exact .updateMapped known hk' hv'

namespace Workspace

variable {b : Bindings} {t : Text} {w w' w₁ w₂ : Workspace} {tokens alone : List Token}

/-- Whether a conversion has appended the instructions that the text has alone, with their slots
moved to the first one that is free, and has added one slot to those still to be used. In the
instructions before them, pending keywords are put in their places. -/
structure AppendsMoved (alone : List Token) (w w' : Workspace) : Prop where
  tokens : ∃ earlier code, w.emission.tokens.mapM (Token.restore w'.keywords) = .ok earlier ∧
    Instruction.ofTokens? alone = some code ∧
    w'.emission.tokens = earlier ++ (code.map (.moveSlots w.emission.next)).flatMap
      Instruction.tokens
  slots : ∃ slot, w'.emission.slots = w.emission.slots ++ [slot]

theorem Sound.known_of_build (sound : w.Sound) {tree : Expr} {s : SetAside}
    (built : SetAside.build t w.setAside = .ok tree s) :
    tree.Numbered s.keywords ∧ w.emission.Known s.keywords := by
  obtain ⟨-, longer, trees⟩ := SetAside.sound_build t sound.setAside
  rw [Attempt.stateAfter_of_ok built] at longer
  exact ⟨(trees tree s built).numbered,
    fun token member => (sound.emitted token member).mono longer⟩

theorem emission_tokens_of_convert (sound : w.Sound) (h : convert b t w = .ok tokens w') :
    w'.emission.tokens = tokens := by
  obtain ⟨tree, s, e, built, lowered, rfl⟩ := convert_eq_ok h
  obtain ⟨_, _, _, -, -, -, tokens_eq, -⟩ :=
    Emission.lower_eq_ok (sound.known_of_build built).1 lowered
  exact tokens_eq

/-- What is converted in a shared workspace is converted alone, to the same instructions but for
their slots. -/
theorem Sound.exists_alone (sound : w.Sound) (plain : t.IsPlain)
    (room : w.keywords.length + t.length ≤ 10 ^ maxDecimalDigits)
    (h : convert b t w = .ok tokens w') :
    ∃ alone w₀, convert b t {} = .ok alone w₀ ∧ AppendsMoved alone w w' := by
  have related := SetAside.inStep_build_of_plain plain rfl rfl sound.setAside room
  obtain ⟨tree, s, e, built, lowered, rfl⟩ := convert_eq_ok h
  obtain ⟨earlier, code, r, hcode, restored, rfl, tokens_eq, slots, -⟩ :=
    Emission.lower_eq_ok (sound.known_of_build built).1 lowered
  rw [built] at related
  generalize built' : SetAside.build t {} = result at related
  cases related with
  | @ok _ tree' _ s' _ alike =>
    -- The code is moved to the first slot, and back to where it is.
    obtain ⟨r', -, hcode'⟩ :=
      hcode.relocate (m := 0) (d := -w.emission.next) alike (fun _ _ same => same) (by simp)
    obtain ⟨r'', -, back⟩ := hcode'.relocate (m := w.emission.next) (d := w.emission.next)
      alike.symm (fun _ _ same => same.symm) (by simp)
    obtain ⟨same, -⟩ := hcode.unique back
    obtain ⟨w₀, converted⟩ := convert_of_code built' hcode'
    refine ⟨_, w₀, converted,
      ⟨earlier, _, restored, Instruction.ofTokens?_flatMap_tokens hcode'.isComplete, ?_⟩, r, slots⟩
    rw [tokens_eq, ← same]

/-- What is converted alone is converted in a shared workspace. -/
theorem Sound.exists_shared (sound : w.Sound) (plain : t.IsPlain)
    (room : w.keywords.length + t.length ≤ 10 ^ maxDecimalDigits) {w₀ : Workspace}
    (h : convert b t {} = .ok alone w₀) : ∃ tokens w', convert b t w = .ok tokens w' := by
  have related := SetAside.inStep_build_of_plain plain rfl rfl sound.setAside room
  obtain ⟨tree', s', code, r, built', -, hcode, -⟩ := convert_code h
  rw [built'] at related
  generalize built : SetAside.build t w.setAside = result at related
  cases related with
  | @ok tree _ s _ _ alike =>
    obtain ⟨numbered, known⟩ := sound.known_of_build built
    obtain ⟨r', -, moved⟩ := hcode.relocate (m := w.emission.next) (d := w.emission.next) alike.symm
      (fun _ _ same => same.symm) (by simp)
    obtain ⟨earlier, restored, -⟩ := known.exists_restored
    obtain ⟨e, lowered⟩ := Emission.lower_of_code numbered moved restored
    exact ⟨_, _, convert_of_lower built lowered⟩

/-- The instructions of a conversion that succeeds stay as they are while others follow. -/
theorem Evolves.isPrefix_of_convert {Allowed : Text → Prop} (sound : w₁.Sound)
    (converted : Workspace.convert b t w₁ = .ok tokens w₂) (h : Evolves Allowed w₂ w) :
    tokens <+: w.emission.tokens := by
  have finished := sound.finished_of_convert converted
  have after : w₂.Sound :=
    ((meets_convert (by simp) b t).of_ok ⟨sound, List.nil_prefix⟩ converted).1.sound
  have starts : tokens <+: w₂.emission.tokens := by rw [emission_tokens_of_convert sound converted]
  exact (h.soundBehind finished ⟨after, starts⟩).starts

/-- Conversions that share a workspace do not disturb each other. After any conversions of plain
texts, each of which may have failed, a plain text is converted exactly if it is converted alone,
and to the same instructions with their slots moved; one slot is added. The instructions of every
earlier conversion that succeeded stay as they are. There has to be room for the numbers of the
keywords: one with more than `maxDecimalDigits` digits is not read back. -/
theorem convert_undisturbed (reached : Evolves Text.IsPlain {} w) (plain : t.IsPlain)
    (room : w.keywords.length + t.length ≤ 10 ^ maxDecimalDigits) (b : Bindings) :
    ((∃ tokens w', convert b t w = .ok tokens w') ↔ ∃ alone w₀, convert b t {} = .ok alone w₀) ∧
      (∀ tokens w' alone w₀, convert b t w = .ok tokens w' → convert b t {} = .ok alone w₀ →
        w'.emission.tokens = tokens ∧ AppendsMoved alone w w') ∧
      ∀ b₁ t₁ w₁ tokens₁ w₂, Evolves Text.IsPlain {} w₁ → convert b₁ t₁ w₁ = .ok tokens₁ w₂ →
        Evolves Text.IsPlain w₂ w → tokens₁ <+: ((convert b t).stateAfter w).emission.tokens := by
  have sound := reached.sound sound_empty
  refine ⟨⟨?_, ?_⟩, ?_, ?_⟩
  · rintro ⟨tokens, w', converted⟩
    obtain ⟨alone, w₀, converted', -⟩ := sound.exists_alone plain room converted
    exact ⟨alone, w₀, converted'⟩
  · rintro ⟨alone, w₀, converted⟩
    exact sound.exists_shared plain room converted
  · intro tokens w' alone w₀ converted converted'
    obtain ⟨alone', _, again, appends⟩ := sound.exists_alone plain room converted
    rw [converted'] at again
    cases again
    exact ⟨emission_tokens_of_convert sound converted, appends⟩
  · intro b₁ t₁ w₁ tokens₁ w₂ reached₁ converted later
    exact (later.convert b plain).isPrefix_of_convert (reached₁.sound sound_empty) converted

/-- The text of a conversion that fails at an unknown tracker, with the keyword of its group still
pending. -/
def interruptedText : Text := "(1 == 1 AND a == 2) OR TRU:x += [2 + 3]".toList

/-- The text of a conversion that succeeds. -/
def negatedText : Text := "NOT (a == 1)".toList

/-- A text with a keyword, a string and a subexpression. -/
def bracketedText : Text := "NOT [x + 1] == 'y' OR 2 > z".toList

theorem convert_undisturbed_interrupted :
    (convert {} interruptedText).succeeds {} = false ∧
      ∃ failed, (convert {} interruptedText).stateAfter {} = failed ∧
      failed.emission.slots = [6] ∧ ∃ tokens₁ w₁, convert {} negatedText failed = .ok tokens₁ w₁ ∧
        ∃ tokens w₂ alone w₀, convert {} bracketedText w₁ = .ok tokens w₂ ∧
        convert {} bracketedText {} = .ok alone w₀ ∧
          AppendsMoved alone w₁ w₂ ∧ tokens₁ <+: w₂.emission.tokens := by
  refine ⟨by decide +kernel, _, rfl, by decide +kernel, ?_⟩
  generalize start_eq : (convert {} interruptedText).stateAfter {} = failed
  have reached : Evolves Text.IsPlain {} failed := start_eq ▸ .convert {} (by decide +kernel) .refl
  obtain ⟨tokens₁, w₁, converted₁⟩ :=
    Attempt.succeeds_iff.mp (show (convert {} negatedText).succeeds failed = true by
      rw [← start_eq]; decide +kernel)
  have state_eq : (convert {} negatedText).stateAfter failed = w₁ :=
    Attempt.stateAfter_of_ok converted₁
  have reached₁ : Evolves Text.IsPlain {} w₁ := state_eq ▸ .convert {} (by decide +kernel) reached
  have room : w₁.keywords.length + bracketedText.length ≤ 10 ^ maxDecimalDigits := by
    rw [← state_eq, ← start_eq]
    calc _ ≤ 10 ^ 2 := by decide +kernel
      _ ≤ 10 ^ maxDecimalDigits := Nat.pow_le_pow_right (by decide) (by decide)
  obtain ⟨alone, w₀, converted₀⟩ :=
    Attempt.succeeds_iff.mp (show (convert {} bracketedText).succeeds {} = true by
      decide +kernel)
  obtain ⟨shared, appends, kept⟩ :=
    convert_undisturbed reached₁ (t := bracketedText) (by decide +kernel) room {}
  obtain ⟨tokens, w₂, converted₂⟩ := shared.mpr ⟨alone, w₀, converted₀⟩
  have starts := kept {} negatedText failed tokens₁ w₁ reached converted₁ .refl
  rw [Attempt.stateAfter_of_ok converted₂] at starts
  exact ⟨tokens₁, w₁, converted₁, tokens, w₂, alone, w₀, converted₂, converted₀,
    (appends tokens w₂ alone w₀ converted₂ converted₀).2, starts⟩

end Workspace

end PolicyRules
