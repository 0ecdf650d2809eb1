import PolicyRules.Nesting.Pairs
import PolicyRules.Proofs.Layout
import PolicyRules.Proofs.Success

/-!
# Bracketed parts of layouts

What taking bracketed parts out of a text does to its layout. In the view that results the parts are
shown by tokens, and a part is shown by the token of its number if the text with that number has the
layout of the part. Parts are numbered before the parts around them, so only tokens with smaller
numbers stand in a part.

Main statements: `Shows.unnest` for taking parts out, `Shows.checkBalanced` for the check before it.
What holds of any text while parts are taken out of it is proved by `unnest_induction`. Reading a
text backwards finds the pairs that are found when the last opening bracket is paired with the first
closing one behind it, again and again (`unnest_eq_iff`).
-/

namespace PolicyRules

/-- The view in which the parts in brackets of one kind are shown by tokens with numbers below
`n`. -/
def View.aside (v : View) (b : Bracket) (word : Nat → Text) (parts : List Text) : (n : Nat) → View
  | 0 => { v with raw := fun c inner => c ≠ b ∧ v.raw c inner }
  | n + 1 =>
    { v.aside b word parts n with
      token := fun c inner w => (v.aside b word parts n).token c inner w ∨
        c = b ∧ v.raw b inner ∧ w = word n ∧
          ∃ part, parts[n]? = some part ∧ Shows (v.aside b word parts n) inner part }

namespace View

variable {v : View} {b c : Bracket} {word : Nat → Text} {parts : List Text} {inner : Layout}
  {w : Text}

@[simp] theorem aside_item (n : Nat) : (v.aside b word parts n).item = v.item := by
  induction n with
  | zero => rfl
  | succ n ih => exact ih

@[simp] theorem aside_raw (n : Nat) :
    (v.aside b word parts n).raw c inner ↔ c ≠ b ∧ v.raw c inner := by
  induction n with
  | zero => exact Iff.rfl
  | succ n ih => exact ih

theorem aside_token {n : Nat} :
    (v.aside b word parts n).token c inner w ↔ v.token c inner w ∨
      ∃ m < n, c = b ∧ v.raw b inner ∧ w = word m ∧
        ∃ part, parts[m]? = some part ∧ Shows (v.aside b word parts m) inner part := by
  induction n with
  | zero => simp [aside]
  | succ n ih =>
    have split : (v.aside b word parts (n + 1)).token c inner w ↔
        (v.aside b word parts n).token c inner w ∨ c = b ∧ v.raw b inner ∧ w = word n ∧
          ∃ part, parts[n]? = some part ∧ Shows (v.aside b word parts n) inner part := Iff.rfl
    rw [split, ih]
    simp only [Nat.lt_succ_iff_lt_or_eq, or_and_right, exists_or, exists_eq_left, or_assoc]

theorem Leads.aside {l rest : Layout} (h : v.Leads l rest w) (n : Nat) :
    (v.aside b word parts n).Leads l rest w := by
  cases h with
  | item shown => exact .item (by simpa using shown)
  | token shown => exact .token (aside_token.mpr (.inl shown))

end View

/-- The characters of brackets. -/
def bracketChars : List Char := ['(', ')', '[', ']']

/-- Whether no word of a view has a bracket in it. -/
def View.Unbracketed (v : View) : Prop :=
  ∀ l rest w, v.Leads l rest w → ∀ c ∈ w, c ∉ bracketChars

theorem ne_of_not_mem_bracketChars {c : Char} (h : c ∉ bracketChars) (b : Bracket) :
    c ≠ b.opening ∧ c ≠ b.closing := by
  simp only [bracketChars, List.mem_cons, List.not_mem_nil, or_false, not_or] at h
  cases b
  · exact ⟨h.1, h.2.1⟩
  · exact ⟨h.2.2.1, h.2.2.2⟩

theorem unopened_of_not_mem_bracketChars {c : Char} (h : c ∉ bracketChars) :
    Bracket.opened? c = none ∧ Bracket.closed? c = none := by
  simp only [bracketChars, List.mem_cons, List.not_mem_nil, or_false, not_or] at h
  simp [Bracket.opened?, Bracket.closed?, h]

namespace Shows

variable {v : View} {b : Bracket} {token word : Nat → Text} {parts : List Text} {l : Layout}
  {t : Text}

theorem aside_mono {m n : Nat} (le : m ≤ n) (h : Shows (v.aside b word parts m) l t) :
    Shows (v.aside b word parts n) l t := by
  refine h.mono (by simp) (fun c inner w shown => ?_) (by simp)
  rw [View.aside_token] at shown ⊢
  exact shown.imp_right fun ⟨k, lt, shown⟩ => ⟨k, Nat.lt_of_lt_of_le lt le, shown⟩

theorem unnestFrom_closing (current : Text) (behind done : List Text) (more : Text) :
    unnestFrom b token ⟨current, behind, done⟩ (b.closing :: more) =
      unnestFrom b token ⟨[], current :: behind, done⟩ more := by
  rw [unnestFrom, if_pos rfl]

theorem unnestFrom_opening (current next : Text) (behind done : List Text) (more : Text) :
    unnestFrom b token ⟨current, next :: behind, done⟩ (b.opening :: more) =
      unnestFrom b token ⟨token done.length ++ next, behind, done ++ [current]⟩ more := by
  have apart : b.opening ≠ b.closing := by cases b <;> decide
  rw [unnestFrom, if_neg apart, if_pos rfl]

theorem unnestFrom_plain {w : Text} (plain : ∀ c ∈ w, c ≠ b.opening ∧ c ≠ b.closing)
    (current : Text) (behind done : List Text) (more : Text) :
    unnestFrom b token ⟨current, behind, done⟩ (w.reverse ++ more) =
      unnestFrom b token ⟨w ++ current, behind, done⟩ more := by
  induction w generalizing more with
  | nil => rfl
  | cons c cs ih =>
    obtain ⟨⟨opening, closing⟩, plain⟩ := List.forall_mem_cons.mp plain
    rw [List.reverse_cons, List.append_assoc, ih plain]
    simp [unnestFrom, opening, closing]

/-- Whether texts that are taken out have the layouts of parts in brackets. The first of them has
the number given. -/
def Taken (v : View) (b : Bracket) (word : Nat → Text) (parts : List Text) (start : Nat)
    (texts : List Text) : Prop :=
  ∀ n part, texts[n]? = some part →
    ∃ inner, v.raw b inner ∧ Shows (v.aside b word parts (start + n)) inner part

theorem Taken.append {start : Nat} {texts texts' : List Text} (h : Taken v b word parts start texts)
    (h' : Taken v b word parts (start + texts.length) texts') :
    Taken v b word parts start (texts ++ texts') := by
  intro n part found
  rw [List.getElem?_append] at found
  split at found
  · exact h n part found
  · have shown := h' _ _ found
    rwa [Nat.add_assoc, Nat.add_sub_cancel' (by omega)] at shown

/-- Taking parts out of a text from right to left gives texts with the same layouts. -/
theorem unnestFrom (plain : v.Unbracketed)
    (tokens : ∀ n, ∃ before behind, token n = before ++ (word n ++ behind) ∧
      (∀ c ∈ before, c = ' ') ∧
      ∀ c ∈ behind, c = ' ') (h : Shows v l t) (done : List Text) :
    ∃ t' new, (Gap t → Gap t') ∧
      (∀ current behind more, unnestFrom b token ⟨current, behind, done⟩ (t.reverse ++ more) =
        unnestFrom b token ⟨t' ++ current, behind, done ++ new⟩ more) ∧
      ∀ parts, done ++ new <+: parts → Shows (v.aside b word parts (done ++ new).length) l t' ∧
        Taken v b word parts done.length new := by
  induction h using Shows.induction generalizing done with
  | nil => exact ⟨[], [], id, by simp, fun parts _ => ⟨.nil, by simp [Taken]⟩⟩
  | space l t h ih =>
    obtain ⟨t', new, -, taken, shown⟩ := ih done
    refine ⟨' ' :: t', new, by simp, fun current behind more => ?_, fun parts known => ?_⟩
    · have blank : ∀ c ∈ [' '], c ≠ b.opening ∧ c ≠ b.closing :=
        List.forall_mem_singleton.mpr (by cases b <;> decide)
      rw [List.reverse_cons, List.append_assoc, taken]
      exact unnestFrom_plain blank _ _ _ _
    · exact ⟨.space (shown parts known).1, (shown parts known).2⟩
  | word l rest w t leads gap h ih =>
    obtain ⟨t', new, gap', taken, shown⟩ := ih done
    refine ⟨w ++ t', new, fun gap => ?_, fun current behind more => ?_, fun parts known => ?_⟩
    · cases w with
      | nil => exact gap' gap
      | cons c cs => exact gap
    · have plain := fun c member => ne_of_not_mem_bracketChars (plain l rest w leads c member) b
      rw [List.reverse_append, List.append_assoc, taken, unnestFrom_plain plain, List.append_assoc]
    · exact ⟨.leads (leads.aside _) (gap' gap) (shown parts known).1, (shown parts known).2⟩
  | raw c inner rest g t stands inside gap h ih ih' =>
    obtain ⟨t', new, gap', taken, shown⟩ := ih' done
    obtain ⟨g', new', -, taken', shown'⟩ := ih (done ++ new)
    have noGap : ¬ Gap (c.opening :: (g ++ c.closing :: t)) := fun gap => by
      have opening := gap c.opening rfl
      cases c <;> cases opening
    by_cases same : c = b
    · -- The part is taken out, and its number is that of the last part so far.
      subst same
      generalize earlier_eq : done ++ new ++ new' = earlier at taken' shown'
      have all_eq : done ++ (new ++ new' ++ [g']) = earlier ++ [g'] := by simp [← earlier_eq]
      obtain ⟨before, after, token_eq, blank, blank'⟩ := tokens earlier.length
      refine ⟨before ++ (word earlier.length ++ (after ++ t')), new ++ new' ++ [g'],
        fun gap => absurd gap noGap, fun current behind more => ?_, fun parts known => ?_⟩
      · have reversed : (c.opening :: (g ++ c.closing :: t)).reverse ++ more =
            t.reverse ++ (c.closing :: (g.reverse ++ c.opening :: more)) := by simp
        rw [reversed, taken, unnestFrom_closing, taken', unnestFrom_opening, token_eq, all_eq]
        simp
      · rw [all_eq] at known ⊢
        have found : parts[earlier.length]? = some g' := by
          obtain ⟨more, rfl⟩ := known
          simp
        have known' : earlier <+: parts := .trans (List.prefix_append _ _) known
        have known'' : done ++ new <+: parts := .trans ⟨new', earlier_eq⟩ known'
        obtain ⟨rest_shown, rest_taken⟩ := shown parts known''
        obtain ⟨inner_shown, inner_taken⟩ := shown' parts known'
        have number_eq : done.length + (new ++ new').length = earlier.length := by
          simp [← earlier_eq]
        have part_taken : Taken v c word parts (done.length + (new ++ new').length) [g'] := by
          intro n part found
          obtain ⟨rfl, rfl⟩ : n = 0 ∧ g' = part := by simpa [List.getElem?_singleton] using found
          rw [number_eq]
          exact ⟨inner, stands, inner_shown⟩
        refine ⟨?_, (rest_taken.append (by simpa using inner_taken)).append part_taken⟩
        have le : (done ++ new).length ≤ (earlier ++ [g']).length := by simp [← earlier_eq]
        have shown_token : (v.aside c word parts (earlier ++ [g']).length).token c inner
            (word earlier.length) :=
          View.aside_token.mpr (.inr ⟨_, by simp, rfl, stands, rfl, g', found, inner_shown⟩)
        exact .spaces (.token shown_token ((gap' gap).spaces blank')
          ((rest_shown.aside_mono le).spaces blank')) blank
    · -- Brackets of the other kind are like other characters.
      have plain_opening : ∀ d ∈ [c.opening], d ≠ b.opening ∧ d ≠ b.closing := by
        rw [List.forall_mem_singleton]
        cases b <;> cases c <;> first | exact absurd rfl same | decide
      have plain_closing : ∀ d ∈ [c.closing], d ≠ b.opening ∧ d ≠ b.closing := by
        rw [List.forall_mem_singleton]
        cases b <;> cases c <;> first | exact absurd rfl same | decide
      refine ⟨c.opening :: (g' ++ c.closing :: t'), new ++ new', fun gap => absurd gap noGap,
        fun current behind more => ?_, fun parts known => ?_⟩
      · have reversed : (c.opening :: (g ++ c.closing :: t)).reverse ++ more =
            t.reverse ++ ([c.closing].reverse ++ (g.reverse ++ ([c.opening].reverse ++ more))) := by
          simp
        rw [reversed, taken, unnestFrom_plain plain_closing, taken', unnestFrom_plain plain_opening]
        simp
      · rw [← List.append_assoc] at known ⊢
        obtain ⟨rest_shown, rest_taken⟩ := shown parts (.trans (List.prefix_append _ new') known)
        obtain ⟨inner_shown, inner_taken⟩ := shown' parts known
        refine ⟨.raw (by simp [same, stands]) inner_shown (gap' gap) (rest_shown.aside_mono
          (by simp)), rest_taken.append (by simpa using inner_taken)⟩

variable (b token word) in
/-- The parts of a text that are taken out have the layouts of the parts in brackets, and the text
keeps its layout. -/
theorem unnest (plain : v.Unbracketed)
    (tokens : ∀ n, ∃ before behind, token n = before ++ (word n ++ behind) ∧
      (∀ c ∈ before, c = ' ') ∧
      ∀ c ∈ behind, c = ' ') (h : Shows v l t) :
    ∃ t' parts, PolicyRules.unnest b token t = .ok (t', parts) ∧
      Shows (v.aside b word parts parts.length) l t' ∧ Taken v b word parts 0 parts := by
  obtain ⟨t', parts, -, taken, shown⟩ := h.unnestFrom plain tokens []
  refine ⟨t', parts, ?_, by simpa using shown parts (by simp)⟩
  have whole := taken [] [] []
  simp only [List.append_nil, List.nil_append] at whole
  rw [PolicyRules.unnest, whole, PolicyRules.unnestFrom]
  rfl

theorem findImbalance_plain {w : Text} (plain : ∀ c ∈ w, c ∉ bracketChars)
    (opened : List (Bracket × Nat)) (position : Nat) (more : Text) :
    findImbalance opened position (w ++ more) =
      findImbalance opened (position + w.length) more := by
  induction w generalizing position with
  | nil => rfl
  | cons c cs ih =>
    obtain ⟨here, later⟩ := List.forall_mem_cons.mp plain
    obtain ⟨unopened, unclosed⟩ := unopened_of_not_mem_bracketChars here
    rw [List.cons_append, findImbalance, unopened, unclosed]
    simp only [ih later, List.length_cons, Nat.add_assoc, Nat.add_comm 1]

/-- Reading a text with a layout closes every bracket that it opens. -/
theorem findImbalance_append (plain : v.Unbracketed) (h : Shows v l t)
    (opened : List (Bracket × Nat)) (position : Nat) (more : Text) :
    findImbalance opened position (t ++ more) =
      findImbalance opened (position + t.length) more := by
  induction h using Shows.induction generalizing opened position more with
  | nil => rfl
  | space l t h ih =>
    have space : ' ' ∉ bracketChars := by decide
    have step :=
      findImbalance_plain (List.forall_mem_singleton.mpr space) opened position (t ++ more)
    rw [List.cons_append, ← List.singleton_append, step, ih, Nat.add_assoc]
    rw [List.length_singleton, List.length_cons, Nat.add_comm 1]
  | word l rest w t leads gap h ih =>
    rw [List.append_assoc, findImbalance_plain (plain l rest w leads), ih, List.length_append,
      Nat.add_assoc]
  | raw b inner rest g t stands inside gap h ih ih' =>
    have text_eq : b.opening :: (g ++ b.closing :: t) ++ more =
        b.opening :: (g ++ b.closing :: (t ++ more)) := by simp
    rw [text_eq, findImbalance]
    simp only [Bracket.opened?_opening, ih]
    rw [findImbalance]
    simp only [Bracket.opened?_closing, Bracket.closed?_closing, if_true, ih', List.length_cons,
      List.length_append]
    congr 1
    omega

/-- The brackets of a text with a layout are balanced. -/
theorem checkBalanced (plain : v.Unbracketed) (h : Shows v l t) :
    PolicyRules.checkBalanced t = .ok () := by
  have closed := h.findImbalance_append plain [] 0 []
  rw [List.append_nil] at closed
  rw [PolicyRules.checkBalanced, closed]
  rfl

end Shows

section Count

variable {b : Bracket} {token : Nat → Text} {u u' : Unnested} {reversed : Text}

/-- Each opening bracket gives a part. -/
theorem length_parts_of_unnestFrom (h : unnestFrom b token u reversed = .ok u') :
    u'.parts.length = u.parts.length + reversed.count b.opening := by
  have differ : b.closing ≠ b.opening := by cases b <;> decide
  fun_induction unnestFrom b token u reversed with
  | case1 u closed =>
    cases h
    rfl
  | case2 u waiting => cases h
  | case3 u cs ih => rw [ih h, List.count_cons_of_ne differ]
  | case4 u cs here none => cases h
  | case5 u cs next behind waiting unclosed ih =>
    rw [ih h, List.count_cons_self, List.length_append, List.length_singleton]
    omega
  | case6 u c cs here there ih => rw [ih h, List.count_cons_of_ne there]

/-- How often a character stands in what has been read. -/
def Unnested.count (c : Char) (u : Unnested) : Nat :=
  u.current.count c + u.behind.flatten.count c + u.parts.flatten.count c

/-- Taking parts out does not lose any other character. -/
theorem count_of_unnestFrom {c : Char} (opening : c ≠ b.opening) (closing : c ≠ b.closing)
    (tokens : ∀ n, c ∉ token n) (h : unnestFrom b token u reversed = .ok u') :
    u'.count c = u.count c + reversed.count c := by
  fun_induction unnestFrom b token u reversed with
  | case1 u closed =>
    cases h
    rfl
  | case2 u waiting => cases h
  | case3 u cs ih =>
    rw [ih h, List.count_cons_of_ne closing.symm]
    simp only [Unnested.count, List.flatten_cons, List.count_append, List.count_nil]
    omega
  | case4 u cs here none => cases h
  | case5 u cs next behind waiting unclosed ih =>
    rw [ih h, List.count_cons_of_ne opening.symm]
    simp [Unnested.count, waiting, List.count_eq_zero_of_not_mem (tokens _)]
    omega
  | case6 u d cs here there ih =>
    rw [ih h]
    simp [Unnested.count, List.count_cons]
    omega

variable {t rest : Text} {parts : List Text}

theorem length_of_unnest (h : unnest b token t = .ok (rest, parts)) :
    parts.length = t.count b.opening := by
  obtain ⟨u, taken, same⟩ := map_eq_ok_iff.mp h
  cases same
  simpa using length_parts_of_unnestFrom taken

theorem count_of_unnest {c : Char} (opening : c ≠ b.opening) (closing : c ≠ b.closing)
    (tokens : ∀ n, c ∉ token n) (h : unnest b token t = .ok (rest, parts)) :
    rest.count c + parts.flatten.count c ≤ t.count c := by
  obtain ⟨u, taken, same⟩ := map_eq_ok_iff.mp h
  cases same
  have total := count_of_unnestFrom opening closing tokens taken
  simp only [Unnested.count, List.count_nil, List.flatten_nil, List.count_reverse] at total
  omega

end Count

section Unnest

variable {br : Bracket} {token : Nat → Text}

section

variable (Inv : List Text → Text → Prop)
  (step : ∀ parts x part y, Inv parts (x ++ br.opening :: (part ++ br.closing :: y)) →
    Inv (parts ++ [part]) (x ++ (token parts.length ++ y)))
include step

/-- What holds of a text and the parts that have been taken out of it holds until all parts are
taken out. -/
theorem unnestFrom_induction {u u' : Unnested} {reversed : Text}
    (h : unnestFrom br token u reversed = .ok u')
    (whole : Inv u.parts (reversed.reverse ++ u.text br)) : Inv u'.parts u'.current := by
  fun_induction unnestFrom br token u reversed with
  | case1 u closed =>
    cases h
    simpa [Unnested.text, List.isEmpty_iff.mp closed] using whole
  | case2 u waiting => cases h
  | case3 u cs ih | case6 u c cs here there ih => exact ih h (by simpa [Unnested.text] using whole)
  | case4 u cs here none => cases h
  | case5 u cs next behind waiting unclosed ih =>
    have nested : Inv u.parts (cs.reverse ++ br.opening ::
        (u.current ++ br.closing :: (next ++ behind.flatMap (br.closing :: ·)))) := by
      simpa [Unnested.text, waiting] using whole
    exact ih h (by simpa [Unnested.text] using step _ _ _ _ nested)

theorem unnest_induction {t rest : Text} {parts : List Text}
    (h : unnest br token t = .ok (rest, parts)) (whole : Inv [] t) : Inv parts rest := by
  obtain ⟨u, hu, same⟩ := map_eq_ok_iff.mp h
  obtain ⟨rfl, rfl⟩ := Prod.mk.inj same
  exact unnestFrom_induction Inv step hu (by simpa [Unnested.text] using whole)

end

/-- What holds of a text while parts in brackets are taken out of it, `n` of them so far, also holds
of the part that is taken out next. -/
theorem unnest_numbered {Good : Nat → Text → Prop}
    (step : ∀ n x part y, Good n (x ++ br.opening :: (part ++ br.closing :: y)) →
      Good n part ∧ Good (n + 1) (x ++ (token n ++ y)))
    {t rest : Text} {parts : List Text} (h : unnest br token t = .ok (rest, parts))
    (whole : Good 0 t) :
    Good parts.length rest ∧ ∀ n part, parts[n]? = some part → Good n part := by
  refine unnest_induction (fun parts whole => Good parts.length whole ∧
    ∀ n part, parts[n]? = some part → Good n part) (fun parts x part y holds => ?_) h ⟨whole,
    by simp⟩
  obtain ⟨inner, outer⟩ := step _ _ _ _ holds.1
  refine ⟨by simpa using outer, fun n part' found => ?_⟩
  rw [List.getElem?_append] at found
  split at found
  · exact holds.2 n part' found
  · next outside =>
    obtain ⟨rfl, rfl⟩ : n = parts.length ∧ part' = part := by
      rw [List.getElem?_singleton, Option.ite_none_right_eq_some] at found
      exact ⟨by omega, (Option.some.inj found.2).symm⟩
    exact inner

/-- What holds of a text while parts in brackets are taken out of it, also holds of the parts. -/
theorem unnest_closed {Good : Text → Prop}
    (step : ∀ x part y k, Good (x ++ br.opening :: (part ++ br.closing :: y)) →
      Good part ∧ Good (x ++ (token k ++ y)))
    {t rest : Text} {parts : List Text} (h : unnest br token t = .ok (rest, parts))
    (whole : Good t) : Good rest ∧ ∀ part ∈ parts, Good part := by
  refine unnest_induction (fun parts whole => Good whole ∧ ∀ part ∈ parts, Good part)
    (fun parts x part y holds => ?_) h ⟨whole, by simp⟩
  obtain ⟨inner, outer⟩ := step _ _ _ parts.length holds.1
  exact ⟨outer, List.forall_mem_append.mpr ⟨holds.2, List.forall_mem_singleton.mpr inner⟩⟩

end Unnest

section Pairing

variable {b : Bracket} {token : Nat → Text} {t w : Text} {done : List Text}
  {result : Except (Text × Nat) (Text × List Text)}

/-- Taking parts out one pair of brackets after the other. The last opening bracket is paired with
the first closing one behind it; the part between them is taken out, and so on with the text that
has its token in the place of the pair. -/
inductive PairsOff (b : Bracket) (token : Nat → Text) :
    List Text → Text → Except (Text × Nat) (Text × List Text) → Prop
  | pair {done : List Text} {before inner behind : Text}
    {result : Except (Text × Nat) (Text × List Text)}
    (innermost : b.opening ∉ inner) (nearest : b.closing ∉ inner) (last : b.opening ∉ behind)
    (rest : PairsOff b token (done ++ [inner]) (before ++ (token done.length ++ behind)) result) :
    PairsOff b token done (before ++ b.opening :: (inner ++ b.closing :: behind)) result
  | unclosed {done : List Text} {before behind : Text} (last : b.opening ∉ behind)
    (alone : b.closing ∉ behind) :
    PairsOff b token done (before ++ b.opening :: behind)
      (.error (before ++ b.opening :: behind, before.length))
  | unopened {done : List Text} {before behind : Text} (first : b.closing ∉ before)
    (alone : b.opening ∉ before ++ b.closing :: behind) :
    PairsOff b token done (before ++ b.closing :: behind)
      (.error (before ++ b.closing :: behind, before.length))
  | plain {done : List Text} {t : Text} (opening : b.opening ∉ t) (closing : b.closing ∉ t) :
    PairsOff b token done t (.ok (t, done))

theorem unnestFrom_unbracketed (token : Nat → Text) (opening : b.opening ∉ w)
    (closing : b.closing ∉ w) (current : Text) (behind done : List Text) (more : Text) :
    unnestFrom b token ⟨current, behind, done⟩ (w.reverse ++ more) =
      unnestFrom b token ⟨w ++ current, behind, done⟩ more :=
  Shows.unnestFrom_plain (fun _ member =>
    ⟨ne_of_mem_of_not_mem member opening, ne_of_mem_of_not_mem member closing⟩) ..

/-- A text without opening brackets is kept in the texts behind its closing ones. -/
theorem exists_unnestFrom_unopened (token : Nat → Text) (opening : b.opening ∉ w) :
    ∃ current behind, (⟨current, behind, []⟩ : Unnested).text b = w ∧
      ∀ done more, unnestFrom b token ⟨[], [], done⟩ (w.reverse ++ more) =
        unnestFrom b token ⟨current, behind, done⟩ more := by
  induction w with
  | nil => exact ⟨[], [], rfl, fun _ _ => rfl⟩
  | cons c cs ih =>
    rw [List.mem_cons, not_or] at opening
    obtain ⟨other, opening⟩ := opening
    obtain ⟨current, behind, rfl, reads⟩ := ih opening
    by_cases closing : c = b.closing
    · refine ⟨[], current :: behind, by simp [Unnested.text, closing], fun done more => ?_⟩
      simp [reads, closing, Shows.unnestFrom_closing]
    · refine ⟨c :: current, behind, rfl, fun done more => ?_⟩
      simp [reads, unnestFrom, closing, Ne.symm other]

/-- Reading backwards pairs off the brackets. -/
theorem PairsOff.unnestFrom_eq (opening : ∀ n, b.opening ∉ token n)
    (closing : ∀ n, b.closing ∉ token n) (h : PairsOff b token done t result) :
    (unnestFrom b token ⟨[], [], done⟩ t.reverse).map (fun u => (u.current, u.parts)) = result := by
  induction h with
  | @pair done before inner behind result innermost nearest last rest ih =>
    obtain ⟨current, waiting, -, reads⟩ := exists_unnestFrom_unopened token last
    rw [← ih]
    simp only [List.reverse_append, List.reverse_cons, List.append_assoc,
      List.cons_append, List.nil_append, reads, Shows.unnestFrom_closing,
      unnestFrom_unbracketed token innermost nearest, Shows.unnestFrom_opening, List.append_nil,
      unnestFrom_unbracketed token (opening _) (closing _)]
  | @unclosed done before behind last alone =>
    have apart : b.opening ≠ b.closing := by cases b <;> decide
    have none : unnestFrom b token ⟨behind, [], done⟩ (b.opening :: before.reverse) =
        .error (before ++ b.opening :: behind, before.length) := by
      simp [unnestFrom, apart]
    rw [List.reverse_append, List.reverse_cons, List.append_assoc,
      unnestFrom_unbracketed token last alone, List.append_nil, List.singleton_append, none]
    rfl
  | @unopened done before behind first alone =>
    simp only [List.mem_append, List.mem_cons, not_or] at alone
    obtain ⟨current, waiting, rfl, reads⟩ := exists_unnestFrom_unopened token alone.2.2
    have stopped : unnestFrom b token ⟨before, current :: waiting, done⟩ [] =
        .error (before ++ b.closing :: (⟨current, waiting, []⟩ : Unnested).text b,
          before.length) := by
      simp [unnestFrom, Unnested.text]
    have read := unnestFrom_unbracketed token alone.1 first [] (current :: waiting) done []
    rw [List.reverse_append, List.reverse_cons, List.append_assoc, reads, List.singleton_append,
      Shows.unnestFrom_closing, ← List.append_nil before.reverse, read, List.append_nil, stopped]
    rfl
  | @plain done t opening closing =>
    have read := unnestFrom_unbracketed token opening closing [] [] done []
    rw [← List.append_nil t.reverse, read, List.append_nil]
    rfl

/-- Pairing off comes to an end, since each pair takes an opening bracket away. -/
theorem exists_pairsOff (opening : ∀ n, b.opening ∉ token n) (done : List Text) (t : Text) :
    ∃ result, PairsOff b token done t result := by
  generalize size : t.count b.opening = n
  induction n using Nat.strong_induction_on generalizing done t with
  | h n ih =>
    by_cases opened : b.opening ∈ t
    · obtain ⟨behind, before, same, last⟩ :=
        List.eq_append_cons_of_mem (List.mem_reverse.mpr opened)
      obtain rfl : t = before.reverse ++ b.opening :: behind.reverse := by
        simpa using congrArg List.reverse same
      rw [← List.mem_reverse] at last
      by_cases closed : b.closing ∈ behind.reverse
      · obtain ⟨inner, behind', same, nearest⟩ := List.eq_append_cons_of_mem closed
        rw [same] at size last ⊢
        simp only [List.mem_append, List.mem_cons, not_or] at last
        have fewer : (before.reverse ++ (token done.length ++ behind')).count b.opening < n := by
          simp only [← size, List.count_append, List.count_cons_self,
            List.count_eq_zero.mpr (opening done.length), List.count_eq_zero.mpr last.2.2]
          omega
        obtain ⟨result, rest⟩ := ih _ fewer (done ++ [inner]) _ rfl
        exact ⟨result, .pair last.1 nearest last.2.2 rest⟩
      · exact ⟨_, .unclosed last closed⟩
    · by_cases closed : b.closing ∈ t
      · obtain ⟨before, behind, rfl, first⟩ := List.eq_append_cons_of_mem closed
        exact ⟨_, .unopened first opened⟩
      · exact ⟨_, .plain opened closed⟩

/-- Parts are taken out as if the brackets were paired off one pair after the other. -/
theorem unnest_eq_iff (opening : ∀ n, b.opening ∉ token n) (closing : ∀ n, b.closing ∉ token n) :
    unnest b token t = result ↔ PairsOff b token [] t result := by
  refine ⟨fun h => ?_, fun h => h.unnestFrom_eq opening closing⟩
  obtain ⟨other, pairs⟩ := exists_pairsOff opening [] t
  obtain rfl : other = result := (pairs.unnestFrom_eq opening closing).symm.trans h
  exact pairs

end Pairing

end PolicyRules
