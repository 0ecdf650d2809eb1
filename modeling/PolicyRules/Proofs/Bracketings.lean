import PolicyRules.Proofs.Unnesting

/-!
# Texts with paired brackets

The tree of the pairs of brackets in a text. Brackets of one kind count, all other characters are
plain. A text is balanced if it is the text of such a tree, and then taking out its bracketed parts
can be said by recursion on the tree: what follows a pair is numbered first, then what is inside it,
then the pair itself.

Main statements: `Bracketing.unnest_text` for what is taken out of a balanced text,
`balanced_of_unnest` for the texts from which parts can be taken out, `balanced_of_checkBalanced`
for the check that is made before.
-/

namespace PolicyRules

theorem Bracket.opening_ne_closing (b : Bracket) : b.opening ≠ b.closing := by
  cases b <;> decide

/-- The brackets of one kind are plain characters for the other. -/
theorem Bracket.plain_of_ne {b c : Bracket} (other : c ≠ b) :
    (c.opening ≠ b.opening ∧ c.opening ≠ b.closing) ∧ c.closing ≠ b.opening ∧
      c.closing ≠ b.closing := by
  cases b <;> cases c <;> simp_all [opening, closing]

section Numbered

variable {α : Type} {n : Nat}

/-- Entries that are listed from a number on. -/
theorem isPrefix_drop_of_append {l l' whole : List α} (h : l ++ l' <+: whole.drop n) :
    l <+: whole.drop n ∧ l' <+: whole.drop (n + l.length) := by
  refine ⟨(List.prefix_append l l').trans h, ?_⟩
  obtain ⟨more, same⟩ := h
  rw [← List.drop_drop, ← same, List.append_assoc, List.drop_left]
  exact List.prefix_append l' more

theorem getElem?_of_isPrefix_drop {a : α} {whole : List α} (h : [a] <+: whole.drop n) :
    whole[n]? = some a := by
  obtain ⟨more, same⟩ := h
  have head : (whole.drop n)[0]? = some a := by rw [← same]; rfl
  simpa using head

end Numbered

/-- A text in which the brackets of one kind are paired up. -/
inductive Bracketing (b : Bracket) where
  | nil
  | char (c : Char) (plain : c ≠ b.opening ∧ c ≠ b.closing) (rest : Bracketing b)
  | pair (inner rest : Bracketing b)

namespace Bracketing

variable {b : Bracket}

def text : Bracketing b → Text
  | nil => []
  | char c _ rest => c :: rest.text
  | pair inner rest => b.opening :: (inner.text ++ b.closing :: rest.text)

/-- The number of pairs. -/
def size : Bracketing b → Nat
  | nil => 0
  | char _ _ rest => rest.size
  | pair inner rest => rest.size + inner.size + 1

/-- The text with tokens in the place of its outermost pairs, where the first pair has the number
`n`. -/
def collapsed (token : Nat → Text) (n : Nat) : Bracketing b → Text
  | nil => []
  | char c _ rest => c :: rest.collapsed token n
  | pair inner rest => token (n + rest.size + inner.size) ++ rest.collapsed token n

/-- The texts inside the pairs, with tokens in the place of the pairs in them. -/
def parts (token : Nat → Text) (n : Nat) : Bracketing b → List Text
  | nil => []
  | char _ _ rest => rest.parts token n
  | pair inner rest =>
    rest.parts token n ++ (inner.parts token (n + rest.size) ++
      [inner.collapsed token (n + rest.size)])

theorem length_parts (token : Nat → Text) (f : Bracketing b) (n : Nat) :
    (f.parts token n).length = f.size := by
  induction f generalizing n with
  | nil => rfl
  | char c plain rest ih => exact ih n
  | pair inner rest ihInner ihRest =>
    simp only [parts, size, List.length_append, List.length_singleton, ihInner, ihRest]
    omega

theorem size_eq_count (f : Bracketing b) : f.size = f.text.count b.opening := by
  induction f with
  | nil => rfl
  | char c plain rest ih => rw [size, text, List.count_cons_of_ne plain.1, ih]
  | pair inner rest ihInner ihRest =>
    rw [size, text, List.count_cons_self, List.count_append,
      List.count_cons_of_ne b.opening_ne_closing.symm, ihInner, ihRest]
    omega

/-- Reading a balanced text backwards leaves the brackets that wait as they are. -/
theorem unnestFrom_text (token : Nat → Text) (f : Bracketing b) (current : Text)
    (behind done : List Text) (more : Text) :
    unnestFrom b token ⟨current, behind, done⟩ (f.text.reverse ++ more) =
      unnestFrom b token ⟨f.collapsed token done.length ++ current, behind,
        done ++ f.parts token done.length⟩ more := by
  induction f generalizing current behind done more with
  | nil => simp [text, collapsed, parts]
  | char c plain rest ih =>
    have single : ∀ d ∈ [c], d ≠ b.opening ∧ d ≠ b.closing := List.forall_mem_singleton.mpr plain
    rw [text, List.reverse_cons, List.append_assoc, ih]
    exact Shows.unnestFrom_plain single _ _ _ _
  | pair inner rest ihInner ihRest =>
    have reversed : (pair inner rest).text.reverse ++ more =
        rest.text.reverse ++ (b.closing :: (inner.text.reverse ++ b.opening :: more)) := by
      simp [text]
    have number : (done ++ rest.parts token done.length).length = done.length + rest.size := by
      rw [List.length_append, length_parts]
    rw [reversed, ihRest, Shows.unnestFrom_closing, ihInner, Shows.unnestFrom_opening, number]
    simp only [List.append_nil, List.length_append, length_parts, collapsed, parts,
      List.append_assoc, Nat.add_assoc]

/-- What is taken out of a balanced text. -/
theorem unnest_text (token : Nat → Text) (f : Bracketing b) :
    unnest b token f.text = .ok (f.collapsed token 0, f.parts token 0) := by
  have run := f.unnestFrom_text token [] [] [] []
  rw [List.append_nil, List.append_nil] at run
  rw [unnest, run, unnestFrom]
  rfl

section Numbers

variable {token : Nat → Text}

theorem collapsed_shift (k : Nat) (f : Bracketing b) (n : Nat) :
    f.collapsed (fun m => token (k + m)) n = f.collapsed token (k + n) := by
  induction f with
  | nil => rfl
  | char c plain rest ih => simp only [collapsed, ih]
  | pair inner rest ihInner ihRest => simp only [collapsed, ihRest, Nat.add_assoc]

theorem parts_shift (k : Nat) (f : Bracketing b) (n : Nat) :
    f.parts (fun m => token (k + m)) n = f.parts token (k + n) := by
  induction f generalizing n with
  | nil => rfl
  | char c plain rest ih => exact ih n
  | pair inner rest ihInner ihRest =>
    simp only [parts, ihInner, ihRest, collapsed_shift, Nat.add_assoc]

end Numbers

section Plain

variable {token : Nat → Text} (tokens : ∀ n, ∀ c ∈ token n, c ≠ b.opening ∧ c ≠ b.closing)

include tokens

/-- No bracket is left. -/
theorem plain_collapsed (f : Bracketing b) (n : Nat) :
    ∀ c ∈ f.collapsed token n, c ≠ b.opening ∧ c ≠ b.closing := by
  induction f with
  | nil => simp [collapsed]
  | char c plain rest ih => exact List.forall_mem_cons.mpr ⟨plain, ih⟩
  | pair inner rest ihInner ihRest => exact List.forall_mem_append.mpr ⟨tokens _, ihRest⟩

theorem plain_parts (f : Bracketing b) (n : Nat) :
    ∀ part ∈ f.parts token n, ∀ c ∈ part, c ≠ b.opening ∧ c ≠ b.closing := by
  induction f generalizing n with
  | nil => simp [parts]
  | char c plain rest ih => exact ih n
  | pair inner rest ihInner ihRest =>
    refine List.forall_mem_append.mpr ⟨ihRest n, List.forall_mem_append.mpr ⟨ihInner _, ?_⟩⟩
    exact List.forall_mem_singleton.mpr (plain_collapsed tokens inner _)

end Plain

/-- What is inside a pair is known from the text that begins behind the opening bracket. -/
theorem eq_of_text_append {f g : Bracketing b} {t u : Text}
    (h : f.text ++ b.closing :: t = g.text ++ b.closing :: u) : f.text = g.text ∧ t = u := by
  have differ := b.opening_ne_closing
  induction f generalizing g t u with
  | nil =>
    cases g with
    | nil => exact ⟨rfl, (List.cons.inj h).2⟩
    | char d plain rest => exact absurd (List.cons.inj h).1.symm plain.2
    | pair inner rest => exact absurd (List.cons.inj h).1.symm differ
  | char c plain rest ih =>
    cases g with
    | nil => exact absurd (List.cons.inj h).1 plain.2
    | char d plain' rest' =>
      obtain ⟨rfl, tail⟩ := List.cons.inj h
      obtain ⟨same, behind⟩ := ih tail
      exact ⟨by rw [text, text, same], behind⟩
    | pair inner' rest' => exact absurd (List.cons.inj h).1 plain.1
  | pair inner rest ihInner ihRest =>
    cases g with
    | nil => exact absurd (List.cons.inj h).1 differ
    | char d plain' rest' => exact absurd (List.cons.inj h).1.symm plain'.1
    | pair inner' rest' =>
      simp only [text, List.cons_append, List.append_assoc, List.cons.injEq, true_and] at h
      obtain ⟨sameInner, tail⟩ := ihInner h
      obtain ⟨sameRest, behind⟩ := ihRest tail
      exact ⟨by rw [text, text, sameInner, sameRest], behind⟩

end Bracketing

/-- Whether the brackets of a kind are balanced in a text, whatever other characters it has. -/
def Balanced (b : Bracket) (t : Text) : Prop := ∃ f : Bracketing b, f.text = t

/-- Whether a text closes `n` brackets more than it opens and is paired up otherwise. -/
inductive Closes (b : Bracket) : Nat → Text → Prop
  | text (f : Bracketing b) : Closes b 0 f.text
  | closing (f : Bracketing b) {n : Nat} {t : Text} (h : Closes b n t) :
    Closes b (n + 1) (f.text ++ b.closing :: t)

namespace Closes

variable {b : Bracket} {n : Nat} {t : Text}

theorem balanced (h : Closes b 0 t) : Balanced b t := by
  cases h with
  | text f => exact ⟨f, rfl⟩

theorem cons {c : Char} (plain : c ≠ b.opening ∧ c ≠ b.closing) (h : Closes b n t) :
    Closes b n (c :: t) := by
  cases h with
  | text f => exact .text (.char c plain f)
  | closing f h => exact .closing (.char c plain f) h

theorem cons_closing (h : Closes b n t) : Closes b (n + 1) (b.closing :: t) :=
  .closing .nil h

theorem cons_opening (h : Closes b (n + 1) t) : Closes b n (b.opening :: t) := by
  cases h with
  | closing f h =>
    cases h with
    | text g => exact .text (.pair f g)
    | @closing g n t h =>
      have joined : b.opening :: (f.text ++ b.closing :: (g.text ++ b.closing :: t)) =
          (Bracketing.pair f g).text ++ b.closing :: t := by simp [Bracketing.text]
      rw [joined]
      exact .closing _ h

end Closes

section Reading

variable {b : Bracket} {token : Nat → Text}

/-- The invariant of reading backwards is that as many brackets wait as what has been read
closes. -/
theorem balanced_of_unnestFrom {u u' : Unnested} {reversed read : Text}
    (h : unnestFrom b token u reversed = .ok u') (closes : Closes b u.behind.length read) :
    Balanced b (reversed.reverse ++ read) := by
  induction reversed generalizing u read with
  | nil =>
    rw [unnestFrom] at h
    split at h
    · next none =>
      rw [List.isEmpty_iff.mp none] at closes
      exact closes.balanced
    · cases h
  | cons c cs ih =>
    rw [List.reverse_cons, List.append_assoc]
    rw [unnestFrom] at h
    by_cases closing : c = b.closing
    · subst closing
      rw [if_pos rfl] at h
      exact ih h closes.cons_closing
    · rw [if_neg closing] at h
      by_cases opening : c = b.opening
      · subst opening
        rw [if_pos rfl] at h
        split at h
        · cases h
        · next next behind waiting =>
          rw [waiting] at closes
          exact ih h closes.cons_opening
      · rw [if_neg opening] at h
        exact ih h (closes.cons ⟨opening, closing⟩)

/-- Parts are taken out of balanced texts only. -/
theorem balanced_of_unnest {t : Text} {result : Text × List Text}
    (h : unnest b token t = .ok result) : Balanced b t := by
  obtain ⟨u, taken, -⟩ := map_eq_ok_iff.mp h
  simpa [Bracketing.text] using balanced_of_unnestFrom taken (.text .nil)

theorem eq_opening_of_opened? {c : Char} (h : Bracket.opened? c = some b) : c = b.opening := by
  unfold Bracket.opened? at h
  split at h
  · next here =>
    cases h
    exact here
  · split at h
    · next here =>
      cases h
      exact here
    · cases h

theorem eq_closing_of_closed? {c : Char} (h : Bracket.closed? c = some b) : c = b.closing := by
  unfold Bracket.closed? at h
  split at h
  · next here =>
    cases h
    exact here
  · split at h
    · next here =>
      cases h
      exact here
    · cases h

/-- The invariant of the check is that what follows closes the brackets that are open. -/
theorem closes_of_findImbalance {opened : List (Bracket × Nat)} {position : Nat} {t : Text}
    (h : findImbalance opened position t = none) : Closes b (opened.countP (·.1 = b)) t := by
  induction t generalizing opened position with
  | nil =>
    cases opened with
    | nil => exact .text .nil
    | cons innermost outer => cases h
  | cons c cs ih =>
    rw [findImbalance] at h
    split at h
    · next b' opens =>
      have rest := ih h
      rw [eq_opening_of_opened? opens]
      by_cases same : b' = b
      · subst same
        rw [List.countP_cons_of_pos (by simp)] at rest
        exact rest.cons_opening
      · rw [List.countP_cons_of_neg (by simpa using same)] at rest
        exact rest.cons (Bracket.plain_of_ne same).1
    · next opens closes =>
      refine (ih h).cons ⟨?_, ?_⟩
      · rintro rfl
        rw [Bracket.opened?_opening] at opens
        cases opens
      · rintro rfl
        rw [Bracket.closed?_closing] at closes
        cases closes
    · next b' opens closes =>
      rw [eq_closing_of_closed? closes]
      split at h
      · next innermost place outer =>
        split at h
        · next partner =>
          subst partner
          by_cases same : innermost = b
          · subst same
            rw [List.countP_cons_of_pos (by simp)]
            exact (ih h).cons_closing
          · rw [List.countP_cons_of_neg (by simpa using same)]
            exact (ih h).cons (Bracket.plain_of_ne same).2
        · cases h
      · cases h

/-- A text that passes the check is balanced in the brackets of each kind. -/
theorem balanced_of_checkBalanced (b : Bracket) {t : Text} (h : checkBalanced t = .ok ()) :
    Balanced b t := by
  rw [checkBalanced] at h
  split at h
  · cases h
  · next none => exact (closes_of_findImbalance none).balanced

end Reading

end PolicyRules
