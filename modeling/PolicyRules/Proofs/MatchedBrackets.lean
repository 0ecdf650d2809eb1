import PolicyRules.Proofs.Bracketings

/-!
# Matched brackets

The pairs of square brackets in a text and what is taken out of it. Two brackets are a pair if the
text between them is balanced. Pairs are numbered by the places of their opening brackets, the last
one first, so that a pair is numbered before the pairs around it. What is taken out of a text is
then said of the text as it was given: the body of a pair with tokens in the place of the pairs in
it.

Main statement: `extractSubexpressions_pairs`.
-/

namespace PolicyRules

/-- What stands between two places of a text. -/
def Text.between (t : Text) (i j : Nat) : Text := (t.take j).drop (i + 1)

/-- Whether brackets at two places of a text are a pair. -/
def IsPair (b : Bracket) (t : Text) (i j : Nat) : Prop :=
  i < j ∧ t[i]? = some b.opening ∧ t[j]? = some b.closing ∧ Balanced b (Text.between t i j)

/-- Puts tokens in the place of pairs, which are given by the places of their brackets. The text
begins at the place `i`; its first `skip` characters belong to a pair whose token has been put. -/
def replacePairs (token : Nat → Text) (pairs : List (Nat × Nat)) : (skip i : Nat) → Text → Text
  | _, _, [] => []
  | skip + 1, i, _ :: cs => replacePairs token pairs skip (i + 1) cs
  | 0, i, c :: cs =>
    match pairs.zipIdx.find? fun p => p.1.1 == i with
    | some ((_, j), n) => token n ++ replacePairs token pairs (j - i) (i + 1) cs
    | none => c :: replacePairs token pairs 0 (i + 1) cs

theorem replacePairs_skip (token : Nat → Text) (pairs : List (Nat × Nat)) (u t : Text) (i : Nat) :
    replacePairs token pairs u.length i (u ++ t) = replacePairs token pairs 0 (i + u.length) t := by
  induction u generalizing i with
  | nil => rfl
  | cons c cs ih =>
    rw [List.length_cons, List.cons_append, replacePairs, ih]
    congr 1
    omega

section Numbers

/-- Whether pairs are listed by the places of their opening brackets, the last one first. -/
def Descending (pairs : List (Nat × Nat)) : Prop := pairs.Pairwise fun p q => q.1 < p.1

variable {pairs : List (Nat × Nat)} {i j k n m : Nat}

theorem Descending.number_unique (descending : Descending pairs) (h : pairs[n]? = some (i, j))
    (h' : pairs[m]? = some (i, k)) : n = m := by
  obtain ⟨inside, here⟩ := List.getElem?_eq_some_iff.mp h
  obtain ⟨inside', there⟩ := List.getElem?_eq_some_iff.mp h'
  have ordered := List.pairwise_iff_getElem.mp descending
  rcases Nat.lt_trichotomy n m with lt | same | lt
  · have := ordered n m inside inside' lt
    rw [here, there] at this
    exact absurd this (Nat.lt_irrefl i)
  · exact same
  · have := ordered m n inside' inside lt
    rw [here, there] at this
    exact absurd this (Nat.lt_irrefl i)

theorem Descending.find?_eq_some (descending : Descending pairs) (h : pairs[n]? = some (i, j)) :
    (pairs.zipIdx.find? fun p => p.1.1 == i) = some ((i, j), n) := by
  cases found : pairs.zipIdx.find? fun p => p.1.1 == i with
  | none =>
    have absent := List.find?_eq_none.mp found ((i, j), n) (List.mem_zipIdx_iff_getElem?.mpr h)
    simp at absent
  | some result =>
    obtain ⟨⟨i', k⟩, m⟩ := result
    obtain rfl : i' = i := by simpa using List.find?_some found
    have there := List.mem_zipIdx_iff_getElem?.mp (List.mem_of_find?_eq_some found)
    obtain rfl := descending.number_unique h there
    rw [h] at there
    rw [Option.some.inj there]

theorem find?_eq_none_of_forall (h : ∀ p ∈ pairs, p.1 ≠ i) :
    (pairs.zipIdx.find? fun p => p.1.1 == i) = none := by
  refine List.find?_eq_none.mpr fun p member => ?_
  simpa using h p.1 (List.fst_mem_of_mem_zipIdx member)

end Numbers

namespace Bracketing

variable {b : Bracket}

/-- The places of the brackets of each pair, in the order of their numbers, where the text begins at
the place `i`. -/
def pairs (i : Nat) : Bracketing b → List (Nat × Nat)
  | nil => []
  | char _ _ rest => rest.pairs (i + 1)
  | pair inner rest =>
    rest.pairs (i + 1 + inner.text.length + 1) ++
      (inner.pairs (i + 1) ++ [(i, i + 1 + inner.text.length)])

theorem length_pairs (f : Bracketing b) (i : Nat) : (f.pairs i).length = f.size := by
  induction f generalizing i with
  | nil => rfl
  | char c plain rest ih => exact ih (i + 1)
  | pair inner rest ihInner ihRest =>
    simp only [pairs, size, List.length_append, List.length_singleton, ihInner, ihRest]
    omega

/-- The opening brackets of a text are within it. -/
theorem bounds_of_mem_pairs (f : Bracketing b) {i : Nat} {p : Nat × Nat} (h : p ∈ f.pairs i) :
    i ≤ p.1 ∧ p.1 < i + f.text.length := by
  induction f generalizing i with
  | nil => cases h
  | char c plain rest ih =>
    have := ih h
    simp only [text, List.length_cons]
    omega
  | pair inner rest ihInner ihRest =>
    simp only [pairs, List.mem_append, List.mem_singleton] at h
    simp only [text, List.length_cons, List.length_append]
    rcases h with behind | inside | rfl
    · have := ihRest behind
      omega
    · have := ihInner inside
      omega
    · exact ⟨Nat.le_refl _, by omega⟩

theorem descending_pairs (f : Bracketing b) (i : Nat) : Descending (f.pairs i) := by
  induction f generalizing i with
  | nil => exact .nil
  | char c plain rest ih => exact ih (i + 1)
  | pair inner rest ihInner ihRest =>
    refine List.pairwise_append.mpr ⟨ihRest _, List.pairwise_append.mpr
      ⟨ihInner _, List.pairwise_singleton _ _, fun p member q last => ?_⟩, fun p member q earlier =>
        ?_⟩
    · have := inner.bounds_of_mem_pairs member
      rw [List.mem_singleton.mp last]
      omega
    · have behind := rest.bounds_of_mem_pairs member
      rcases List.mem_append.mp earlier with inside | last
      · have := inner.bounds_of_mem_pairs inside
        omega
      · rw [List.mem_singleton.mp last]
        omega

end Bracketing

section Places

variable {b : Bracket} {t : Text} {i j k : Nat}

theorem between_append (before inner behind : Text) (c : Char) :
    Text.between (before ++ c :: (inner ++ behind)) before.length
      (before.length + 1 + inner.length) = inner := by
  have split : before ++ c :: (inner ++ behind) = (before ++ [c]) ++ (inner ++ behind) := by simp
  have length : before.length + 1 = (before ++ [c]).length := by simp
  rw [Text.between, split, length, List.take_length_add_append, List.take_left, List.drop_left]

/-- A pair is a bracket, a balanced text and a bracket. -/
theorem isPair_iff : IsPair b t i j ↔ ∃ (before : Text) (f : Bracketing b) (behind : Text),
    t = before ++ b.opening :: (f.text ++ b.closing :: behind) ∧ i = before.length ∧
      j = i + 1 + f.text.length := by
  constructor
  · rintro ⟨lt, opening, closing, f, body⟩
    obtain ⟨insideI, opening⟩ := List.getElem?_eq_some_iff.mp opening
    obtain ⟨insideJ, closing⟩ := List.getElem?_eq_some_iff.mp closing
    have length : f.text.length = j - (i + 1) := by
      rw [body, Text.between, List.length_drop, List.length_take]
      omega
    refine ⟨t.take i, f, t.drop (j + 1), ?_, ?_, by omega⟩
    · have front : t.take j = t.take i ++ b.opening :: f.text := by
        rw [body, Text.between, ← opening]
        conv_lhs => rw [← List.take_append_drop i (t.take j)]
        rw [List.take_take, Nat.min_eq_left (Nat.le_of_lt lt), List.drop_eq_getElem_cons (by
          rw [List.length_take]; omega), List.getElem_take]
      have back : t.drop j = b.closing :: t.drop (j + 1) := by
        rw [List.drop_eq_getElem_cons insideJ, closing]
      calc t = t.take j ++ t.drop j := (List.take_append_drop j t).symm
        _ = t.take i ++ b.opening :: (f.text ++ b.closing :: t.drop (j + 1)) := by
          rw [front, back, List.append_assoc, List.cons_append]
    · rw [List.length_take]
      omega
  · rintro ⟨before, f, behind, rfl, rfl, rfl⟩
    refine ⟨by omega, by simp, ?_, f,
      (between_append before f.text (b.closing :: behind) b.opening).symm⟩
    have split : before ++ b.opening :: (f.text ++ b.closing :: behind) =
        (before ++ b.opening :: f.text) ++ b.closing :: behind := by simp
    have length : before.length + 1 + f.text.length = (before ++ b.opening :: f.text).length := by
      simp only [List.length_append, List.length_cons]
      omega
    rw [split, length]
    simp

/-- An opening bracket has one partner. -/
theorem IsPair.eq (h : IsPair b t i j) (h' : IsPair b t i k) : j = k := by
  obtain ⟨before, f, behind, rfl, place, rfl⟩ := isPair_iff.mp h
  obtain ⟨before', g, behind', same, place', rfl⟩ := isPair_iff.mp h'
  obtain ⟨-, same⟩ := List.append_inj same (place.symm.trans place')
  rw [(Bracketing.eq_of_text_append (List.cons.inj same).2).1]

end Places

namespace Bracketing

variable {b : Bracket} {token : Nat → Text}

/-- The pairs of a tree are pairs of each text that its text is a part of. -/
theorem isPair_of_mem_pairs (f : Bracketing b) (before behind : Text) {p : Nat × Nat}
    (h : p ∈ f.pairs before.length) : IsPair b (before ++ (f.text ++ behind)) p.1 p.2 := by
  induction f generalizing before behind with
  | nil => cases h
  | char c plain rest ih =>
    have moved : before ++ ((char c plain rest).text ++ behind) =
        (before ++ [c]) ++ (rest.text ++ behind) := by simp [text]
    rw [moved]
    exact ih _ _ (by simpa [pairs] using h)
  | pair inner rest ihInner ihRest =>
    have moved : before ++ ((pair inner rest).text ++ behind) =
        before ++ b.opening :: (inner.text ++ b.closing :: (rest.text ++ behind)) := by simp [text]
    rw [moved]
    simp only [pairs, List.mem_append, List.mem_singleton] at h
    rcases h with after | inside | rfl
    · have moved : before ++ b.opening :: (inner.text ++ b.closing :: (rest.text ++ behind)) =
          (before ++ b.opening :: (inner.text ++ [b.closing])) ++ (rest.text ++ behind) := by simp
      rw [moved]
      refine ihRest _ _ ?_
      have length : (before ++ b.opening :: (inner.text ++ [b.closing])).length =
          before.length + 1 + inner.text.length + 1 := by
        simp only [List.length_append, List.length_cons, List.length_nil]
        omega
      rwa [length]
    · have moved : before ++ b.opening :: (inner.text ++ b.closing :: (rest.text ++ behind)) =
          (before ++ [b.opening]) ++ (inner.text ++ b.closing :: (rest.text ++ behind)) := by simp
      rw [moved]
      exact ihInner _ _ (by simpa using inside)
    · exact isPair_iff.mpr ⟨before, inner, _, rfl, rfl, rfl⟩

/-- The length of a text up to the end of a pair. -/
theorem length_upTo (before inner : Text) :
    (before ++ b.opening :: (inner ++ [b.closing])).length =
      before.length + 1 + inner.length + 1 := by
  simp only [List.length_append, List.length_cons, List.length_nil]
  omega

/-- Each opening bracket belongs to a pair. -/
theorem exists_mem_pairs (f : Bracketing b) {i k : Nat} (h : f.text[k]? = some b.opening) :
    ∃ j, (i + k, j) ∈ f.pairs i := by
  induction f generalizing i k with
  | nil => simp [text] at h
  | char c plain rest ih =>
    cases k with
    | zero => exact absurd (Option.some.inj h) plain.1
    | succ k =>
      obtain ⟨j, member⟩ := ih (i := i + 1) h
      rw [Nat.add_right_comm] at member
      exact ⟨j, member⟩
  | pair inner rest ihInner ihRest =>
    simp only [pairs, List.mem_append, List.mem_singleton]
    cases k with
    | zero => exact ⟨_, .inr (.inr rfl)⟩
    | succ k =>
      rw [text, List.getElem?_cons_succ, List.getElem?_append] at h
      split at h
      · obtain ⟨j, member⟩ := ihInner (i := i + 1) h
        rw [Nat.add_right_comm] at member
        exact ⟨j, .inr (.inl member)⟩
      · next outside =>
        cases place : k - inner.text.length with
        | zero =>
          rw [place] at h
          exact absurd (Option.some.inj h) b.opening_ne_closing.symm
        | succ m =>
          rw [place] at h
          obtain ⟨j, member⟩ := ihRest (i := i + 1 + inner.text.length + 1) h
          have same : i + 1 + inner.text.length + 1 + m = i + (k + 1) := by omega
          rw [same] at member
          exact ⟨j, .inl member⟩

/-- The pairs of a tree are the pairs of its text. -/
theorem mem_pairs_iff (f : Bracketing b) {i j : Nat} :
    (i, j) ∈ f.pairs 0 ↔ IsPair b f.text i j := by
  have sound : ∀ p ∈ f.pairs 0, IsPair b f.text p.1 p.2 := fun p member => by
    simpa using f.isPair_of_mem_pairs [] [] member
  constructor
  · exact sound (i, j)
  · intro h
    obtain ⟨k, member⟩ := f.exists_mem_pairs (i := 0) h.2.1
    rw [Nat.zero_add] at member
    rwa [h.eq (sound _ member)]

section Replaced

variable {t : Text} {listed : List (Nat × Nat)} (descending : Descending listed)
  (opened : ∀ p ∈ listed, t[p.1]? = some b.opening)

include descending opened

/-- Putting tokens in the place of the pairs in a part of a text, where the pairs of the part are
listed from the number `n` on. -/
theorem replacePairs_text (f : Bracketing b) (before behind : Text) {n : Nat}
    (whole : t = before ++ (f.text ++ behind)) (held : f.pairs before.length <+: listed.drop n) :
    replacePairs token listed 0 before.length f.text = f.collapsed token n := by
  induction f generalizing before with
  | nil => rfl
  | char c plain rest ih =>
    have noPair : ∀ p ∈ listed, p.1 ≠ before.length := by
      intro p member same
      have here := opened p member
      rw [same, whole] at here
      simp only [text, List.cons_append, List.getElem?_append_right (Nat.le_refl _), Nat.sub_self,
        List.getElem?_cons_zero, Option.some.injEq] at here
      exact plain.1 here
    have rest_eq := ih (before ++ [c]) (by simp [whole, text]) (by simpa [pairs] using held)
    rw [List.length_append, List.length_singleton] at rest_eq
    simp only [text, replacePairs, find?_eq_none_of_forall noPair, rest_eq, collapsed]
  | pair inner rest ihInner ihRest =>
    obtain ⟨heldRest, held⟩ := isPrefix_drop_of_append held
    obtain ⟨-, held⟩ := isPrefix_drop_of_append held
    rw [length_pairs, length_pairs] at held
    have found := descending.find?_eq_some (getElem?_of_isPrefix_drop held)
    have width : before.length + 1 + inner.text.length - before.length =
        (inner.text ++ [b.closing]).length := by
      rw [List.length_append, List.length_singleton]
      omega
    have skipped :=
      replacePairs_skip token listed (inner.text ++ [b.closing]) rest.text (before.length + 1)
    rw [List.append_assoc, List.singleton_append] at skipped
    have rest_eq := ihRest (before ++ b.opening :: (inner.text ++ [b.closing]))
      (by simp [whole, text]) (by rw [length_upTo]; exact heldRest)
    rw [length_upTo, Nat.add_assoc _ inner.text.length 1] at rest_eq
    simp only [text, replacePairs, found, width, skipped, collapsed]
    rw [List.length_append, List.length_singleton, rest_eq]

/-- The parts of a text are the bodies of its pairs, with the pairs in them replaced by tokens. -/
theorem parts_eq (f : Bracketing b) (before behind : Text) {n : Nat}
    (whole : t = before ++ (f.text ++ behind)) (held : f.pairs before.length <+: listed.drop n) :
    f.parts token n = ((f.pairs before.length).zipIdx n).map fun p =>
      replacePairs token (listed.take p.2) 0 (p.1.1 + 1) (Text.between t p.1.1 p.1.2) := by
  induction f generalizing before behind n with
  | nil => rfl
  | char c plain rest ih =>
    have moved :=
      ih (before ++ [c]) behind (n := n) (by simp [whole, text]) (by simpa [pairs] using held)
    rwa [List.length_append, List.length_singleton] at moved
  | pair inner rest ihInner ihRest =>
    obtain ⟨heldRest, held⟩ := isPrefix_drop_of_append held
    obtain ⟨heldInner, -⟩ := isPrefix_drop_of_append held
    rw [length_pairs] at heldInner
    have rest_eq := ihRest (before ++ b.opening :: (inner.text ++ [b.closing])) behind
      (by simp [whole, text]) (by rw [length_upTo]; exact heldRest)
    have wholeInner : t = (before ++ [b.opening]) ++ (inner.text ++ b.closing ::
        (rest.text ++ behind)) := by
      simp [whole, text]
    have placed : (before ++ [b.opening]).length = before.length + 1 := by simp
    have inner_eq := ihInner (before ++ [b.opening]) _ wholeInner (by rw [placed]; exact heldInner)
    -- The body of the pair itself has the pairs that are listed right before it.
    have heldBody : inner.pairs (before ++ [b.opening]).length <+:
        (listed.take (n + rest.size + inner.size)).drop (n + rest.size) := by
      rw [placed, List.drop_take, Nat.add_sub_cancel_left, ← inner.length_pairs (before.length + 1)]
      exact List.prefix_take_iff.mpr ⟨heldInner, Nat.le_refl _⟩
    have body : Text.between t before.length (before.length + 1 + inner.text.length) =
        inner.text := by
      rw [wholeInner, List.append_assoc]
      exact between_append before inner.text _ b.opening
    have body_eq : replacePairs token (listed.take (n + rest.size + inner.size)) 0
        (before ++ [b.opening]).length inner.text = inner.collapsed token (n + rest.size) :=
      replacePairs_text (descending.sublist (List.take_sublist _ _))
        (fun p member => opened p (List.mem_of_mem_take member)) inner _ _ wholeInner heldBody
    rw [placed] at inner_eq body_eq
    rw [length_upTo] at rest_eq
    simp only [parts, pairs, List.zipIdx_append, List.map_append, length_pairs, ← rest_eq,
      ← inner_eq, List.zipIdx_singleton, List.map_singleton, body, body_eq]

end Replaced

end Bracketing

/-- The error of a text without a partner for each bracket. -/
theorem extractSubexpressions_of_unnest_error {start : Int} {t source : Text} {place : Nat}
    (h : unnest .square (fun n => subexpressionToken (start + n)) t = .error (source, place)) :
    extractSubexpressions start t = .error (.malformed .brackets source (some place)) := by
  rw [extractSubexpressions, h]

/-- Taking subexpressions out of a text fails exactly if its square brackets are not balanced.
Otherwise the pairs of brackets, listed by the places of their opening brackets and the last one
first, give the result: the content with the number `n` is the body of the pair with that number, in
which the pairs with smaller numbers are replaced by their tokens, and the text that is left has
tokens in the place of all its outermost pairs. -/
theorem extractSubexpressions_pairs (start : Int) (t : Text) :
    ((∃ source place,
        extractSubexpressions start t = .error (.malformed .brackets source (some place))) ↔
      ¬ Balanced .square t) ∧
    (Balanced .square t → ∃ (pairs : List (Nat × Nat)) (rest : Text) (contents : List Text),
      extractSubexpressions start t = .ok (rest, contents) ∧
      Descending pairs ∧ (∀ i j, (i, j) ∈ pairs ↔ IsPair .square t i j) ∧
      contents.length = pairs.length ∧
      (∀ n i j, pairs[n]? = some (i, j) →
        contents[n]? = some (Text.strip (replacePairs (fun m => subexpressionToken (start + m))
          (pairs.take n) 0 (i + 1) (Text.between t i j)))) ∧
      rest = replacePairs (fun m => subexpressionToken (start + m)) pairs 0 0 t) := by
  refine ⟨⟨?_, ?_⟩, ?_⟩
  · rintro ⟨source, place, failed⟩ ⟨f, rfl⟩
    rw [extractSubexpressions, f.unnest_text] at failed
    cases failed
  · intro unbalanced
    cases taken : unnest .square (fun n => subexpressionToken (start + n)) t with
    | ok result => exact absurd (balanced_of_unnest taken) unbalanced
    | error e => exact ⟨e.1, e.2, extractSubexpressions_of_unnest_error taken⟩
  · rintro ⟨f, rfl⟩
    have opened : ∀ p ∈ f.pairs 0, f.text[p.1]? = some Bracket.square.opening :=
      fun p member => (f.mem_pairs_iff.mp member).2.1
    have whole : f.text = [] ++ (f.text ++ []) := by simp
    refine ⟨f.pairs 0, _, _, by rw [extractSubexpressions, f.unnest_text], f.descending_pairs 0,
      fun i j => f.mem_pairs_iff, by rw [List.length_map, f.length_parts, f.length_pairs], ?_, ?_⟩
    · intro n i j found
      rw [f.parts_eq (f.descending_pairs 0) opened (n := 0) [] [] whole (List.prefix_refl _)]
      simp [found]
    · exact (f.replacePairs_text (f.descending_pairs 0) opened [] [] whole
        (List.prefix_refl _)).symm

/-- A text with brackets in brackets and beside them. -/
def nestedBrackets : Text := "[ a + [b] * [c] ] == [d]".toList

theorem extractSubexpressions_pairs_nested :
    Balanced .square nestedBrackets ∧
      ∃ (pairs : List (Nat × Nat)) (rest : Text) (contents : List Text),
      extractSubexpressions 7 nestedBrackets = .ok (rest, contents) ∧
      Descending pairs ∧ (∀ i j, (i, j) ∈ pairs ↔ IsPair .square nestedBrackets i j) ∧
      contents.length = pairs.length ∧
      (∀ n i j, pairs[n]? = some (i, j) →
        contents[n]? = some (Text.strip (replacePairs (fun m => subexpressionToken (7 + m))
          (pairs.take n) 0 (i + 1) (Text.between nestedBrackets i j)))) ∧
      rest = replacePairs (fun m => subexpressionToken (7 + m)) pairs 0 0 nestedBrackets := by
  have taken : unnest .square (fun n => subexpressionToken (7 + n)) nestedBrackets =
      .ok ("PLH10 == PLH7".toList,
        ["d".toList, "c".toList, "b".toList, " a + PLH9 * PLH8 ".toList]) := by decide
  exact ⟨balanced_of_unnest taken, (extractSubexpressions_pairs 7 nestedBrackets).2
    (balanced_of_unnest taken)⟩

end PolicyRules
