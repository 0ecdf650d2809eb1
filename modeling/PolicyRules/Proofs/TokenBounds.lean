import PolicyRules.Proofs.NormalForm

/-!
# The numbers of tokens in a text

While a tree is built, the numbers of tokens are read from texts and looked up in lists. A text is
bounded (`Bounded`) if each number that it has behind the beginning of a token is below the length
of the list in which it is looked up. Parts of a bounded text are bounded, and so are bounded texts
put together, unless a token begins in one of them and goes on in the next (`Bounded.append`).

Main statement: `bounded_renderNumbered`, for texts with tokens in the place of marks.
-/

namespace PolicyRules

/-- The kinds of tokens whose numbers are looked up. -/
inductive TokenKind where
  | group
  | string
  | keyword
  deriving DecidableEq, Repr

/-- How the tokens of a kind begin. -/
def TokenKind.start : TokenKind → Text
  | group => "i:".toList
  | string => "q:".toList
  | keyword => "PLA".toList

/-- The lengths of the lists in which numbers are looked up. -/
structure Bounds where
  groups : Nat
  strings : Nat
  keywords : Nat

variable {n : Nat} {c : Char}

namespace Bounds

/-- The bound of the numbers of a kind. -/
def of (b : Bounds) : TokenKind → Nat
  | .group => b.groups
  | .string => b.strings
  | .keyword => b.keywords

/-- Whether each bound is at most the other. -/
def Le (b b' : Bounds) : Prop := ∀ kind, b.of kind ≤ b'.of kind

theorem le_groups (b : Bounds) (h : b.groups ≤ n) : b.Le { b with groups := n } := by
  intro kind
  cases kind with
  | group => exact h
  | string | keyword => exact le_rfl

end Bounds

/-- Whether each number behind the beginning of a token is below its bound. -/
def Bounded (b : Bounds) (t : Text) : Prop :=
  ∀ (kind : TokenKind) (digits : Text), digits ≠ [] → (∀ d ∈ digits, isDecimalDigit d) →
    kind.start ++ digits <:+: t → ∃ n < b.of kind, tokenNumber digits = .ok n

/-- Whether no decimal digit is at the beginning of a text, so that a number before it ends
there. -/
def EndsNumber (t : Text) : Prop := ∀ c, t.head? = some c → isDecimalDigit c = false

instance (t : Text) : Decidable (EndsNumber t) :=
  decidable_of_iff (t.head?.all (! isDecimalDigit ·)) (by
    cases t with
    | nil => simp [EndsNumber]
    | cons c cs => simp [EndsNumber])

/-- The decimal digits at the beginning of a text. -/
theorem exists_digits_append (t : Text) :
    ∃ digits rest, t = digits ++ rest ∧ (∀ d ∈ digits, isDecimalDigit d) ∧
      EndsNumber rest := by
  refine ⟨t.takeWhile isDecimalDigit, t.dropWhile isDecimalDigit,
    List.takeWhile_append_dropWhile.symm, fun d member => List.mem_takeWhile_imp member,
    fun c first => ?_⟩
  simpa [first] using List.head?_dropWhile_not isDecimalDigit t

section Characters

/-- Whether a character can begin a token. -/
def beginsToken (c : Char) : Bool := "Piq".toList.contains c

/-- Whether a character can stand in a token behind its first character. -/
def continuesToken (c : Char) : Bool := isDecimalDigit c || "LA:".toList.contains c

variable (kind : TokenKind)

theorem TokenKind.start_eq : ∃ c cs, kind.start = c :: cs ∧ beginsToken c ∧
    (∀ d ∈ cs, continuesToken d) ∧
    ∀ d ∈ c :: cs, isDecimalDigit d = false := by
  cases kind with
  | group =>
    exact ⟨'i', [':'], rfl, by decide, List.all_eq_true.mp (by decide), by simpa using by decide⟩
  | string =>
    exact ⟨'q', [':'], rfl, by decide, List.all_eq_true.mp (by decide), by simpa using by decide⟩
  | keyword =>
    exact ⟨'P', ['L', 'A'], rfl, by decide, List.all_eq_true.mp (by decide),
      by simpa using by decide⟩

/-- What two neighbouring characters of a token are. -/
theorem TokenKind.neighbours {digits z cs : Text} {d : Char}
    (all : ∀ d ∈ digits, isDecimalDigit d) (h : kind.start ++ digits = z ++ d :: c :: cs) :
    continuesToken c ∧ (beginsToken d ∨ continuesToken d ∧
      (isDecimalDigit d → isDecimalDigit c)) := by
  obtain ⟨first, others, start, begins, continues, noDigit⟩ := kind.start_eq
  have goesOn : ∀ e ∈ others ++ digits, continuesToken e := by
    intro e member
    rcases List.mem_append.mp member with letter | digit
    · exact continues e letter
    · simp [continuesToken, all e digit]
  rw [start, List.cons_append] at h
  cases z with
  | nil =>
    obtain ⟨rfl, rest⟩ := List.cons.inj h
    exact ⟨goesOn c (by rw [rest]; simp), .inl begins⟩
  | cons e z =>
    obtain ⟨-, rest⟩ := List.cons.inj h
    refine ⟨goesOn c (by rw [rest]; simp), .inr ⟨goesOn d (by rw [rest]; simp), fun digit => ?_⟩⟩
    -- A digit is none of the letters, so what follows it is a digit too.
    rcases List.append_eq_append_iff.mp rest with ⟨more, rfl, same⟩ | ⟨more, rfl, same⟩
    · exact all c (by rw [same]; simp)
    · cases more with
      | nil => exact all c (by rw [List.nil_append] at same; simp [← same])
      | cons f more =>
        obtain ⟨rfl, -⟩ := List.cons.inj same
        rw [noDigit d (by simp)] at digit
        cases digit

theorem beginsToken_eq_false_of_isDecimalDigit (h : isDecimalDigit c) : beginsToken c = false := by
  cases begins : beginsToken c with
  | false => rfl
  | true =>
    simp only [beginsToken, List.contains_iff_mem] at begins
    have letters : "Piq".toList.all fun d => ! isDecimalDigit d := by decide
    have other := List.all_eq_true.mp letters c begins
    rw [h] at other
    cases other

end Characters

namespace Bounded

variable {b b' : Bounds} {t u v : Text}

theorem of_isInfix (h : Bounded b t) (inside : u <:+: t) : Bounded b u :=
  fun kind digits nonempty all found => h kind digits nonempty all (found.trans inside)

theorem mono (h : Bounded b t) (le : b.Le b') : Bounded b' t := by
  intro kind digits nonempty all found
  obtain ⟨n, lt, read⟩ := h kind digits nonempty all found
  exact ⟨n, lt.trans_le (le kind), read⟩

theorem strip (h : Bounded b t) : Bounded b (Text.strip t) := h.of_isInfix (Text.isInfix_strip t)

/-- A text in which no token can begin. -/
theorem of_forall (h : ∀ c ∈ t, beginsToken c = false) : Bounded b t := by
  intro kind digits _ _ found
  obtain ⟨c, cs, start, begins, -⟩ := kind.start_eq
  rw [h c (found.subset (by simp [start]))] at begins
  cases begins

/-- Texts in which no token goes over the place where they are put together: either the second text
does not begin as a token goes on, or the first one does not end in letters of a token, and in a
digit only before none. -/
theorem append (hu : Bounded b u) (hv : Bounded b v)
    (apart : (∀ c, v.head? = some c → continuesToken c = false) ∨
      ∀ c, lastChar none u = some c → beginsToken c = false ∧
        (continuesToken c = false ∨ isDecimalDigit c ∧ EndsNumber v)) : Bounded b (u ++ v) := by
  intro kind digits nonempty all found
  rcases List.infix_append_iff_ne_nil.mp found with inside | inside |
    ⟨x, y, hx, hy, same, suffix, start_y⟩
  · exact hu kind digits nonempty all inside
  · exact hv kind digits nonempty all inside
  · exfalso
    obtain ⟨c, cs, rfl⟩ := List.exists_cons_of_ne_nil hy
    obtain ⟨v', rfl⟩ := start_y
    obtain ⟨u', rfl⟩ := suffix
    obtain ⟨z, d, rfl⟩ := (List.eq_nil_or_concat x).resolve_left hx
    obtain ⟨goesOn, before⟩ := kind.neighbours all (by simpa using same)
    rcases apart with stops | apart
    · rw [stops c rfl] at goesOn
      cases goesOn
    · obtain ⟨noBegin, ends⟩ := apart d (by simp [lastChar])
      rcases before with begins | ⟨continues, follows⟩
      · rw [noBegin] at begins
        cases begins
      · rcases ends with stops | ⟨digit, ended⟩
        · rw [stops] at continues
          cases continues
        · have digit' := follows digit
          rw [ended c rfl] at digit'
          cases digit'

/-- No token begins in the first text. -/
theorem append_of_forall (h : ∀ c ∈ u, beginsToken c = false) (hv : Bounded b v) :
    Bounded b (u ++ v) := by
  intro kind digits nonempty all found
  rcases List.infix_append_iff_ne_nil.mp found with inside | inside | ⟨x, y, hx, -, same, suffix, -⟩
  · exact of_forall h kind digits nonempty all inside
  · exact hv kind digits nonempty all inside
  · exfalso
    obtain ⟨first, others, start, begins, -⟩ := kind.start_eq
    obtain ⟨c, cs, rfl⟩ := List.exists_cons_of_ne_nil hx
    rw [start] at same
    obtain ⟨rfl, -⟩ := List.cons.inj same
    rw [h first (suffix.subset (by simp))] at begins
    cases begins

end Bounded

section Tokens

variable {b : Bounds}

/-- The first digits of a number are a number that is not larger. -/
theorem exists_ofNat_of_prefix {digits : Text} (nonempty : digits ≠ [])
    (h : digits <+: Text.ofNat n) : ∃ m ≤ n, digits = Text.ofNat m := by
  induction n using Nat.strongRecOn with
  | ind n ih =>
    by_cases small : n < 10
    · rw [Text.ofNat, Nat.toDigits_of_lt_base small] at h
      obtain ⟨rest, same⟩ := h
      obtain ⟨d, ds, rfl⟩ := List.exists_cons_of_ne_nil nonempty
      obtain ⟨rfl, empty⟩ := List.cons.inj same
      obtain ⟨rfl, -⟩ := List.append_eq_nil_iff.mp empty
      exact ⟨n, le_rfl, by rw [Text.ofNat, Nat.toDigits_of_lt_base small]⟩
    · have split : Text.ofNat n = Text.ofNat (n / 10) ++ [Nat.digitChar (n % 10)] :=
        Nat.toDigits_of_base_le (by decide) (by omega)
      rw [split] at h
      rcases List.prefix_concat_iff.mp h with whole | shorter
      · exact ⟨n, le_rfl, by rw [split, whole]⟩
      · obtain ⟨m, le, same⟩ := ih (n / 10) (by omega) shorter
        exact ⟨m, by omega, same⟩

theorem isDecimalDigit_of_mem_ofNat (h : c ∈ Text.ofNat n) : isDecimalDigit c :=
  isDecimalDigit_of_isDigit (isDigit_of_mem_ofNat h)

theorem eq_of_start_suffix {kind kind' : TokenKind} (h : kind'.start <:+ kind.start) :
    kind' = kind := by
  cases kind <;> cases kind' <;> first | rfl | exact absurd h (by decide)

/-- A token whose number is below the bound. -/
theorem bounded_token (kind : TokenKind) (lt : n < b.of kind)
    (room : b.of kind ≤ 10 ^ maxDecimalDigits) : Bounded b (kind.start ++ Text.ofNat n) := by
  intro kind' digits nonempty all found
  obtain ⟨first, others, start, begins, -, noDigit⟩ := kind'.start_eq
  obtain ⟨_, _, start', -, -, noDigit'⟩ := kind.start_eq
  rw [← start] at noDigit
  rw [← start'] at noDigit'
  rcases List.infix_append_iff_ne_nil.mp found with inside | inside |
    ⟨x, y, -, -, same, suffix, front⟩
  · obtain ⟨d, ds, rfl⟩ := List.exists_cons_of_ne_nil nonempty
    have digit := all d (by simp)
    rw [noDigit' d (inside.subset (by simp))] at digit
    cases digit
  · have digit :=
      isDecimalDigit_of_mem_ofNat (inside.subset (by simp [start] : first ∈ kind'.start ++ digits))
    rw [beginsToken_eq_false_of_isDecimalDigit digit] at begins
    cases begins
  · -- The letters end where the digits begin.
    have apart : ∀ e ∈ x, e ∉ y := fun e inX inY => by
      have digit := isDecimalDigit_of_mem_ofNat (front.subset inY)
      rw [noDigit' e (suffix.subset inX)] at digit
      cases digit
    obtain ⟨rfl, rfl⟩ : kind'.start = x ∧ digits = y := by
      rcases List.append_eq_append_iff.mp same with ⟨rest, rfl, rfl⟩ | ⟨rest, whole, rfl⟩
      · cases rest with
        | nil => simp
        | cons e rest =>
          have digit := all e (by simp)
          rw [noDigit' e (suffix.subset (by simp))] at digit
          cases digit
      · cases rest with
        | nil => simp [whole]
        | cons e rest =>
          have digit :=
            isDecimalDigit_of_mem_ofNat (front.subset (by simp : e ∈ e :: rest ++ digits))
          rw [noDigit e (by rw [whole]; simp)] at digit
          cases digit
    obtain rfl := eq_of_start_suffix suffix
    obtain ⟨m, le, rfl⟩ := exists_ofNat_of_prefix nonempty front
    exact ⟨m, by omega, tokenNumber_ofNat (by omega)⟩

/-- The token of a subexpression, whatever follows it. -/
theorem bounded_subexpressionToken {v : Text} (hv : Bounded b v) (n : Nat) :
    Bounded b (subexpressionToken n ++ v) := by
  have noDigits : "PLH".toList.all fun c => ! isDecimalDigit c := by decide
  have letters : Bounded b "PLH".toList := by
    intro kind digits nonempty all found
    obtain ⟨d, ds, rfl⟩ := List.exists_cons_of_ne_nil nonempty
    have digit := all d (by simp)
    have other := List.all_eq_true.mp noDigits d (found.subset (by simp))
    rw [digit] at other
    cases other
  have digits : ∀ c ∈ Text.ofNat n, beginsToken c = false := fun c member =>
    beginsToken_eq_false_of_isDecimalDigit (isDecimalDigit_of_mem_ofNat member)
  have same : subexpressionToken n ++ v = "PLH".toList ++ (Text.ofNat n ++ v) := by
    simp [subexpressionToken, Text.ofInt]
  rw [same]
  refine letters.append (.append_of_forall digits hv) (.inr fun c last => ?_)
  obtain rfl : 'H' = c := Option.some.inj last
  exact ⟨by decide, .inl (by decide)⟩

/-- What can be put into a text before `v`: no token begins before it and goes on in it, and a
number at its end ends there. -/
structure Fits (b : Bounds) (w v : Text) : Prop where
  bounded : Bounded b w
  front : ∃ c cs, w = c :: cs ∧ continuesToken c = false
  back : ∃ c, lastChar none w = some c ∧ beginsToken c = false ∧
    (continuesToken c = false ∨ isDecimalDigit c ∧ EndsNumber v)

theorem isDecimalDigit_eq_false_of_continuesToken (h : continuesToken c = false) :
    isDecimalDigit c = false :=
  (Bool.or_eq_false_iff.mp h).1

/-- A text with fitting texts put into it. -/
theorem bounded_pieces {pieces : List (Text × Text)}
    (h : ∀ piece ∈ pieces, Fits b piece.1 piece.2 ∧ Bounded b piece.2) {head : Text}
    (first : Bounded b head) :
    Bounded b (head ++ pieces.flatMap fun piece => piece.1 ++ piece.2) := by
  induction pieces generalizing head with
  | nil => simpa using first
  | cons piece rest ih =>
    obtain ⟨⟨⟨bounded, ⟨c, cs, w_eq, front⟩, d, last, noBegin, back⟩, plain⟩, later⟩ :=
      List.forall_mem_cons.mp h
    rw [List.flatMap_cons, List.append_assoc]
    refine first.append (bounded.append (ih later plain) (.inr fun e last' => ?_))
      (.inl fun e same => ?_)
    · obtain rfl := Option.some.inj (last.symm.trans last')
      refine ⟨noBegin, back.imp_right fun ⟨digit, ends⟩ => ⟨digit, fun f same => ?_⟩⟩
      cases plain_eq : piece.2 with
      | cons g gs =>
        rw [plain_eq] at ends same
        exact ends f same
      | nil =>
        rw [plain_eq, List.nil_append] at same
        cases rest with
        | nil => cases same
        | cons next others =>
          obtain ⟨⟨-, ⟨g, gs, next_eq, front'⟩, -⟩, -⟩ := later next (by simp)
          rw [List.flatMap_cons, next_eq] at same
          obtain rfl := Option.some.inj same
          exact isDecimalDigit_eq_false_of_continuesToken front'
    · rw [w_eq] at same
      obtain rfl := Option.some.inj same
      exact front

theorem Fits.append {x w y : Text} (h : Fits b w y) (before : Bounded b x) (behind : Bounded b y) :
    Bounded b (x ++ (w ++ y)) := by
  have piece : ∀ piece ∈ [(w, y)], Fits b piece.1 piece.2 ∧ Bounded b piece.2 :=
    List.forall_mem_singleton.mpr ⟨h, behind⟩
  simpa using bounded_pieces piece before

end Tokens

section Render

variable {α : Type} {b : Bounds} {s : Split α}

theorem bounded_renderNumbered {token : Nat → Text} (plain : ∀ piece ∈ s.plain, Bounded b piece)
    (fits : ∀ n piece, s.tail[n]? = some piece → Fits b (token n) piece.2) :
    Bounded b (s.renderNumbered token) := by
  have pieces : s.renderNumbered token = s.head ++
      (s.tail.zipIdx.map fun p => (token p.2, p.1.2)).flatMap fun piece => piece.1 ++ piece.2 := by
    simp [Split.renderNumbered, List.flatMap_map]
  rw [pieces]
  refine bounded_pieces (fun piece member => ?_) (plain s.head (by simp [Split.plain]))
  obtain ⟨⟨p, n⟩, listed, rfl⟩ := List.mem_map.mp member
  have found := List.mem_zipIdx_iff_getElem?.mp listed
  exact ⟨fits n p found,
    plain p.2 (List.mem_cons_of_mem _ (List.mem_map_of_mem (List.mem_of_getElem? found)))⟩

/-- Marks that can all be written are written, and the text stays bounded. -/
theorem exists_renderM {write : α → Except Error Text} (plain : ∀ piece ∈ s.plain, Bounded b piece)
    (fits : ∀ a ∈ s.marks, ∃ w, write a = .ok w ∧ ∀ v, Fits b w v) :
    ∃ t, s.renderM write = .ok t ∧ Bounded b t := by
  obtain ⟨head, tail⟩ := s
  have pieces : ∃ pieces : List (Text × Text),
      (tail.mapM fun piece => do return (← write piece.1) ++ piece.2) = .ok (pieces.map fun p =>
        p.1 ++ p.2) ∧
      ∀ piece ∈ pieces, Fits b piece.1 piece.2 ∧ Bounded b piece.2 := by
    induction tail with
    | nil => exact ⟨[], rfl, by simp⟩
    | cons piece tail ih =>
      obtain ⟨w, written, fit⟩ := fits piece.1 (by simp [Split.marks])
      obtain ⟨first, -, others⟩ : Bounded b head ∧ Bounded b piece.2 ∧ ∀ p ∈ tail.map (·.2),
        Bounded b p := by
        simpa only [Split.plain, List.map_cons, List.forall_mem_cons] using plain
      obtain ⟨pieces, mapped, all⟩ := ih (List.forall_mem_cons.mpr ⟨first, others⟩) fun a member =>
        fits a (List.mem_cons_of_mem _ member)
      refine ⟨(w, piece.2) :: pieces, ?_,
        List.forall_mem_cons.mpr ⟨⟨fit _, plain _ (by simp [Split.plain])⟩, all⟩⟩
      rw [List.mapM_cons, mapped, written]
      rfl
  obtain ⟨pieces, mapped, all⟩ := pieces
  refine ⟨_, bind_eq_ok_iff.mpr ⟨_, mapped, rfl⟩, ?_⟩
  simpa [List.flatMap_def] using bounded_pieces all (plain head (by simp [Split.plain]))

end Render

end PolicyRules
