import Mathlib.Data.List.Forall2
import PolicyRules.Attempt

/-!
# Successful computations

A computation made of steps succeeds exactly if its steps do, one after the other. The lemmas of
this module take a success apart into the results of its steps, for computations with and without a
state, and find the step at which a computation fails.
-/

namespace PolicyRules

section

variable {ε α β : Type} {x : Except ε α} {f : α → Except ε β} {b : β} {xs : List α} {ys : List β}

/-- Two steps succeed if the first does, and the second does with its result. -/
theorem bind_eq_ok_iff : (x >>= f) = .ok b ↔ ∃ a, x = .ok a ∧ f a = .ok b := by
  cases x <;> simp [bind, Except.bind]

/-- Two steps fail if the first does, or the second does with its result. -/
theorem bind_eq_error_iff {e : ε} :
    (x >>= f) = .error e ↔ x = .error e ∨ ∃ a, x = .ok a ∧ f a = .error e := by
  cases x <;> simp [bind, Except.bind]

theorem pure_eq_ok_iff {a b : α} : (pure a : Except ε α) = .ok b ↔ a = b := by
  simp [pure, Except.pure]

/-- A mapped result succeeds with the image of the value. -/
theorem map_eq_ok_iff {f : α → β} : x.map f = .ok b ↔ ∃ a, x = .ok a ∧ f a = b := by
  cases x <;> simp [Except.map]

theorem map_eq_error_iff {f : α → β} {e : ε} : x.map f = .error e ↔ x = .error e := by
  cases x <;> simp [Except.map]

theorem map_toOption_eq_some_iff {f : α → β} :
    x.toOption.map f = some b ↔ ∃ a, x = .ok a ∧ f a = b := by
  cases x <;> simp [Except.toOption]

/-- A step for each entry of a list succeeds if each of them does. -/
theorem mapM_eq_ok_iff : xs.mapM f = .ok ys ↔ List.Forall₂ (fun x y => f x = .ok y) xs ys := by
  induction xs generalizing ys with
  | nil =>
    simp only [List.mapM_nil, pure_eq_ok_iff, List.forall₂_nil_left_iff]
    exact eq_comm
  | cons x xs ih =>
    simp only [List.mapM_cons, bind_eq_ok_iff, pure_eq_ok_iff, ih, List.forall₂_cons_left_iff]
    constructor
    · rintro ⟨y, hy, ys', hys, rfl⟩
      exact ⟨y, ys', hy, hys, rfl⟩
    · rintro ⟨y, ys', hy, hys, rfl⟩
      exact ⟨y, hy, ys', hys, rfl⟩

/-- A step for each entry succeeds if all of them do. -/
theorem exists_mapM_eq_ok_iff : (∃ ys, xs.mapM f = .ok ys) ↔ ∀ x ∈ xs, ∃ y, f x = .ok y := by
  induction xs with
  | nil => simp [pure_eq_ok_iff]
  | cons x xs ih =>
    simp only [List.mapM_cons, bind_eq_ok_iff, pure_eq_ok_iff, List.forall_mem_cons, ← ih]
    constructor
    · rintro ⟨_, y, hy, ys, hys, rfl⟩
      exact ⟨⟨y, hy⟩, ys, hys⟩
    · rintro ⟨⟨y, hy⟩, ys, hys⟩
      exact ⟨_, y, hy, ys, hys, rfl⟩

/-- Steps for two lists, one after the other, succeed if those for each list do. -/
theorem mapM_append_eq_ok_iff {xs' : List α} {zs : List β} : (xs ++ xs').mapM f = .ok zs ↔
      ∃ ys ys', xs.mapM f = .ok ys ∧ xs'.mapM f = .ok ys' ∧ zs = ys ++ ys' := by
  simp only [List.mapM_append, bind_eq_ok_iff, pure_eq_ok_iff]
  constructor
  · rintro ⟨ys, h, ys', h', rfl⟩
    exact ⟨ys, ys', h, h', rfl⟩
  · rintro ⟨ys, ys', h, h', rfl⟩
    exact ⟨ys, h, ys', h', rfl⟩

/-- The results of steps that succeed, one for each entry. -/
theorem mem_of_mapM_eq_ok (h : xs.mapM f = .ok ys) {y : β} : y ∈ ys ↔ ∃ x ∈ xs, f x = .ok y := by
  have pairs := mapM_eq_ok_iff.mp h
  clear h
  induction pairs with
  | nil => simp
  | cons first rest ih =>
    simp only [List.mem_cons, ih, exists_eq_or_imp, first, Except.ok.injEq]
    constructor
    · rintro (rfl | later)
      · exact .inl rfl
      · exact .inr later
    · rintro (rfl | later)
      · exact .inl rfl
      · exact .inr later

/-- The result of the step for the entry at a position. -/
theorem getElem?_of_mapM_eq_ok (h : xs.mapM f = .ok ys) {n : Nat}
    {x : α} (found : xs[n]? = some x) : ∃ y, ys[n]? = some y ∧ f x = .ok y := by
  have pairs := mapM_eq_ok_iff.mp h
  clear h
  induction pairs generalizing n with
  | nil => cases found
  | cons first rest ih =>
    cases n with
    | zero =>
      cases found
      exact ⟨_, rfl, first⟩
    | succ n => exact ih found

/-- Two steps for each entry, the second with the result of the first. -/
theorem forall₂_of_mapM_eq_ok {γ : Type} {g : β → Except ε γ}
    {zs : List γ} (h : xs.mapM f = .ok ys) (h' : ys.mapM g = .ok zs) {R : α → γ → Prop}
    (step : ∀ x ∈ xs, ∀ y ∈ ys, ∀ z, f x = .ok y → g y = .ok z → R x z) : List.Forall₂ R xs zs := by
  have first := mapM_eq_ok_iff.mp h
  have second := mapM_eq_ok_iff.mp h'
  clear h h'
  induction first generalizing zs with
  | nil =>
    cases second
    exact .nil
  | cons here later ih =>
    cases second with
    | cons here' later' =>
      refine .cons (step _ List.mem_cons_self _ List.mem_cons_self _ here here') (ih ?_ later')
      exact fun x inX y inY => step x (List.mem_cons_of_mem _ inX) y (List.mem_cons_of_mem _ inY)

theorem exists_of_mapM_eq_ok (h : xs.mapM f = .ok ys) {x : α} (member : x ∈ xs) :
    ∃ y ∈ ys, f x = .ok y := by
  obtain ⟨y, hy⟩ := exists_mapM_eq_ok_iff.mp ⟨ys, h⟩ x member
  exact ⟨y, (mem_of_mapM_eq_ok h).mpr ⟨x, member, hy⟩, hy⟩

end

namespace Attempt

variable {σ α β : Type} {x : Attempt σ α} {s s' : σ} {a : α}

/-- Two steps succeed if the first does, and the second does from where the first ended. -/
theorem bind_eq_ok_iff {f : α → Attempt σ β} {b : β} :
    (x >>= f) s = .ok b s' ↔ ∃ a t, x s = .ok a t ∧ f a t = .ok b s' := by
  change EStateM.bind x f s = _ ↔ _
  unfold EStateM.bind
  cases h : x s with
  | ok a t =>
    constructor
    · intro hf
      exact ⟨a, t, rfl, hf⟩
    · rintro ⟨a', t', hx, hf⟩
      cases hx
      exact hf
  | error e t => simp

theorem pure_eq_ok_iff {b : α} : (pure a : Attempt σ α) s = .ok b s' ↔ a = b ∧ s = s' := by
  change EStateM.Result.ok a s = _ ↔ _
  simp

theorem discard_eq_ok_iff {u : PUnit} : (discard x) s = .ok u s' ↔ ∃ a, x s = .ok a s' := by
  change EStateM.map _ x s = _ ↔ _
  unfold EStateM.map
  cases h : x s with
  | ok a t => simp
  | error e t => simp

/-- A result that is given leaves the state alone. -/
theorem ofExcept_eq_ok_iff {r : Except Error α} :
    (Attempt.ofExcept r : Attempt σ α) s = .ok a s' ↔ r = .ok a ∧ s = s' := by
  cases r with
  | ok b => simp
  | error e => simp

theorem get_eq_ok_iff {t : σ} : (get : Attempt σ σ) s = .ok t s' ↔ s = t ∧ s = s' := by
  change EStateM.Result.ok s s = _ ↔ _
  simp

theorem modify_eq_ok_iff {f : σ → σ} {u : PUnit} :
    (modify f : Attempt σ PUnit) s = .ok u s' ↔ f s = s' := by
  change EStateM.Result.ok PUnit.unit (f s) = _ ↔ _
  simp

theorem modifyGet_eq_ok_iff {f : σ → α × σ} :
    (modifyGet f : Attempt σ α) s = .ok a s' ↔ f s = (a, s') := by
  change (match f s with | (a, t) => EStateM.Result.ok a t) = _ ↔ _
  simp [Prod.ext_iff]

/-- Whether an attempt succeeds. -/
def succeeds (x : Attempt σ α) (s : σ) : Bool :=
  match x s with
  | .ok _ _ => true
  | .error _ _ => false

/-- An attempt succeeds if it ends with a value. -/
theorem succeeds_iff : x.succeeds s ↔ ∃ a s', x s = .ok a s' := by
  unfold succeeds
  cases x s with
  | ok a s' => simp
  | error e s' => simp

/-- The result of an attempt that succeeds. -/
def value? (x : Attempt σ α) (s : σ) : Option α :=
  match x s with
  | .ok a _ => some a
  | .error _ _ => none

theorem value?_eq_some_iff : x.value? s = some a ↔ ∃ s', x s = .ok a s' := by
  unfold value?
  cases x s with
  | ok b s' => simp
  | error e s' => simp

/-- What an attempt does from every state with a property: whether or not it succeeds it keeps the
property, and the result has a property too. -/
def Meets (Inv : σ → Prop) (x : Attempt σ α) (Q : α → Prop) : Prop :=
  ∀ s, Inv s → match x s with
    | .ok a s' => Inv s' ∧ Q a
    | .error _ s' => Inv s'

namespace Meets

variable {Inv : σ → Prop} {Q : α → Prop} {R : β → Prop}

/-- Two attempts keep the invariant if each of them does. -/
theorem bind {f : α → Attempt σ β} (first : x.Meets Inv Q)
    (next : ∀ a, Q a → (f a).Meets Inv R) : (x >>= f).Meets Inv R := by
  intro s holds
  have after := first s holds
  change match EStateM.bind x f s with | .ok b s' => Inv s' ∧ R b | .error _ s' => Inv s'
  unfold EStateM.bind
  cases h : x s with
  | ok a s' =>
    rw [h] at after
    exact next a after.2 s' after.1
  | error e s' =>
    rw [h] at after
    exact after

theorem ofExcept {r : Except Error α} (h : ∀ a, r = .ok a → Q a) :
    (Attempt.ofExcept r : Attempt σ α).Meets Inv Q := by
  intro s holds
  cases r with
  | ok a => exact ⟨holds, h a rfl⟩
  | error e => exact holds

theorem get : (get : Attempt σ σ).Meets Inv Inv := fun _ holds => ⟨holds, holds⟩

theorem modifyGet {f : σ → α × σ} (h : ∀ s, Inv s → Inv (f s).2) :
    (modifyGet f : Attempt σ α).Meets Inv fun _ => True := fun s holds => ⟨h s holds, trivial⟩

theorem modify {f : σ → σ} (h : ∀ s, Inv s → Inv (f s)) :
    (modify f : Attempt σ PUnit).Meets Inv fun _ => True := fun s holds => ⟨h s holds, trivial⟩

/-- So does one for each entry. -/
theorem forM {f : α → Attempt σ PUnit} {xs : List α} (h : ∀ a, (f a).Meets Inv fun _ => True) :
    (xs.forM f).Meets Inv fun _ => True := by
  induction xs with
  | nil => exact fun s holds => ⟨holds, trivial⟩
  | cons a xs ih => exact .bind (h a) fun _ _ => ih

end Meets

end Attempt

end PolicyRules
