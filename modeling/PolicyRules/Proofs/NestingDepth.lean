import PolicyRules.Proofs.GroupOrder
import PolicyRules.Proofs.LevelReading
import PolicyRules.Proofs.LogicalGrammar

/-!
# The depth to which groups are followed

Putting groups back and reading levels follow groups to a depth that is given, and give up behind
it. If groups lead from a text only to groups with smaller and smaller numbers
(`SetAside.Descends`), every depth above the first of these numbers gives what any other depth
gives.

Main statements: `SetAside.Descends.carries_expandWithin`, `SetAside.Descends.carries_parseWithin`.
-/

namespace PolicyRules

/-- Whether the second computation gives what the first one gives. -/
def Carries {α : Type} (x y : Except Error α) : Prop := ∀ a, x = .ok a → y = .ok a

namespace Carries

variable {α β : Type}

theorem refl (x : Except Error α) : Carries x x := fun _ h => h

theorem bind {x y : Except Error α} {f g : α → Except Error β} (first : Carries x y)
    (next : ∀ a, x = .ok a → Carries (f a) (g a)) : Carries (x >>= f) (y >>= g) := by
  intro b h
  obtain ⟨a, given, h⟩ := bind_eq_ok_iff.mp h
  exact bind_eq_ok_iff.mpr ⟨a, first a given, next a given b h⟩

theorem mapM {f g : α → Except Error β} {xs : List α} (each : ∀ a ∈ xs, Carries (f a) (g a)) :
    Carries (xs.mapM f) (xs.mapM g) := by
  induction xs with
  | nil => exact refl _
  | cons a xs ih =>
    obtain ⟨here, later⟩ := List.forall_mem_cons.mp each
    rw [List.mapM_cons, List.mapM_cons]
    exact here.bind fun _ _ => (ih later).bind fun _ _ => refl _

theorem renderM {write write' : α → Except Error Text} {s : Split α}
    (each : ∀ a ∈ s.marks, Carries (write a) (write' a)) :
    Carries (s.renderM write) (s.renderM write') := by
  refine bind (mapM fun piece member => ?_) fun _ _ => refl _
  exact (each piece.1 (List.mem_map_of_mem member)).bind fun _ _ => refl _

/-- Reading the pieces of a level gives what it gave, if its operands do. -/
theorem read {keywords : List Keyword} {fail : Fault → Error}
    {operand operand' : Text → Except Error Expr} {pieces : List Piece}
    (each : ∀ t, .operand t ∈ pieces → Carries (operand t) (operand' t)) :
    Carries (readOperand keywords fail operand none [] pieces)
      (readOperand keywords fail operand' none [] pieces) := by
  intro e h
  obtain ⟨c, value, proper, same, built, tree⟩ := readOperand_eq_ok_iff.mp h
  exact readOperand_eq_ok_iff.mpr
    ⟨c, value, proper, same, fun t member => each t member _ (built t member), tree⟩

end Carries

namespace SetAside

/-- Whether groups lead from a text only to groups with smaller and smaller numbers, the first of
which are below the bound. -/
inductive Descends (s : SetAside) : Nat → Text → Prop
  | intro {bound : Nat} {t : Text} (below : ∀ m ∈ t.groupNumbers, m < s.groups.length → m < bound)
    (each : ∀ m ∈ t.groupNumbers, ∀ g, s.groups[m]? = some g → Descends s m g) : Descends s bound t

namespace Descends

variable {s : SetAside} {bound bound' : Nat} {t : Text}

theorem mono (h : s.Descends bound t) (le : bound ≤ bound') : s.Descends bound' t := by
  obtain ⟨below, each⟩ := h
  exact ⟨fun m member lt => (below m member lt).trans_le le, each⟩

/-- What a token stands for. -/
theorem of_tokenEntry {digits g : Text} (h : s.Descends bound t)
    (named : ordinalOf digits ∈ t.groupNumbers) (entry : tokenEntry s.groups digits = .ok g) :
    ordinalOf digits < bound ∧ ordinalOf digits < s.groups.length ∧
      s.Descends (ordinalOf digits) g := by
  obtain ⟨below, each⟩ := h
  have found := getElem?_of_tokenEntry_eq_ok entry
  have lt := (List.getElem?_eq_some_iff.mp found).1
  exact ⟨below _ named lt, lt, each _ named g found⟩

/-- A text is expanded at every depth above the numbers of its groups as at any other one. -/
theorem carries_expandWithin (h : s.Descends bound t) {depth depth' : Nat} (deep : bound < depth') :
    Carries (s.expandWithin depth t) (s.expandWithin depth' t) := by
  induction depth generalizing bound t depth' with
  | zero =>
    intro _ failed
    cases failed
  | succ depth ih =>
    obtain ⟨depth', rfl⟩ : ∃ d, depth' = d + 1 := ⟨depth' - 1, by omega⟩
    refine Carries.bind (Carries.renderM fun digits member => ?_) fun _ _ => Carries.refl _
    refine (Carries.refl _).bind fun g entry => ?_
    obtain ⟨lt, -, descends⟩ := h.of_tokenEntry (List.mem_map_of_mem member) entry
    exact (ih descends (by omega)).bind fun _ _ => Carries.refl _

/-- The operands of a level are read as before, if its groups are. -/
theorem carries_operandWithin {pieces : List Piece} {u : Text} {depth depth' : Nat}
    (h : s.Descends bound t) (read : Piece.ofText t = .ok pieces) (member : .operand u ∈ pieces)
    (groups : ∀ k g, k < bound → s.Descends k g → Carries (s.parseWithin depth g) (s.parseWithin
      depth' g)) : Carries (s.operandWithin depth u) (s.operandWithin depth' u) := by
  unfold operandWithin
  split
  · next digits token =>
    refine (Carries.refl _).bind fun g entry => ?_
    obtain ⟨lt, -, descends⟩ :=
      h.of_tokenEntry (mem_groupNumbers_of_operand read member token) entry
    exact groups _ g lt descends
  · exact Carries.refl _

/-- A level is read at every depth above the numbers of its groups as at any other one. -/
theorem carries_parseWithin (h : s.Descends bound t) {depth depth' : Nat} (deep : bound < depth') :
    Carries (s.parseWithin depth t) (s.parseWithin depth' t) := by
  induction depth generalizing bound t depth' with
  | zero =>
    intro _ failed
    cases failed
  | succ depth ih =>
    obtain ⟨depth', rfl⟩ : ∃ d, depth' = d + 1 := ⟨depth' - 1, by omega⟩
    rw [parseWithin_succ, parseWithin_succ]
    refine (Carries.refl _).bind fun pieces read => ?_
    change Carries (if _ then _ else _) (if _ then _ else _)
    split
    · exact Carries.refl _
    · refine Carries.read fun u member => h.carries_operandWithin read member fun k g lt descends =>
        ?_
      exact ih descends (by omega)

end Descends

end SetAside

end PolicyRules
