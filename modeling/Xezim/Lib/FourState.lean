import Mathlib.Data.Option.Basic
import Mathlib.Tactic.Common

/-! Four-state logic, and how the positions a connective reads show in the values it takes over all states. -/

namespace Xezim.FourState

/-- A four-state bit. -/
inductive Logic
  | zero
  | one
  | x
  | z
  deriving DecidableEq, Repr

namespace Logic

/-- Bitwise conjunction. -/
def and : Logic → Logic → Logic
  | zero, _ => zero
  | _, zero => zero
  | one, one => one
  | _, _ => x

/-- Bitwise disjunction. -/
def or : Logic → Logic → Logic
  | one, _ => one
  | _, one => one
  | zero, zero => zero
  | _, _ => x

/-- Bitwise exclusive disjunction. -/
def xor : Logic → Logic → Logic
  | zero, zero => zero
  | zero, one => one
  | one, zero => one
  | one, one => zero
  | _, _ => x

/-- Bitwise negation. -/
def not : Logic → Logic
  | zero => one
  | one => zero
  | _ => x

/-- What is left of two branches when neither is chosen. -/
def merge : Logic → Logic → Logic
  | zero, zero => zero
  | one, one => one
  | _, _ => x

/-- The conditional operator: an unknown condition merges the branches. -/
def cond : Logic → Logic → Logic → Logic
  | one, t, _ => t
  | zero, _, e => e
  | _, t, e => merge t e

/-- Merged branches are never in high impedance. -/
theorem merge_ne_z (t e : Logic) : merge t e ≠ z := by
  cases t <;> cases e <;> simp [merge]

end Logic

section Positions

variable {ι : Type}

/-- A position's bit; a bit from outside is x. -/
def read (state : ι → Logic) (p : Option ι) : Logic := (p.map state).getD .x

@[simp] theorem read_none (state : ι → Logic) : read state none = .x := rfl

@[simp] theorem read_some (state : ι → Logic) (p : ι) : read state (some p) = state p := rfl

variable [DecidableEq ι]

/-- One position against all others. -/
def only (k : ι) (here elsewhere : Logic) (p : ι) : Logic := if p = k then here else elsewhere

@[simp] theorem only_self (k : ι) (here elsewhere : Logic) : only k here elsewhere k = here := if_pos rfl

theorem only_of_ne {k p : ι} (apart : p ≠ k) (here elsewhere : Logic) : only k here elsewhere p = elsewhere :=
  if_neg apart

/-- A connective of two operands that are known together and spoiled by an x. -/
structure Sensitive (op : Logic → Logic → Logic) (neutral : Logic) : Prop where
  comm : ∀ a b, op a b = op b a
  known : op neutral neutral ≠ .x
  left : op .x neutral = .x
  both : op .x .x = .x

namespace Sensitive

variable {op : Logic → Logic → Logic} {neutral : Logic}

/-- A spoiled operand on either side. -/
theorem right (h : Sensitive op neutral) : op neutral .x = .x := by
  rw [h.comm]
  exact h.left

/-- A spoiled bit shows exactly when it is read. -/
theorem shows_iff (h : Sensitive op neutral) (a b k : ι) :
    op (only k .x neutral a) (only k .x neutral b) = .x ↔ k = a ∨ k = b := by
  by_cases first : a = k <;> by_cases second : b = k <;>
    simp [only, first, second, h.left, h.right, h.both, h.known, eq_comm]

end Sensitive

/-- Two pairs of positions a sensitive connective cannot tell apart are one pair, in one order or the other. -/
theorem pair_iff {op : Logic → Logic → Logic} {neutral : Logic} (sensitive : Sensitive op neutral)
    {f : Logic → Logic} (spoils : f .x = .x) (keeps : ∀ v, op neutral neutral = v ∨ v = .x → f v = .x → v = .x)
    (a b : ι) (p q : Option ι) :
    (∀ state : ι → Logic, f (op (state a) (state b)) = f (op (read state p) (read state q))) ↔
      p = some a ∧ q = some b ∨ p = some b ∧ q = some a := by
  constructor
  · intro same
    have calm := same fun _ => neutral
    have steady : f (op neutral neutral) ≠ .x := fun bad => sensitive.known (keeps _ (Or.inl rfl) bad)
    -- A bit from outside would spoil the result even where every bit is neutral.
    cases p with
    | none =>
      exfalso
      cases q with
      | none => exact steady (by simpa [sensitive.both, spoils] using calm)
      | some q => exact steady (by simpa [sensitive.left, spoils] using calm)
    | some p =>
      cases q with
      | none => exact absurd (by simpa [sensitive.right, spoils] using calm) steady
      | some q =>
        -- Spoiling one bit at a time tells which bits each side reads.
        have reads : ∀ k, (k = a ∨ k = b) ↔ (k = p ∨ k = q) := by
          intro k
          have here := same (only k .x neutral)
          have outcome : ∀ c d : ι, op neutral neutral = op (only k .x neutral c) (only k .x neutral d) ∨
              op (only k .x neutral c) (only k .x neutral d) = .x := by
            intro c d
            by_cases shown : k = c ∨ k = d
            · exact Or.inr ((sensitive.shows_iff c d k).mpr shown)
            · left
              rw [only_of_ne (fun bad => shown (Or.inl bad.symm)), only_of_ne (fun bad => shown (Or.inr bad.symm))]
          rw [← sensitive.shows_iff a b k, ← sensitive.shows_iff p q k]
          simp only [read_some] at here
          constructor
          · intro spoiled
            refine keeps _ (outcome p q) ?_
            rw [← here, spoiled, spoils]
          · intro spoiled
            refine keeps _ (outcome a b) ?_
            rw [here, spoiled, spoils]
        have firstA := (reads a).mp (Or.inl rfl)
        have firstB := (reads b).mp (Or.inr rfl)
        have firstP := (reads p).mpr (Or.inl rfl)
        have firstQ := (reads q).mpr (Or.inr rfl)
        grind
  · rintro (⟨rfl, rfl⟩ | ⟨rfl, rfl⟩) state
    · rfl
    · rw [read_some, read_some, sensitive.comm]

/-- Conjunction is sensitive among ones. -/
theorem Logic.and_sensitive : Sensitive Logic.and .one where
  comm a b := by cases a <;> cases b <;> rfl
  known := by decide
  left := rfl
  both := rfl

/-- Disjunction is sensitive among zeros. -/
theorem Logic.or_sensitive : Sensitive Logic.or .zero where
  comm a b := by cases a <;> cases b <;> rfl
  known := by decide
  left := rfl
  both := rfl

/-- Exclusive disjunction is sensitive among zeros. -/
theorem Logic.xor_sensitive : Sensitive Logic.xor .zero where
  comm a b := by cases a <;> cases b <;> rfl
  known := by decide
  left := rfl
  both := rfl

/-- A position is told from all others by a reading that tells zero, one and x apart as far as needed. -/
theorem single_iff {f : Logic → Logic} (bits : f .zero ≠ f .one) (outside : f .x ≠ f .one) (a : ι) (p : Option ι) :
    (∀ state : ι → Logic, f (state a) = f (read state p)) ↔ p = some a := by
  constructor
  · intro same
    cases p with
    | none => exact absurd (same fun _ => .one).symm outside
    | some p =>
      by_contra apart
      have other : p ≠ a := fun bad => apart (by rw [bad])
      have here := same (only a .one .zero)
      rw [only_self, read_some, only_of_ne other] at here
      exact bits here.symm
  · rintro rfl state
    rfl

section Conditional

variable {s t e : ι} {p q r : Option ι}

/-- Both conditionals take the same value in every state. -/
def SameCond (s t e : ι) (p q r : Option ι) : Prop :=
  ∀ state : ι → Logic, (state s).cond (state t) (state e) = (read state p).cond (read state q) (read state r)

omit [DecidableEq ι] in
/-- A conditional that is one or zero everywhere with its bits has no branch outside. -/
theorem SameCond.branches (same : SameCond s t e p q r) : (∃ q', q = some q') ∧ ∃ r', r = some r' := by
  have ones := same fun _ => .one
  have zeros := same fun _ => .zero
  constructor
  · cases q with
    | some q => exact ⟨q, rfl⟩
    | none => cases p <;> simp [Logic.cond, Logic.merge] at ones
  · cases r with
    | some r => exact ⟨r, rfl⟩
    | none => cases p <;> cases q <;> simp [Logic.cond, Logic.merge] at zeros

/-- A condition the other side does not read leaves it no choice but to select a bit by itself. -/
theorem SameCond.alone (same : SameCond s t e p q r) (unread : p ≠ some s) : t = s ∧ e = s := by
  -- With every other bit in high impedance the other side merges, and a merged bit is never z.
  have merges : ∀ known : Logic, known = .one ∨ known = .zero →
      (read (only s known .z) p).cond (read (only s known .z) q) (read (only s known .z) r) ≠ .z := by
    intro known _
    have unknown : read (only s known .z) p = .x ∨ read (only s known .z) p = .z := by
      cases p with
      | none => exact Or.inl rfl
      | some p => exact Or.inr (only_of_ne (fun bad => unread (by rw [bad])) _ _)
    rcases unknown with isX | isZ
    · rw [isX]
      exact Logic.merge_ne_z _ _
    · rw [isZ]
      exact Logic.merge_ne_z _ _
  constructor
  · by_contra apart
    have here := same (only s .one .z)
    rw [only_self, only_of_ne apart] at here
    exact merges .one (Or.inl rfl) here.symm
  · by_contra apart
    have here := same (only s .zero .z)
    rw [only_self, only_of_ne apart] at here
    exact merges .zero (Or.inr rfl) here.symm

/-- Where both sides read one condition they read the same branches. -/
theorem SameCond.same_branches {q' r' : ι} (same : SameCond s t e (some s) (some q') (some r')) :
    q' = t ∧ r' = e := by
  -- A branch that differs from the condition is set against everything else.
  have split : ∀ a b : ι, a ≠ b → a ≠ s ∨ b ≠ s := by
    intro a b apart
    by_contra none
    push Not at none
    exact apart (none.1.trans none.2.symm)
  constructor
  · by_contra apart
    rcases split q' t apart with other | other
    · have here := same (only q' .zero .one)
      simp [only_of_ne (Ne.symm other), only_of_ne (Ne.symm apart), Logic.cond] at here
    · have here := same (only t .zero .one)
      simp [only_of_ne (Ne.symm other), only_of_ne apart, Logic.cond] at here
  · by_contra apart
    rcases split r' e apart with other | other
    · have here := same (only r' .one .zero)
      simp [only_of_ne (Ne.symm other), only_of_ne (Ne.symm apart), Logic.cond] at here
    · have here := same (only e .one .zero)
      simp [only_of_ne (Ne.symm other), only_of_ne apart, Logic.cond] at here

/-- Two conditionals agree in every state when they read the same positions, or where one bit selects itself and the
other side merges that bit under a condition from outside. -/
theorem cond_iff : SameCond s t e p q r ↔
    q = some t ∧ r = some e ∧ (p = some s ∨ p = none ∧ t = s ∧ e = s) := by
  constructor
  · intro same
    obtain ⟨⟨q', rfl⟩, r', rfl⟩ := same.branches
    by_cases condition : p = some s
    · subst condition
      obtain ⟨rfl, rfl⟩ := same.same_branches
      exact ⟨rfl, rfl, Or.inl rfl⟩
    · obtain ⟨rfl, rfl⟩ := same.alone condition
      cases p with
      | none =>
        -- The merged branches are one exactly where both are.
        have here := same (only e .one .zero)
        have branches : q' = e ∧ r' = e := by
          by_cases first : q' = e <;> by_cases second : r' = e <;>
            simp_all [only, Logic.cond, Logic.merge]
        obtain ⟨rfl, rfl⟩ := branches
        exact ⟨rfl, rfl, Or.inr ⟨rfl, rfl, rfl⟩⟩
      | some p =>
        exfalso
        have other : p ≠ e := fun bad => condition (by rw [bad])
        -- Both branches are the selecting bit, and in high impedance it reads as x.
        have chosen := same (only e .one .zero)
        have refused := same (only e .zero .one)
        have floating := same (only e .z .one)
        have second : r' = e := by
          by_contra apart
          simp [only_of_ne other, only_of_ne apart, Logic.cond] at chosen
        have first : q' = e := by
          by_contra apart
          simp [only_of_ne other, only_of_ne apart, Logic.cond] at refused
        subst first
        simp [only_of_ne other, Logic.cond, Logic.merge] at floating
  · rintro ⟨rfl, rfl, rfl | ⟨rfl, rfl, rfl⟩⟩ state
    · rfl
    · rw [read_none, read_some]
      cases state e <;> rfl

end Conditional

end Positions

end Xezim.FourState
