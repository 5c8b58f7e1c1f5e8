import Mathlib.Tactic.Common

/-! State computations that log the accesses they make, and rules for what such a computation logs and answers. -/

namespace Xezim

/-- What a computation leaves: its answer, the state, and the accesses it made, oldest first. -/
structure Traced.Outcome (σ ι α : Type) where
  value : α
  state : σ
  log : List ι

/-- A computation over a state that logs its accesses. -/
def Traced (σ ι α : Type) : Type := σ → Traced.Outcome σ ι α

namespace Traced

variable {σ ι α β : Type}

instance : Monad (Traced σ ι) where
  pure a := fun s => ⟨a, s, []⟩
  bind m f := fun s => ⟨(f (m s).value (m s).state).value, (f (m s).value (m s).state).state,
    (m s).log ++ (f (m s).value (m s).state).log⟩

instance : LawfulMonad (Traced σ ι) := LawfulMonad.mk' _
  (fun m => funext fun s => by
    show Outcome.mk (m s).value (m s).state ((m s).log ++ []) = m s
    rw [List.append_nil])
  (fun _ _ => funext fun _ => by simp [Bind.bind, Pure.pure])
  (fun _ _ _ => funext fun _ => by simp [Bind.bind, List.append_assoc])

/-- The state as it stands. -/
def get : Traced σ ι σ := fun s => ⟨s, s, []⟩

/-- The state replaced by a function of it. -/
def modify (f : σ → σ) : Traced σ ι Unit := fun s => ⟨(), f s, []⟩

/-- One access, logged. -/
def note (a : ι) : Traced σ ι Unit := fun s => ⟨(), s, [a]⟩

@[simp] theorem pure_run (a : α) (s : σ) : (pure a : Traced σ ι α) s = ⟨a, s, []⟩ := rfl

@[simp] theorem bind_run (m : Traced σ ι α) (f : α → Traced σ ι β) (s : σ) :
    (m >>= f) s = ⟨(f (m s).value (m s).state).value, (f (m s).value (m s).state).state,
      (m s).log ++ (f (m s).value (m s).state).log⟩ := rfl

@[simp] theorem map_run (f : α → β) (m : Traced σ ι α) (s : σ) :
    (f <$> m) s = ⟨f (m s).value, (m s).state, (m s).log⟩ := by
  rw [← bind_pure_comp]
  simp

@[simp] theorem get_run (s : σ) : (get : Traced σ ι σ) s = ⟨s, s, []⟩ := rfl

@[simp] theorem modify_run (f : σ → σ) (s : σ) : (modify f : Traced σ ι Unit) s = ⟨(), f s, []⟩ := rfl

@[simp] theorem note_run (a : ι) (s : σ) : (note a : Traced σ ι Unit) s = ⟨(), s, [a]⟩ := rfl

/-- Every access a computation logs satisfies `P`, and its answer satisfies `Q`, from any state. -/
def Logs (m : Traced σ ι α) (P : ι → Prop) (Q : α → Prop) : Prop :=
  ∀ s, (∀ a ∈ (m s).log, P a) ∧ Q (m s).value

/-- A computation logs an access from any state. -/
def Makes (m : Traced σ ι α) (a : ι) : Prop := ∀ s, a ∈ (m s).log

section Rules

variable {m : Traced σ ι α} {f : α → Traced σ ι β} {P P' : ι → Prop} {Q Q' : α → Prop} {R : β → Prop}

/-- An answer alone logs nothing. -/
theorem Logs.pure {a : α} (holds : Q a) : Logs (Pure.pure a : Traced σ ι α) P Q :=
  fun _ => ⟨by simp, holds⟩

/-- A sequence: the rest is met for every answer of the first part. -/
theorem Logs.bind (first : Logs m P Q) (rest : ∀ a, Q a → Logs (f a) P R) : Logs (m >>= f) P R := by
  intro s
  have left := first s
  have right := rest (m s).value left.2 (m s).state
  refine ⟨fun a member => ?_, right.2⟩
  -- An access of the sequence is one of either part.
  rcases List.mem_append.mp member with member | member
  · exact left.1 a member
  · exact right.1 a member

/-- Weaker conditions are met too. -/
theorem Logs.mono (met : Logs m P Q) (logs : ∀ a, P a → P' a) (answers : ∀ a, Q a → Q' a) :
    Logs m P' Q' :=
  fun s => ⟨fun a member => logs a ((met s).1 a member), answers _ (met s).2⟩

/-- Reading the state logs nothing. -/
theorem Logs.get {Q : σ → Prop} (holds : ∀ s, Q s) : Logs (Traced.get : Traced σ ι σ) P Q :=
  fun s => ⟨by simp, holds s⟩

/-- Changing the state logs nothing. -/
theorem Logs.modify {g : σ → σ} : Logs (Traced.modify g : Traced σ ι Unit) P fun _ => True :=
  fun _ => ⟨by simp, trivial⟩

/-- One logged access. -/
theorem Logs.note {a : ι} (holds : P a) : Logs (Traced.note a : Traced σ ι Unit) P fun _ => True :=
  fun _ => ⟨by simpa using holds, trivial⟩

/-- A computation run once for each element of a list. -/
theorem Logs.forM {xs : List α} {g : α → Traced σ ι PUnit} (each : ∀ x ∈ xs, Logs (g x) P fun _ => True) :
    Logs (xs.forM g) P fun _ => True := by
  induction xs with
  | nil => exact Logs.pure trivial
  | cons x xs ih =>
    exact Logs.bind (each x (by simp)) fun _ _ => ih fun y member => each y (by simp [member])

/-- The answers of a computation run once for each element of a list. -/
theorem Logs.mapM {xs : List α} {g : α → Traced σ ι β} (each : ∀ x ∈ xs, Logs (g x) P fun _ => True) :
    Logs (xs.mapM g) P fun _ => True := by
  induction xs with
  | nil =>
    rw [List.mapM_nil]
    exact Logs.pure trivial
  | cons x xs ih =>
    rw [List.mapM_cons]
    have rest := ih fun y member => each y (by simp [member])
    exact Logs.bind (each x (by simp)) fun _ _ => Logs.bind rest fun _ _ => Logs.pure trivial

/-- The first part of a sequence makes the access. -/
theorem Makes.left {a : ι} (made : Makes m a) : Makes (m >>= f) a :=
  fun s => List.mem_append_left _ (made s)

/-- The rest of a sequence makes the access whatever the first part answers. -/
theorem Makes.right {a : ι} (made : ∀ x, Makes (f x) a) : Makes (m >>= f) a :=
  fun s => List.mem_append_right _ (made (m s).value (m s).state)

/-- A noted access is made. -/
theorem Makes.note {a : ι} : Makes (Traced.note a : Traced σ ι Unit) a := fun _ => by simp

end Rules

end Traced

end Xezim
