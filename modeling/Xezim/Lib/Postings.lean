import Mathlib.Data.Finset.Basic
import Mathlib.Logic.Function.Basic

/-! An index from keys to the numbers filed under them. -/

namespace Postings

open Function

variable {κ : Type} [DecidableEq κ]

/-- The numbers filed under a key. -/
def under (m : κ → Option (Finset Nat)) (k : κ) : Finset Nat := (m k).getD ∅

/-- File a number under a key. -/
def file (n : Nat) (m : κ → Option (Finset Nat)) (k : κ) : κ → Option (Finset Nat) :=
  update m k (some (insert n (under m k)))

/-- Withdraw a number from a key, and the key once nothing is filed under it. -/
def withdraw (n : Nat) (m : κ → Option (Finset Nat)) (k : κ) : κ → Option (Finset Nat) :=
  match m k with
  | some set => update m k (if set.erase n = ∅ then none else some (set.erase n))
  | none => m

/-- No key is stored without a number. -/
def Filled (m : κ → Option (Finset Nat)) : Prop := ∀ k, m k ≠ some ∅

variable {m : κ → Option (Finset Nat)} {k : κ} {n : Nat}

omit [DecidableEq κ] in
/-- An absent key has nothing filed under it. -/
theorem under_of_none (unposted : m k = none) : under m k = ∅ := by
  rw [under, unposted, Option.getD_none]

omit [DecidableEq κ] in
/-- A stored key of a filled index has a number. -/
theorem Filled.under_eq_empty (filled : Filled m) : under m k = ∅ ↔ m k = none := by
  refine ⟨fun empty => ?_, under_of_none⟩
  cases found : m k with
  | none => rfl
  | some set =>
    rw [under, found, Option.getD_some] at empty
    exact absurd (empty ▸ found) (filled k)

/-- The numbers under each key once one was filed. -/
@[simp] theorem under_file (k' : κ) : under (file n m k) k' = if k' = k then insert n (under m k) else under m k' := by
  unfold file
  by_cases here : k' = k
  · subst here
    simp [under]
  · simp [under, here]

/-- The numbers under each key once one was withdrawn. -/
@[simp] theorem under_withdraw (k' : κ) :
    under (withdraw n m k) k' = if k' = k then (under m k).erase n else under m k' := by
  -- A set that becomes empty is removed, which its key reads the same.
  unfold withdraw
  cases found : m k with
  | none =>
    by_cases here : k' = k
    · subst here
      simp [under, found]
    · simp [here]
  | some set =>
    by_cases here : k' = k
    · subst here
      by_cases last : set.erase n = ∅
      · simp [under, found, last]
      · simp [under, found, last]
    · simp [under, here]

/-- An absent key stays absent. -/
theorem withdraw_none {k' : κ} (unposted : m k' = none) : withdraw n m k k' = none := by
  unfold withdraw
  cases found : m k with
  | none => exact unposted
  | some set =>
    have other : k' ≠ k := by
      rintro rfl
      rw [unposted] at found
      cases found
    simp [other, unposted]

/-- Filing keeps an index filled. -/
theorem Filled.file (filled : Filled m) : Filled (file n m k) := by
  intro k'
  unfold Postings.file
  by_cases here : k' = k
  · subst here
    simp
  · simpa [here] using filled k'

/-- Withdrawing keeps an index filled. -/
theorem Filled.withdraw (filled : Filled m) : Filled (withdraw n m k) := by
  intro k'
  -- A set is kept only while it has members.
  unfold Postings.withdraw
  cases found : m k with
  | none => exact filled k'
  | some set =>
    by_cases here : k' = k
    · subst here
      by_cases last : set.erase n = ∅
      · simp [last]
      · simp [last]
    · simpa [here] using filled k'

/-- The numbers under each key once one was filed under several. -/
theorem under_files (n : Nat) (ks : List κ) (m : κ → Option (Finset Nat)) (k : κ) :
    under (ks.foldl (file n) m) k = if k ∈ ks then insert n (under m k) else under m k := by
  induction ks generalizing m with
  | nil => rfl
  | cons first rest ih =>
    rw [List.foldl_cons, ih, under_file]
    by_cases here : k = first
    · subst here
      simp
    · simp [here]

/-- The numbers under each key once one was withdrawn from several. -/
theorem under_withdraws (n : Nat) (ks : List κ) (m : κ → Option (Finset Nat)) (k : κ) :
    under (ks.foldl (withdraw n) m) k = if k ∈ ks then (under m k).erase n else under m k := by
  induction ks generalizing m with
  | nil => rfl
  | cons first rest ih =>
    rw [List.foldl_cons, ih, under_withdraw]
    by_cases here : k = first
    · subst here
      simp
    · simp [here]

omit [DecidableEq κ] in
/-- What holds of an index and is kept by one operation is kept by the operation on several keys. -/
theorem foldl_keeps {P : (κ → Option (Finset Nat)) → Prop}
    {step : (κ → Option (Finset Nat)) → κ → κ → Option (Finset Nat)} (kept : ∀ m k, P m → P (step m k))
    (ks : List κ) {m : κ → Option (Finset Nat)} (here : P m) : P (ks.foldl step m) := by
  induction ks generalizing m with
  | nil => exact here
  | cons first rest ih => exact ih (kept m first here)

end Postings
