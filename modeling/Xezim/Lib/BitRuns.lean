import Xezim.Lib.Splice

/-! The maximal runs of ones of a bit mask, and planes that agree on all of them. -/

namespace BitRuns

open Splice

/-- The runs of ones among `n` positions from `i` on, as first position and length, where a run may
already be open. -/
def scan (m : Nat) : Nat → Nat → Option Nat → List (Nat × Nat)
  | 0, _, none => []
  | 0, i, some start => [(start, i - start)]
  | n + 1, i, none => scan m n (i + 1) (if m.testBit i then some i else none)
  | n + 1, i, some start =>
    if m.testBit i then scan m n (i + 1) (some start)
    else (start, i - start) :: scan m n (i + 1) none

/-- The maximal runs of ones in the low `w` bits of a mask. -/
def runs (m w : Nat) : List (Nat × Nat) := scan m w 0 none

/-- A position lies in a run when its bit is set, or when the open run has passed it. -/
theorem mem_scan {m j : Nat} (n i : Nat) (openRun : Option Nat)
    (before : ∀ s, openRun = some s → s ≤ i) :
    (∃ r ∈ scan m n i openRun, r.1 ≤ j ∧ j < r.1 + r.2) ↔
      (m.testBit j = true ∧ i ≤ j ∧ j < i + n) ∨ ∃ start, openRun = some start ∧ start ≤ j ∧ j < i := by
  induction n generalizing i openRun with
  | zero =>
    cases openRun with
    | none => simp [scan]
    | some start =>
      have empty : ¬ (i ≤ j ∧ j < i) := by omega
      simp only [scan, List.mem_singleton, exists_eq_left, Nat.add_zero, Option.some.injEq, empty,
        and_false, false_or, exists_eq_left']
      omega
  | succ n ih =>
    have here : j = i ∨ j ≠ i := eq_or_ne j i
    cases openRun with
    | none =>
      rw [scan, ih _ _ fun s here => by split at here <;> cases here; omega]
      by_cases set : m.testBit i = true
      · simp only [set, if_true, Option.some.injEq, exists_eq_left', reduceCtorEq, false_and, exists_false,
          or_false]
        rcases here with rfl | other
        · simp [set]
        · have bounds : (i + 1 ≤ j ∧ j < i + 1 + n ↔ i ≤ j ∧ j < i + (n + 1)) ∧
              ¬ (i ≤ j ∧ j < i + 1) := by omega
          rw [bounds.1, or_iff_left bounds.2]
      · simp only [set, if_false, reduceCtorEq, false_and, exists_false, or_false, Bool.false_eq_true]
        rcases here with rfl | other
        · simp [set]
        · refine and_congr_right fun _ => ?_
          omega
    | some start =>
      have low := before start rfl
      have nothing (s : Nat) (here : (none : Option Nat) = some s) : s ≤ i + 1 := by cases here
      unfold scan
      by_cases set : m.testBit i = true
      · rw [if_pos set, ih _ _ fun s here => by cases here; omega]
        simp only [Option.some.injEq, exists_eq_left']
        rcases here with rfl | other
        · simp [set, low]
        · have bounds : (i + 1 ≤ j ∧ j < i + 1 + n ↔ i ≤ j ∧ j < i + (n + 1)) ∧
              (start ≤ j ∧ j < i + 1 ↔ start ≤ j ∧ j < i) := by omega
          rw [bounds.1, bounds.2]
      · rw [if_neg set]
        simp only [List.mem_cons, exists_eq_or_imp, ih _ _ nothing, Option.some.injEq, exists_eq_left', reduceCtorEq,
          false_and, exists_false, or_false]
        rcases here with rfl | other
        · simp [set]
          omega
        · have bounds : (i + 1 ≤ j ∧ j < i + 1 + n ↔ i ≤ j ∧ j < i + (n + 1)) ∧
              (start ≤ j ∧ j < start + (i - start) ↔ start ≤ j ∧ j < i) := by omega
          rw [bounds.1, bounds.2, or_comm]

/-- Runs stay inside the positions that were looked at. -/
theorem scan_inside {m : Nat} (n i : Nat) (openRun : Option Nat) (before : ∀ s, openRun = some s → s ≤ i) :
    ∀ r ∈ scan m n i openRun, r.1 + r.2 ≤ i + n := by
  induction n generalizing i openRun with
  | zero =>
    cases openRun with
    | none => simp [scan]
    | some start =>
      have := before start rfl
      simp only [scan, List.mem_singleton, forall_eq]
      omega
  | succ n ih =>
    have next (o : Option Nat) (low : ∀ s, o = some s → s ≤ i + 1) (r) (member : r ∈ scan m n (i + 1) o) :
        r.1 + r.2 ≤ i + (n + 1) := by
      have := ih (i + 1) o low r member
      omega
    cases openRun with
    | none =>
      refine next _ fun s here => ?_
      split at here <;> cases here
      omega
    | some start =>
      have low := before start rfl
      unfold scan
      split
      · exact next _ fun s here => by cases here; omega
      · intro r member
        rcases List.mem_cons.mp member with rfl | member
        · dsimp only
          omega
        · exact next none (fun s here => by cases here) r member

/-- Runs stay inside the width. -/
theorem runs_inside {m w : Nat} {r : Nat × Nat} (member : r ∈ runs m w) : r.1 + r.2 ≤ w := by
  have := scan_inside w 0 none (fun s here => by cases here) r member
  omega

/-- Every bit of a run is set. -/
theorem runs_set {m w j : Nat} {r : Nat × Nat} (member : r ∈ runs m w) (low : r.1 ≤ j)
    (high : j < r.1 + r.2) : m.testBit j = true := by
  have set := (mem_scan (m := m) (j := j) w 0 none fun s here => by cases here).mp
    ⟨r, member, low, high⟩
  simp only [reduceCtorEq, false_and, exists_false, or_false] at set
  exact set.1

/-- A mask of ones is one run. -/
theorem runs_ones {w : Nat} (pos : 0 < w) : runs (ones w) w = [(0, w)] := by
  have whole (n i : Nat) (inside : i + n ≤ w) : scan (ones w) n i (some 0) = [(0, i + n)] := by
    induction n generalizing i with
    | zero => rfl
    | succ n ih =>
      unfold scan
      rw [if_pos (by simp; omega), ih (i + 1) (by omega)]
      congr 2
      omega
  obtain ⟨k, rfl⟩ : ∃ k, w = k + 1 := ⟨w - 1, by omega⟩
  unfold runs scan
  rw [if_pos (by rw [testBit_ones]; simp), whole k 1 (by omega)]
  congr 2
  omega

/-- Two planes agree on every run of a mask exactly when they agree on every bit of it. -/
theorem agree_iff {m w a b : Nat} :
    (∀ r ∈ runs m w, window a r.1 r.2 = window b r.1 r.2) ↔
      ∀ j < w, m.testBit j = true → a.testBit j = b.testBit j := by
  constructor
  · intro same j below set
    obtain ⟨r, member, low, high⟩ := (mem_scan (m := m) (j := j) w 0 none fun s here => by cases here).mpr
      (.inl ⟨set, by omega, by omega⟩)
    have here := congrArg (fun p => p.testBit (j - r.1)) (same r member)
    have inside : j - r.1 < r.2 := by omega
    have back : r.1 + (j - r.1) = j := by omega
    simpa [inside, back] using here
  · intro same r member
    refine plane_ext fun i => ?_
    by_cases inside : i < r.2
    · have within := runs_inside member
      simp [inside, same (r.1 + i) (by omega) (runs_set member (by omega) (by omega))]
    · simp [inside]

end BitRuns
