import Mathlib.Data.Nat.Find
import Mathlib.Tactic.Common
import Xezim.Sva.Until

/-! The incremental evaluation of `until` against the outcomes of its operands. -/

namespace Xezim.Sva

section Operands

/-- The result of an evaluation after some advances. -/
def Evaluation.resultAt (e : Evaluation) (n : Nat) : Option SvaOutcome := if e.delay < n then some e.outcome else none

/-- The state of an evaluation after some advances; a complete one is not advanced further. -/
def Evaluation.stateAt (e : Evaluation) (n : Nat) : SvaState := ⟨e, min n (e.delay + 1)⟩

/-- A call advances an operand that has no result. -/
theorem advanceOperand_at (e : Evaluation) (n : Nat) :
    SvaUntilTick.advanceOperand (e.resultAt n) (e.stateAt n) = (e.resultAt (n + 1), e.stateAt (n + 1)) := by
  unfold SvaUntilTick.advanceOperand Evaluation.resultAt Evaluation.stateAt
  by_cases done : e.delay < n
  · -- A complete evaluation stays as it is.
    rw [if_pos done, if_neg (by simp), if_pos (by omega), Nat.min_eq_right (by omega), Nat.min_eq_right (by omega)]
  · rw [if_neg done, if_pos rfl, svaAdvance, Nat.min_eq_left (by omega), Nat.min_eq_left (by omega)]
    dsimp only
    congr 1
    by_cases last : n = e.delay
    · rw [if_pos last, if_pos (by omega)]
    · rw [if_neg last, if_neg (by omega)]

/-- A result is the outcome, and stays. -/
theorem resultAt_eq_some {e : Evaluation} {n : Nat} {o : SvaOutcome} :
    e.resultAt n = some o ↔ e.delay < n ∧ e.outcome = o := by
  unfold Evaluation.resultAt
  split
  · rename_i done
    simp [done]
  · rename_i pending
    simp [pending]

/-- The nonvacuity of a complete evaluation. -/
theorem nonvacuous_at {e : Evaluation} {n : Nat} (done : e.delay < n) :
    svaOpNonvacuous (e.resultAt n) (e.stateAt n) = e.nonvacuous := by
  rw [Evaluation.nonvacuous, Evaluation.stateAt, Nat.min_eq_right (by omega), resultAt_eq_some.mpr ⟨done, rfl⟩]

/-- Finitely many calls have a bound. -/
theorem exists_bound (f : Nat → Nat) (n : Nat) : ∃ bound, ∀ j < n, f j < bound := by
  induction n with
  | zero => exact ⟨0, fun j impossible => absurd impossible (Nat.not_lt_zero j)⟩
  | succ n ih =>
    obtain ⟨bound, before⟩ := ih
    -- The last value joins the bound of the ones before it.
    refine ⟨max bound (f n + 1), fun j early => ?_⟩
    rcases Nat.lt_succ_iff_lt_or_eq.mp early with early | rfl
    · have := before j early
      omega
    · omega

theorem exists_lt_succ {P : Nat → Prop} (n : Nat) : (∃ s < n + 1, P s) ↔ (∃ s < n, P s) ∨ P n := by
  constructor
  · rintro ⟨s, below, here⟩
    rcases Nat.lt_succ_iff_lt_or_eq.mp below with below | rfl
    · exact .inl ⟨s, below, here⟩
    · exact .inr here
  · rintro (⟨s, below, here⟩ | here)
    · exact ⟨s, by omega, here⟩
    · exact ⟨n, by omega, here⟩

end Operands

namespace Attempt

variable (p : Attempt)

section Schedule

/-- What tick `k` has come to by call `t`. -/
def tickAt (t k : Nat) : SvaUntilTick :=
  ⟨(p.left k).stateAt (t - k), (p.right k).stateAt (t - k), (p.left k).resultAt (t - k),
    (p.right k).resultAt (t - k)⟩

/-- Tick `k` has begun by call `t` and no left operand of an earlier tick has failed by then. -/
def Watched (t k : Nat) : Prop := k < t ∧ ∀ i < k, (p.tickAt t i).leftResult ≠ some .fail

/-- Tick `k` is known by call `t` to make the attempt hold. -/
def HoldsBy (t k : Nat) : Prop :=
  (∃ o, (p.tickAt t k).rightResult = some o ∧ o ≠ .fail) ∧
    ∀ j < k, ∃ o, (p.tickAt t j).leftResult = some o ∧ o ≠ .fail

/-- Tick `k` is known by call `t` to make the attempt fail. -/
def FailsBy (t k : Nat) : Prop :=
  (p.tickAt t k).leftResult = some .fail ∧ ∀ j ≤ k, (p.tickAt t j).rightResult = some .fail

/-- Call `t` is the first by which the attempt is known to hold, and tick `k` the first known by then to make
it hold. -/
structure FirstHolds (t k : Nat) : Prop where
  holds : p.HoldsBy t k
  tick : ∀ j < k, ¬ p.HoldsBy t j
  call : ∀ s < t, ∀ j, ¬ p.HoldsBy s j

/-- An operand has shown itself nonvacuous by call `t`: at an earlier call one of a watched tick, or now one
of a tick up to `k`. -/
def Noticed (t k : Nat) : Prop :=
  (∃ s < t, ∃ j, p.Watched s j ∧ (p.tickAt s j).nonvacuous = true) ∨
    ∃ j ≤ k, (p.tickAt t j).nonvacuous = true

/-- Whether an attempt that holds is noticed to be nonvacuous when it is known to hold is whether an operand
of a tick up to the deciding one is nonvacuous. -/
def NoticedRight : Prop :=
  ∀ t k d, p.FirstHolds t k → p.Decides d → (p.Noticed t k ↔ p.NonvacuousUpTo d)

end Schedule

variable {p}

section Results

/-- Left results by a call. -/
theorem left_eq_some {t k : Nat} {o : SvaOutcome} :
    (p.tickAt t k).leftResult = some o ↔ k + (p.left k).delay < t ∧ (p.left k).outcome = o := by
  rw [tickAt, resultAt_eq_some]
  exact and_congr_left' (by omega)

/-- Right results by a call. -/
theorem right_eq_some {t k : Nat} {o : SvaOutcome} :
    (p.tickAt t k).rightResult = some o ↔ k + (p.right k).delay < t ∧ (p.right k).outcome = o := by
  rw [tickAt, resultAt_eq_some]
  exact and_congr_left' (by omega)

/-- A call advances every tick. -/
theorem advance_tickAt {t k : Nat} (begun : k ≤ t) : (p.tickAt t k).advance = p.tickAt (t + 1) k := by
  unfold SvaUntilTick.advance tickAt
  dsimp only
  rw [advanceOperand_at, advanceOperand_at, Nat.succ_sub begun]

/-- A tick that has just begun. -/
theorem tickAt_new (t : Nat) : p.tickAt t t = ⟨svaNewState (p.left t), svaNewState (p.right t), none, none⟩ := by
  unfold tickAt
  rw [Nat.sub_self]
  rfl

/-- What is known to make an attempt hold does. -/
theorem HoldsBy.holds {t k : Nat} (decided : p.HoldsBy t k) : p.Holds k := by
  obtain ⟨⟨o, right, held⟩, before⟩ := decided
  refine ⟨(right_eq_some.mp right).2 ▸ held, fun j early => ?_⟩
  obtain ⟨o', left, held'⟩ := before j early
  exact (left_eq_some.mp left).2 ▸ held'

/-- What makes an attempt hold is known by some call. -/
theorem Holds.known {k : Nat} (holds : p.Holds k) : ∃ t, p.HoldsBy t k := by
  -- A bound on the calls by which the left operands of the earlier ticks are complete.
  obtain ⟨bound, complete⟩ := exists_bound (fun j => j + (p.left j).delay) k
  refine ⟨bound + (k + (p.right k).delay + 1), ⟨_, right_eq_some.mpr ⟨by omega, rfl⟩, holds.1⟩, fun j early => ?_⟩
  have := complete j early
  exact ⟨_, left_eq_some.mpr ⟨by omega, rfl⟩, holds.2 j early⟩

/-- What is known to make an attempt fail does. -/
theorem FailsBy.fails {t k : Nat} (decided : p.FailsBy t k) : p.Fails k :=
  ⟨(left_eq_some.mp decided.1).2, fun j early => (right_eq_some.mp (decided.2 j early)).2⟩

/-- What makes an attempt fail is known by some call. -/
theorem Fails.known {k : Nat} (fails : p.Fails k) : ∃ t, p.FailsBy t k := by
  obtain ⟨bound, complete⟩ := exists_bound (fun j => j + (p.right j).delay) (k + 1)
  refine ⟨bound + (k + (p.left k).delay + 1), left_eq_some.mpr ⟨by omega, fails.1⟩, fun j early => ?_⟩
  have := complete j (by omega)
  exact right_eq_some.mpr ⟨by omega, fails.2 j early⟩

/-- An attempt does not both hold and fail. -/
theorem Holds.not_fails {k j : Nat} (holds : p.Holds k) (fails : p.Fails j) : False := by
  rcases Nat.lt_or_ge j k with early | late
  · exact holds.2 j early fails.1
  · exact holds.1 (fails.2 k late)

end Results

section Loops

variable (p)

/-- The ticks from `b` to before `n` by call `t`. -/
def window (t b n : Nat) : List SvaUntilTick := (List.range' b (n - b)).map (p.tickAt t)

variable {p} {t b n : Nat}

theorem window_cons (inside : b < n) : p.window t b n = p.tickAt t b :: p.window t (b + 1) n := by
  unfold window
  rw [show n - b = n - (b + 1) + 1 by omega, List.range'_succ, List.map_cons]

theorem window_nil (outside : n ≤ b) : p.window t b n = [] := by
  unfold window
  rw [Nat.sub_eq_zero_of_le outside]
  rfl

/-- A tick that begins joins the window. -/
theorem window_append (inside : b ≤ n) : p.window t b n ++ [p.tickAt t n] = p.window t b (n + 1) := by
  unfold window
  rw [show n + 1 - b = n - b + 1 by omega, List.range'_concat, List.map_append, List.map_singleton]
  congr 3
  omega

/-- A call advances the whole window. -/
theorem advance_window (begun : n ≤ t + 1) : (p.window t b n).map SvaUntilTick.advance = p.window (t + 1) b n := by
  unfold window
  rw [List.map_map]
  refine List.map_congr_left fun k member => ?_
  have := List.mem_range'_1.mp member
  exact advance_tickAt (by omega)

/-- A tick that folds has a left operand that held and a right one that failed. -/
theorem folds_iff {tick : SvaUntilTick} : tick.folds = true ↔
    (∃ o, tick.leftResult = some o ∧ o ≠ .fail) ∧ tick.rightResult = some .fail := by
  unfold SvaUntilTick.folds
  rcases tick.leftResult with _ | (_ | _ | _) <;> simp

/-- Folding drops ticks that fold and keeps their nonvacuity. -/
theorem foldFront_window (flag : Bool) (inside : b ≤ n) :
    ∃ b', b ≤ b' ∧ b' ≤ n ∧ (foldFront flag (p.window t b n)).2 = p.window t b' n ∧
      (∀ k, b ≤ k → k < b' → (p.tickAt t k).folds = true) ∧
      ((foldFront flag (p.window t b n)).1 = true ↔
        flag = true ∨ ∃ j, b ≤ j ∧ j < b' ∧ (p.tickAt t j).nonvacuous = true) := by
  -- The front is folded tick by tick, so the induction is on how many ticks the window still has.
  induction remaining : n - b generalizing b flag with
  | zero =>
    rw [window_nil (by omega)]
    refine ⟨b, le_refl b, inside, (window_nil (by omega)).symm, fun k low high => by omega, ?_⟩
    have noneYet : ¬ ∃ j, b ≤ j ∧ j < b ∧ (p.tickAt t j).nonvacuous = true := by
      rintro ⟨j, low, high, -⟩
      omega
    simp [foldFront, noneYet]
  | succ rest ih =>
    rw [window_cons (by omega), foldFront]
    by_cases folds : (p.tickAt t b).folds = true
    · rw [if_pos folds]
      -- A tick that folds joins the flag of the ticks after it.
      obtain ⟨b', low, high, kept, gone, flagged⟩ := ih (flag || (p.tickAt t b).nonvacuous) (b := b + 1) (by omega)
        (by omega)
      refine ⟨b', by omega, high, kept, fun k atLeast below => ?_, ?_⟩
      · rcases Nat.eq_or_lt_of_le atLeast with rfl | after
        · exact folds
        · exact gone k after below
      · rw [flagged, Bool.or_eq_true]
        constructor
        · rintro ((set | set) | ⟨j, atLeast, below, set⟩)
          · exact .inl set
          · exact .inr ⟨b, le_refl b, by omega, set⟩
          · exact .inr ⟨j, by omega, below, set⟩
        · rintro (set | ⟨j, atLeast, below, set⟩)
          · exact .inl (.inl set)
          · rcases Nat.eq_or_lt_of_le atLeast with rfl | after
            · exact .inl (.inr set)
            · exact .inr ⟨j, after, below, set⟩
    · -- The first tick that does not fold stops the front where it stands.
      rw [if_neg folds]
      refine ⟨b, le_refl b, inside, (window_cons (by omega)).symm, fun k low high => by omega, ?_⟩
      have noneYet : ¬ ∃ j, b ≤ j ∧ j < b ∧ (p.tickAt t j).nonvacuous = true := by
        rintro ⟨j, low, high, -⟩
        omega
      simp [noneYet]

variable (p) in
/-- What a scan of the ticks from `b` to before `n` finds. -/
inductive Scanned (t b n : Nat) (flag : Bool) : Scan → Prop
  | holds {nonvacuous : Bool} (k : Nat) (low : b ≤ k) (high : k < n) (holds : p.HoldsBy t k)
      (first : ∀ j < k, ¬ p.HoldsBy t j)
      (flagged : nonvacuous = true ↔
        flag = true ∨ ∃ j, b ≤ j ∧ j ≤ k ∧ (p.tickAt t j).nonvacuous = true) :
      Scanned t b n flag (.holds nonvacuous)
  | fails {nonvacuous possible : Bool} (k : Nat) (low : b ≤ k) (high : k < n)
      (failed : (p.tickAt t k).leftResult = some .fail)
      (first : ∀ j < k, (p.tickAt t j).leftResult ≠ some .fail) (unheld : ∀ j ≤ k, ¬ p.HoldsBy t j)
      (possibly : possible = true ↔ ∃ j ≤ k, (p.tickAt t j).rightResult ≠ some .fail)
      (flagged : nonvacuous = true ↔
        flag = true ∨ ∃ j, b ≤ j ∧ j ≤ k ∧ (p.tickAt t j).nonvacuous = true) :
      Scanned t b n flag (.ends nonvacuous true possible)
  | passes {nonvacuous possible : Bool} (held : ∀ j < n, (p.tickAt t j).leftResult ≠ some .fail)
      (unheld : ∀ j < n, ¬ p.HoldsBy t j)
      (flagged : nonvacuous = true ↔
        flag = true ∨ ∃ j, b ≤ j ∧ j < n ∧ (p.tickAt t j).nonvacuous = true) :
      Scanned t b n flag (.ends nonvacuous false possible)

/-- A scan that goes on past a tick finds what it finds from the next tick on. -/
theorem Scanned.cons {flag : Bool} {r : Scan} (inside : b < n)
    (rest : p.Scanned t (b + 1) n (flag || (p.tickAt t b).nonvacuous) r) : p.Scanned t b n flag r := by
  -- The nonvacuity of the tick is counted among that of the ticks from it on.
  have count (P : Nat → Prop) (here : P b) : ((flag || (p.tickAt t b).nonvacuous) = true ∨
      ∃ j, b + 1 ≤ j ∧ P j ∧ (p.tickAt t j).nonvacuous = true) ↔
        flag = true ∨ ∃ j, b ≤ j ∧ P j ∧ (p.tickAt t j).nonvacuous = true := by
    rw [Bool.or_eq_true]
    constructor
    · rintro ((set | set) | ⟨j, atLeast, below, set⟩)
      · exact .inl set
      · exact .inr ⟨b, le_refl b, here, set⟩
      · exact .inr ⟨j, by omega, below, set⟩
    · rintro (set | ⟨j, atLeast, below, set⟩)
      · exact .inl (.inl set)
      · rcases Nat.eq_or_lt_of_le atLeast with rfl | after
        · exact .inl (.inr set)
        · exact .inr ⟨j, after, below, set⟩
  cases rest with
  | holds k low high holds first flagged =>
    exact .holds k (by omega) high holds first (flagged.trans (count (· ≤ k) (by omega)))
  | fails k low high failed first unheld possibly flagged =>
    exact .fails k (by omega) high failed first unheld possibly (flagged.trans (count (· ≤ k) (by omega)))
  | passes held unheld flagged => exact .passes held unheld (flagged.trans (count (· < n) inside))

/-- The scan, from a tick before which no left operand has failed and no right one decided the attempt. -/
theorem scan_window {pending possible flag : Bool} (inside : b ≤ n)
    (pends : pending = true ↔ ∃ j < b, (p.tickAt t j).leftResult = none)
    (held : ∀ j < b, (p.tickAt t j).leftResult ≠ some .fail)
    (possibly : possible = true ↔ ∃ j < b, (p.tickAt t j).rightResult ≠ some .fail)
    (unheld : ∀ j < b, ¬ p.HoldsBy t j) :
    p.Scanned t b n flag (scan pending possible flag (p.window t b n)) := by
  induction remaining : n - b generalizing b pending possible flag with
  | zero =>
    obtain rfl : b = n := by omega
    rw [window_nil (le_refl b)]
    refine .passes held unheld ?_
    have empty : ¬ ∃ j, b ≤ j ∧ j < b ∧ (p.tickAt t j).nonvacuous = true := by
      rintro ⟨j, low, high, -⟩
      omega
    simp [empty]
  | succ rest ih =>
    rw [window_cons (by omega), scan]
    dsimp only
    have next : b + 1 ≤ n := by omega
    have after : n - (b + 1) = rest := by omega
    -- The tick decides the attempt exactly when the scan stops at its right operand.
    have decides : ((p.tickAt t b).rightResult ≠ some .fail ∧ (p.tickAt t b).rightResult.isSome = true ∧
        pending = false) ↔ p.HoldsBy t b := by
      constructor
      · rintro ⟨holds, done, settled⟩
        obtain ⟨o, result⟩ := Option.isSome_iff_exists.mp done
        refine ⟨⟨o, result, fun impossible => holds (impossible ▸ result)⟩, fun j early => ?_⟩
        rcases left : (p.tickAt t j).leftResult with _ | o'
        · exact absurd (pends.mpr ⟨j, early, left⟩) (by rw [settled]; exact Bool.false_ne_true)
        · exact ⟨o', rfl, fun impossible => held j early (impossible ▸ left)⟩
      · rintro ⟨⟨o, result, holds⟩, before⟩
        refine ⟨fun impossible => holds (Option.some.inj (result.symm.trans impossible)), by rw [result]; rfl, ?_⟩
        rw [Bool.eq_false_iff]
        intro set
        obtain ⟨j, early, left⟩ := pends.mp set
        obtain ⟨o', left', -⟩ := before j early
        exact nomatch left.symm.trans left'
    have here (P : Nat → Prop) (holdsNow : P b) : ((flag || (p.tickAt t b).nonvacuous) = true ↔
        flag = true ∨ ∃ j, b ≤ j ∧ j ≤ b ∧ (p.tickAt t j).nonvacuous = true) := by
      rw [Bool.or_eq_true]
      refine or_congr_right ⟨fun set => ⟨b, le_refl b, le_refl b, set⟩, ?_⟩
      rintro ⟨j, low, high, set⟩
      obtain rfl : j = b := by omega
      exact set
    split
    · rename_i stop
      exact .holds b (le_refl b) (by omega) (decides.mp stop) unheld (here (fun _ => True) trivial)
    · rename_i go
      have noneUpTo (j) (early : j < b + 1) : ¬ p.HoldsBy t j := by
        rcases Nat.lt_succ_iff_lt_or_eq.mp early with early | rfl
        · exact unheld j early
        · exact fun impossible => go (decides.mpr impossible)
      have openUpTo : (possible || decide ((p.tickAt t b).rightResult ≠ some .fail)) = true ↔
          ∃ j < b + 1, (p.tickAt t j).rightResult ≠ some .fail := by
        rw [exists_lt_succ, Bool.or_eq_true, possibly, decide_eq_true_iff]
      split
      · rename_i failed
        refine .fails b (le_refl b) (by omega) failed held (fun j early => noneUpTo j (by omega)) ?_
          (here (fun _ => True) trivial)
        rw [openUpTo]
        simp only [Nat.lt_succ_iff]
      · rename_i left
        refine .cons next (ih next ?_ ?_ openUpTo noneUpTo after)
        · rw [exists_lt_succ]
          exact iff_of_true rfl (.inr left)
        · intro j early impossible
          rcases Nat.lt_succ_iff_lt_or_eq.mp early with early | rfl
          · exact held j early impossible
          · exact nomatch left.symm.trans impossible
      · rename_i other notNone
        refine .cons next (ih next ?_ ?_ openUpTo noneUpTo after)
        · rw [exists_lt_succ, pends]
          exact (or_iff_left notNone).symm
        · intro j early impossible
          rcases Nat.lt_succ_iff_lt_or_eq.mp early with early | rfl
          · exact held j early impossible
          · exact other impossible

end Loops

section Runs

variable (p)

/-- An attempt still open after `t` calls: the ticks not folded yet, from `b` to before `n`. -/
structure Open (t b n : Nat) (st : SvaUntil) : Prop where
  ticks : st.ticks = p.window t b n
  order : b ≤ n ∧ n ≤ t
  folded : ∀ k < b, (p.tickAt t k).folds = true
  unclosed : st.closed = false → n = t ∧ ∀ k < n, (p.tickAt t k).leftResult ≠ some .fail
  closed : st.closed = true → ∃ k < n, (p.tickAt t k).leftResult = some .fail
  flag : st.nonvacuous = true ↔ ∃ s < t + 1, ∃ j, p.Watched s j ∧ (p.tickAt s j).nonvacuous = true
  unknown : ∀ s < t + 1, (∀ j, ¬ p.HoldsBy s j) ∧ ∀ j, ¬ p.FailsBy s j

variable {p} {t b n : Nat}

/-- No operand has a result before the first call. -/
theorem unknown_zero : (∀ j, ¬ p.HoldsBy 0 j) ∧ ∀ j, ¬ p.FailsBy 0 j := by
  constructor
  · rintro j ⟨⟨o, right, -⟩, -⟩
    have := (right_eq_some.mp right).1
    omega
  · rintro j ⟨left, -⟩
    have := (left_eq_some.mp left).1
    omega

theorem open_start : p.Open 0 0 0 (p.after 0) where
  ticks := rfl
  order := ⟨le_refl 0, le_refl 0⟩
  folded k impossible := absurd impossible (Nat.not_lt_zero k)
  unclosed _ := ⟨rfl, fun k impossible => absurd impossible (Nat.not_lt_zero k)⟩
  closed impossible := nomatch impossible
  flag := by
    refine iff_of_false Bool.false_ne_true ?_
    rintro ⟨s, before, j, ⟨begun, -⟩, -⟩
    omega
  unknown s before := by
    obtain rfl : s = 0 := by omega
    exact unknown_zero

/-- A result stays. -/
theorem left_stays {k : Nat} {o : SvaOutcome} (result : (p.tickAt t k).leftResult = some o) :
    (p.tickAt (t + 1) k).leftResult = some o := by
  rw [left_eq_some] at result ⊢
  exact ⟨by omega, result.2⟩

/-- A tick that folds goes on folding. -/
theorem folds_stays {k : Nat} (folds : (p.tickAt t k).folds = true) : (p.tickAt (t + 1) k).folds = true := by
  rw [folds_iff] at folds ⊢
  obtain ⟨⟨o, left, held⟩, right⟩ := folds
  rw [right_eq_some] at right ⊢
  exact ⟨⟨o, left_stays left, held⟩, by omega, right.2⟩

/-- A folded nonvacuous tick was watched when it was folded. -/
theorem Open.noticed {st : SvaUntil} (attempt : p.Open t b n st) {j : Nat} (old : j < b)
    (set : (p.tickAt (t + 1) j).nonvacuous = true) : ∃ j, p.Watched t j ∧ (p.tickAt t j).nonvacuous = true := by
  have := attempt.order
  refine ⟨j, ⟨by omega, fun i before impossible => ?_⟩, ?_⟩
  · obtain ⟨⟨o, left, held⟩, -⟩ := folds_iff.mp (attempt.folded i (by omega))
    exact held (Option.some.inj (left.symm.trans impossible))
  · obtain ⟨⟨o, left, -⟩, right⟩ := folds_iff.mp (attempt.folded j old)
    rw [left_eq_some] at left
    rw [right_eq_some] at right
    -- Both operands are complete, so the tick is what it was.
    unfold SvaUntilTick.nonvacuous tickAt at set ⊢
    dsimp only at set ⊢
    rwa [nonvacuous_at (by omega), nonvacuous_at (by omega)] at set ⊢

/-- One call on an open attempt: it returns that the attempt holds at the first call by which that is known,
that it fails at the first by which that is, and else leaves it open. -/
theorem Open.call {st : SvaUntil} (attempt : p.Open t b n st) :
    (∃ k, p.FirstHolds (t + 1) k ∧ ∃ nonvacuous : Bool, (nonvacuous = true ↔ p.Noticed (t + 1) k) ∧
        (svaAdvanceUntil (p.left t) (p.right t) st).1 = some (if nonvacuous then .pass else .vacuous)) ∨
      ((∃ k, p.FailsBy (t + 1) k) ∧ (svaAdvanceUntil (p.left t) (p.right t) st).1 = some .fail) ∨
      ((svaAdvanceUntil (p.left t) (p.right t) st).1 = none ∧
        ∃ b' n', p.Open (t + 1) b' n' (svaAdvanceUntil (p.left t) (p.right t) st).2) := by
  -- The ticks after this call's advance, the one that begins now with them.
  obtain ⟨n', ticks, order, opens, closes⟩ : ∃ n', ((if st.closed then st.ticks else
      st.ticks ++ [⟨svaNewState (p.left t), svaNewState (p.right t), none, none⟩]).map SvaUntilTick.advance) =
        p.window (t + 1) b n' ∧ (b ≤ n' ∧ n' ≤ t + 1) ∧ (st.closed = false → n' = t + 1) ∧
        (st.closed = true → ∃ k < n', (p.tickAt (t + 1) k).leftResult = some .fail) := by
    rw [attempt.ticks]
    cases closed : st.closed with
    | false =>
      obtain ⟨rfl, -⟩ := attempt.unclosed closed
      refine ⟨n + 1, ?_, ⟨by have := attempt.order; omega, le_refl _⟩, fun _ => rfl, fun impossible =>
        (nomatch impossible)⟩
      rw [if_neg Bool.false_ne_true, ← tickAt_new, window_append attempt.order.1]
      exact advance_window (le_refl _)
    | true =>
      obtain ⟨k, inside, failed⟩ := attempt.closed closed
      have := attempt.order
      refine ⟨n, ?_, ⟨this.1, by omega⟩, fun impossible => (nomatch impossible), fun _ =>
        ⟨k, inside, left_stays failed⟩⟩
      rw [if_pos rfl]
      exact advance_window (by omega)
  have gone (k) (below : k < b) : (p.tickAt (t + 1) k).folds = true := folds_stays (attempt.folded k below)
  unfold svaAdvanceUntil
  dsimp only
  rw [ticks]
  obtain ⟨b', low, high, kept, folds, flagged⟩ := foldFront_window (p := p) (t := t + 1) st.nonvacuous order.1
  generalize foldFront st.nonvacuous (p.window (t + 1) b n') = folded at *
  obtain ⟨flag, front⟩ := folded
  dsimp only at kept flagged ⊢
  subst kept
  have folded (k) (below : k < b') : (p.tickAt (t + 1) k).folds = true := by
    rcases Nat.lt_or_ge k b with old | new
    · exact gone k old
    · exact folds k new below
  -- Every tick before the front has a left operand that held and a right one that failed.
  have leftHolds (k) (below : k < b') : ∃ o, (p.tickAt (t + 1) k).leftResult = some o ∧ o ≠ .fail :=
    (folds_iff.mp (folded k below)).1
  have rightFails (k) (below : k < b') : (p.tickAt (t + 1) k).rightResult = some .fail :=
    (folds_iff.mp (folded k below)).2
  have heldFront (k) (below : k < b') : (p.tickAt (t + 1) k).leftResult ≠ some .fail := by
    obtain ⟨o, result, holds⟩ := leftHolds k below
    rw [result]
    exact fun impossible => holds (Option.some.inj impossible)
  have noneFront (k) (below : k < b') : ¬ p.HoldsBy (t + 1) k := by
    rintro ⟨⟨o, result, holds⟩, -⟩
    exact holds (Option.some.inj (result.symm.trans (rightFails k below)))
  have scanned : p.Scanned (t + 1) b' n' flag (scan false false flag (p.window (t + 1) b' n')) := scan_window
    high (iff_of_false Bool.false_ne_true fun ⟨k, below, impossible⟩ => by
      obtain ⟨o, result, -⟩ := leftHolds k below
      exact nomatch result.symm.trans impossible) heldFront
    (iff_of_false Bool.false_ne_true fun ⟨k, below, impossible⟩ => impossible (rightFails k below)) noneFront
  -- A folded tick that is nonvacuous was noticed when it was folded, if not now.
  have notices (P : Nat → Prop) (front : ∀ j < b', P j) : (flag = true ∨ ∃ j, b' ≤ j ∧ P j ∧
      (p.tickAt (t + 1) j).nonvacuous = true) ↔
        (∃ s < t + 1, ∃ j, p.Watched s j ∧ (p.tickAt s j).nonvacuous = true) ∨
          ∃ j, P j ∧ (p.tickAt (t + 1) j).nonvacuous = true := by
    rw [flagged, attempt.flag, or_assoc]
    constructor
    · rintro (seen | ⟨j, atLeast, below, set⟩ | ⟨j, atLeast, below, set⟩)
      · exact .inl seen
      · exact .inr ⟨j, front j below, set⟩
      · exact .inr ⟨j, below, set⟩
    · rintro (seen | ⟨j, below, set⟩)
      · exact .inl seen
      · rcases Nat.lt_or_ge j b with old | new
        · refine .inl ⟨t, by omega, attempt.noticed old set⟩
        · rcases Nat.lt_or_ge j b' with now | later
          · exact .inr (.inl ⟨j, new, now, set⟩)
          · exact .inr (.inr ⟨j, later, below, set⟩)
  generalize scan false false flag (p.window (t + 1) b' n') = result at scanned ⊢
  rcases scanned with ⟨k, atLeast, below, holds, first, seen⟩ |
      ⟨k, atLeast, below, failed, first, unheld, possible, seen⟩ | ⟨held, unheld, seen⟩
  · refine .inl ⟨k, ⟨holds, first, fun s before => (attempt.unknown s before).1⟩, _, ?_, rfl⟩
    rw [seen, Noticed]
    exact notices (· ≤ k) fun j front => by omega
  · have seenNow : p.Watched (t + 1) = fun j => j ≤ k := by
      funext j
      refine propext ⟨fun watched => ?_, fun early => ⟨by omega, fun i before => first i (by omega)⟩⟩
      by_contra late
      exact watched.2 k (by omega) failed
    rename_i nonvacuous open'
    cases open' with
    | false =>
      refine .inr (.inl ⟨⟨k, failed, fun j early => ?_⟩, by simp⟩)
      by_contra other
      exact Bool.false_ne_true (possible.mpr ⟨j, early, other⟩)
    | true =>
      obtain ⟨j, early, other⟩ := possible.mp rfl
      refine .inr (.inr ⟨by simp, b', n', rfl, ⟨high, order.2⟩, folded, fun impossible => by simp at impossible,
        fun _ => ⟨k, below, failed⟩, ?_, ?_⟩)
      · rw [seen, exists_lt_succ (t + 1), seenNow]
        exact notices (· ≤ k) fun j front => by omega
      · intro s before
        rcases Nat.lt_succ_iff_lt_or_eq.mp before with before | rfl
        · exact attempt.unknown s before
        refine ⟨fun i holds => ?_, fun i fails => ?_⟩
        · rcases Nat.lt_or_ge k i with after | upTo
          · obtain ⟨o, result, held⟩ := holds.2 k after
            exact held (Option.some.inj (result.symm.trans failed))
          · exact unheld i upTo holds
        · rcases Nat.lt_or_ge i k with before | atLeast
          · exact first i before fails.1
          · exact other (fails.2 j (by omega))
  · have opened : st.closed = false := by
      rw [Bool.eq_false_iff]
      intro closed
      obtain ⟨k, inside, failed⟩ := closes closed
      exact held k inside failed
    have all := opens opened
    have now : p.Watched (t + 1) = fun j => j < n' := by
      funext j
      refine propext ⟨fun watched => all ▸ watched.1, fun early => ⟨by omega, fun i before => held i (by omega)⟩⟩
    refine .inr (.inr ⟨by simp [opened], b', n', rfl, ⟨high, order.2⟩, folded, fun _ => ⟨all, held⟩,
      fun impossible => by simp [opened] at impossible, ?_, ?_⟩)
    · rw [seen, exists_lt_succ (t + 1), now]
      exact notices (· < n') fun j front => by omega
    · intro s before
      rcases Nat.lt_succ_iff_lt_or_eq.mp before with before | rfl
      · exact attempt.unknown s before
      refine ⟨fun i holds => ?_, fun i fails => ?_⟩
      · obtain ⟨o, right, -⟩ := holds.1
        have := (right_eq_some.mp right).1
        exact unheld i (by omega) holds
      · have := (left_eq_some.mp fails.1).1
        exact held i (by omega) fails.1

/-- An attempt that has returned nothing is open. -/
theorem open_after {t : Nat} (silent : ∀ s < t, p.outcome s = none) : ∃ b n, p.Open t b n (p.after t) := by
  induction t with
  | zero => exact ⟨0, 0, open_start⟩
  | succ t ih =>
    -- While the calls stay silent every one of them leaves the attempt open.
    obtain ⟨b, n, attempt⟩ := ih fun s before => silent s (by omega)
    have quiet : (svaAdvanceUntil (p.left t) (p.right t) (p.after t)).1 = none := silent t (by omega)
    rcases attempt.call with ⟨k, -, nonvacuous, -, returned⟩ | ⟨-, returned⟩ | ⟨-, next⟩
    · exact nomatch quiet.symm.trans returned
    · exact nomatch quiet.symm.trans returned
    · exact next

/-- The first outcome returned: that the attempt holds, nonvacuous when that is noticed, or that it fails. -/
theorem Returns.cases {o : SvaOutcome} (returns : p.Returns o) :
    (∃ t k, p.FirstHolds t k ∧ (o = .pass ∧ p.Noticed t k ∨ o = .vacuous ∧ ¬ p.Noticed t k)) ∨
      o = .fail ∧ ∃ k, p.Fails k := by
  obtain ⟨t, outcome, silent⟩ := returns
  obtain ⟨b, n, attempt⟩ := open_after silent
  -- The call that returns is the last one, and its attempt was open before it.
  change (svaAdvanceUntil (p.left t) (p.right t) (p.after t)).1 = some o at outcome
  rcases attempt.call with ⟨k, first, nonvacuous, noticed, returned⟩ | ⟨⟨k, fails⟩, returned⟩ | ⟨returned, -⟩
  · refine .inl ⟨t + 1, k, first, ?_⟩
    obtain rfl := Option.some.inj (outcome.symm.trans returned)
    cases nonvacuous with
    | true => exact .inl ⟨rfl, noticed.mp rfl⟩
    | false => exact .inr ⟨rfl, fun seen => Bool.false_ne_true (noticed.mpr seen)⟩
  · exact .inr ⟨Option.some.inj (outcome.symm.trans returned), k, fails.fails⟩
  · exact nomatch outcome.symm.trans returned

/-- There is one first outcome at most. -/
theorem Returns.unique {o o' : SvaOutcome} (returns : p.Returns o) (returns' : p.Returns o') : o = o' := by
  obtain ⟨t, outcome, silent⟩ := returns
  obtain ⟨t', outcome', silent'⟩ := returns'
  rcases Nat.lt_trichotomy t t' with early | rfl | late
  · exact nomatch outcome.symm.trans (silent' t early)
  · exact Option.some.inj (outcome.symm.trans outcome')
  · exact nomatch outcome'.symm.trans (silent t' late)

/-- An attempt that holds or fails returns an outcome. -/
theorem exists_returns (settled : ∃ k, p.Holds k ∨ p.Fails k) : ∃ o, p.Returns o := by
  by_contra never
  -- Without a first outcome there is none, and the attempt stays open past every call.
  have silent (t : Nat) : p.outcome t = none := by
    induction t using Nat.strongRecOn with
    | ind t ih =>
      rcases outcome : p.outcome t with _ | o
      · rfl
      · exact absurd ⟨o, t, outcome, ih⟩ never
  obtain ⟨k, holds | fails⟩ := settled
  · obtain ⟨t, known⟩ := holds.known
    obtain ⟨b, n, attempt⟩ := open_after fun s (_ : s < t) => silent s
    exact (attempt.unknown t (by omega)).1 k known
  · obtain ⟨t, known⟩ := fails.known
    obtain ⟨b, n, attempt⟩ := open_after fun s (_ : s < t) => silent s
    exact (attempt.unknown t (by omega)).2 k known

/-- There is one first call and one first tick by which an attempt is known to hold. -/
theorem FirstHolds.unique {t t' k k' : Nat} (first : p.FirstHolds t k) (first' : p.FirstHolds t' k') :
    t = t' ∧ k = k' := by
  -- Of two first calls the earlier one would already hold before the later; the same goes for ticks.
  obtain rfl : t = t' := by
    rcases Nat.lt_trichotomy t t' with early | same | late
    · exact absurd first.holds (first'.call t early k)
    · exact same
    · exact absurd first'.holds (first.call t' late k')
  refine ⟨rfl, ?_⟩
  rcases Nat.lt_trichotomy k k' with early | same | late
  · exact absurd first.holds (first'.tick k early)
  · exact same
  · exact absurd first'.holds (first.tick k' late)

/-- There is one deciding tick. -/
theorem Decides.unique {d d' : Nat} (decides : p.Decides d) (decides' : p.Decides d') : d = d' := by
  rcases Nat.lt_trichotomy d d' with early | same | late
  · exact absurd decides.1 (decides'.2 d early)
  · exact same
  · exact absurd decides'.1 (decides.2 d' late)

/-- An attempt that holds has a deciding tick. -/
theorem Holds.decides {k : Nat} (holds : p.Holds k) : ∃ d, p.Decides d := by
  classical
  exact ⟨Nat.find ⟨k, holds⟩, Nat.find_spec ⟨k, holds⟩, fun j early => Nat.find_min ⟨k, holds⟩ early⟩

end Runs

/-- The first outcome returned is the one the operand outcomes call for exactly when an attempt that holds is
noticed to be nonvacuous, by the call by which it is known to hold, just when an operand of a tick up to the
deciding one is nonvacuous; whether an attempt holds, fails or neither is always right. -/
theorem returns_iff_refers (p : Attempt) : (∀ o, p.Returns o ↔ p.Refers o) ↔ p.NoticedRight := by
  constructor
  · intro agrees t k d first decides
    obtain ⟨o, returns⟩ := exists_returns ⟨d, .inl decides.1⟩
    have refers := (agrees o).mp returns
    rcases returns.cases with ⟨t', k', first', outcome⟩ | ⟨-, j, fails⟩
    · obtain ⟨rfl, rfl⟩ := first.unique first'
      rcases outcome with ⟨rfl, noticed⟩ | ⟨rfl, unnoticed⟩
      · obtain ⟨d', decides', nonvacuous⟩ := refers
        obtain rfl := decides.unique decides'
        exact iff_of_true noticed nonvacuous
      · obtain ⟨d', decides', vacuous⟩ := refers
        obtain rfl := decides.unique decides'
        exact iff_of_false unnoticed vacuous
    · exact (decides.1.not_fails fails).elim
  · intro right
    -- What is returned is called for; what is called for is returned, as only one outcome is called for.
    have sound {o : SvaOutcome} (returns : p.Returns o) : p.Refers o := by
      rcases returns.cases with ⟨t, k, first, outcome⟩ | ⟨rfl, fails⟩
      · obtain ⟨d, decides⟩ := first.holds.holds.decides
        rcases outcome with ⟨rfl, noticed⟩ | ⟨rfl, unnoticed⟩
        · exact ⟨d, decides, (right t k d first decides).mp noticed⟩
        · exact ⟨d, decides, fun nonvacuous => unnoticed ((right t k d first decides).mpr nonvacuous)⟩
      · exact fails
    refine fun o => ⟨sound, fun refers => ?_⟩
    have settled : ∃ k, p.Holds k ∨ p.Fails k := by
      cases o with
      | pass | vacuous =>
        obtain ⟨d, decides, -⟩ := refers
        exact ⟨d, .inl decides.1⟩
      | fail =>
        obtain ⟨k, fails⟩ := refers
        exact ⟨k, .inr fails⟩
    obtain ⟨o', returns⟩ := exists_returns settled
    obtain rfl : o = o' := by
      have refers' := sound returns
      cases o with
      | pass =>
        obtain ⟨d, decides, nonvacuous⟩ := refers
        cases o' with
        | pass => rfl
        | vacuous =>
          obtain ⟨d', decides', vacuous⟩ := refers'
          exact absurd (decides.unique decides' ▸ nonvacuous) vacuous
        | fail =>
          obtain ⟨k, fails⟩ := refers'
          exact (decides.1.not_fails fails).elim
      | vacuous =>
        obtain ⟨d, decides, vacuous⟩ := refers
        cases o' with
        | pass =>
          obtain ⟨d', decides', nonvacuous⟩ := refers'
          exact absurd (decides'.unique decides ▸ nonvacuous) vacuous
        | vacuous => rfl
        | fail =>
          obtain ⟨k, fails⟩ := refers'
          exact (decides.1.not_fails fails).elim
      | fail =>
        obtain ⟨k, fails⟩ := refers
        cases o' with
        | pass | vacuous =>
          obtain ⟨d, decides, -⟩ := refers'
          exact (decides.1.not_fails fails).elim
        | fail => rfl
    exact returns

/-- An attempt whose first tick is vacuous and decides it, its right operand two ticks late, while the left
operand of the second tick passes. -/
def lateAttempt : Attempt where
  left k := ⟨0, if k = 0 then .vacuous else .pass, fun _ => false⟩
  right _ := ⟨2, .vacuous, fun _ => false⟩

/-- It is reported to pass, on account of the second tick. -/
theorem lateAttempt_passes : lateAttempt.Returns .pass ∧ ¬ lateAttempt.Refers .pass := by
  refine ⟨⟨2, by decide, fun s early => ?_⟩, ?_⟩
  · obtain rfl | rfl : s = 0 ∨ s = 1 := by omega
    · decide
    · decide
  · -- The first tick decides it, and neither of that tick's results is a pass.
    rintro ⟨d, ⟨-, least⟩, j, early, nonvacuous⟩
    have zero : lateAttempt.Holds 0 := ⟨by decide, fun j impossible => absurd impossible (Nat.not_lt_zero j)⟩
    obtain rfl : d = 0 := by
      by_contra later
      exact least 0 (by omega) zero
    obtain rfl : j = 0 := by omega
    exact absurd nonvacuous (by decide)

end Attempt

end Xezim.Sva
