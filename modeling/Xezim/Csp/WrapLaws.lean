import Mathlib.Algebra.Order.Group.Int
import Mathlib.Algebra.Group.Int.Even
import Mathlib.Algebra.Ring.Divisibility.Basic
import Mathlib.Data.Int.ModEq
import Mathlib.Tactic.LinearCombination
import Xezim.Csp.NarrowLaws

/-! Relations compared modulo a power of two: the residues, intervals and inverses they narrow by lose no
solution. -/

namespace Xezim

variable {csp : Csp} {a : Nat → Int} {s t : Search} {P : (Nat → Int) → Prop}

section Residues

/-- Every value of the progression up to the bound is listed. -/
theorem mem_residues {step hi : Int} (pos : 0 < step) {room : Nat} {x : Int} {xs : List Int}
    (listed : residues x step hi room = some xs) (k : Nat) (below : x + k * step ≤ hi) :
    x + k * step ∈ xs := by
  induction room generalizing x xs k with
  -- With no room left the listing succeeds only past the bound.
  | zero =>
    unfold residues at listed
    split at listed
    · cases listed
    · have := Int.mul_nonneg (Int.natCast_nonneg k) pos.le
      omega
  | succ room ih =>
    have growth := Int.mul_nonneg (Int.natCast_nonneg k) pos.le
    unfold residues at listed
    -- The first candidate is within the bound, as one further on is.
    rw [if_pos (by omega)] at listed
    obtain ⟨rest, listed', rfl⟩ := Option.map_eq_some_iff.mp listed
    cases k with
    | zero => simp
    | succ k =>
      -- The k-th of the later candidates is the next after the k-th.
      have shifted : x + step + k * step = x + (k + 1 : Nat) * step := by push_cast; ring
      rw [← shifted] at below ⊢
      exact List.mem_cons_of_mem _ (ih listed' k below)

/-- The listed values ascend from the first. -/
theorem residues_sorted {step hi : Int} (pos : 0 < step) {room : Nat} {x : Int} {xs : List Int}
    (listed : residues x step hi room = some xs) : xs.Pairwise (· < ·) ∧ ∀ y ∈ xs, x ≤ y := by
  induction room generalizing x xs with
  | zero =>
    -- An exhausted room lists nothing or gives up.
    unfold residues at listed
    split at listed
    · cases listed
    · cases listed
      exact ⟨List.Pairwise.nil, by simp⟩
  | succ room ih =>
    unfold residues at listed
    split at listed
    · obtain ⟨rest, listed', rfl⟩ := Option.map_eq_some_iff.mp listed
      obtain ⟨sorted, above⟩ := ih listed'
      -- The first candidate is a step below all the others.
      refine ⟨List.pairwise_cons.mpr ⟨fun y member => ?_, sorted⟩, fun y member => ?_⟩
      · have := above y member
        omega
      · rcases List.mem_cons.mp member with rfl | member
        · exact le_refl _
        · have := above y member
          omega
    · cases listed
      exact ⟨List.Pairwise.nil, by simp⟩

/-- Ascending single values are a domain. -/
theorem ok_points {xs : List Int} (sorted : xs.Pairwise (· < ·)) :
    Dom.Ok (xs.map fun x => (x, x)) :=
  ⟨by simp, List.pairwise_map.mpr sorted⟩

/-- A list of single values has its elements. -/
theorem has_points {xs : List Int} {x : Int} :
    Dom.Has (xs.map fun x => (x, x)) x ↔ x ∈ xs := by
  simp only [Dom.Has, List.mem_map]
  constructor
  · rintro ⟨p, ⟨y, member, rfl⟩, low, high⟩
    rwa [show x = y by dsimp only at low high; omega]
  · intro member
    exact ⟨(x, x), ⟨x, member, rfl⟩, le_refl _, le_refl _⟩

/-- A number of a residue class not below `lo` is reached from the least such number. -/
theorem residue_reached {r lo m x : Int} (pos : 0 < m) (low : lo ≤ x) (same : m ∣ x - r) :
    ∃ k : Nat, x = r + ceilDiv (lo - r) m * m + k * m := by
  obtain ⟨j, multiple⟩ := same
  have least : ceilDiv (lo - r) m ≤ j := (Dom.ceilDiv_le pos).mpr (by omega)
  refine ⟨(j - ceilDiv (lo - r) m).toNat, ?_⟩
  rw [Int.toNat_of_nonneg (by omega), show x = r + m * j by omega]
  ring

/-- Only values of the progression up to the bound are listed. -/
theorem of_mem_residues {y z step hi : Int} {room : Nat} {ys : List Int}
    (listed : residues z step hi room = some ys) (member : y ∈ ys) : step ∣ y - z := by
  -- Every candidate is a whole number of steps from the first.
  induction room generalizing z ys with
  | zero =>
    unfold residues at listed
    split at listed
    · cases listed
    · cases listed
      cases member
  | succ room ih =>
    unfold residues at listed
    split at listed
    · obtain ⟨rest, listed', rfl⟩ := Option.map_eq_some_iff.mp listed
      rcases List.mem_cons.mp member with rfl | member
      · rw [sub_self]
        exact dvd_zero step
      · -- One more step is added on the way back.
        have later := dvd_add (ih listed' member) (dvd_refl step)
        rwa [show y - (z + step) + step = y - z by ring] at later
    · cases listed
      cases member

/-- The values listed from the least one of a residue class are those of the class. -/
theorem mem_residues_class {r lo hi m y : Int} (pos : 0 < m) {room : Nat} {ys : List Int}
    (listed : residues (r + ceilDiv (lo - r) m * m) m hi room = some ys) (low : lo ≤ y)
    (high : y ≤ hi) : y ∈ ys ↔ m ∣ y - r := by
  constructor
  · -- Aligning the first candidate moves it by a multiple of the modulus.
    intro member
    have congruent := dvd_add (of_mem_residues listed member) (Dvd.intro_left (ceilDiv (lo - r) m) rfl)
    rwa [show y - (r + ceilDiv (lo - r) m * m) + ceilDiv (lo - r) m * m = y - r by ring] at congruent
  · -- A value of the class at or above the low end is some number of steps past the first candidate.
    intro congruent
    obtain ⟨k, reached⟩ := residue_reached pos low congruent
    rw [reached] at high ⊢
    exact mem_residues pos listed k high

end Residues

section Wrapping

/-- The range of a type of 1 to 64 bits holds `2 ^ w` numbers. -/
theorem wsRange_span {w : Nat} (pos : 0 < w) (narrow : w ≤ 64) (signed : Bool) :
    (wsRange w signed).2 = (wsRange w signed).1 + 2 ^ w - 1 := by
  obtain ⟨k, rfl⟩ : ∃ k, w = k + 1 := ⟨w - 1, by omega⟩
  have clamped : min (max (k + 1) 1) 64 = k + 1 := by omega
  -- Both kinds of type have two to the width many values.
  have halves : (2 : Int) ^ (k + 1) = 2 * 2 ^ k := by ring
  cases signed with
  | true =>
    simp only [wsRange, clamped, if_true, Nat.add_sub_cancel]
    omega
  | false =>
    simp only [wsRange, clamped, Bool.false_eq_true, if_false]
    omega

/-- A wrapped number lies in its type's range. -/
theorem wrapValue_range {w : Nat} (pos : 0 < w) (narrow : w ≤ 64) (signed : Bool) (y : Int) :
    (wsRange w signed).1 ≤ wrapValue w signed y ∧ wrapValue w signed y ≤ (wsRange w signed).2 := by
  have m : (0 : Int) < 2 ^ w := by positivity
  have low := Int.emod_nonneg (y - (wsRange w signed).1) m.ne'
  have high := Int.emod_lt_of_pos (y - (wsRange w signed).1) m
  have span := wsRange_span pos narrow signed
  unfold wrapValue
  omega

/-- A number is its wrapped value and a multiple of the modulus. -/
theorem wrapValue_add (w : Nat) (signed : Bool) (y : Int) :
    wrapValue w signed y + (y - (wsRange w signed).1) / 2 ^ w * 2 ^ w = y := by
  have := Int.emod_add_mul_ediv (y - (wsRange w signed).1) (2 ^ w)
  unfold wrapValue
  rw [mul_comm _ ((2 : Int) ^ w)]
  omega

/-- Numbers that agree modulo `2 ^ w` wrap to the same value. -/
theorem wrapValue_congr {w : Nat} {signed : Bool} {y z : Int} (same : (2 : Int) ^ w ∣ y - z) :
    wrapValue w signed y = wrapValue w signed z := by
  unfold wrapValue
  congr 1
  refine Int.emod_eq_emod_iff_emod_sub_eq_zero.mpr (Int.emod_eq_zero_of_dvd ?_)
  rwa [sub_sub_sub_cancel_right]

/-- A number and its wrapped value agree modulo `2 ^ w`. -/
theorem dvd_sub_wrapValue (w : Nat) (signed : Bool) (y : Int) :
    (2 : Int) ^ w ∣ y - wrapValue w signed y := by
  have sum := wrapValue_add w signed y
  exact ⟨(y - (wsRange w signed).1) / 2 ^ w, by rw [mul_comm]; omega⟩

/-- A number of a type wraps to itself. -/
theorem wrapValue_self {w : Nat} {s : Bool} {x : Int} (pos : 0 < w) (narrow : w ≤ 64)
    (range : (wsRange w s).1 ≤ x ∧ x ≤ (wsRange w s).2) : wrapValue w s x = x := by
  have span := wsRange_span pos narrow s
  unfold wrapValue
  rw [Int.emod_eq_of_lt (by omega) (by omega)]
  omega

end Wrapping

section Inverses

/-- `trailing_zeros` counts factors of two, and all of them unless it reached its bound. -/
theorem trailingZerosUpTo_spec (c : Int) (w : Nat) :
    trailingZerosUpTo c w ≤ w ∧ (2 : Int) ^ trailingZerosUpTo c w ∣ c ∧
      (trailingZerosUpTo c w < w → c / 2 ^ trailingZerosUpTo c w % 2 = 1) := by
  -- The zeros are counted by halving, and the count stops at the first odd number.
  induction w generalizing c with
  | zero => exact ⟨le_refl _, one_dvd c, fun small => absurd small (Nat.lt_irrefl 0)⟩
  | succ w ih =>
    unfold trailingZerosUpTo
    split
    · rename_i even
      obtain ⟨bound, divides, odd⟩ := ih (c / 2)
      -- An even number is twice its half, so the half's zeros are one fewer.
      have half : c = 2 * (c / 2) := by omega
      refine ⟨by omega, ?_, fun small => ?_⟩
      · rw [pow_succ, mul_comm, half, Int.mul_ediv_cancel_left _ (by omega)]
        exact mul_dvd_mul_left 2 divides
      · rw [pow_succ, mul_comm, ← Int.ediv_ediv_of_nonneg (by omega)]
        exact odd (by omega)
    · -- An odd number has none.
      rename_i odd
      exact ⟨by omega, by rw [pow_zero]; exact one_dvd c, fun _ => by
        rw [pow_zero, Int.ediv_one]
        omega⟩

/-- One step of Newton's iteration doubles the bits of an inverse, up to the width it works at. -/
theorem newton_step {a x : Int} {k : Nat} (inverse : (2 : Int) ^ k ∣ a * x - 1) :
    (2 : Int) ^ min (k + k) 128 ∣ a * (x * (2 - a * x) % 2 ^ 128) - 1 := by
  have wide : (2 : Int) ^ min (k + k) 128 ∣ 2 ^ 128 := pow_dvd_pow 2 (min_le_right _ _)
  have doubled : (2 : Int) ^ min (k + k) 128 ∣ (a * x - 1) * (a * x - 1) :=
    (pow_dvd_pow 2 (min_le_left _ _)).trans (pow_add (2 : Int) k k ▸ mul_dvd_mul inverse inverse)
  -- The error squares with each step, and what the reduction drops is a multiple of `2 ^ 128`.
  have error : a * (x * (2 - a * x) % 2 ^ 128) - 1 =
      -((a * x - 1) * (a * x - 1)) - 2 ^ 128 * (a * (x * (2 - a * x) / 2 ^ 128)) := by
    rw [Int.emod_def]
    ring
  rw [error]
  exact dvd_sub (dvd_neg.mpr doubled) (wide.mul_right _)

/-- The inverse of an odd number, at as many bits as the iterations give. -/
theorem newtonInverse_spec {a : Int} (odd : a % 2 = 1) (n : Nat) :
    (2 : Int) ^ min (3 * 2 ^ n) 128 ∣ a * newtonInverse a n - 1 := by
  induction n with
  | zero =>
    -- An odd number is its own inverse modulo eight.
    have eights : a * a % 8 = 1 := by
      have classes : a % 8 = 1 ∨ a % 8 = 3 ∨ a % 8 = 5 ∨ a % 8 = 7 := by omega
      rw [Int.mul_emod]
      rcases classes with h | h | h | h <;> rw [h] <;> rfl
    have : min (3 * 2 ^ 0) 128 = 3 := rfl
    rw [this]
    exact Int.dvd_of_emod_eq_zero (by change (a * a - 1) % 8 = 0; omega)
  | succ n ih =>
    have step := newton_step ih
    have bits : min (min (3 * 2 ^ n) 128 + min (3 * 2 ^ n) 128) 128 = min (3 * 2 ^ (n + 1)) 128 := by
      have := pow_succ 2 n
      omega
    rwa [bits] at step

/-- A multiple `c·x` is in a residue class modulo `2 ^ w` when `x` is in one modulo `2 ^ (w - tz)`. -/
theorem wrap_root {c x r : Int} {w : Nat} (narrow : w ≤ 64) (small : trailingZerosUpTo c w < w) :
    (2 : Int) ^ w ∣ c * x - r ↔ r % 2 ^ trailingZerosUpTo c w = 0 ∧
      (2 : Int) ^ w / 2 ^ trailingZerosUpTo c w ∣ x - r / 2 ^ trailingZerosUpTo c w *
        newtonInverse (c / 2 ^ trailingZerosUpTo c w % (2 ^ w / 2 ^ trailingZerosUpTo c w)) 7 := by
  obtain ⟨bound, divides, odd⟩ := trailingZerosUpTo_spec c w
  generalize trailingZerosUpTo c w = tz at *
  obtain ⟨k, rfl⟩ : ∃ k, w = tz + (k + 1) := ⟨w - tz - 1, by omega⟩
  have nonzero : (2 : Int) ^ tz ≠ 0 := by positivity
  have quotient : (2 : Int) ^ (tz + (k + 1)) / 2 ^ tz = 2 ^ (k + 1) := by
    rw [pow_add, Int.mul_ediv_cancel_left _ nonzero]
  rw [quotient]
  obtain ⟨c', rfl⟩ := divides
  rw [Int.mul_ediv_cancel_left _ nonzero] at odd ⊢
  -- Newton's iteration inverts the odd part of the coefficient.
  have reduced : (2 : Int) ^ (k + 1) ∣ c' - c' % 2 ^ (k + 1) := Int.dvd_self_sub_emod
  have odd' : c' % 2 ^ (k + 1) % 2 = 1 := by
    rw [Int.emod_emod_of_dvd _ (dvd_pow_self 2 (by omega))]
    exact odd (by omega)
  have inverse := (pow_dvd_pow (2 : Int) (by omega : k + 1 ≤ min (3 * 2 ^ 7) 128)).trans
    (newtonInverse_spec odd' 7)
  generalize newtonInverse (c' % 2 ^ (k + 1)) 7 = inv at *
  obtain ⟨f, red⟩ := reduced
  obtain ⟨g, one⟩ := inverse
  constructor
  · rintro ⟨q, multiple⟩
    obtain ⟨r', rfl⟩ : (2 : Int) ^ tz ∣ r := by
      refine ⟨c' * x - 2 ^ (k + 1) * q, ?_⟩
      rw [pow_add] at multiple
      linear_combination -multiple
    refine ⟨Int.mul_emod_right _ _, ?_⟩
    rw [Int.mul_ediv_cancel_left _ nonzero]
    -- Both sides lose the common power of two.
    have lower : c' * x - r' = 2 ^ (k + 1) * q := by
      refine mul_left_cancel₀ nonzero ?_
      rw [pow_add] at multiple
      linear_combination multiple
    refine ⟨q * inv - f * inv * x - g * x, ?_⟩
    linear_combination inv * lower - inv * x * red - x * one
  · rintro ⟨whole, e, root⟩
    obtain ⟨r', rfl⟩ := Int.dvd_of_emod_eq_zero whole
    rw [Int.mul_ediv_cancel_left _ nonzero] at root
    refine ⟨c' * e + (g + f * inv) * r', ?_⟩
    rw [pow_add]
    linear_combination 2 ^ tz * c' * root + 2 ^ tz * r' * one + 2 ^ tz * r' * inv * red

/-- The values of the open variable that are collected are those that reach a target value, where the
multiples in a residue class modulo `m` are the values of one class modulo `mg`. -/
theorem mem_wrapSolutions {c rest m g mg inv lo hi x : Int} (pos : 0 < mg)
    (root : ∀ x r, m ∣ c * x - r ↔ r % g = 0 ∧ mg ∣ x - r / g * inv) (low : lo ≤ x) (high : x ≤ hi)
    {targets allowed out : List Int}
    (collected : wrapSolutions rest m g mg inv lo hi targets allowed = some out) :
    x ∈ out ↔ x ∈ allowed ∨ ∃ t ∈ targets, m ∣ c * x - (t - rest) := by
  induction targets generalizing allowed with
  | nil =>
    cases collected
    simp
  | cons t targets ih =>
    -- The residue of the right side is in the same class.
    have congruent : m ∣ c * x - (t - rest) % m ↔ m ∣ c * x - (t - rest) := by
      have reduced : m ∣ t - rest - (t - rest) % m := Int.dvd_self_sub_emod
      rw [← dvd_sub_left reduced, sub_sub_sub_cancel_right]
    unfold wrapSolutions at collected
    dsimp only at collected
    rw [List.exists_mem_cons_iff, ← congruent, root]
    split at collected
    · rename_i apart
      rw [ih collected]
      simp [apart]
    · rename_i whole
      split at collected
      · cases collected
      · rename_i xs listed
        have least : mg ∣ x - (t - rest) % m / g * inv % mg ↔ mg ∣ x - (t - rest) % m / g * inv := by
          have reduced : mg ∣ (t - rest) % m / g * inv - (t - rest) % m / g * inv % mg :=
            Int.dvd_self_sub_emod
          rw [← dvd_sub_left reduced, sub_sub_sub_cancel_right]
        rw [ih collected, List.mem_append, or_assoc, mem_residues_class pos listed low high, least,
          and_iff_right (not_not.mp whole)]

end Inverses

section Narrowing

/-- Meeting a domain with values that include every one an assignment meeting `P` takes. -/
theorem enforced_meet (csp : Csp) (oks : ∀ v, (s.d v).Ok) (v : Nat) {e : Dom} (ok : e.Ok)
    (keeps : ∀ a, P a → Within a s.d → e.Has (a v)) :
    Enforced csp P s (s.set v (domMeet (s.d v) e)) :=
  enforced_set csp s v (fun here => here.meet ok)
    (fun _ here => ((Dom.has_meet (oks v) ok).mp here).1)
    fun a holds within => (Dom.has_meet (oks v) ok).mpr ⟨within v, keeps a holds within⟩

/-- `csp_wrap_eq` keeps the assignments the form vanishes at, modulo `2 ^ w`. -/
theorem enforced_wrapEq (csp : Csp) {l : Lin} {w : Nat} (oks : ∀ v, (s.d v).Ok)
    (vanishes : ∀ a, P a → l.at a % 2 ^ w = 0) {r : Bool × Search}
    (done : cspWrapEq l w s = some r) : Enforced csp P s r := by
  unfold cspWrapEq at done
  split at done
  · cases done
  · dsimp only at done
    split at done
    · cases done
    · rename_i rest opened
      cases done
      refine Enforced.told (Quiet.refl csp s) fun a holds within => ?_
      have sum := openTerm_lin within opened
      have := vanishes a holds
      simp only [Option.elim, add_zero] at sum
      rwa [decide_eq_true_eq, ← sum]
    · rename_i rest v c opened
      split at done
      · cases done
      · rename_i unit
        obtain ⟨cands, listed, rfl⟩ := Option.map_eq_some_iff.mp done
        have pos : (0 : Int) < 2 ^ w := by positivity
        refine enforced_meet csp oks v (ok_points (residues_sorted pos listed).1)
          fun a holds within => has_points.mpr ?_
        have square : c * c = 1 := by
          rcases (by omega : c = 1 ∨ c = -1) with rfl | rfl <;> rfl
        -- The open variable is congruent to what the constant part leaves it.
        have same : (2 : Int) ^ w ∣ a v - (-rest * c) % 2 ^ w := by
          obtain ⟨q, multiple⟩ := Int.dvd_of_emod_eq_zero (vanishes a holds)
          obtain ⟨e, reduced⟩ := Int.dvd_self_sub_emod (x := -rest * c) (m := 2 ^ w)
          have sum := openTerm_lin within opened
          simp only [Option.elim] at sum
          refine ⟨c * q + e, ?_⟩
          linear_combination reduced + c * (multiple - sum) - a v * square
        obtain ⟨low, high⟩ := (oks v).bounds (within v)
        obtain ⟨k, reached⟩ := residue_reached pos low same
        rw [reached]
        exact mem_residues pos listed k (reached ▸ high)

/-- The wrapped values `csp_wrap_set` aims at. -/
theorem has_target {set : Dom} (ok : set.Ok) (neg : Bool) {lo hi y : Int} (low : lo ≤ y)
    (high : y ≤ hi) :
    Dom.Has (if neg then domMinus [(lo, hi)] set else domClip set lo hi) y ↔
      domHas set y ≠ neg := by
  cases neg with
  | true =>
    -- Excluding the set keeps what of the type lies outside it.
    rw [if_pos rfl, Dom.has_minus (Dom.ok_single (low.trans high)) ok, Dom.has_single, ne_eq,
      Dom.domHas_iff]
    exact and_iff_right ⟨low, high⟩
  | false =>
    -- Including the set keeps what of it lies in the type.
    rw [if_neg Bool.false_ne_true, Dom.has_clip, ne_eq, Bool.not_eq_false, Dom.domHas_iff]
    exact and_iff_left ⟨low, high⟩

/-- A number whose wrapped value is in the target lies in a target interval moved by as many moduli as
it wraps, among those that meet the bounds of the number; `solve` turns them into intervals of `x`. -/
theorem has_moved {target : Dom} {m rlo ylo yhi y z x : Int} (pos : 0 < m) (inside : target.Has z)
    (whole : z + (y - rlo) / m * m = y) (low : ylo ≤ y) (high : y ≤ yhi)
    (solve : Int → Int → Int × Int)
    (solved : ∀ a b, a ≤ y → y ≤ b → (solve a b).1 ≤ x ∧ x ≤ (solve a b).2) :
    Dom.Has (domNorm ((domValues [(floorDiv (ylo - rlo) m, floorDiv (yhi - rlo) m)]).flatMap
      fun j => target.filterMap fun p =>
        if max (p.1 + j * m) ylo ≤ min (p.2 + j * m) yhi then
          some (solve (max (p.1 + j * m) ylo) (min (p.2 + j * m) yhi))
        else none)) x := by
  obtain ⟨p, member, above, below⟩ := inside
  -- Dividing keeps the order, so the value's quotient lies between those of the ends.
  have quotient : floorDiv (ylo - rlo) m ≤ (y - rlo) / m ∧
      (y - rlo) / m ≤ floorDiv (yhi - rlo) m := by
    rw [Dom.floorDiv_eq _ pos.ne', Dom.floorDiv_eq _ pos.ne',
      Int.fdiv_eq_ediv_of_nonneg _ pos.le, Int.fdiv_eq_ediv_of_nonneg _ pos.le]
    exact ⟨Int.ediv_le_ediv pos (by omega), Int.ediv_le_ediv pos (by omega)⟩
  -- The value is in the window of its own quotient.
  generalize (y - rlo) / m = j at *
  refine (Dom.has_norm _ _).mpr ⟨solve (max (p.1 + j * m) ylo) (min (p.2 + j * m) yhi), ?_,
    solved _ _ (by omega) (by omega)⟩
  refine List.mem_flatMap.mpr ⟨j, Dom.mem_values.mpr ((Dom.has_single ..).mpr quotient),
    List.mem_filterMap.mpr ⟨p, member, if_pos (by omega)⟩⟩

/-- `csp_wrap_set` keeps the assignments whose wrapped value is in the set, or outside it with
`neg`. -/
theorem enforced_wrapSet (csp : Csp) {l : Lin} {set : Dom} {neg sg : Bool} {w : Nat}
    (okSet : set.Ok) (oks : ∀ v, (s.d v).Ok)
    (wanted : ∀ a, P a → domHas set (wrapValue w sg (l.at a)) ≠ neg) {r : Bool × Search}
    (done : cspWrapSet l set neg w sg s = some r) : Enforced csp P s r := by
  unfold cspWrapSet at done
  split at done
  · cases done
  · rename_i width
    have width : 0 < w ∧ w ≤ 64 := by omega
    have pos : (0 : Int) < 2 ^ w := by positivity
    -- The target holds the wrapped value of every assignment that is kept.
    have aimed (a) (holds : P a) : Dom.Has (if neg then domMinus [wsRange w sg] set
        else domClip set (wsRange w sg).1 (wsRange w sg).2) (wrapValue w sg (l.at a)) := by
      obtain ⟨low, high⟩ := wrapValue_range width.1 width.2 sg (l.at a)
      exact (has_target okSet neg low high).mpr (wanted a holds)
    dsimp only at done
    split at done
    · cases done
    · rename_i rest free opened
      generalize (if neg then domMinus [wsRange w sg] set
        else domClip set (wsRange w sg).1 (wsRange w sg).2) = target at *
      split at done
      · cases done
        refine Enforced.told (Quiet.refl csp s) fun a holds within => ?_
        have sum := openTerm_lin within opened
        simp only [Option.elim, add_zero] at sum
        exact (Dom.domHas_iff _ _).mpr (sum ▸ aimed a holds)
      · rename_i v c
        have sum (a) (within : Within a s.d) : l.at a = rest + c * a v := openTerm_lin within opened
        split at done
        · rename_i empty
          cases done
          refine Enforced.refuted (Quiet.refl csp s) fun a holds within => ?_
          have := (oks v).bounds (within v)
          omega
        · split at done
          · rename_i unit
            rcases unit with rfl | rfl
            · simp only [if_true] at done
              split at done
              · cases done
              · cases done
                refine enforced_meet csp oks v (Dom.ok_norm _) fun a holds within => ?_
                obtain ⟨low, high⟩ := (oks v).bounds (within v)
                have value := sum a within
                exact has_moved pos (aimed a holds) (wrapValue_add w sg (l.at a)) (by omega) (by omega)
                  (fun a b => (a - rest, b - rest))
                  fun a b _ _ => ⟨by dsimp only; omega, by dsimp only; omega⟩
            · simp only [show ((-1 : Int) = 1) = False by decide, if_false] at done
              split at done
              · cases done
              · cases done
                refine enforced_meet csp oks v (Dom.ok_norm _) fun a holds within => ?_
                obtain ⟨low, high⟩ := (oks v).bounds (within v)
                have value := sum a within
                exact has_moved pos (aimed a holds) (wrapValue_add w sg (l.at a)) (by omega) (by omega)
                  (fun a b => (rest - b, rest - a))
                  fun a b _ _ => ⟨by dsimp only; omega, by dsimp only; omega⟩
          · split at done
            · cases done
            · split at done
              · cases done
                refine Enforced.told (Quiet.refl csp s) fun a holds within => ?_
                -- The open term is a multiple of the modulus.
                rename_i all
                have same : (2 : Int) ^ w ∣ l.at a - rest := by
                  rw [sum a within, add_sub_cancel_left]
                  exact ((all ▸ (trailingZerosUpTo_spec c w).2.1)).mul_right _
                rw [← wrapValue_congr same]
                exact (Dom.domHas_iff _ _).mpr (aimed a holds)
              · rename_i notAll
                have small : trailingZerosUpTo c w < w := by
                  have := (trailingZerosUpTo_spec c w).1
                  omega
                obtain ⟨allowed, collected, rfl⟩ := Option.map_eq_some_iff.mp done
                refine enforced_meet csp oks v (Dom.ok_norm _) fun a holds within => ?_
                obtain ⟨low, high⟩ := (oks v).bounds (within v)
                have found := mem_wrapSolutions
                  (Int.ediv_pos_of_pos_of_dvd pos (by positivity) (pow_dvd_pow 2 small.le))
                  (fun x r => wrap_root width.2 small) low high collected
                refine (Dom.has_norm _ _).mpr ⟨(a v, a v), List.mem_map.mpr ⟨a v, found.mpr (.inr
                  ⟨_, Dom.mem_values.mpr (aimed a holds), ?_⟩), rfl⟩, le_refl _, le_refl _⟩
                have := dvd_sub_wrapValue w sg (l.at a)
                rw [sum a within] at this ⊢
                convert this using 1
                ring

/-- A linear form whose variables are all fixed has the value they give it. -/
theorem linValue_on {l : Lin} (within : ∀ p ∈ l.t, (s.d p.1).Has (a p.1)) {x : Int}
    (fixed : linValue s.d l = some x) : l.at a = x := by
  -- The fold adds one fixed term at a time and gives up at the first open one.
  have run (terms : List (Nat × Int)) (within : ∀ p ∈ terms, (s.d p.1).Has (a p.1)) (acc : Option Int)
      (folded : terms.foldl (fun (acc : Option Int) (p : Nat × Int) =>
        acc.bind fun x => (domFixed (s.d p.1)).map fun y => x + p.2 * y) acc = some x) :
      ∃ k, acc = some k ∧ k + (terms.map fun p => p.2 * a p.1).sum = x := by
    induction terms generalizing acc with
    | nil => exact ⟨x, folded, by simp⟩
    | cons p terms ih =>
      obtain ⟨k, next, sum⟩ := ih (fun q member => within q (List.mem_cons_of_mem _ member)) _ folded
      obtain ⟨j, rfl, here⟩ := Option.bind_eq_some_iff.mp next
      obtain ⟨y, value, rfl⟩ := Option.map_eq_some_iff.mp here
      refine ⟨j, rfl, ?_⟩
      rw [List.map_cons, List.sum_cons, Dom.eq_of_fixed value (within p List.mem_cons_self)]
      omega
  obtain ⟨k, same, sum⟩ := run l.t within (some l.k) fixed
  cases same
  exact sum

/-- The same of an assignment in the domains. -/
theorem linValue_at (within : Within a s.d) {l : Lin} {x : Int} (fixed : linValue s.d l = some x) :
    l.at a = x :=
  linValue_on (fun p _ => within p.1) fixed

/-- An interval is a domain unless its ends are the wrong way round. -/
theorem ok_interval (r : Int × Int) : Dom.Ok (if r.1 ≤ r.2 then [r] else []) := by
  split
  · exact Dom.ok_single ‹_›
  · exact Dom.ok_nil

/-- Its values lie between its ends. -/
theorem has_interval (r : Int × Int) (z : Int) :
    Dom.Has (if r.1 ≤ r.2 then [r] else []) z ↔ r.1 ≤ z ∧ z ≤ r.2 := by
  split
  · exact Dom.has_single ..
  · rename_i crossed
    exact iff_of_false (Dom.has_nil _) fun inside => crossed (inside.1.trans inside.2)

/-- The set of `csp_wrap_rel` has the wrapped values of the open side that are related to the other
side's. -/
theorem wrapSide_iff {rel : Rel} {wr : Wrap} {delta k z : Int} {left : Bool}
    (unit : wr.sg = 1 ∨ wr.sg = -1) (range : (wsRange wr.w wr.s).1 ≤ z ∧ z ≤ (wsRange wr.w wr.s).2) :
    relHolds rel (wr.sg * (if left then z - k else k - z) + delta) = true ↔
      match rel with
      | .le => (if (wr.sg = 1) = left then ((wsRange wr.w wr.s).1, k - delta)
          else (k + delta, (wsRange wr.w wr.s).2)).1 ≤ z ∧
        z ≤ (if (wr.sg = 1) = left then ((wsRange wr.w wr.s).1, k - delta)
          else (k + delta, (wsRange wr.w wr.s).2)).2
      | .eq => z = if left then k - wr.sg * delta else k + wr.sg * delta
      | .ne => z ≠ if left then k - wr.sg * delta else k + wr.sg * delta := by
  -- The sign of the difference and the side that is open tell which bound the other side gives.
  cases rel <;> rcases unit with unit | unit <;> cases left <;> rw [unit] <;>
    simp [relHolds] <;> omega

/-- The open side is narrowed to the wrapped values that are related to the other side's. -/
theorem enforced_wrapSide (csp : Csp) {rel : Rel} {wr : Wrap} {delta k : Int} {x : Lin} {left : Bool}
    (width : 0 < wr.w ∧ wr.w ≤ 64) (notEq : rel ≠ .eq) (unit : wr.sg = 1 ∨ wr.sg = -1)
    (oks : ∀ v, (s.d v).Ok)
    (related : ∀ a, P a → relHolds rel (wr.sg * (if left then wrapValue wr.w wr.s (x.at a) - k
      else k - wrapValue wr.w wr.s (x.at a)) + delta) = true) {r : Bool × Search}
    (done : cspWrapSide rel wr delta x k left s = some r) : Enforced csp P s r := by
  unfold cspWrapSide at done
  cases rel with
  | eq => exact absurd rfl notEq
  | le =>
    dsimp only at done
    -- The values the relation allows form a half line of the type.
    refine enforced_wrapSet csp (ok_interval _) oks (fun a holds => ?_) done
    have inside := (wrapSide_iff unit (wrapValue_range width.1 width.2 wr.s (x.at a))).mp (related a holds)
    rw [ne_eq, Bool.not_eq_false, Dom.domHas_iff]
    exact (has_interval ..).mpr inside
  | ne =>
    dsimp only at done
    refine enforced_wrapSet csp (Dom.ok_single (le_refl _)) oks (fun a holds => ?_) done
    -- One value is excluded.
    have apart := (wrapSide_iff unit (wrapValue_range width.1 width.2 wr.s (x.at a))).mp (related a holds)
    rw [show decide (Rel.ne = Rel.ne) = true from rfl, ne_eq, Dom.domHas_iff, Dom.has_single]
    exact fun same => apart (le_antisymm same.2 same.1)

/-- `csp_wrap_rel` keeps the assignments whose wrapped sides are related. -/
theorem enforced_wrapRel (csp : Csp) {l : Lin} {rel : Rel} {fits : List Fit} {wr : Wrap}
    (notEq : rel ≠ .eq) (unit : wr.sg = 1 ∨ wr.sg = -1) (oks : ∀ v, (s.d v).Ok)
    (related : ∀ a, P a → wrapRelHolds l rel fits wr a) {r : Bool × Search}
    (done : cspWrapRel l rel fits wr s = some r) : Enforced csp P s r := by
  unfold cspWrapRel at done
  split at done
  · rename_i fa fb left right
    dsimp only at done
    -- The relation speaks of the two sides the node names.
    have related (a) (holds : P a) : relHolds rel (wr.sg * (wrapValue wr.w wr.s (fa.lin.at a) -
        wrapValue wr.w wr.s (fb.lin.at a)) + wr.delta l fa.lin fb.lin) = true := by
      have here := related a holds
      unfold wrapRelHolds at here
      rw [left, right] at here
      cases rel with
      | eq => exact absurd rfl notEq
      | le => exact here
      | ne => exact here
    split at done
    · cases done
    · rename_i width
      have width : 0 < wr.w ∧ wr.w ≤ 64 := by omega
      split at done
      · rename_i x y leftFixed rightFixed
        cases done
        -- Both sides are fixed, so the comparison decides.
        refine Enforced.told (Quiet.refl csp s) fun a holds within => ?_
        have here := related a holds
        rwa [linValue_at within leftFixed, linValue_at within rightFixed] at here
      · -- The right side is fixed and the left one is narrowed to what it allows.
        rename_i y rightFixed
        refine Enforced.mono (fun a within here => ⟨here, within⟩)
          (enforced_wrapSide (P := fun a => P a ∧ Within a s.d) csp width notEq unit oks
            (fun a holds => ?_) done)
        have here := related a holds.1
        rwa [linValue_at holds.2 rightFixed] at here
      · -- The left side is fixed and the right one is narrowed to what it allows.
        rename_i x leftFixed rightFixed
        refine Enforced.mono (fun a within here => ⟨here, within⟩)
          (enforced_wrapSide (P := fun a => P a ∧ Within a s.d) csp width notEq unit oks
            (fun a holds => ?_) done)
        have here := related a holds.1
        rwa [linValue_at holds.2 leftFixed] at here
      · cases done
  · cases done

/-- Over fixed variables a linear form has a value. -/
theorem linValue_fixed {d : Nat → Dom} {l : Lin} (fixed : ∀ p ∈ l.t, d p.1 = [(a p.1, a p.1)]) :
    ∃ x, linValue d l = some x := by
  -- No term is open, so the fold never gives up.
  have run (terms : List (Nat × Int)) (here : ∀ p ∈ terms, d p.1 = [(a p.1, a p.1)]) (k : Int) :
      ∃ x, terms.foldl (fun (acc : Option Int) (p : Nat × Int) =>
        acc.bind fun x => (domFixed (d p.1)).map fun y => x + p.2 * y) (some k) = some x := by
    induction terms generalizing k with
    | nil => exact ⟨k, rfl⟩
    | cons p terms ih =>
      rw [List.foldl_cons, here p List.mem_cons_self, Dom.fixed_single]
      exact ih (fun q member => here q (List.mem_cons_of_mem _ member)) _
  exact run l.t fixed l.k

/-- `csp_wrap_eq` over fixed variables succeeds only where the form vanishes modulo `2 ^ w`. -/
theorem settled_wrapEq {l : Lin} {w : Nat} {t : Search} (within : Within a s.d)
    (fixed : ∀ p ∈ l.t, s.d p.1 = [(a p.1, a p.1)]) (done : cspWrapEq l w s = some (true, t)) :
    l.at a % 2 ^ w = 0 := by
  obtain ⟨rest, opened⟩ := openTerm_fixed fixed l.k
  -- With every variable fixed nothing is open, and the rest is the value.
  have sum := openTerm_lin within opened
  simp only [Option.elim, add_zero] at sum
  unfold cspWrapEq at done
  rw [opened] at done
  split at done
  · cases done
  · have told := congrArg Prod.fst (Option.some.inj done)
    rw [sum]
    exact of_decide_eq_true told

/-- `csp_wrap_set` over fixed variables succeeds only where the wrapped value is wanted. -/
theorem settled_wrapSet {l : Lin} {set : Dom} {neg sg : Bool} {w : Nat} {t : Search}
    (okSet : set.Ok) (within : Within a s.d) (fixed : ∀ p ∈ l.t, s.d p.1 = [(a p.1, a p.1)])
    (done : cspWrapSet l set neg w sg s = some (true, t)) :
    domHas set (wrapValue w sg (l.at a)) ≠ neg := by
  obtain ⟨rest, opened⟩ := openTerm_fixed fixed l.k
  have sum := openTerm_lin within opened
  simp only [Option.elim, add_zero] at sum
  unfold cspWrapSet at done
  rw [opened] at done
  split at done
  · cases done
  · rename_i width
    -- The target has the wrapped value exactly where the set says so.
    have told := (Dom.domHas_iff _ _).mp (congrArg Prod.fst (Option.some.inj done))
    have range := wrapValue_range (by omega : 0 < w) (by omega) sg (l.at a)
    rw [← sum] at told
    exact (has_target okSet neg range.1 range.2).mp told

/-- `csp_wrap_rel` over fixed variables succeeds only where the wrapped sides are related. -/
theorem settled_wrapRel {l : Lin} {rel : Rel} {fits : List Fit} {wr : Wrap} {t : Search}
    (notEq : rel ≠ .eq) (within : Within a s.d)
    (fixed : ∀ f ∈ fits, ∀ p ∈ f.lin.t, s.d p.1 = [(a p.1, a p.1)])
    (done : cspWrapRel l rel fits wr s = some (true, t)) : wrapRelHolds l rel fits wr a := by
  unfold cspWrapRel at done
  split at done
  · rename_i fa fb left right
    -- Both sides are fixed, so only the comparison is left.
    obtain ⟨x, leftFixed⟩ := linValue_fixed (fixed fa (List.mem_of_getElem? left))
    obtain ⟨y, rightFixed⟩ := linValue_fixed (fixed fb (List.mem_of_getElem? right))
    dsimp only at done
    split at done
    · cases done
    · rw [leftFixed, rightFixed] at done
      have told := congrArg Prod.fst (Option.some.inj done)
      rw [← linValue_at within leftFixed, ← linValue_at within rightFixed] at told
      unfold wrapRelHolds
      rw [left, right]
      cases rel with
      | eq => exact absurd rfl notEq
      | le => exact told
      | ne => exact told
  · cases done

end Narrowing

end Xezim
