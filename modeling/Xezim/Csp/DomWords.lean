import Xezim.Csp.DomLaws
import Xezim.Lib.Checked
import Mathlib.Data.Set.Card

/-! The domain operations in machine arithmetic: `i128` ends, and `u128` counts that wrap and saturate. -/

namespace Xezim

open Checked

/-- `i128::MIN`. -/
def minI128 : Int := -2 ^ 127

/-- `i128::MAX`. -/
def maxI128 : Int := 2 ^ 127 - 1

/-- The range of an `i128` by its ends. -/
theorem inI128_iff {x : Int} : InI128 x ↔ minI128 ≤ x ∧ x ≤ maxI128 :=
  and_congr_right fun _ => (Int.le_sub_one_iff ..).symm

/-- Intervals with `i128` ends. -/
def Dom.Machine (d : List (Int × Int)) : Prop := ∀ p ∈ d, InI128 p.1 ∧ InI128 p.2

namespace I128

/-- A result of `i128` arithmetic, wrapped as a release build does. -/
def wrap (x : Int) : Int := x.bmod (2 ^ 128)

/-- `(h - l) as u128 + 1`. -/
def count (p : Int × Int) : Nat := ((wrap (p.2 - p.1) % 2 ^ 128).toNat + 1) % 2 ^ 128

/-- `dom_size`. -/
def domSize (d : Dom) : Nat :=
  d.foldl (fun a p => min (a + count p) (2 ^ 128 - 1)) 0

/-- The merging loop of `dom_norm`, which adds with saturation. -/
def domJoin (lo hi : Int) : Dom → Dom
  | [] => [(lo, hi)]
  | p :: d =>
    if p.1 ≤ min (hi + 1) maxI128 then domJoin lo (max hi p.2) d
    else (lo, hi) :: domJoin p.1 p.2 d

/-- `dom_norm`. -/
def domNorm (v : List (Int × Int)) : Dom :=
  match (v.filter fun p => p.1 ≤ p.2).insertionSort intervalLe with
  | [] => []
  | p :: d => domJoin p.1 p.2 d

/-- The inner loop of `dom_minus`. -/
def domCut (lo hi : Int) : Dom → Dom
  | [] => if lo ≤ hi then [(lo, hi)] else []
  | q :: b =>
    if lo ≤ hi then
      if q.1 > hi then [(lo, hi)]
      else (if q.1 > lo then [(lo, wrap (q.1 - 1))] else []) ++
        if q.2 ≥ hi then [] else domCut (wrap (q.2 + 1)) hi b
    else []

/-- `dom_minus`. -/
def domMinus : Dom → Dom → Dom
  | [], _ => []
  | p :: a, b =>
    let b' := b.dropWhile fun q => q.2 < p.1
    domCut p.1 p.2 b' ++ domMinus a b'

/-- `dom_nth`. -/
def domNth (d : Dom) (k : Nat) : Int :=
  match d with
  | [] => 0
  | p :: d =>
    if k < count p then wrap (p.1 + wrap k)
    else if d = [] then p.2 else domNth d (k - count p)

/-- In range nothing wraps. -/
theorem wrap_eq {x : Int} (range : InI128 x) : wrap x = x := by
  obtain ⟨low, high⟩ := range
  exact Int.bmod_eq_of_le (by omega) (by omega)

/-- Wrapping twice is wrapping once. -/
theorem wrap_add_wrap (x y : Int) : wrap (x + wrap y) = wrap (x + y) :=
  Int.add_bmod_bmod

/-- An interval is counted exactly unless it is all of `i128`. -/
theorem count_eq {p : Int × Int} (valid : p.1 ≤ p.2) (range : InI128 p.1 ∧ InI128 p.2)
    (part : p ≠ (minI128, maxI128)) : count p = (p.2 - p.1).toNat + 1 := by
  obtain ⟨⟨low, -⟩, -, high⟩ := range
  -- The difference is below the number of words, and it is the last one for the whole range only.
  have short : p.2 - p.1 < 2 ^ 128 - 1 := by
    by_contra long
    apply part
    unfold minI128 maxI128
    exact Prod.ext (by dsimp only; omega) (by dsimp only; omega)
  have same : wrap (p.2 - p.1) % 2 ^ 128 = p.2 - p.1 := by
    unfold wrap
    rw [show (2 : Int) ^ 128 = ((2 ^ 128 : Nat) : Int) by norm_num, Int.bmod_emod]
    exact Int.emod_eq_of_lt (by omega) (by norm_num at short ⊢; omega)
  unfold count
  rw [same]
  omega

/-- Merging with saturation is merging, since no interval starts above the greatest `i128`. -/
theorem domJoin_eq {lo hi : Int} {d : Dom} (range : ∀ p ∈ d, p.1 ≤ maxI128) : domJoin lo hi d =
    Xezim.domJoin lo hi d := by
  induction d generalizing lo hi with
  | nil => rfl
  | cons p d ih =>
    have top := range p List.mem_cons_self
    have rest : ∀ q ∈ d, q.1 ≤ maxI128 := fun q member => range q (List.mem_cons_of_mem p member)
    -- Stepping past an end that is the largest number saturates, and nothing starts beyond it.
    have saturated : p.1 ≤ min (hi + 1) maxI128 ↔ p.1 ≤ hi + 1 := by omega
    unfold domJoin Xezim.domJoin
    simp only [saturated, ih rest]

/-- `dom_norm` never saturates to any effect. -/
theorem domNorm_eq {v : List (Int × Int)} (range : Dom.Machine v) : domNorm v = Xezim.domNorm v := by
  -- The interval starts are machine numbers, so joining them does not saturate.
  have top : ∀ p ∈ (v.filter fun p => p.1 ≤ p.2).insertionSort intervalLe, p.1 ≤ maxI128 :=
    fun p member => (inI128_iff.mp (range p (Dom.mem_norm.mp member).1).1).2
  unfold domNorm Xezim.domNorm
  cases sorted : (v.filter fun p => p.1 ≤ p.2).insertionSort intervalLe with
  | nil => rfl
  | cons p d =>
    rw [sorted] at top
    exact domJoin_eq fun q member => top q (List.mem_cons_of_mem p member)

/-- Cutting steps below and above an interval only where there is room. -/
theorem domCut_eq {lo hi : Int} {b : Dom} (low : minI128 ≤ lo) (high : hi ≤ maxI128) (range : Dom.Machine b) :
    domCut lo hi b = Xezim.domCut lo hi b := by
  induction b generalizing lo with
  | nil => rfl
  | cons q b ih =>
    -- The ends of the set are machine numbers, so the steps around them are too.
    have ends := (inI128_iff.mp (range q List.mem_cons_self).2).1
    have rest : Dom.Machine b := fun r member => range r (List.mem_cons_of_mem q member)
    unfold domCut Xezim.domCut
    by_cases ordered : lo ≤ hi
    · simp only [if_pos ordered]
      by_cases beyond : q.1 > hi
      · simp only [if_pos beyond]
      · simp only [if_neg beyond]
        -- The step down is taken only from a start above the low end.
        have before : (if q.1 > lo then [(lo, wrap (q.1 - 1))] else []) =
            if q.1 > lo then [(lo, q.1 - 1)] else [] := by
          by_cases gap : q.1 > lo
          · rw [if_pos gap, if_pos gap, wrap_eq (inI128_iff.mpr ⟨by omega, by omega⟩)]
          · rw [if_neg gap, if_neg gap]
        rw [before]
        by_cases covers : q.2 ≥ hi
        · rw [if_pos covers, if_pos covers]
        · rw [if_neg covers, if_neg covers]
          -- The step up is taken only from an end below the high end.
          rw [wrap_eq (inI128_iff.mpr ⟨by omega, by omega⟩), ih (by omega) rest]
    · simp only [if_neg ordered]

/-- `dom_minus` never leaves the range of its ends. -/
theorem domMinus_eq {a b : Dom} (rangeA : Dom.Machine a) (rangeB : Dom.Machine b) :
    domMinus a b = Xezim.domMinus a b := by
  induction a generalizing b with
  | nil => rfl
  | cons p a ih =>
    -- The windows are the intervals of the first domain, which are machine numbers.
    have low := (inI128_iff.mp (rangeA p List.mem_cons_self).1).1
    have high := (inI128_iff.mp (rangeA p List.mem_cons_self).2).2
    have left : Dom.Machine (b.dropWhile fun q => q.2 < p.1) :=
      fun q member => rangeB q (List.dropWhile_subset _ member)
    unfold domMinus Xezim.domMinus
    dsimp only
    rw [domCut_eq low high left, ih (fun q member => rangeA q (List.mem_cons_of_mem p member)) left]

end I128

namespace Dom

variable {d : Dom} {x : Int}

/-- The number of values of a domain. -/
theorem Ok.ncard (ok : Ok d) : {x | Has d x}.ncard = domSize d := by
  have listed : {x | Has d x} = ((domValues d).toFinset : Set Int) := by
    ext x
    simp
  rw [listed, Set.ncard_coe_finset, List.toFinset_card_of_nodup ok.nodup_values, ok.length_values]

/-- The values of a domain with `i128` ends are numbers of that type. -/
theorem Machine.range (range : Machine d) (here : Has d x) : InI128 x := by
  obtain ⟨p, member, low, high⟩ := here
  obtain ⟨⟨bottom, -⟩, -, top⟩ := range p member
  exact ⟨bottom.trans low, high.trans_lt top⟩

/-- A domain that leaves some `i128` out has fewer values than a `u128` can count. -/
theorem Ok.size_lt (ok : Ok d) (range : Machine d) (inside : InI128 x) (out : ¬ Has d x) : domSize d < 2 ^ 128 := by
  -- The values are machine numbers other than the one left out.
  have subset : (domValues d).toFinset ⊆ (Finset.Icc minI128 maxI128).erase x := by
    intro y member
    have here : Has d y := mem_values.mp (List.mem_toFinset.mp member)
    have bounds := inI128_iff.mp (range.range here)
    refine Finset.mem_erase.mpr ⟨fun same => out (same ▸ here), Finset.mem_Icc.mpr bounds⟩
  -- There are 2^128 machine numbers.
  have all : (Finset.Icc minI128 maxI128).card = 2 ^ 128 := by
    rw [Int.card_Icc]
    decide
  have fewer := Finset.card_le_card subset
  rw [List.toFinset_card_of_nodup ok.nodup_values, ok.length_values,
    Finset.card_erase_of_mem (Finset.mem_Icc.mpr (inI128_iff.mp inside)), all] at fewer
  exact fewer.trans_lt (by decide)

/-- No interval of such a domain is all of `i128`. -/
theorem part_of_out (inside : InI128 x) (out : ¬ Has d x) : ∀ p ∈ d, p ≠ (minI128, maxI128) := by
  intro p member whole
  subst whole
  exact out ⟨_, member, inI128_iff.mp inside⟩

/-- Merging starts no interval below the first one. -/
theorem join_low {lo hi : Int} (low : ∀ p ∈ d, lo ≤ p.1) (sorted : d.Pairwise intervalLe) :
    ∀ q ∈ domJoin lo hi d, lo ≤ q.1 := by
  induction d generalizing lo hi with
  | nil => simp [domJoin]
  | cons p d ih =>
    have here := low p List.mem_cons_self
    have later : ∀ q ∈ d, lo ≤ q.1 := fun q member => low q (List.mem_cons_of_mem p member)
    obtain ⟨first, rest⟩ := List.pairwise_cons.mp sorted
    unfold domJoin
    -- The interval at hand grows or is closed, and its start stays.
    by_cases touches : p.1 ≤ hi + 1
    · rw [if_pos touches]
      exact ih later rest
    · rw [if_neg touches]
      intro q member
      rcases List.mem_cons.mp member with rfl | member
      · exact Int.le_refl lo
      · refine here.trans (ih (fun r member => ?_) rest q member)
        rcases first r member with above | same
        · omega
        · omega

/-- What is merged leaves a gap between any two intervals. -/
theorem join_gaps {lo hi : Int} (low : ∀ p ∈ d, lo ≤ p.1) (valid : ∀ p ∈ d, p.1 ≤ p.2) (self : lo ≤ hi)
    (sorted : d.Pairwise intervalLe) : (domJoin lo hi d).Pairwise fun p q => p.2 + 1 < q.1 := by
  induction d generalizing lo hi with
  | nil => exact List.pairwise_singleton _ _
  | cons p d ih =>
    have here := low p List.mem_cons_self
    have bounds := valid p List.mem_cons_self
    have others : ∀ q ∈ d, q.1 ≤ q.2 := fun q member => valid q (List.mem_cons_of_mem p member)
    obtain ⟨first, rest⟩ := List.pairwise_cons.mp sorted
    -- The intervals come in the order of their starts.
    have next : ∀ q ∈ d, p.1 ≤ q.1 := by
      intro q member
      rcases first q member with above | same
      · omega
      · omega
    unfold domJoin
    by_cases touches : p.1 ≤ hi + 1
    · rw [if_pos touches]
      exact ih (fun q member => low q (List.mem_cons_of_mem p member)) others (by omega) rest
    · rw [if_neg touches]
      refine List.pairwise_cons.mpr ⟨fun q member => ?_, ih next others bounds rest⟩
      -- Where the next interval does not touch, a number is left out between the two.
      have start := join_low next rest q member
      omega

/-- `dom_norm` leaves a gap between any two intervals. -/
theorem norm_gaps (v : List (Int × Int)) : (domNorm v).Pairwise fun p q => p.2 + 1 < q.1 := by
  have sorted := sorted_norm v
  have valid : ∀ p ∈ (v.filter fun p => p.1 ≤ p.2).insertionSort intervalLe, p.1 ≤ p.2 :=
    fun p member => (mem_norm.mp member).2
  -- The sorted intervals are joined from the first one on.
  unfold domNorm
  cases listed : (v.filter fun p => p.1 ≤ p.2).insertionSort intervalLe with
  | nil => exact List.Pairwise.nil
  | cons p d =>
    rw [listed] at sorted valid
    obtain ⟨first, rest⟩ := List.pairwise_cons.mp sorted
    refine join_gaps (fun q member => ?_) (fun q member => valid q (List.mem_cons_of_mem p member))
      (valid p List.mem_cons_self) rest
    rcases first q member with above | same
    · omega
    · omega

/-- A domain is fixed to a value when it has that value only. -/
theorem Ok.fixed_iff (ok : Ok d) : domFixed d = some x ↔ ∀ y, Has d y ↔ y = x := by
  constructor
  · -- A fixed domain has one value, and a domain with one value is fixed.
    intro fixed y
    rw [has_of_fixed fixed, has_single]
    omega
  · intro only
    have nonempty : d ≠ [] := by
      rintro rfl
      exact has_nil x ((only x).mpr rfl)
    rw [ok.eq_single nonempty fun y here => (only y).mp here, fixed_single]

/-- `dom_nth` enumerates in ascending order. -/
theorem nth_lt (ok : Ok d) {j k : Nat} (order : j < k) (small : k < domSize d) : domNth d j < domNth d k := by
  induction d generalizing j k with
  | nil => exact absurd small (Nat.not_lt_zero k)
  | cons p d ih =>
    have parts := ok_cons.mp ok
    rw [domSize] at small
    by_cases first : k < (p.2 - p.1).toNat + 1
    · rw [domNth, domNth, if_pos first, if_pos (order.trans first)]
      omega
    · have nonempty : d ≠ [] := by
        rintro rfl
        simp only [domSize] at small
        omega
      by_cases early : j < (p.2 - p.1).toNat + 1
      · -- One is in the first interval and the other one above it.
        rw [domNth, domNth, if_pos early, if_neg first, if_neg nonempty]
        have above := ok.above (has_nth parts.2.2 (k := k - ((p.2 - p.1).toNat + 1)) (by omega))
        omega
      · rw [domNth, domNth, if_neg early, if_neg first, if_neg nonempty, if_neg nonempty]
        exact ih parts.2.2 (by omega) (by omega)

end Dom

namespace I128

/-- `dom_size` counts the values of a domain that leaves some `i128` out. -/
theorem domSize_eq {d : Dom} (ok : d.Ok) (range : Dom.Machine d) (part : ∀ p ∈ d, p ≠ (minI128, maxI128)) :
    domSize d = min (Xezim.domSize d) (2 ^ 128 - 1) := by
  -- The saturated sum is the sum cut off at the largest word.
  have fold : ∀ (d : Dom) (a : Nat), d.Ok → Dom.Machine d → (∀ p ∈ d, p ≠ (minI128, maxI128)) →
      a ≤ 2 ^ 128 - 1 → d.foldl (fun a p => min (a + count p) (2 ^ 128 - 1)) a = min (a + Xezim.domSize d)
        (2 ^ 128 - 1) := by
    intro d
    induction d with
    | nil =>
      intro a _ _ _ bound
      exact (Nat.min_eq_left bound).symm
    | cons p d ih =>
      intro a ok range part bound
      have counted := count_eq (ok.valid p List.mem_cons_self) (range p List.mem_cons_self)
        -- An interval that leaves a machine number out is counted exactly.
        (part p List.mem_cons_self)
      rw [List.foldl_cons, ih _ (Dom.ok_cons.mp ok).2.2 (fun q member => range q (List.mem_cons_of_mem p member))
        (fun q member => part q (List.mem_cons_of_mem p member)) (Nat.min_le_right _ _), counted, Xezim.domSize]
      omega
  have all := fold d 0 ok range part (Nat.zero_le _)
  rwa [Nat.zero_add] at all

/-- `dom_nth` of a domain that leaves some `i128` out. -/
theorem domNth_eq {d : Dom} (ok : d.Ok) (range : Dom.Machine d) (part : ∀ p ∈ d, p ≠ (minI128, maxI128)) (k : Nat) :
    domNth d k = Xezim.domNth d k := by
  induction d generalizing k with
  | nil => rfl
  | cons p d ih =>
    have ends := range p List.mem_cons_self
    -- Each interval is passed by its own count.
    have counted := count_eq (ok.valid p List.mem_cons_self) ends (part p List.mem_cons_self)
    unfold domNth Xezim.domNth
    rw [counted]
    by_cases here : k < (p.2 - p.1).toNat + 1
    · rw [if_pos here, if_pos here, wrap_add_wrap]
      -- The value is in the interval, so nothing wraps.
      have valid := ok.valid p List.mem_cons_self
      obtain ⟨⟨low, -⟩, -, high⟩ := ends
      exact wrap_eq ⟨by omega, by omega⟩
    · rw [if_neg here, if_neg here]
      split_ifs with last
      · rfl
      · exact ih (Dom.ok_cons.mp ok).2.2 (fun q member => range q (List.mem_cons_of_mem p member))
          (fun q member => part q (List.mem_cons_of_mem p member)) _

end I128

end Xezim
