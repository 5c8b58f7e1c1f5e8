import Mathlib.Algebra.BigOperators.Group.Finset.Basic
import Mathlib.Algebra.GroupWithZero.Nat
import Mathlib.Algebra.Order.BigOperators.Group.Finset

/-! A count kept over the items of a list, and what it says of the items outside chosen places. -/

namespace Tally

variable {α : Type}

/-- The weight of the item at a place, nothing past the end. -/
def slot (weight : α → Nat) (items : List α) (k : Nat) : Nat := (items[k]?).elim 0 weight

/-- The weights of all items together. -/
def tally (weight : α → Nat) (items : List α) : Nat := (items.map weight).sum

variable {weight : α → Nat} {items : List α}

/-- The count is the sum over the places. -/
theorem tally_eq_sum (weight : α → Nat) (items : List α) :
    tally weight items = ∑ k ∈ Finset.range items.length, slot weight items k := by
  induction items with
  | nil => rfl
  | cons x items ih =>
    -- The first item stands at place 0, the others one place further.
    rw [List.length_cons, Finset.sum_range_succ']
    have rest : ∑ k ∈ Finset.range items.length, slot weight (x :: items) (k + 1) = tally weight items := by
      rw [ih]
      rfl
    rw [rest, Nat.add_comm]
    rfl

/-- Putting another item in a place changes the count by the two weights. -/
theorem tally_set (weight : α → Nat) {k : Nat} {x : α} (held : items[k]? = some x) (y : α) :
    tally weight (items.set k y) + weight x = tally weight items + weight y := by
  induction items generalizing k with
  | nil => simp at held
  | cons z items ih =>
    cases k with
    | zero =>
      obtain rfl : z = x := by simpa using held
      simp only [tally, List.set_cons_zero, List.map_cons, List.sum_cons]
      omega
    | succ k =>
      have rest := ih (k := k) (by simpa using held)
      simp only [tally, List.set_cons_succ, List.map_cons, List.sum_cons] at rest ⊢
      omega

/-- No item weighs more than all together. -/
theorem le_tally (weight : α → Nat) {k : Nat} {x : α} (held : items[k]? = some x) : weight x ≤ tally weight items := by
  have member : weight x ∈ items.map weight := List.mem_map_of_mem (List.mem_of_getElem? held)
  exact List.single_le_sum (fun _ _ => Nat.zero_le _) _ member

/-- The count exceeds the weights of some distinct places exactly when an item elsewhere has a weight. -/
theorem tally_gt_iff (weight : α → Nat) (items : List α) {skip : List Nat} (distinct : skip.Nodup) :
    (skip.map (slot weight items)).sum < tally weight items ↔
      ∃ k x, k ∉ skip ∧ items[k]? = some x ∧ 0 < weight x := by
  -- The places inside the list split into those skipped and those not.
  have outer (k : Nat) (past : items.length ≤ k) : slot weight items k = 0 := by
    simp [slot, List.getElem?_eq_none past]
  have skipped : (skip.map (slot weight items)).sum =
      ∑ k ∈ (Finset.range items.length).filter (· ∈ skip), slot weight items k := by
    rw [← List.sum_toFinset _ distinct]
    symm
    refine Finset.sum_subset (fun k member => ?_) fun k member absent => outer k ?_
    · simpa using (Finset.mem_filter.mp member).2
    · have inSkip : k ∈ skip := by simpa using member
      by_contra inside
      exact absent (Finset.mem_filter.mpr ⟨Finset.mem_range.mpr (by omega), inSkip⟩)
  rw [skipped, tally_eq_sum, ← Finset.sum_filter_add_sum_filter_not (Finset.range items.length) (· ∈ skip)]
  rw [Nat.lt_add_right_iff_pos, Finset.sum_pos_iff]
  constructor
  · rintro ⟨k, member, positive⟩
    obtain ⟨-, apart⟩ := Finset.mem_filter.mp member
    cases held : items[k]? with
    | none => simp [slot, held] at positive
    | some x => exact ⟨k, x, apart, held, by simpa [slot, held] using positive⟩
  · rintro ⟨k, x, apart, held, positive⟩
    have inside : k < items.length := (List.getElem?_eq_some_iff.mp held).1
    exact ⟨k, Finset.mem_filter.mpr ⟨Finset.mem_range.mpr inside, apart⟩, by simpa [slot, held] using positive⟩

end Tally
