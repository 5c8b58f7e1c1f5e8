import Mathlib.Algebra.Group.Nat.Defs
import Mathlib.Data.List.Forall2
import Mathlib.Tactic.Common

/-! Elements labelled along several directed dimensions and packed in row-major order, the right bound of every
dimension lowest. -/

namespace Xezim.PackedLayout

/-- A dimension `[left:right]`, ascending or descending. -/
abbrev Dim : Type := Int × Int

namespace Dim

/-- The number of labels. -/
def count (d : Dim) : Nat := (d.1 - d.2).natAbs + 1

/-- A label of the dimension. -/
def Has (d : Dim) (i : Int) : Prop := min d.1 d.2 ≤ i ∧ i ≤ max d.1 d.2

instance (d : Dim) (i : Int) : Decidable (d.Has i) :=
  inferInstanceAs (Decidable (min d.1 d.2 ≤ i ∧ i ≤ max d.1 d.2))

/-- How far a label lies from the right bound. -/
def pos (d : Dim) (i : Int) : Nat := if d.1 < d.2 then (d.2 - i).toNat else (i - d.2).toNat

/-- The label at a distance from the right bound. -/
def label (d : Dim) (k : Nat) : Int := if d.1 < d.2 then d.2 - k else d.2 + k

theorem count_pos (d : Dim) : 0 < d.count := Nat.succ_pos _

/-- A descending dimension down to zero. -/
theorem count_descending {n : Nat} (positive : 0 < n) : count ((n : Int) - 1, 0) = n := by
  unfold count
  omega

/-- A label lies inside the dimension. -/
theorem pos_lt_count {d : Dim} {i : Int} (has : d.Has i) : d.pos i < d.count := by
  obtain ⟨low, high⟩ := has
  unfold pos count
  split <;> omega

/-- Every place of the dimension has a label. -/
theorem label_has {d : Dim} {k : Nat} (inside : k < d.count) : d.Has (d.label k) := by
  unfold count at inside
  unfold Has label
  split <;> omega

@[simp] theorem pos_label (d : Dim) (k : Nat) : d.pos (d.label k) = k := by
  unfold pos label
  split <;> omega

/-- A part of a dimension, written in its direction unless it is one label. -/
def Within (d p : Dim) : Prop :=
  min d.1 d.2 ≤ min p.1 p.2 ∧ max p.1 p.2 ≤ max d.1 d.2 ∧ (p.1 = p.2 ∨ (p.2 < p.1 ↔ d.2 < d.1))

instance (d p : Dim) : Decidable (d.Within p) :=
  inferInstanceAs (Decidable (_ ∧ _ ∧ (_ ∨ _)))

/-- The labels of a part are labels of the dimension. -/
theorem Within.has {d p : Dim} (within : d.Within p) {i : Int} (has : p.Has i) : d.Has i := by
  obtain ⟨low, high, -⟩ := within
  obtain ⟨above, below⟩ := has
  exact ⟨Int.le_trans low above, Int.le_trans below high⟩

/-- A label of a part lies above the part's right bound as far as the part has it. -/
theorem Within.pos {d p : Dim} (within : d.Within p) {i : Int} (has : p.Has i) :
    d.pos i = d.pos p.2 + p.pos i := by
  obtain ⟨low, high, direction⟩ := within
  obtain ⟨above, below⟩ := has
  unfold Dim.pos
  -- The part has the direction of the dimension, or one label only.
  split <;> split <;> omega

/-- A part has no more labels than the dimension. -/
theorem Within.count_le {d p : Dim} (within : d.Within p) : p.count ≤ d.count := by
  obtain ⟨low, high, -⟩ := within
  unfold count
  omega

/-- A part ends inside the dimension. -/
theorem Within.pos_add_count_le {d p : Dim} (within : d.Within p) : d.pos p.2 + p.count ≤ d.count := by
  -- The left bound of the part is the furthest of its labels from the right one.
  have far : p.pos p.1 + 1 = p.count := by
    unfold Dim.pos Dim.count
    split <;> omega
  have first : p.Has p.1 := ⟨Int.min_le_left _ _, Int.le_max_left _ _⟩
  have place := pos_lt_count (within.has first)
  rw [within.pos first] at place
  omega

/-- The right bound of a dimension is one of its labels. -/
theorem has_right (d : Dim) : d.Has d.2 := ⟨Int.min_le_right _ _, Int.le_max_right _ _⟩

/-- A label down to zero is its own place. -/
theorem pos_counted (d : Dim) (k : Nat) : pos ((d.count : Int) - 1, 0) k = k := by
  have positive := d.count_pos
  rw [pos, if_neg (by simp only; omega)]
  simp

/-- Labels down to zero are no less than it. -/
theorem counted_nonneg {d : Dim} {i : Int} (has : Has ((d.count : Int) - 1, 0) i) : 0 ≤ i := by
  have positive := d.count_pos
  obtain ⟨low, -⟩ := has
  simp only at low
  omega

/-- The place of a label, counted from the lowest one. -/
theorem has_counted {d : Dim} {i : Int} (has : d.Has i) : Has ((d.count : Int) - 1, 0) (d.pos i) := by
  have place := pos_lt_count has
  unfold Has
  simp only
  omega

/-- Every place counted from the lowest one is that of a label. -/
theorem exists_counted {d : Dim} {k : Int} (has : Has ((d.count : Int) - 1, 0) k) : ∃ i, d.Has i ∧ d.pos i = k := by
  have positive := d.count_pos
  unfold Has at has
  simp only at has
  refine ⟨d.label k.toNat, label_has (by omega), ?_⟩
  rw [pos_label]
  omega

end Dim

/-- The number of elements under some dimensions. -/
def elements (ds : List Dim) : Nat := (ds.map Dim.count).prod

@[simp] theorem elements_nil : elements [] = 1 := rfl

@[simp] theorem elements_cons (d : Dim) (ds : List Dim) : elements (d :: ds) = d.count * elements ds := by
  simp [elements]

theorem elements_pos (ds : List Dim) : 0 < elements ds := by
  induction ds with
  | nil => exact Nat.one_pos
  | cons d ds ih => exact elements_cons d ds ▸ Nat.mul_pos d.count_pos ih

/-- One label along each dimension. -/
abbrev Labels (ds : List Dim) (is : List Int) : Prop := List.Forall₂ Dim.Has ds is

/-- The place of the element with some labels, the last dimension running fastest. -/
def address : List Dim → List Int → Nat
  | d :: ds, i :: is => d.pos i * elements ds + address ds is
  | _, _ => 0

@[simp] theorem address_cons (d : Dim) (ds : List Dim) (i : Int) (is : List Int) :
    address (d :: ds) (i :: is) = d.pos i * elements ds + address ds is := rfl

/-- A label along one dimension. -/
theorem labels_single {d : Dim} {is : List Int} : Labels [d] is ↔ ∃ i, d.Has i ∧ is = [i] := by
  simp [Labels, List.forall₂_cons_left_iff]

/-- Along one dimension, elements lie in the order of their labels. -/
theorem address_single (d : Dim) (i : Int) : address [d] [i] = d.pos i := by simp [address]

/-- Every element lies inside. -/
theorem address_lt {ds : List Dim} {is : List Int} (labelled : Labels ds is) : address ds is < elements ds := by
  induction labelled with
  | nil => exact Nat.one_pos
  | @cons d i ds is has _ ih =>
    have place : d.pos i + 1 ≤ d.count := Dim.pos_lt_count has
    calc d.pos i * elements ds + address ds is
        < d.pos i * elements ds + elements ds := Nat.add_lt_add_left ih _
      _ = (d.pos i + 1) * elements ds := (Nat.succ_mul _ _).symm
      _ ≤ d.count * elements ds := Nat.mul_le_mul_right _ place
      _ = elements (d :: ds) := (elements_cons d ds).symm

/-- Every place is the place of an element. -/
theorem exists_address (ds : List Dim) {k : Nat} (inside : k < elements ds) :
    ∃ is, Labels ds is ∧ address ds is = k := by
  induction ds generalizing k with
  | nil => exact ⟨[], .nil, by rw [elements_nil] at inside; simp [address]; omega⟩
  | cons d ds ih =>
    rw [elements_cons] at inside
    -- The quotient names the label of the first dimension, the remainder those of the others.
    obtain ⟨is, labelled, placed⟩ := ih (Nat.mod_lt k (elements_pos ds))
    have row : k / elements ds < d.count := (Nat.div_lt_iff_lt_mul (elements_pos ds)).mpr inside
    refine ⟨d.label (k / elements ds) :: is, .cons (Dim.label_has row) labelled, ?_⟩
    rw [address_cons, Dim.pos_label, placed, Nat.div_add_mod']

end Xezim.PackedLayout
