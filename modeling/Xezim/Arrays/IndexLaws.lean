import Xezim.Arrays.Lowering

/-! The readings that the executors make of an index, and when they name the element the index names. -/

namespace Xezim.Arrays

open Splice

/-- The element of a declared array that an index names. -/
def target (span : ArraySpan) (idxV : Value) : Option Nat := (indexOf idxV).bind span.elem

section Elements

variable {span : ArraySpan} {i j : Int} {eid : Nat}

/-- Only an index inside the bounds names an element. -/
theorem elem_eq_some : span.elem i = some eid ↔ (span.lo ≤ i ∧ i ≤ span.hi) ∧ span.first + (i - span.lo).toNat =
    eid := by
  unfold ArraySpan.elem
  split
  · rename_i inside
    simp [inside]
  · rename_i outside
    simp [outside]

/-- Two indices name one element only if they are equal. -/
theorem elem_inj (left : span.elem i = some eid) (right : span.elem j = some eid) : i = j := by
  obtain ⟨insideI, atI⟩ := elem_eq_some.mp left
  obtain ⟨insideJ, atJ⟩ := elem_eq_some.mp right
  omega

/-- An index that names an element fits a signed 64-bit word. -/
theorem fits64_of_elem (names : span.elem i = some eid) : Fits64 i := by
  obtain ⟨inside, _⟩ := elem_eq_some.mp names
  have low := span.lo_min
  have high := span.hi_max
  exact ⟨by omega, by omega⟩

/-- No element has an index that no signed 64-bit word holds. -/
theorem elem_beyond (beyond : ¬ Fits64 i) : span.elem i = none := by
  cases names : span.elem i with
  | none => rfl
  | some eid => exact absurd (fits64_of_elem names) beyond

/-- The two-state executors resolve an index as the interpreter does. -/
theorem elem_eq_elemId (i : Int) :
    span.elem i = if outside span.lo span.hi i then none else some (elemId span.first span.lo i) := by
  unfold ArraySpan.elem outside elemId
  by_cases inside : span.lo ≤ i ∧ i ≤ span.hi
  · simp [inside, show ¬(i < span.lo ∨ span.hi < i) by omega]
  · simp [inside, show i < span.lo ∨ span.hi < i by omega]

/-- An operand of a declared array resolves an index to the element it names. -/
theorem Declares.resolve {D : ArrayDesign} {array : ArrayOperand} (declared : Declares D array span) (i : Int) :
    resolveBytecodeArrayElem D array i = span.elem i := by
  obtain ⟨named, unnamed⟩ := declared
  cases array with
  | dense name found =>
    cases named
    rfl
  | named name =>
    simp only [resolveBytecodeArrayElem, named, Option.bind_some]
    cases names : span.elem i with
    | some eid => rfl
    | none => exact unnamed name rfl i names

/-- An operand of a declared array names its span. -/
theorem Declares.spanOf {D : ArrayDesign} {array : ArrayOperand} (declared : Declares D array span) :
    spanOf D array = some span := by
  obtain ⟨named, _⟩ := declared
  cases array with
  | dense name found => exact congrArg some named
  | named name => exact named

end Elements

section Readings

variable {v : Value} {i : Int}

/-- A known index has a number: its value, or in a signed register with the top bit set a negative one. -/
theorem indexOf_eq_some : indexOf v = some i ↔
    v.xz = 0 ∧ i = if v.isSigned ∧ v.val.testBit (v.width - 1) then (v.val : Int) - 2 ^ v.width else v.val := by
  unfold indexOf
  by_cases known : v.xz = 0
  · rw [if_neg (by simp [known])]
    split <;> simp [known, eq_comm]
  · simp [known]

/-- An index with an x or z bit has no number. -/
theorem indexOf_eq_none : indexOf v = none ↔ v.xz ≠ 0 := by
  unfold indexOf
  split
  · rename_i unknown
    simp [unknown]
  · rename_i known
    split <;> simp [not_not.mp known]

/-- The number of an index below zero is that of a signed register. -/
theorem indexOf_negative (number : indexOf v = some i) (negative : i < 0) : i = (v.val : Int) - 2 ^ v.width := by
  obtain ⟨_, rfl⟩ := indexOf_eq_some.mp number
  split
  · rfl
  · rename_i plain
    rw [if_neg plain] at negative
    omega

/-- The number of an index from zero on is its value. -/
theorem indexOf_nonneg (number : indexOf v = some i) (fits : v.Fits) (nonneg : 0 ≤ i) : i = v.val := by
  obtain ⟨_, rfl⟩ := indexOf_eq_some.mp number
  split
  · rename_i top
    rw [if_pos top] at nonneg
    -- A value below its width's bound stays negative.
    have bound : (v.val : Int) < 2 ^ v.width := by exact_mod_cast fits.1
    omega
  · rfl

/-- The low word read as signed is the value brought to the balanced range of a word. -/
theorem rawIndex_eq_bmod (v : Value) : rawIndex v = (v.val : Int).bmod (2 ^ 64) :=
  BitVec.toInt_ofNat' v.val

/-- The low word of a number that a word holds is that number. -/
theorem rawIndex_of_lt (small : v.val < 2 ^ 63) : rawIndex v = v.val := by
  rw [rawIndex_eq_bmod]
  exact Int.bmod_eq_of_le (by omega) (by omega)

/-- The low word of an index shows its number, when a word holds it and the register, if the number is negative, is
at least one word wide. -/
theorem rawIndex_eq (number : indexOf v = some i) (fits : v.Fits) (inside : Fits64 i) (wide : 0 ≤ i ∨ 64 ≤ v.width) :
    rawIndex v = i := by
  by_cases nonneg : 0 ≤ i
  · have value := indexOf_nonneg number fits nonneg
    rw [value] at inside ⊢
    exact rawIndex_of_lt (by have := inside.2; omega)
  · have value := indexOf_negative number (by omega)
    obtain ⟨extra, width⟩ := Nat.exists_eq_add_of_le (wide.resolve_left nonneg)
    -- The weight of a wider register's sign is a multiple of the word's.
    have shifted : (v.val : Int) = i + 2 ^ 64 * 2 ^ extra := by
      rw [value, width, Int.pow_add]
      exact (Int.sub_add_cancel _ _).symm
    rw [rawIndex_eq_bmod, shifted]
    have low := inside.1
    have high := inside.2
    show (i + ((2 ^ 64 : Nat) : Int) * 2 ^ extra).bmod (2 ^ 64) = i
    rw [Int.add_mul_bmod_self_left]
    exact Int.bmod_eq_of_le (by omega) (by omega)

variable [VmOps] [LawfulIndexOps]

/-- A load reads a known index by its low word. -/
theorem loadIndex_known (known : v.xz = 0) (bits : v.isReal = false) : loadIndex v = rawIndex v := by
  unfold loadIndex rawIndex
  rw [if_neg (by simp [known]), LawfulWordRead.toU64_known v known bits, Option.getD_some]
  exact congrArg BitVec.toInt (BitVec.eq_of_toNat_eq (by simp))

/-- An index no executor takes for another one: the number that stands for an unknown index lies outside the bounds;
a negative number in a register narrower than a word lies outside, and so does the value a zero extension reads
instead; and for a number no signed word holds, the low word and what `to_index` makes of it lie outside. -/
structure Addressed (span : ArraySpan) (idxV : Value) : Prop where
  unknown : idxV.xz ≠ 0 → span.elem (-2 ^ 63) = none
  negative : ∀ i, indexOf idxV = some i → i < 0 → idxV.width < 64 → span.elem i = none ∧ span.elem idxV.val = none
  beyond : ∀ i, indexOf idxV = some i → ¬ Fits64 i →
    span.elem (rawIndex idxV) = none ∧ ∀ j, VmOps.toIndex idxV = some j → span.elem j = none

/-- Both readings of an index name the element the index names. -/
structure ReadAlike (span : ArraySpan) (idxV : Value) : Prop where
  loads : span.elem (loadIndex idxV) = target span idxV
  stores : (VmOps.toIndex idxV).bind span.elem = target span idxV

variable {span : ArraySpan}

/-- For an index that is addressed right both readings name its element. -/
theorem Addressed.readAlike (right : Addressed span v) (bits : v.isReal = false) (fits : v.Fits) :
    ReadAlike span v := by
  cases number : indexOf v with
  | none =>
    have unknown := indexOf_eq_none.mp number
    refine ⟨?_, ?_⟩
    · rw [target, number, loadIndex, if_pos unknown]
      exact right.unknown unknown
    · rw [target, number, LawfulIndexOps.toIndex_unknown v unknown]
  | some i =>
    have known := (indexOf_eq_some.mp number).1
    suffices both : span.elem (rawIndex v) = span.elem i ∧ (VmOps.toIndex v).bind span.elem = span.elem i by
      refine ⟨?_, ?_⟩
      · rw [loadIndex_known known bits, target, number]
        exact both.1
      · rw [target, number]
        exact both.2
    by_cases inside : Fits64 i
    · rw [LawfulIndexOps.toIndex_known v bits i number inside]
      refine ⟨?_, rfl⟩
      by_cases wide : 0 ≤ i ∨ 64 ≤ v.width
      · rw [rawIndex_eq number fits inside wide]
      · -- A negative number in a narrow register: the low word shows the zero-extended value.
        obtain ⟨names, raw⟩ := right.negative i number (by omega) (by omega)
        have small : v.val < 2 ^ 63 :=
          Nat.lt_of_lt_of_le fits.1 (Nat.pow_le_pow_right (by decide) (by omega))
        rw [rawIndex_of_lt small, names, raw]
    · obtain ⟨raw, stored⟩ := right.beyond i number inside
      rw [elem_beyond inside, raw]
      refine ⟨rfl, ?_⟩
      cases read : VmOps.toIndex v with
      | none => rfl
      | some j => exact stored j read

/-- Where both readings of an index name its element, it is addressed right. -/
theorem ReadAlike.addressed (alike : ReadAlike span v) (bits : v.isReal = false) (fits : v.Fits) :
    Addressed span v := by
  obtain ⟨loads, stores⟩ := alike
  refine ⟨fun unknown => ?_, fun i number negative narrow => ?_, fun i number outside => ?_⟩
  · rwa [target, indexOf_eq_none.mpr unknown, loadIndex, if_pos unknown] at loads
  · have known := (indexOf_eq_some.mp number).1
    have small : v.val < 2 ^ 63 := Nat.lt_of_lt_of_le fits.1 (Nat.pow_le_pow_right (by decide) (by omega))
    rw [target, number, Option.bind_some, loadIndex_known known bits, rawIndex_of_lt small] at loads
    -- One element has one index, and a value is not negative.
    cases names : span.elem i with
    | none => exact ⟨rfl, loads.trans names⟩
    | some eid =>
      have same := elem_inj names (loads.trans names)
      omega
  · have known := (indexOf_eq_some.mp number).1
    rw [target, number, Option.bind_some, elem_beyond outside] at loads stores
    rw [loadIndex_known known bits] at loads
    exact ⟨loads, fun j read => by rwa [read] at stores⟩

end Readings

end Xezim.Arrays
