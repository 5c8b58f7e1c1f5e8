import Mathlib.Data.Finset.Card
import Mathlib.Data.Finset.Range
import Mathlib.Data.Nat.Bitwise

/-! Sets of heap slots, one bit a slot. -/

namespace Xezim.Heap

/-- `SlotBits`: one bit a heap slot, in words of 64. -/
structure SlotBits where
  words : List Nat

namespace SlotBits

/-- `SlotBits::new`. -/
def new (len : Nat) : SlotBits := ⟨List.replicate ((len + 63) / 64) 0⟩

/-- `SlotBits::get`. -/
def get (b : SlotBits) (i : Nat) : Bool := (b.words.getD (i / 64) 0).testBit (i % 64)

/-- `SlotBits::set`: sets a bit and tells whether it was clear; out of range it does nothing. -/
def set (b : SlotBits) (i : Nat) : Bool × SlotBits :=
  if i / 64 < b.words.length then (!b.get i, ⟨b.words.modify (i / 64) (· ||| 2 ^ (i % 64))⟩) else (false, b)

/-- `SlotBits::clear`. -/
def clear (b : SlotBits) (i : Nat) : SlotBits :=
  ⟨b.words.modify (i / 64) (· &&& ((2 ^ 64 - 1) ^^^ 2 ^ (i % 64)))⟩

/-- A slot the words have a bit for. -/
def InRange (b : SlotBits) (i : Nat) : Prop := i / 64 < b.words.length

instance (b : SlotBits) (i : Nat) : Decidable (b.InRange i) := inferInstanceAs (Decidable (_ < _))

variable {b : SlotBits} {i j : Nat}

/-- A word after one was modified. -/
theorem getD_modify (words : List Nat) (f : Nat → Nat) (j i : Nat) :
    (words.modify j f).getD i 0 = if j = i ∧ i < words.length then f (words.getD i 0) else words.getD i 0 := by
  rw [List.getD_eq_getElem?_getD, List.getElem?_modify, List.getD_eq_getElem?_getD]
  by_cases inside : i < words.length
  · by_cases here : j = i <;> simp [here, inside]
  · simp [inside]

@[simp] theorem get_new (len i : Nat) : (new len).get i = false := by
  -- Every word is zero, in range or by default.
  have word : (List.replicate ((len + 63) / 64) 0).getD (i / 64) 0 = 0 := by
    by_cases inside : i / 64 < (List.replicate ((len + 63) / 64) 0).length
    · rw [List.getD_eq_getElem _ _ inside, List.getElem_replicate]
    · exact List.getD_eq_default _ _ (by omega)
  rw [get, new, word, Nat.zero_testBit]

/-- The slots of a heap are in range. -/
theorem inRange_new {len : Nat} (slot : i < len) : (new len).InRange i := by
  rw [InRange, new, List.length_replicate]
  omega

/-- A slot with its bit set is in range. -/
theorem inRange_of_get (held : b.get i = true) : b.InRange i := by
  by_contra outside
  rw [get, List.getD_eq_default _ _ (by unfold InRange at outside; omega), Nat.zero_testBit] at held
  cases held

@[simp] theorem length_set (b : SlotBits) (i : Nat) : (b.set i).2.words.length = b.words.length := by
  unfold set
  split
  · exact List.length_modify ..
  · rfl

@[simp] theorem inRange_set : (b.set i).2.InRange j ↔ b.InRange j := by
  rw [InRange, length_set]
  rfl

@[simp] theorem inRange_clear : (b.clear i).InRange j ↔ b.InRange j := by
  rw [InRange, clear, List.length_modify]
  rfl

/-- A bit is found clear when it is, in range. -/
theorem set_fresh : (b.set i).1 = true ↔ b.InRange i ∧ b.get i = false := by
  unfold set InRange
  split
  · rename_i inside
    simp [inside]
  · rename_i outside
    simp [outside]

/-- Two slots are the same word and bit only when they are the same. -/
theorem slot_ext (word : i / 64 = j / 64) (bit : i % 64 = j % 64) : i = j := by omega

/-- Setting a bit sets that bit. -/
theorem get_set (inside : b.InRange i) : (b.set i).2.get j = (b.get j || decide (j = i)) := by
  unfold set
  rw [if_pos (show i / 64 < b.words.length from inside)]
  show ((b.words.modify (i / 64) (· ||| 2 ^ (i % 64))).getD (j / 64) 0).testBit (j % 64) = _
  rw [getD_modify]
  by_cases word : i / 64 = j / 64
  · rw [if_pos ⟨word, word ▸ inside⟩, Nat.testBit_or, Nat.testBit_two_pow]
    refine congrArg _ (decide_eq_decide.mpr ⟨fun bit => slot_ext word.symm bit.symm, ?_⟩)
    rintro rfl
    rfl
  · rw [if_neg fun both => word both.1, decide_eq_false (by rintro rfl; exact word rfl), Bool.or_false]
    rfl

/-- Clearing a bit clears that bit. -/
theorem get_clear : (b.clear i).get j = (b.get j && !decide (j = i)) := by
  unfold clear
  show ((b.words.modify (i / 64) (· &&& ((2 ^ 64 - 1) ^^^ 2 ^ (i % 64)))).getD (j / 64) 0).testBit (j % 64) = _
  rw [getD_modify]
  by_cases word : i / 64 = j / 64 ∧ j / 64 < b.words.length
  · rw [if_pos word, Nat.testBit_and, Nat.testBit_xor, Nat.testBit_two_pow_sub_one, Nat.testBit_two_pow,
      decide_eq_true (Nat.mod_lt j (by decide)), Bool.true_xor]
    refine congrArg _ (congrArg _ (decide_eq_decide.mpr ⟨fun bit => slot_ext word.1.symm bit.symm, ?_⟩))
    rintro rfl
    rfl
  · rw [if_neg word]
    by_cases same : j = i
    · -- Out of range the bit reads clear already.
      subst same
      rw [List.getD_eq_default _ _ (by omega), Nat.zero_testBit, decide_eq_true rfl, Bool.not_true, Bool.and_false]
    · rw [decide_eq_false same, Bool.not_false, Bool.and_true]
      rfl

/-- The slots with a clear bit. -/
def unmarked (b : SlotBits) : Finset Nat := {i ∈ Finset.range (64 * b.words.length) | b.get i = false}

/-- Setting a clear bit leaves fewer. -/
theorem unmarked_set (fresh : (b.set i).1 = true) : (b.set i).2.unmarked.card < b.unmarked.card := by
  obtain ⟨inside, clear⟩ := set_fresh.mp fresh
  refine Finset.card_lt_card (Finset.ssubset_iff_of_subset ?_ |>.mpr ⟨i, ?_, ?_⟩)
  · intro j member
    rw [unmarked, Finset.mem_filter, length_set, get_set inside, Bool.or_eq_false_iff] at member
    exact Finset.mem_filter.mpr ⟨member.1, member.2.1⟩
  · have := inside
    unfold InRange at this
    exact Finset.mem_filter.mpr ⟨Finset.mem_range.mpr (by omega), clear⟩
  · rw [unmarked, Finset.mem_filter, get_set inside, decide_eq_true rfl, Bool.or_true]
    rintro ⟨-, impossible⟩
    cases impossible

end SlotBits

end Xezim.Heap
