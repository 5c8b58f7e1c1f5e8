import Mathlib.Data.Nat.Bitwise

/-! Overwriting a window of bits inside a natural number read as a bit plane. -/

namespace Splice

/-- The lowest `len` bits set. -/
def ones (len : Nat) : Nat := 2 ^ len - 1

/-- The plane `base` with the bits from `lo` up to `lo + len` taken from the low bits of `src`. -/
def splice (base lo len src : Nat) : Nat :=
  base ^^^ ((base ^^^ (src <<< lo)) &&& (ones len <<< lo))

/-- The `len` bits of a plane starting at `lo`, moved down to bit zero. -/
def window (base lo len : Nat) : Nat := (base >>> lo) &&& ones len

/-- A run of ones has exactly its first `len` bits set. -/
@[simp] theorem testBit_ones (len i : Nat) : (ones len).testBit i = decide (i < len) := by
  simp [ones, Nat.testBit_two_pow_sub_one]

/-- Inside the window a spliced plane shows the source, outside it shows the base. -/
@[simp] theorem testBit_splice (base lo len src i : Nat) :
    (splice base lo len src).testBit i =
      if lo ≤ i ∧ i < lo + len then src.testBit (i - lo) else base.testBit i := by
  -- The three bits involved are a base bit, a source bit and the window's own mask bit.
  simp only [splice, Nat.testBit_xor, Nat.testBit_and, Nat.testBit_shiftLeft, testBit_ones]
  by_cases above : lo ≤ i
  · by_cases below : i < lo + len
    · have inside : i - lo < len := by omega
      simp [above, below, inside]
    · have outside : ¬ i - lo < len := by omega
      simp [above, below, outside]
  · simp [above]

/-- A window shows the plane's own bits up to its length and zeros from there on. -/
@[simp] theorem testBit_window (base lo len i : Nat) :
    (window base lo len).testBit i = (decide (i < len) && base.testBit (lo + i)) := by
  simp [window, Nat.testBit_shiftRight, Bool.and_comm]

/-- Two planes are equal as soon as they agree on every bit. -/
theorem plane_ext {a b : Nat} (same : ∀ i, a.testBit i = b.testBit i) : a = b :=
  Nat.eq_of_testBit_eq same

/-- A plane below a power of two has no bit from that position on. -/
theorem testBit_of_lt {a len i : Nat} (small : a < 2 ^ len) (far : len ≤ i) :
    a.testBit i = false :=
  Nat.testBit_lt_two_pow (Nat.lt_of_lt_of_le small (Nat.pow_le_pow_right (by decide) far))

/-- A plane with no bit from position `len` on lies below that power of two. -/
theorem lt_of_testBit {a len : Nat} (clear : ∀ i, len ≤ i → a.testBit i = false) :
    a < 2 ^ len :=
  Nat.lt_pow_two_of_testBit a clear

/-- Splicing inside a plane's width keeps the plane within that width. -/
theorem splice_lt {base lo len src width : Nat} (small : base < 2 ^ width)
    (inside : lo + len ≤ width) : splice base lo len src < 2 ^ width := by
  refine lt_of_testBit fun i far => ?_
  have beyond : ¬ (lo ≤ i ∧ i < lo + len) := by omega
  simp [beyond, testBit_of_lt small far]

/-- A window fits in its own length. -/
theorem window_lt (base lo len : Nat) : window base lo len < 2 ^ len := by
  refine lt_of_testBit fun i far => ?_
  simp [show ¬ i < len by omega]

/-- Two splices of one window keep only the second source. -/
theorem splice_splice_same (base lo len first second : Nat) :
    splice (splice base lo len first) lo len second = splice base lo len second := by
  refine plane_ext fun i => ?_
  simp only [testBit_splice]
  split <;> rfl

/-- Splicing a plane's own window back changes nothing. -/
theorem splice_window_self (base lo len : Nat) :
    splice base lo len (window base lo len) = base := by
  refine plane_ext fun i => ?_
  simp only [testBit_splice, testBit_window]
  split
  · rename_i inside
    have place : lo + (i - lo) = i := by omega
    simp [show i - lo < len by omega, place]
  · rfl

/-- A splice over a whole plane is its source. -/
theorem splice_whole {base src len : Nat} (old : base < 2 ^ len) (new : src < 2 ^ len) :
    splice base 0 len src = src := by
  refine plane_ext fun i => ?_
  by_cases inside : i < len
  · simp [inside]
  · have far : len ≤ i := by omega
    simp [inside, testBit_of_lt old far, testBit_of_lt new far]

/-- A splice of nothing changes nothing. -/
@[simp] theorem splice_empty (base lo src : Nat) : splice base lo 0 src = base := by
  refine plane_ext fun i => ?_
  simp [show ¬ (lo ≤ i ∧ i < lo) by omega]

end Splice
