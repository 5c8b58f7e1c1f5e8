import Xezim.Value

/-! Bits of machine words: masks, shifts, and masked updates of values. -/

namespace Xezim

open Splice KnownBits

/-- A mask of `w` bits has exactly its low bits set. -/
theorem getLsbD_xmask (w i : Nat) : (xmask w).getLsbD i = decide (i < w ∧ i < 64) := by
  unfold xmask
  split
  · rename_i full
    rw [BitVec.getLsbD_allOnes]
    by_cases inside : i < 64
    · simp [inside, show i < w by omega]
    · simp [inside]
  · rename_i short
    have whole : BitVec.ofNat 64 (2 ^ w) - 1#64 = BitVec.ofNat 64 (2 ^ w - 1) := by
      apply BitVec.eq_of_toNat_eq
      have big : 2 ^ w < 2 ^ 64 := Nat.pow_lt_pow_right (by decide) (by omega)
      have pos : 0 < 2 ^ w := Nat.two_pow_pos w
      simp only [BitVec.toNat_sub, BitVec.toNat_ofNat]
      omega
    rw [whole, BitVec.getLsbD_ofNat, Nat.testBit_two_pow_sub_one]
    by_cases inside : i < w
    · simp [inside, show i < 64 by omega]
    · simp [inside]

/-- A left shift moves bits up and fills with zeros. -/
theorem getLsbD_shl (a : Word) (k i : Nat) :
    (shl a k).getLsbD i = (decide (i < 64 ∧ k % 64 ≤ i) && a.getLsbD (i - k % 64)) := by
  unfold shl
  rw [BitVec.getLsbD_shiftLeft]
  by_cases inside : i < 64
  · by_cases above : k % 64 ≤ i
    · simp [inside, above, show ¬ i < k % 64 by omega]
    · simp [inside, show i < k % 64 by omega]
  · simp [inside]

/-- A right shift moves bits down. -/
theorem getLsbD_shr (a : Word) (k i : Nat) : (shr a k).getLsbD i = a.getLsbD (k % 64 + i) := by
  simp [shr]

/-- Moving both planes left tracks moving the word left. -/
theorem covers_shl {v x u : Word} (covers : Covers ⟨v, x⟩ u) (k : Nat) :
    Covers ⟨shl v k, shl x k⟩ (shl u k) := covers.shiftLeft (k % 64)

/-- Moving both planes right tracks moving the word right. -/
theorem covers_shr {v x u : Word} (covers : Covers ⟨v, x⟩ u) (k : Nat) :
    Covers ⟨shr v k, shr x k⟩ (shr u k) := covers.shiftRight (k % 64)

/-- The bits of a word are the bits of its number. -/
theorem testBit_toNat (a : Word) (i : Nat) : a.toNat.testBit i = a.getLsbD i := rfl

/-- A mask fits in its own width. -/
theorem fits_xmask (w : Nat) : Fits w (xmask w) := by
  intro i far
  simp [getLsbD_xmask, show ¬ i < w by omega]

/-- A truth value fits in one bit. -/
theorem fits_ofBool (b : Bool) : Fits 1 (ofBool b) := by
  intro i far
  cases b
  · simp [ofBool]
  · simp [ofBool, show i ≠ 0 by omega]

/-- A word that fits in `w` bits is a number below `2 ^ w`. -/
theorem toNat_lt_of_fits {w : Nat} {u : Word} (fits : Fits w u) : u.toNat < 2 ^ w :=
  lt_of_testBit fun i far => fits i far

/-- A number below `2 ^ w` is a word that fits in `w` bits. -/
theorem fits_of_toNat_lt {w : Nat} {u : Word} (small : u.toNat < 2 ^ w) : Fits w u :=
  fun _ far => testBit_of_lt small far

/-- A word is unchanged by the mask of a width it fits in. -/
theorem and_xmask_of_fits {w : Nat} {u : Word} (fits : Fits w u) : u &&& xmask w = u := by
  refine BitVec.eq_of_getLsbD_eq fun i inside => ?_
  rw [BitVec.getLsbD_and, getLsbD_xmask]
  by_cases low : i < w
  · simp [low, inside]
  · simp [low, fits i (by omega)]

/-- The low word of a plane that fits in a word is the plane itself. -/
theorem toNat_ofNat_of_lt {n w : Nat} (small : n < 2 ^ w) (narrow : w ≤ 64) :
    (BitVec.ofNat 64 n).toNat = n := by
  have bound : n < 2 ^ 64 :=
    Nat.lt_of_lt_of_le small (Nat.pow_le_pow_right (by decide) narrow)
  rw [BitVec.toNat_ofNat, Nat.mod_eq_of_lt bound]

/-- The planes of a run of `len` bits that all hold one bit. -/
def fillPlane (bit : Nat) (len : Nat) : Nat := if bit ≠ 0 then ones len else 0

/-- A fill plane holds its bit at every position up to its length. -/
@[simp] theorem testBit_fillPlane (bit len i : Nat) :
    (fillPlane bit len).testBit i = (decide (bit ≠ 0) && decide (i < len)) := by
  unfold fillPlane
  split <;> simp [*]

namespace Value

@[simp] theorem write_width (v : Value) (lo len a x : Nat) : (v.write lo len a x).width = v.width :=
  rfl

/-- A write stays within the value's width. -/
theorem Fits.write {v : Value} (fits : v.Fits) (lo len a x : Nat) : (v.write lo len a x).Fits := by
  by_cases reaches : lo ≤ v.width
  · have inside : lo + min len (v.width - lo) ≤ v.width := by omega
    exact ⟨splice_lt fits.1 inside, splice_lt fits.2 inside⟩
  · have nothing : min len (v.width - lo) = 0 := by omega
    simpa [Value.Fits, Value.write, nothing] using fits

/-- A write shows its source inside the window and the old bit elsewhere. -/
theorem testBit_write_val (v : Value) (lo len a x i : Nat) (inside : i < v.width) :
    (v.write lo len a x).val.testBit i =
      if lo ≤ i ∧ i < lo + len then a.testBit (i - lo) else v.val.testBit i := by
  simp only [Value.write, testBit_splice]
  by_cases window : lo ≤ i ∧ i < lo + len
  · rw [if_pos window, if_pos (by omega)]
  · rw [if_neg window, if_neg (by omega)]

/-- A write shows its source's unknown plane inside the window and the old one elsewhere. -/
theorem testBit_write_xz (v : Value) (lo len a x i : Nat) (inside : i < v.width) :
    (v.write lo len a x).xz.testBit i =
      if lo ≤ i ∧ i < lo + len then x.testBit (i - lo) else v.xz.testBit i := by
  simp only [Value.write, testBit_splice]
  by_cases window : lo ≤ i ∧ i < lo + len
  · rw [if_pos window, if_pos (by omega)]
  · rw [if_neg window, if_neg (by omega)]

/-- Writing the whole of a value replaces both planes. -/
theorem write_whole {v : Value} (fits : v.Fits) {a x : Nat} (val : a < 2 ^ v.width)
    (unk : x < 2 ^ v.width) : v.write 0 v.width a x = { v with val := a, xz := x } := by
  simp only [Value.write, Nat.sub_zero, Nat.min_self, splice_whole fits.1 val,
    splice_whole fits.2 unk]

/-- The planes of a narrow value are its low word. -/
theorem planes_toNat {v : Value} (fits : v.Fits) (narrow : v.width ≤ 64) :
    v.planes.1.toNat = v.val ∧ v.planes.2.toNat = v.xz :=
  ⟨toNat_ofNat_of_lt fits.1 narrow, toNat_ofNat_of_lt fits.2 narrow⟩

/-- Writing two adjoining windows is writing the joined one. -/
theorem write_append (v : Value) (pos n rest : Nat) {a x b y c z : Nat}
    (first : ∀ i, i < n → a.testBit i = c.testBit i ∧ x.testBit i = z.testBit i)
    (second : ∀ i, i < rest → b.testBit i = c.testBit (n + i) ∧ y.testBit i = z.testBit (n + i)) :
    (v.write pos n a x).write (pos + n) rest b y = v.write pos (n + rest) c z := by
  -- A bit lies in the first window, in the second, or in neither.
  have plane : ∀ base low high joined : Nat, (∀ i, i < n → low.testBit i = joined.testBit i) →
      (∀ i, i < rest → high.testBit i = joined.testBit (n + i)) →
      splice (splice base pos (min n (v.width - pos)) low) (pos + n)
        (min rest (v.width - (pos + n))) high =
        splice base pos (min (n + rest) (v.width - pos)) joined := by
    intro base low high joined lower upper
    refine plane_ext fun i => ?_
    simp only [testBit_splice]
    by_cases inSecond : pos + n ≤ i ∧ i < pos + n + min rest (v.width - (pos + n))
    · rw [if_pos inSecond, if_pos (by omega), upper _ (by omega)]
      rw [show n + (i - (pos + n)) = i - pos by omega]
    · rw [if_neg inSecond]
      by_cases inFirst : pos ≤ i ∧ i < pos + min n (v.width - pos)
      · rw [if_pos inFirst, if_pos (by omega), lower _ (by omega)]
      · rw [if_neg inFirst, if_neg (by omega)]
  simp only [Value.write, plane v.val a b c (fun i low => (first i low).1) fun i low => (second i low).1,
    plane v.xz x y z (fun i low => (first i low).2) fun i low => (second i low).2]

/-- Writing two adjoining runs of one bit is writing the joined run. -/
theorem write_fill_append (v : Value) (pos n rest a b : Nat) {va xa : Nat}
    (val : ∀ i, i < n → va.testBit i = decide (a ≠ 0))
    (unk : ∀ i, i < n → xa.testBit i = decide (b ≠ 0)) :
    (v.write pos n va xa).write (pos + n) rest (fillPlane a rest) (fillPlane b rest) =
      v.write pos (n + rest) (fillPlane a (n + rest)) (fillPlane b (n + rest)) := by
  refine v.write_append pos n rest (fun i low => ?_) fun i low => ?_
  · simp [val i low, unk i low, show i < n + rest by omega]
  · simp [low]

end Value

end Xezim
