import Xezim.WordLaws
import Xezim.TwoState.Exec

/-! Replication within one word: what it needs room for and which bits it copies. -/

namespace Xezim

open KnownBits

/-- The multiplier that lays `2 ^ k` copies of a `w`-bit part side by side. -/
def repeatFactor (w : Nat) : Nat → Word
  | 0 => 1#64
  | k + 1 => repeatFactor w k * (1#64 + BitVec.twoPow 64 (w * 2 ^ k))

/-- Multiplying a part by its factor repeats it. -/
theorem getLsbD_mul_repeatFactor (p : Word) (w k : Nat) :
    Fits (w * 2 ^ k) ((p &&& xmask w) * repeatFactor w k) ∧
      ∀ i, i < w * 2 ^ k → i < 64 →
        ((p &&& xmask w) * repeatFactor w k).getLsbD i = p.getLsbD (i % w) := by
  -- Each factor joins the copies so far with the same copies moved above them.
  induction k with
  | zero =>
    rw [repeatFactor, BitVec.mul_one, Nat.pow_zero, Nat.mul_one]
    refine ⟨(fits_xmask w).and_right p, fun i low inside => ?_⟩
    rw [BitVec.getLsbD_and, getLsbD_xmask, Nat.mod_eq_of_lt low]
    simp [low, inside]
  | succ k ih =>
    obtain ⟨fits, shown⟩ := ih
    rw [repeatFactor, ← BitVec.mul_assoc]
    have total : w * 2 ^ (k + 1) = 2 * (w * 2 ^ k) := by
      rw [Nat.pow_succ, ← Nat.mul_assoc, Nat.mul_comm]
    rw [total]
    generalize (p &&& xmask w) * repeatFactor w k = x at fits shown
    have periodic : w ∣ w * 2 ^ k := Nat.dvd_mul_right w _
    generalize w * 2 ^ k = n at fits shown periodic
    have apart : x &&& x <<< n = 0#64 := by
      refine BitVec.eq_of_getLsbD_eq fun i _ => ?_
      by_cases low : i < n
      · simp [low]
      · simp [fits i (by omega)]
    have doubled : x * (1#64 + BitVec.twoPow 64 n) = x ||| x <<< n := by
      rw [BitVec.mul_add, BitVec.mul_one, BitVec.mul_twoPow_eq_shiftLeft,
        BitVec.add_eq_or_of_and_eq_zero _ _ apart]
    rw [doubled]
    constructor
    · intro i far
      by_cases inside : i < 64
      · have high : ¬ i < n := by omega
        simp [fits i (by omega), fits (i - n) (by omega)]
      · exact BitVec.getLsbD_of_ge _ i (by omega)
    · intro i below inside
      rw [BitVec.getLsbD_or, BitVec.getLsbD_shiftLeft]
      by_cases low : i < n
      · rw [shown i low inside]
        simp [low]
      · have moved : (i - n) % w = i % w := by
          obtain ⟨m, rfl⟩ := periodic
          have split : i = (i - w * m) + w * m := by omega
          conv_rhs => rw [split]
          rw [Nat.add_mul_mod_self_left]
        rw [fits i (by omega), shown (i - n) (by omega) (by omega), moved]
        simp [low, inside]

/-- The constant-time forms repeat the low bits of the part over the whole word. -/
theorem getLsbD_repeatedWord {p word : Word} {w : Nat} (repeated : repeatedWord p w = some word)
    (i : Nat) (inside : i < 64) : word.getLsbD i = p.getLsbD (i % w) := by
  unfold repeatedWord at repeated
  split at repeated <;> simp only [Option.some.injEq, reduceCtorEq] at repeated
  · subst repeated
    have bit : p &&& 1#64 = if p.getLsbD 0 then 1#64 else 0#64 := by
      refine BitVec.eq_of_getLsbD_eq fun j _ => ?_
      rw [BitVec.getLsbD_and]
      by_cases first : j = 0
      · subst first
        cases p.getLsbD 0 <;> rfl
      · cases p.getLsbD 0 <;> simp [first]
    rw [bit, Nat.mod_one]
    cases p.getLsbD 0
    · simp
    · have all : 0#64 - 1#64 = BitVec.allOnes 64 := by decide
      simp only [if_true, all, BitVec.getLsbD_allOnes, inside, decide_true]
  · exact repeated ▸ (getLsbD_mul_repeatFactor p 2 5).2 i inside inside
  · exact repeated ▸ (getLsbD_mul_repeatFactor p 4 4).2 i inside inside
  · exact repeated ▸ (getLsbD_mul_repeatFactor p 8 3).2 i inside inside
  · exact repeated ▸ (getLsbD_mul_repeatFactor p 16 2).2 i inside inside
  · exact repeated ▸ (getLsbD_mul_repeatFactor p 32 1).2 i inside inside
  · rw [← repeated, Nat.mod_eq_of_lt inside]
/-- A union fits wherever both operands do. -/
theorem fits_or {w : Nat} {u v : Word} (left : Fits w u) (right : Fits w v) :
    Fits w (u ||| v) := by
  intro i far
  simp [left i far, right i far]

/-- Shifting left needs at most as many more bits as the amount. -/
theorem fits_shl {w : Nat} {u : Word} (fits : Fits w u) (k : Nat) : Fits (w + k) (shl u k) := by
  intro i far
  have small := Nat.mod_le k 64
  rw [getLsbD_shl, fits (i - k % 64) (by omega), Bool.and_false]

/-- The doubling loop needs room for the copies it still has to make. -/
theorem fits_replicateLoop (fuel : Nat) : ∀ (acc chunk : Word) (done cw copies : Nat),
    Fits done acc → Fits cw chunk →
      Fits (done + cw * copies) (replicateLoop fuel acc chunk cw copies) := by
  induction fuel with
  | zero =>
    intro acc chunk done cw copies accFits _
    exact accFits.mono (by omega)
  | succ fuel ih =>
    intro acc chunk done cw copies accFits chunkFits
    unfold replicateLoop
    by_cases none : copies = 0
    · rw [if_pos none]
      exact accFits.mono (by omega)
    · rw [if_neg none]
      -- An odd count takes one chunk now; the rest are counted in doubled chunks.
      have taken : Fits (done + cw * (copies % 2))
          (if copies % 2 = 1 then shl acc cw ||| chunk else acc) := by
        split
        · rename_i odd
          rw [odd, Nat.mul_one]
          exact fits_or (fits_shl accFits cw) (chunkFits.mono (by omega))
        · exact accFits.mono (by omega)
      have count : cw * copies = cw * (copies % 2) + cw * 2 * (copies / 2) := by
        rw [Nat.mul_assoc, ← Nat.mul_add, Nat.mod_add_div]
      simp only
      split
      · have doubled : Fits (cw * 2) (chunk ||| shl chunk cw) :=
          fits_or (chunkFits.mono (by omega)) ((fits_shl chunkFits cw).mono (by omega))
        exact (ih _ _ _ _ _ taken doubled).mono (by omega)
      · exact taken.mono (by omega)

/-- A replication needs room for its copies. -/
theorem fits_replicateNarrow {p : Word} {w : Nat} (fits : Fits w p) (count : Nat) :
    Fits (w * count) (replicateNarrow p w count) := by
  unfold replicateNarrow
  split
  · exact fits_zero _
  · split
    · rename_i one
      simpa [one] using fits
    · simp only
      split
      · split
        · rename_i full
          exact (fits_full _).mono full
        · rename_i short
          have mask : shl 1#64 (w * count) - 1#64 = xmask (w * count) := by
            have small : w * count < 64 := by omega
            rw [xmask, if_neg (by omega), shl, Nat.mod_eq_of_lt small]
            congr 1
            exact BitVec.eq_of_toNat_eq (by simp [Nat.shiftLeft_eq])
          rw [mask]
          exact (fits_xmask _).and_right _
      · simpa using fits_replicateLoop count 0#64 p 0 w count (fits_zero 0) fits

/-- Planes that cover the accumulator and the chunk cover the loop's result. -/
theorem covers_replicateLoop (fuel : Nat) : ∀ (acc accX accU chunk chunkX chunkU : Word)
    (cw copies : Nat), Covers ⟨acc, accX⟩ accU → Covers ⟨chunk, chunkX⟩ chunkU →
      Covers ⟨replicateLoop fuel acc chunk cw copies, replicateLoop fuel accX chunkX cw copies⟩
        (replicateLoop fuel accU chunkU cw copies) := by
  induction fuel with
  | zero =>
    intro acc accX accU chunk chunkX chunkU cw copies accCovers _
    exact accCovers
  | succ fuel ih =>
    intro acc accX accU chunk chunkX chunkU cw copies accCovers chunkCovers
    simp only [replicateLoop]
    by_cases none : copies = 0
    · simpa only [if_pos none] using accCovers
    · simp only [if_neg none]
      have grown := (covers_shl accCovers cw).or chunkCovers
      have doubled := chunkCovers.or (covers_shl chunkCovers cw)
      -- All three loops take the same turns, as the count is the same.
      by_cases odd : copies % 2 = 1 <;> by_cases more : copies / 2 ≠ 0
      · simpa only [if_pos odd, if_pos more] using ih _ _ _ _ _ _ _ _ grown doubled
      · simpa only [if_pos odd, if_neg more] using grown
      · simpa only [if_neg odd, if_pos more] using ih _ _ _ _ _ _ _ _ accCovers doubled
      · simpa only [if_neg odd, if_neg more] using accCovers

/-- Whether a constant-time form exists depends on the part width alone. -/
theorem repeatedWord_cases (w : Nat) :
    (∀ p, repeatedWord p w = none) ∨ ∀ p, ∃ word, repeatedWord p w = some word := by
  by_cases special : w = 1 ∨ w = 2 ∨ w = 4 ∨ w = 8 ∨ w = 16 ∨ w = 32 ∨ w = 64
  · refine Or.inr fun p => ?_
    rcases special with rfl | rfl | rfl | rfl | rfl | rfl | rfl <;> exact ⟨_, rfl⟩
  · refine Or.inl fun p => ?_
    simp only [not_or] at special
    unfold repeatedWord
    split <;> simp_all

/-- Replicating both planes covers the replicated word. -/
theorem covers_replicateNarrow {v x u : Word} (covers : Covers ⟨v, x⟩ u) (w count : Nat) :
    Covers ⟨replicateNarrow v w count, replicateNarrow x w count⟩ (replicateNarrow u w count) := by
  unfold replicateNarrow
  by_cases none : count = 0
  · simpa only [if_pos none] using covers_self _
  · by_cases one : count = 1
    · simpa only [if_neg none, if_pos one] using covers
    · simp only [if_neg none, if_neg one]
      rcases repeatedWord_cases w with loops | words
      · simp only [loops]
        exact covers_replicateLoop count _ _ _ _ _ _ w count (covers_self _) covers
      · obtain ⟨vWord, vForm⟩ := words v
        obtain ⟨xWord, xForm⟩ := words x
        obtain ⟨uWord, uForm⟩ := words u
        simp only [vForm, xForm, uForm]
        -- Bit by bit, each repeated word shows one bit of its part.
        have whole : Covers ⟨vWord, xWord⟩ uWord := by
          intro i known
          by_cases inside : i < 64
          · rw [getLsbD_repeatedWord xForm i inside] at known
            rw [getLsbD_repeatedWord vForm i inside, getLsbD_repeatedWord uForm i inside]
            exact covers _ known
          · rw [BitVec.getLsbD_of_ge _ i (Nat.le_of_not_lt inside),
              BitVec.getLsbD_of_ge _ i (Nat.le_of_not_lt inside)]
        by_cases full : w * count ≥ 64
        · simpa only [if_pos full] using whole
        · simpa only [if_neg full] using whole.and_mask _

end Xezim
