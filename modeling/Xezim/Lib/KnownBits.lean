import Mathlib.Data.Nat.Bitwise

/-! Partially known words: a value plane beside a plane marking the bits nothing is known about. -/

namespace KnownBits

/-- A word of `n` bits whose bits under the `x` plane are unknown. -/
structure Planes (n : Nat) where
  /-- The value of every known bit. -/
  v : BitVec n
  /-- The unknown bits, whatever the value plane holds there. -/
  x : BitVec n
  deriving DecidableEq, Repr

variable {n : Nat}

/-- A word is covered when it agrees with every known bit. -/
def Covers (p : Planes n) (u : BitVec n) : Prop :=
  ∀ i, p.x.getLsbD i = false → p.v.getLsbD i = u.getLsbD i

/-- A word has no bit from position `w` on. -/
def Fits (w : Nat) (u : BitVec n) : Prop :=
  ∀ i, w ≤ i → u.getLsbD i = false

/-- Both planes stay below position `w`. -/
def Planes.Fits (w : Nat) (p : Planes n) : Prop :=
  KnownBits.Fits w p.v ∧ KnownBits.Fits w p.x

/-- Every word lies below its own length. -/
theorem fits_full (u : BitVec n) : Fits n u := by
  intro i far
  simp [BitVec.getLsbD_of_ge u i far]

/-- Room for a word is room for it in every larger width. -/
theorem Fits.mono {w w' : Nat} {u : BitVec n} (fits : Fits w u) (wider : w ≤ w') : Fits w' u :=
  fun i far => fits i (by omega)

/-- The zero word fits any width. -/
theorem fits_zero (w : Nat) : Fits w (0#n) := by
  intro i _
  simp

/-- Masking down leaves only bits of the mask. -/
theorem Fits.and_right {w : Nat} {m : BitVec n} (fits : Fits w m) (u : BitVec n) :
    Fits w (u &&& m) := by
  intro i far
  simp [fits i far]

/-- A conjunction fits wherever its left operand does. -/
theorem Fits.and_left {w : Nat} {u : BitVec n} (fits : Fits w u) (m : BitVec n) :
    Fits w (u &&& m) := by
  intro i far
  simp [fits i far]

/-- Shifting right never needs more room. -/
theorem Fits.shiftRight {w : Nat} {u : BitVec n} (fits : Fits w u) (k : Nat) :
    Fits w (u >>> k) := by
  intro i far
  simp [fits (k + i) (by omega)]

/-- A word with no unknown bit covers exactly itself. -/
@[simp] theorem covers_zero_iff {v u : BitVec n} : Covers ⟨v, 0#n⟩ u ↔ v = u := by
  constructor
  · intro covers
    exact BitVec.eq_of_getLsbD_eq fun i _ => covers i (by simp)
  · rintro rfl i _
    rfl

/-- A known word covers itself. -/
theorem covers_self (u : BitVec n) : Covers ⟨u, 0#n⟩ u := covers_zero_iff.mpr rfl

/-- A covered word is the value plane as soon as the unknown plane is empty. -/
theorem Covers.eq_of_known {p : Planes n} {u : BitVec n} (covers : Covers p u)
    (known : p.x = 0#n) : p.v = u := by
  obtain ⟨v, x⟩ := p
  subst known
  exact covers_zero_iff.mp covers

/-- An all-unknown word under a mask covers every word under that mask. -/
theorem covers_unknown {m u : BitVec n}
    (under : ∀ i, m.getLsbD i = false → u.getLsbD i = false) : Covers ⟨0#n, m⟩ u := by
  intro i known
  simp [under i known]

section Operations

variable {av ax bv bx a b : BitVec n}

/-- Moving both planes left tracks moving the word left. -/
theorem Covers.shiftLeft (covers : Covers ⟨av, ax⟩ a) (k : Nat) :
    Covers ⟨av <<< k, ax <<< k⟩ (a <<< k) := by
  intro i known
  simp only [BitVec.getLsbD_shiftLeft] at known ⊢
  -- Bits shifted in are zero in both words, the others come from one common position.
  by_cases moved : i < n ∧ ¬ i < k
  · obtain ⟨inside, above⟩ := moved
    simp only [inside, above, decide_true, decide_false, Bool.not_false, Bool.and_self,
      Bool.true_and] at known ⊢
    exact covers (i - k) known
  · by_cases inside : i < n
    · have below : i < k := by omega
      simp [below]
    · simp [inside]

/-- Moving both planes right tracks moving the word right. -/
theorem Covers.shiftRight (covers : Covers ⟨av, ax⟩ a) (k : Nat) :
    Covers ⟨av >>> k, ax >>> k⟩ (a >>> k) := by
  intro i known
  simp only [BitVec.getLsbD_ushiftRight] at known ⊢
  exact covers (k + i) known

/-- Masking both planes tracks masking the word. -/
theorem Covers.and_mask (covers : Covers ⟨av, ax⟩ a) (m : BitVec n) :
    Covers ⟨av &&& m, ax &&& m⟩ (a &&& m) := by
  intro i known
  simp only [BitVec.getLsbD_and, Bool.and_eq_false_iff] at known ⊢
  rcases known with known | outside
  · exact congrArg (· && m.getLsbD i) (covers i known)
  · simp [outside]

/-- Joining both planes bit by bit tracks joining the words. -/
theorem Covers.or (left : Covers ⟨av, ax⟩ a) (right : Covers ⟨bv, bx⟩ b) :
    Covers ⟨av ||| bv, ax ||| bx⟩ (a ||| b) := by
  intro i known
  simp only [BitVec.getLsbD_or, Bool.or_eq_false_iff] at known ⊢
  exact congrArg₂ (· || ·) (left i known.1) (right i known.2)

/-- Kleene conjunction: a known zero on either side decides the bit. -/
theorem Covers.kleene_and (left : Covers ⟨av, ax⟩ a) (right : Covers ⟨bv, bx⟩ b) :
    Covers ⟨av &&& bv &&& ~~~(ax ||| bx),
      (ax ||| bx) &&& ~~~((~~~av &&& ~~~ax) ||| (~~~bv &&& ~~~bx))⟩ (a &&& b) := by
  intro i known
  -- The claim is about each bit alone, so one truth table over the six planes settles it.
  by_cases inside : i < n
  · have one := left i
    have two := right i
    simp only [BitVec.getLsbD_and, BitVec.getLsbD_or, BitVec.getLsbD_not, inside, decide_true,
      Bool.true_and] at known one two ⊢
    generalize av.getLsbD i = p, ax.getLsbD i = q, bv.getLsbD i = r, bx.getLsbD i = s,
      a.getLsbD i = t, b.getLsbD i = u at known one two ⊢
    revert p q r s t u
    decide
  · simp [BitVec.getLsbD_of_ge _ i (Nat.le_of_not_lt inside)]

/-- Kleene disjunction: a known one on either side decides the bit. -/
theorem Covers.kleene_or (left : Covers ⟨av, ax⟩ a) (right : Covers ⟨bv, bx⟩ b) :
    Covers ⟨(av &&& ~~~ax) ||| (bv &&& ~~~bx),
      (ax ||| bx) &&& ~~~((av &&& ~~~ax) ||| (bv &&& ~~~bx))⟩ (a ||| b) := by
  intro i known
  -- Again one truth table for each bit.
  by_cases inside : i < n
  · have one := left i
    have two := right i
    simp only [BitVec.getLsbD_and, BitVec.getLsbD_or, BitVec.getLsbD_not, inside, decide_true,
      Bool.true_and] at known one two ⊢
    generalize av.getLsbD i = p, ax.getLsbD i = q, bv.getLsbD i = r, bx.getLsbD i = s,
      a.getLsbD i = t, b.getLsbD i = u at known one two ⊢
    revert p q r s t u
    decide
  · simp [BitVec.getLsbD_of_ge _ i (Nat.le_of_not_lt inside)]

/-- A difference is known where both operands are. -/
theorem Covers.kleene_xor (left : Covers ⟨av, ax⟩ a) (right : Covers ⟨bv, bx⟩ b) :
    Covers ⟨(av ^^^ bv) &&& ~~~(ax ||| bx), ax ||| bx⟩ (a ^^^ b) := by
  intro i known
  -- An xor bit is known only when both operands' bits are.
  by_cases inside : i < n
  · have one := left i
    have two := right i
    simp only [BitVec.getLsbD_and, BitVec.getLsbD_or, BitVec.getLsbD_xor, BitVec.getLsbD_not,
      inside, decide_true, Bool.true_and] at known one two ⊢
    generalize av.getLsbD i = p, ax.getLsbD i = q, bv.getLsbD i = r, bx.getLsbD i = s,
      a.getLsbD i = t, b.getLsbD i = u at known one two ⊢
    revert p q r s t u
    decide
  · simp [BitVec.getLsbD_of_ge _ i (Nat.le_of_not_lt inside)]

/-- A complement is known where its operand is. -/
theorem Covers.kleene_not (covers : Covers ⟨av, ax⟩ a) (m : BitVec n) :
    Covers ⟨~~~av &&& ~~~ax &&& m, ax &&& m⟩ (~~~a &&& m) := by
  intro i known
  -- The mask applies to both planes, so the bits above it are known zeros.
  by_cases inside : i < n
  · have one := covers i
    simp only [BitVec.getLsbD_and, BitVec.getLsbD_not, inside, decide_true,
      Bool.true_and] at known one ⊢
    generalize av.getLsbD i = p, ax.getLsbD i = q, m.getLsbD i = r, a.getLsbD i = t
      at known one ⊢
    revert p q r t
    decide
  · simp [BitVec.getLsbD_of_ge _ i (Nat.le_of_not_lt inside)]

/-- Two known words that differ under the known bits are different. -/
theorem Covers.ne_of_mismatch (left : Covers ⟨av, ax⟩ a) (right : Covers ⟨bv, bx⟩ b)
    (mismatch : (av ^^^ bv) &&& ~~~ax &&& ~~~bx ≠ 0#n) : a ≠ b := by
  rintro rfl
  refine mismatch (BitVec.eq_of_getLsbD_eq fun i inside => ?_)
  -- A known mismatch at one bit would have the value differ from itself there.
  have one := left i
  have two := right i
  simp only [BitVec.getLsbD_and, BitVec.getLsbD_xor, BitVec.getLsbD_not, inside, decide_true,
    Bool.true_and, BitVec.getLsbD_zero] at one two ⊢
  generalize av.getLsbD i = p, ax.getLsbD i = q, bv.getLsbD i = r, bx.getLsbD i = s,
    a.getLsbD i = t at one two ⊢
  revert p q r s t
  decide

/-- Merging two arms keeps what both know and agree on, whichever arm the word is. -/
theorem Covers.merge (left : Covers ⟨av, ax⟩ a) (right : Covers ⟨bv, bx⟩ b) {m w : BitVec n}
    (arm : w = a ∨ w = b) (under : ∀ i, m.getLsbD i = false → w.getLsbD i = false) :
    Covers ⟨av &&& (~~~ax &&& ~~~bx &&& ~~~(av ^^^ bv)),
      ~~~(~~~ax &&& ~~~bx &&& ~~~(av ^^^ bv)) &&& m⟩ w := by
  intro i known
  -- Where the arms agree and are known, either arm's bit is the merged one; the mask bounds the rest.
  by_cases inside : i < n
  · have one := left i
    have two := right i
    have low := under i
    have arm : w.getLsbD i = a.getLsbD i ∨ w.getLsbD i = b.getLsbD i :=
      arm.imp (fun same => by rw [same]) (fun same => by rw [same])
    simp only [BitVec.getLsbD_and, BitVec.getLsbD_xor, BitVec.getLsbD_not, inside, decide_true,
      Bool.true_and] at known one two ⊢
    generalize av.getLsbD i = p, ax.getLsbD i = q, bv.getLsbD i = r, bx.getLsbD i = s,
      a.getLsbD i = t, b.getLsbD i = u, w.getLsbD i = y, m.getLsbD i = z
      at known one two low arm ⊢
    revert p q r s t u y z
    decide
  · simp [BitVec.getLsbD_of_ge _ i (Nat.le_of_not_lt inside)]

/-- A word with a bit that is known to be one is not zero. -/
theorem Covers.ne_zero (covers : Covers ⟨av, ax⟩ a) (one : av &&& ~~~ax ≠ 0#n) : a ≠ 0#n := by
  rintro rfl
  refine one (BitVec.eq_of_getLsbD_eq fun i inside => ?_)
  -- A known one would make a bit of zero set.
  have bit := covers i
  simp only [BitVec.getLsbD_and, BitVec.getLsbD_not, inside, decide_true, Bool.true_and,
    BitVec.getLsbD_zero] at bit ⊢
  generalize av.getLsbD i = p, ax.getLsbD i = q at bit ⊢
  revert p q
  decide

end Operations

end KnownBits
