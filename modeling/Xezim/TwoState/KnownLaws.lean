import Xezim.TwoState.ExecX
import Xezim.TwoState.ReplicateLaws

/-! On known operands the plane operations are the word operations. -/

namespace Xezim

open KnownBits Function

/-- The value plane of a known word is the word. -/
@[simp] theorem known_v (u : Word) : (known u).v = u := rfl

/-- No bit of a known word is unknown. -/
@[simp] theorem known_x (u : Word) : (known u).x = 0#64 := rfl

/-- Planes without an unknown bit are a known word. -/
@[simp] theorem mk_known (u : Word) : (⟨u, 0#64⟩ : Planes 64) = known u := rfl

/-- Shifting zeros left gives zeros. -/
@[simp] theorem shl_zero (k : Nat) : shl 0#64 k = 0#64 := by simp [shl]

/-- Shifting zeros right gives zeros. -/
@[simp] theorem shr_zero (k : Nat) : shr 0#64 k = 0#64 := by simp [shr]

section Planes

variable (a b mask : Word)

/-- Masking with a full word changes nothing. -/
@[simp] theorem and_full : a &&& 18446744073709551615#64 = a := BitVec.and_allOnes

/-- A known word is true unless it is zero. -/
@[simp] theorem t3_known : t3 (known a) = some (a != 0#64) := by
  by_cases zero : a = 0#64
  · simp [t3, zero]
  · simp [t3, zero]

/-- A definite truth value is a known bit. -/
@[simp] theorem fromT3_some (p : Bool) : fromT3 (some p) = known (ofBool p) := by
  cases p <;> rfl

/-- Definite truth values conjoin as booleans. -/
@[simp] theorem and3_some (p q : Bool) : and3 (some p) (some q) = some (p && q) := by
  cases p <;> cases q <;> rfl

/-- Definite truth values disjoin as booleans. -/
@[simp] theorem or3_some (p q : Bool) : or3 (some p) (some q) = some (p || q) := by
  cases p <;> cases q <;> rfl

/-- A definite truth value negates as a boolean. -/
@[simp] theorem not3_some (p : Bool) : not3 (some p) = some !p := rfl

/-- The logical negation of a known word asks whether it is zero. -/
theorem logNot_known : fromT3 (not3 (t3 (known a))) = known (ofBool (a == 0#64)) := by
  simp [bne]

/-- Conjunction of known words. -/
@[simp] theorem andP_known : andP (known a) (known b) = known (a &&& b) := by
  simp [andP]

/-- Disjunction of known words. -/
@[simp] theorem orP_known : orP (known a) (known b) = known (a ||| b) := by
  simp [orP]

/-- Difference of known words. -/
@[simp] theorem xorP_known : xorP (known a) (known b) = known (a ^^^ b) := by
  simp [xorP]

/-- Known words are compared by equality. -/
@[simp] theorem eqP_known : eqP (known a) (known b) = known (ofBool (a == b)) := by
  simp [eqP]

/-- Known words are compared by inequality. -/
@[simp] theorem neP_known : neP (known a) (known b) = known (ofBool (a != b)) := by
  by_cases same : a = b
  · simp [neP, same, ofBool]
  · simp [neP, same, ofBool]

/-- A window of a known word. -/
@[simp] theorem sliceP_known (lo : Nat) : sliceP (known a) lo mask = known (shr a lo &&& mask) := by
  simp [sliceP]

/-- Nothing holds an operation on known words back. -/
@[simp] theorem strict2_known (f : Word → Word → Word) :
    strict2 (known a) (known b) mask f = known (f a b) := by
  simp [strict2]

end Planes

/-- A pair of planes without an unknown bit is a known word. -/
theorem pair_of_clean {p : Word × Word} (clean : p.2 = 0#64) : pair p = known p.1 := by
  simp [pair, clean]

/-- The replication loop leaves zeros alone. -/
theorem replicateLoop_zero (fuel chunkWidth copies : Nat) :
    replicateLoop fuel 0#64 0#64 chunkWidth copies = 0#64 := by
  induction fuel generalizing chunkWidth copies with
  | zero => rfl
  | succ fuel ih => simp [replicateLoop, ih]

/-- Repeating zeros gives zeros. -/
@[simp] theorem replicateNarrow_zero (w count : Nat) : replicateNarrow 0#64 w count = 0#64 := by
  unfold replicateNarrow
  split
  · rfl
  · split
    · rfl
    · -- Every constant-time pattern multiplies or copies its part.
      have pattern : ∀ word, repeatedWord 0#64 w = some word → word = 0#64 := by
        intro word repeated
        unfold repeatedWord at repeated
        split at repeated <;> simp_all
      cases repeated : repeatedWord 0#64 w with
      | none => exact replicateLoop_zero count w count
      | some word => simp [pattern word repeated]

/-- The known registers of the x-plane executor. -/
def knownRegs (r : Regs) : XRegs := fun d => known (r d)

/-- Each register of known registers is known. -/
@[simp] theorem knownRegs_apply (r : Regs) (d : Nat) : knownRegs r d = known (r d) := rfl

/-- Writing a known word into known registers. -/
@[simp] theorem setX_known (r : Regs) (d : Nat) (v : Word) :
    setX (knownRegs r) d (known v) = knownRegs (setReg r d v) := by
  funext d'
  by_cases same : d' = d
  · subst same
    simp [setX, setReg, knownRegs]
  · simp [setX, setReg, knownRegs, update_of_ne same]

/-- A word that fits in no bit is zero. -/
theorem eq_zero_of_fits {u : Word} (fits : Fits 0 u) : u = 0#64 :=
  BitVec.eq_of_getLsbD_eq fun i _ => by simp [fits i (Nat.zero_le i)]

/-- A word inside the mask misses a bit of it exactly when it is not the mask. -/
theorem not_and_xmask_eq_zero {w : Nat} {u : Word} (fits : Fits w u) :
    ~~~u &&& xmask w = 0#64 ↔ u = xmask w := by
  constructor
  · intro none
    refine BitVec.eq_of_getLsbD_eq fun i inside => ?_
    have bit : (~~~u &&& xmask w).getLsbD i = false := by rw [none]; simp
    rw [BitVec.getLsbD_and, BitVec.getLsbD_not, getLsbD_xmask] at bit
    rw [getLsbD_xmask]
    by_cases below : i < w
    · simpa [below, inside] using bit
    · simp [fits i (by omega), below]
  · rintro rfl
    simp

/-- Joining known parts that together fit in a word joins their words. -/
theorem concatPartsX_known {r : Regs} {parts : List (Nat × Nat)}
    (total : (parts.map Prod.snd).sum ≤ 64) (fits : ∀ p ∈ parts, Fits p.2 (r p.1)) :
    concatPartsX (knownRegs r) parts = known (concatParts r parts) := by
  cases parts with
  | nil => rfl
  | cons first rest =>
    -- A part of a full word follows only parts of no bits, so what it replaces is zero.
    have general : ∀ (rest : List (Nat × Nat)) (acc : Word) (w : Nat), Fits w acc →
        w + (rest.map Prod.snd).sum ≤ 64 → (∀ p ∈ rest, Fits p.2 (r p.1)) →
        rest.foldl (fun acc p =>
            if p.2 ≥ 64 then knownRegs r p.1
            else ⟨shl acc.v p.2 ||| (knownRegs r p.1).v, shl acc.x p.2 ||| (knownRegs r p.1).x⟩)
          (known acc) =
        known (rest.foldl (fun acc p => shl acc p.2 ||| r p.1) acc) := by
      intro rest
      induction rest with
      | nil => intro acc w _ _ _; rfl
      | cons p rest ih =>
        intro acc w accFits room restFits
        rw [List.map_cons, List.sum_cons] at room
        have joined : Fits (w + p.2) (shl acc p.2 ||| r p.1) :=
          fits_or (fits_shl accFits p.2) ((restFits p (by simp)).mono (by omega))
        have step : (if p.2 ≥ 64 then knownRegs r p.1
            else ⟨shl (known acc).v p.2 ||| (knownRegs r p.1).v,
              shl (known acc).x p.2 ||| (knownRegs r p.1).x⟩) =
            known (shl acc p.2 ||| r p.1) := by
          split
          · have empty : w = 0 := by omega
            subst empty
            simp [eq_zero_of_fits accFits]
          · simp
        rw [List.foldl_cons, List.foldl_cons, step]
        exact ih _ _ joined (by omega) fun q member => restFits q (by simp [member])
    exact general rest (r first.1) first.2 (fits first (by simp))
      (by rw [List.map_cons, List.sum_cons] at total; exact total)
      fun p member => fits p (by simp [member])

end Xezim
