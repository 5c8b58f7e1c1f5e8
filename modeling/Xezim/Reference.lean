import Xezim.TwoState.QueueLaws

/-! Reference value methods and a fresh simulator, on which runs of the model can be computed. -/

namespace Xezim

open Splice

/-- The value methods written directly on the planes. -/
@[reducible] def referenceOps : ValueOps where
  rawBits v := v.planes
  setInlineBits v a x := if v.width ≤ 64 then some { v with val := a.toNat, xz := x.toNat } else none
  fromInline a x w := ⟨w, a.toNat, x.toNat, false, false, false⟩
  fromU64 a w := ⟨w, a.toNat % 2 ^ w, 0, false, false, false⟩
  new w := ⟨w, 0, ones w, false, false, false⟩
  spliceBits64 v lo a x n :=
    (v.write lo n a.toNat x.toNat, decide (v.write lo n a.toNat x.toNat ≠ v))
  sliceBitsSwar v lo n := (BitVec.ofNat 64 (window v.val lo n), BitVec.ofNat 64 (window v.xz lo n))

/-- The low word of the known bits. -/
@[reducible] def referenceWordRead : WordRead where
  toU64 v := some ((v.val ^^^ (v.val &&& v.xz)) % 2 ^ 64)

section Samples

attribute [local instance] referenceOps referenceWordRead

/-- The reference reading behaves as documented. -/
theorem referenceWordRead_lawful : LawfulWordRead where
  toU64_known v known _ := by simp [WordRead.toU64, known]

/-- The reference methods behave as documented. -/
theorem referenceOps_lawful : LawfulValueOps where
  rawBits_eq _ := rfl
  setInlineBits_narrow v a x narrow := by simp [ValueOps.setInlineBits, narrow]
  setInlineBits_wide v a x wide := by simp [ValueOps.setInlineBits, wide]
  fromInline_width _ _ _ := rfl
  fromInline_planes _ _ _ _ := ⟨rfl, rfl⟩
  fromU64_width _ _ := rfl
  fromU64_planes _ _ fits := ⟨Nat.mod_eq_of_lt fits, rfl⟩
  new_planes _ := ⟨rfl, rfl, rfl⟩
  splice_planes _ _ _ _ _ _ := rfl
  slice_planes _ _ _ _ _ := rfl

end Samples

/-- A simulator with the given signal table and nothing queued. -/
def freshSim (t : Nat → Value) : Sim := ⟨t, KeyedLog.empty, [], fun _ => 0⟩

/-- A fresh simulator is sound when its table is. -/
theorem freshSim_ok {D : Design} {t : Nat → Value}
    (entry : ∀ id, (t id).width = D.signalWidths id ∧ (t id).Fits) : (freshSim t).Ok D where
  entries id := ⟨(entry id).1, (entry id).2⟩
  queue := ⟨KeyedLog.wellIndexed_empty, fun id => (entry id).1⟩

/-- A design of two-bit unsigned four-state signals. -/
def twoBitDesign : Design := ⟨fun _ => 2, fun _ => false, fun _ => false⟩

/-- The literals of a two-bit value. -/
instance neZero_four : NeZero 4 := ⟨by decide⟩

/-- A known two-bit value. -/
def twoBit (n : Fin 4) : Value := ⟨2, n, 0, false, false, false⟩

/-- A table of known two-bit values is sound. -/
theorem freshSim_twoBit_ok (f : Nat → Fin 4) :
    (freshSim fun id => twoBit (f id)).Ok twoBitDesign :=
  freshSim_ok fun id => ⟨rfl, (f id).isLt, Nat.two_pow_pos _⟩

/-- The configuration a completed run ends in. -/
def Halt.final {ρ : Type} : Halt ρ → Option (Cfg ρ)
  | .done c => some c
  | _ => none

/-- The final configuration is the one the run is done with. -/
theorem Halt.final_eq_some {ρ : Type} {h : Halt ρ} {c : Cfg ρ} : h.final = some c ↔ h = .done c := by
  cases h <;> simp [Halt.final]

end Xezim
