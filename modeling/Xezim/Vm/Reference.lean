import Xezim.Reference
import Xezim.Vm.NbaOps

/-! Reference value methods of the bytecode interpreter, on which runs of it can be computed. -/

namespace Xezim

open Splice

/-- A plane brought from one width to another, all ones or all zeros above the old one. -/
def resizePlane (ext : Bool) (old new a : Nat) : Nat :=
  a % 2 ^ min old new ||| (if ext then ones (new - old) <<< old else 0)

/-- The bits of a resized plane. -/
theorem testBit_resizePlane (ext : Bool) (old new a i : Nat) :
    (resizePlane ext old new a).testBit i = (decide (i < new) && if i < old then a.testBit i else ext) := by
  have bits : (a % 2 ^ min old new).testBit i = (decide (i < old) && decide (i < new) && a.testBit i) := by
    rw [Nat.testBit_mod_two_pow, ← Bool.decide_and]
    simp only [Nat.lt_min]
  unfold resizePlane
  rw [Nat.testBit_or, bits]
  by_cases low : i < old
  · -- The extension starts above.
    have above : (if ext = true then ones (new - old) <<< old else 0).testBit i = false := by
      split
      · rw [Nat.testBit_shiftLeft, decide_eq_false (by omega), Bool.false_and]
      · exact Nat.zero_testBit i
    rw [above]
    simp [low]
  · cases ext with
    | false => simp [low]
    | true => simp [low, Nat.testBit_shiftLeft, show old ≤ i by omega, show i - old < new - old ↔ i < new by omega]

/-- A value with its planes brought to a width, the bits above the old one given; a fill literal repeats its
bit. -/
def extendValue (v : Value) (w : Nat) (val xz : Bool) : Value :=
  if v.isFill then
    { v with width := w, val := fillPlane (v.val % 2) w, xz := fillPlane (v.xz % 2) w, isFill := false }
  else if v.width = w then v
  else { v with width := w, val := resizePlane val v.width w v.val, xz := resizePlane xz v.width w v.xz }

/-- `Value::resize` on the planes: only a known sign is repeated. -/
def resizeValue (v : Value) (w : Nat) : Value := extendValue v w (v.signOf v.val && !v.signOf v.xz) false

/-- `Value::resize_for_assign` on the planes: any sign bit is repeated. -/
def assignedValue (v : Value) (w : Nat) : Value := extendValue v w (v.signOf v.val) (v.signOf v.xz)

/-- An extended value has the asked width. -/
theorem extendValue_width (v : Value) (w : Nat) (val xz : Bool) : (extendValue v w val xz).width = w := by
  unfold extendValue
  split
  · rfl
  · split
    · assumption
    · rfl

/-- An extended bit vector is one, and no fill. -/
theorem extendValue_bits (v : Value) (w : Nat) (val xz : Bool) (bits : v.isReal = false) :
    (extendValue v w val xz).isReal = false ∧ (extendValue v w val xz).isFill = false := by
  unfold extendValue
  split
  · exact ⟨bits, rfl⟩
  · rename_i sized
    split
    · exact ⟨bits, by simpa using sized⟩
    · exact ⟨bits, by simpa using sized⟩

/-- An extended value has the bits described. -/
theorem extendValue_widens {v : Value} {w : Nat} (val xz : Bool) (sized : v.isFill = false) (differ : v.width ≠ w) :
    v.Widens w val xz (extendValue v w val xz) := by
  unfold extendValue
  rw [if_neg (by simp [sized]), if_neg differ]
  exact ⟨⟨rfl, rfl, rfl, rfl⟩, fun i => ⟨testBit_resizePlane _ _ _ _ _, testBit_resizePlane _ _ _ _ _⟩⟩

/-- A value of the width asked for is left as it is. -/
theorem extendValue_self {v : Value} (val xz : Bool) (sized : v.isFill = false) :
    extendValue v v.width val xz = v := by
  unfold extendValue
  rw [if_neg (by simp [sized]), if_pos rfl]

/-- Extending keeps the bits below both widths. -/
theorem extendValue_low {v : Value} {w i : Nat} (val xz : Bool) (sized : v.isFill = false)
    (here : i < w ∧ i < v.width) :
    (extendValue v w val xz).val.testBit i = v.val.testBit i ∧
      (extendValue v w val xz).xz.testBit i = v.xz.testBit i := by
  by_cases same : v.width = w
  · subst same
    rw [extendValue_self val xz sized]
    exact ⟨rfl, rfl⟩
  · simpa [here] using (extendValue_widens val xz sized same).2 i

/-- The value methods of the interpreter written directly on the planes. Real numbers, which no run
below holds, keep their encoding. -/
@[reducible] def referenceVmOps : VmOps where
  toValueOps := referenceOps
  resize := resizeValue
  resizeForAssign := assignedValue
  shiftRight v k := { v with val := v.val >>> k.val, xz := v.xz >>> k.val }
  copyBitsFrom v lo src srcLo n :=
    let copied := v.write lo n (src.val >>> srcLo) (src.xz >>> srcLo)
    (copied, decide (copied ≠ v))
  getBit v i := if i < v.width then (v.val.testBit i, v.xz.testBit i) else (false, true)
  setBit v i b := v.write i 1 b.1.toNat b.2.toNat
  toTwoState v := { v with val := v.val ^^^ (v.val &&& v.xz), xz := 0 }
  toIndex v :=
    if v.xz ≠ 0 then none
    else if v.isSigned ∧ v.val.testBit (v.width - 1) then some (v.val - 2 ^ v.width)
    else some v.val
  toWordRead := referenceWordRead
  realOf v := { v with isReal := true }
  intOfReal v w := { resizeValue v w with isReal := false }
  fromWords words w := ⟨w, wordsPlane words % 2 ^ w, 0, false, false, false⟩
  setWords v words :=
    let written := { v with val := wordsPlane words % 2 ^ v.width, xz := 0 }
    (written, decide (written ≠ v))

section Samples

attribute [local instance] referenceVmOps

/-- The reference methods behave as documented. -/
theorem referenceVmOps_lawful : LawfulVmOps where
  toLawfulValueOps := referenceOps_lawful
  resize_width v w := extendValue_width v w _ _
  resizeForAssign_width v w := extendValue_width v w _ _
  resizeForAssign_low v w i bits here := extendValue_low _ _ bits.2 here
  resize_bits v w bits := extendValue_bits v w _ _ bits
  resizeForAssign_bits v w bits := extendValue_bits v w _ _ bits
  shiftRight_bits _ _ bits := bits
  fromInline_bits _ _ _ := ⟨rfl, rfl⟩
  fromU64_bits _ _ := ⟨rfl, rfl⟩
  new_bits _ := ⟨rfl, rfl⟩
  copyBitsFrom_eq _ _ _ _ _ := rfl
  getBit_eq v i inside := by simp [VmOps.getBit, inside]
  setBit_eq _ _ _ := rfl
  toTwoState_eq v := by
    refine ⟨rfl, rfl, fun i => ?_⟩
    simp only [VmOps.toTwoState, Nat.testBit_xor, Nat.testBit_and]
    cases v.val.testBit i <;> cases v.xz.testBit i <;> rfl

/-- The reference resizes differ as documented. -/
theorem referenceVmOps_resize : LawfulResize where
  resize_widens _ _ bits differ := extendValue_widens _ _ bits.2 differ
  resizeForAssign_widens _ _ bits differ := extendValue_widens _ _ bits.2 differ
  resizeForAssign_self _ bits := extendValue_self _ _ bits.2

/-- A design of four-bit unsigned four-state vectors. -/
def fourBitDesign : VmDesign where
  signalWidths _ := 4
  signalSigned _ := false
  signalTwoState _ := false

/-- The literals of a four-bit value. -/
instance neZero_sixteen : NeZero 16 := ⟨by decide⟩

/-- A known four-bit value. -/
def fourBit (n : Fin 16) : Value := ⟨4, n, 0, false, false, false⟩

/-- A simulator of four-bit signals with nothing queued and nothing forced. -/
def fourBitSim (t : Nat → Fin 16) : VmSim where
  toSim := freshSim fun id => fourBit (t id)
  packed _ := (0#64, 0#64)
  packedNba := []
  forced _ := false

/-- The four-bit design declares widths as a design stores them. -/
theorem fourBitDesign_ok : fourBitDesign.Ok :=
  ⟨fun _ => show 4 < 2 ^ 32 by decide, fun _ => show 1 ≤ 1 ∧ 1 ≤ 64 by decide⟩

/-- A simulator of four-bit signals is sound. -/
theorem fourBitSim_ok (t : Nat → Fin 16) : (fourBitSim t).Ok fourBitDesign where
  tables :=
    { width := fun _ => rfl
      fits := fun id => ⟨(t id).isLt, Nat.two_pow_pos _⟩
      plain := fun _ _ => ⟨rfl, rfl⟩
      known := fun _ two => by cases two
      cut := fun _ => by simp [packedSetRaw, fourBitSim, fourBitDesign] }
  queue := ⟨KeyedLog.wellIndexed_empty, fun _ => rfl⟩
  plain _ _ := ⟨rfl, rfl⟩
  once := List.nodup_nil

end Samples

end Xezim
