import Xezim.TwoState.Store

/-! What the bytecode interpreter adds to the simulator, and the value methods it calls. -/

namespace Xezim

open Splice

/-- One bit of a value in both planes. -/
abbrev LogicBit := Bool × Bool

/-- The value methods the bytecode interpreter calls beyond the executors' ones. -/
class VmOps extends ValueOps, WordRead where
  /-- `Value::resize`. -/
  resize : Value → Nat → Value
  /-- `Value::resize_for_assign`. -/
  resizeForAssign : Value → Nat → Value
  /-- `Value::shift_right` by a number of bits. -/
  shiftRight : Value → Value → Value
  /-- `Value::copy_bits_from`: overwrite a window by a window of another value. -/
  copyBitsFrom : Value → Nat → Value → Nat → Nat → Value × Bool
  /-- `Value::get_bit`. -/
  getBit : Value → Nat → LogicBit
  /-- `Value::set_bit`. -/
  setBit : Value → Nat → LogicBit → Value
  /-- `Value::to_two_state`: every x and z bit becomes zero. -/
  toTwoState : Value → Value
  /-- `Value::to_index`: the number a known value stands for, with its sign. -/
  toIndex : Value → Option Int
  /-- `Value::from_f64` of `Value::to_f64`. -/
  realOf : Value → Value
  /-- `real_to_int` of `Value::to_f64` at a width. -/
  intOfReal : Value → Nat → Value
  /-- `Value::from_words`: a known value of the given width from its words, lowest first. -/
  fromWords : List Word → Nat → Value
  /-- `Value::set_words`: overwrite a value by known words and say whether a bit moved. -/
  setWords : Value → List Word → Value × Bool

/-- The documented behaviour of those methods. -/
class LawfulVmOps [VmOps] : Prop extends LawfulValueOps where
  resize_width (v : Value) (w : Nat) : (VmOps.resize v w).width = w
  resizeForAssign_width (v : Value) (w : Nat) : (VmOps.resizeForAssign v w).width = w
  resizeForAssign_low (v : Value) (w i : Nat) (bits : v.isReal = false ∧ v.isFill = false)
    (here : i < w ∧ i < v.width) :
    (VmOps.resizeForAssign v w).val.testBit i = v.val.testBit i ∧
      (VmOps.resizeForAssign v w).xz.testBit i = v.xz.testBit i
  resize_bits (v : Value) (w : Nat) (bits : v.isReal = false) :
    (VmOps.resize v w).isReal = false ∧ (VmOps.resize v w).isFill = false
  resizeForAssign_bits (v : Value) (w : Nat) (bits : v.isReal = false) :
    (VmOps.resizeForAssign v w).isReal = false ∧ (VmOps.resizeForAssign v w).isFill = false
  shiftRight_bits (v k : Value) (bits : v.isReal = false) : (VmOps.shiftRight v k).isReal = false
  fromInline_bits (a x : Word) (w : Nat) :
    (ValueOps.fromInline a x w).isReal = false ∧ (ValueOps.fromInline a x w).isFill = false
  fromU64_bits (a : Word) (w : Nat) :
    (ValueOps.fromU64 a w).isReal = false ∧ (ValueOps.fromU64 a w).isFill = false
  new_bits (w : Nat) : (ValueOps.new w).isReal = false ∧ (ValueOps.new w).isFill = false
  copyBitsFrom_eq (v src : Value) (lo n : Nat) (inside : n ≤ src.width) :
    VmOps.copyBitsFrom v lo src 0 n =
      (v.write lo n src.val src.xz, decide (v.write lo n src.val src.xz ≠ v))
  getBit_eq (v : Value) (i : Nat) (inside : i < v.width) :
    VmOps.getBit v i = (v.val.testBit i, v.xz.testBit i)
  setBit_eq (v : Value) (i : Nat) (b : LogicBit) :
    VmOps.setBit v i b = v.write i 1 b.1.toNat b.2.toNat
  toTwoState_eq (v : Value) :
    (VmOps.toTwoState v).width = v.width ∧ (VmOps.toTwoState v).xz = 0 ∧
      ∀ i, (VmOps.toTwoState v).val.testBit i = (v.val.testBit i && !v.xz.testBit i)

/-- The top bit of a plane of a signed value. -/
def Value.signOf (v : Value) (plane : Nat) : Bool :=
  v.isSigned && decide (0 < v.width) && plane.testBit (v.width - 1)

/-- The bits of `v` at another width: the low ones as they are, those above them all `val` and `xz`. -/
def Value.Widens (v : Value) (w : Nat) (val xz : Bool) (r : Value) : Prop :=
  (r.width = w ∧ r.isSigned = v.isSigned ∧ r.isReal = v.isReal ∧ r.isFill = v.isFill) ∧
    ∀ i, r.val.testBit i = (decide (i < w) && if i < v.width then v.val.testBit i else val) ∧
      r.xz.testBit i = (decide (i < w) && if i < v.width then v.xz.testBit i else xz)

/-- How the two resizes differ: a signed value repeats its top bit, but `resize` only a known one, while an x or z
sign replicates in `resize_for_assign`. -/
class LawfulResize [VmOps] : Prop where
  resize_widens (v : Value) (w : Nat) (bits : v.isReal = false ∧ v.isFill = false) (differ : v.width ≠ w) :
    v.Widens w (v.signOf v.val && !v.signOf v.xz) false (VmOps.resize v w)
  resizeForAssign_widens (v : Value) (w : Nat) (bits : v.isReal = false ∧ v.isFill = false) (differ : v.width ≠ w) :
    v.Widens w (v.signOf v.val) (v.signOf v.xz) (VmOps.resizeForAssign v w)
  resizeForAssign_self (v : Value) (bits : v.isReal = false ∧ v.isFill = false) :
    VmOps.resizeForAssign v v.width = v

/-- The declarations of the design that the bytecode interpreter consults. -/
structure VmDesign extends Design where
  /-- `signal_real`. -/
  signalReal : Nat → Bool := fun _ => false
  /-- `signal_is_string`. -/
  signalIsString : Nat → Bool := fun _ => false
  /-- Element width of the packed memory a cell belongs to. -/
  packedWidth : Nat → Nat := fun _ => 1
  /-- The packed memory a cell belongs to holds no x and z. -/
  packedTwoState : Nat → Bool := fun _ => false
  /-- `oob_select_whole`: a write that leaves its signal is dropped as a whole. -/
  oobSelectWhole : Bool := false

/-- The first id of a cell of packed memory. -/
def packedBase : Nat := 2 ^ 48

/-- An id names a cell of packed memory. -/
def isPackedId (id : Nat) : Bool := decide (packedBase ≤ id)

/-- The simulator with its packed memories. -/
@[ext]
structure VmSim extends Sim where
  /-- Both planes of every packed cell. -/
  packed : Nat → Word × Word
  /-- `packed_nba`: the queued values of packed cells. -/
  packedNba : List (Nat × Word × Word)
  /-- `forced_signals` and the forced packed cells. -/
  forced : Nat → Bool

end Xezim
