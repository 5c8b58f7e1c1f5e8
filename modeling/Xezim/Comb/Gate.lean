import Xezim.Comb.Item
import Xezim.Vm.Ops

/-! One-bit gates on 4-state codes, as the serial evaluator computes them. -/

namespace Xezim.Comb

/-- The bit accessors of a value beyond those of the interpreter; a code is 0, 1, 2 for x or 3 for z. -/
class GateOps extends VmOps where
  /-- `Value::get_bit_code`. -/
  getBitCode : Value → Nat → Nat
  /-- `Value::set_bit_code`: the value after, and whether it changed. -/
  setBitCode : Value → Nat → Nat → Value × Bool
  /-- `Value::set_scalar_code`: the same on a one-bit value. -/
  setScalarCode : Value → Nat → Value × Bool

/-- The code of a bit of both planes. -/
def planeCode (v : Value) (i : Nat) : Nat := (v.val.testBit i).toNat + 2 * (v.xz.testBit i).toNat

/-- The documented behaviour of the accessors. -/
class LawfulGateOps [GateOps] : Prop extends LawfulVmOps where
  getBitCode_eq (v : Value) (i : Nat) (inside : i < v.width) : GateOps.getBitCode v i = planeCode v i
  setBitCode_eq (v : Value) (i c : Nat) (inside : i < v.width) (code : c < 4) :
    (GateOps.setBitCode v i c).1 = v.write i 1 (c % 2) (c / 2)
  setBitCode_changed (v : Value) (i c : Nat) :
    (GateOps.setBitCode v i c).2 = decide ((GateOps.setBitCode v i c).1 ≠ v)
  setScalarCode_eq (v : Value) (c : Nat) (one : v.width = 1) :
    GateOps.setScalarCode v c = GateOps.setBitCode v 0 c

/-- `and4`. -/
def and4 (a b : Nat) : Nat := if a = 0 ∨ b = 0 then 0 else if a = 1 ∧ b = 1 then 1 else 2

/-- `or4`. -/
def or4 (a b : Nat) : Nat := if a = 1 ∨ b = 1 then 1 else if a = 0 ∧ b = 0 then 0 else 2

/-- `xor4`. -/
def xor4 (a b : Nat) : Nat :=
  if a = 0 ∧ b = 0 ∨ a = 1 ∧ b = 1 then 0 else if a = 0 ∧ b = 1 ∨ a = 1 ∧ b = 0 then 1 else 2

/-- `not4`. -/
def not4 (a : Nat) : Nat := if a = 0 then 1 else if a = 1 then 0 else 2

/-- The two-input gates. -/
def GateBin.eval : GateBin → Nat → Nat → Nat
  | and => and4
  | or => or4
  | xor => xor4

/-- The conditional gate: an ambiguous select merges the branches. -/
def mux4 (s t e : Nat) : Nat := if s = 0 then e else if s = 1 then t else if t = e ∧ t < 2 then t else 2

/-- The loop over the inputs of a table gate: the index so far and the weight of the next input. -/
def lutIndex (codes : List Nat) : Nat :=
  (codes.foldl (fun acc code => (acc.1 + min code 2 * acc.2, acc.2 * 3)) (0, 1)).1

/-- The signals an evaluation sees. -/
abbrev View := Nat → Value

section Serial

variable [GateOps] (view : View) (gateDriven : Nat → Bool)

/-- The code of a bit of the view. -/
def codeAt (b : BitRef) : Nat := GateOps.getBitCode (view b.sigId) b.bit

/-- The code a table gate holds for its inputs. -/
def lutCode (inputs : Fin 3 → BitRef) (inputCount : Nat) (table : BitVec 64) : Nat :=
  (table >>> (lutIndex (((List.ofFn inputs).take inputCount).map (codeAt view)) * 2) &&& 3).toNat

/-- `fused_gate_eval`. -/
def fusedGateEval : FusedGate → BitRef × Nat
  | .buf1 dst src invert =>
    let s := codeAt view src
    (dst, if invert then not4 s else if s = 3 ∧ gateDriven dst.sigId then 2 else s)
  | .bin2 dst a b op invert =>
    let r := op.eval (codeAt view a) (codeAt view b)
    (dst, if invert then not4 r else r)
  | .mux2 dst s t e => (dst, mux4 (codeAt view s) (codeAt view t) (codeAt view e))
  | .udpLut3 dst inputs inputCount table => (dst, lutCode view inputs inputCount table)

/-- `fused_buf_src_bit`. -/
def fusedBufSrcBit (src : BitRef) (invert : Bool) : Nat :=
  let source := codeAt view src
  if invert then not4 source else source

/-- `fused_buf_dst_bit`. -/
def fusedBufDstBit (dst : BitRef) (newBit : Nat) (invert : Bool) : Nat :=
  if !invert ∧ newBit = 3 ∧ gateDriven dst.sigId then 2 else newBit

/-- `fused_and_branch_bit`. -/
def fusedAndBranchBit (commonCode : Nat) (branch : FusedAndBranch) (invert : Bool) : Nat :=
  let other := codeAt view branch.other
  let and := if commonCode = 0 ∨ other = 0 then 0 else if commonCode = 1 ∧ other = 1 then 1 else 2
  if invert then (if and = 0 then 1 else if and = 1 then 0 else 2) else and

end Serial

end Xezim.Comb
