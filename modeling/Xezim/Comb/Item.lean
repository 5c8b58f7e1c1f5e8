import Xezim.Udp.Eval

/-! The combinational entries that copy signals or evaluate one-bit gates. -/

namespace Xezim.Comb

/-- `GateBin`. -/
inductive GateBin
  | and
  | or
  | xor
  deriving DecidableEq, Repr

/-- `FusedGate`: a gate with one destination bit. -/
inductive FusedGate
  /-- `dst = src`, inverted or not. -/
  | buf1 (dst src : BitRef) (invert : Bool)
  /-- `dst = a op b`, inverted or not. -/
  | bin2 (dst a b : BitRef) (op : GateBin) (invert : Bool)
  /-- `dst = s ? t : e`. -/
  | mux2 (dst s t e : BitRef)
  /-- A primitive of at most three inputs as a table of two-bit codes. -/
  | udpLut3 (dst : BitRef) (inputs : Fin 3 → BitRef) (inputCount : Nat) (table : BitVec 64)

/-- `FusedAndBranch`. -/
structure FusedAndBranch where
  dst : BitRef
  other : BitRef

/-- `CombItem`, the compiled, interpreted and batched items left out. -/
inductive CombItem
  | noop
  | fastDirectCopy (dst src : Nat)
  | fastDirectFanout (src : Nat) (dsts : List Nat)
  | directCopy (dst src width : Nat)
  | fusedGate (op : FusedGate)
  | fusedBufFanout (src : BitRef) (dsts : List BitRef) (invert : Bool)
  | fusedAndFanout (common : BitRef) (branches : List FusedAndBranch) (invert : Bool)
  | other

namespace FusedGate

/-- The bit a gate drives. -/
def dst : FusedGate → BitRef
  | buf1 dst _ _ => dst
  | bin2 dst _ _ _ _ => dst
  | mux2 dst _ _ _ => dst
  | udpLut3 dst _ _ _ => dst

end FusedGate

namespace CombItem

/-- The signals an item drives, one a destination. -/
def dstIds : CombItem → List Nat
  | fastDirectCopy dst _ => [dst]
  | fastDirectFanout _ dsts => dsts
  | directCopy dst _ _ => [dst]
  | fusedGate op => [op.dst.sigId]
  | fusedBufFanout _ dsts _ => dsts.map BitRef.sigId
  | fusedAndFanout _ branches _ => branches.map fun b => b.dst.sigId
  | noop | other => []

end CombItem

/-- `CombEntry`: an item with the signals it writes, every destination among them. -/
structure CombEntry where
  item : CombItem
  writeSignalIds : List Nat
  writes : ∀ d, item.dstIds.count d ≤ writeSignalIds.count d

end Xezim.Comb
