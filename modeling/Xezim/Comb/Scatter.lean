import Xezim.Comb.Commit

/-! Gates that share their inputs, evaluated together and committed one destination at a time. -/

namespace Xezim.Comb

/-- `VectorRef`: bits of a signal from `lo` on. -/
structure VectorRef where
  sigId : Nat
  lo : Nat

namespace VectorRef

/-- One of its bits. -/
def lane (r : VectorRef) (i : Nat) : BitRef := { sigId := r.sigId, bit := r.lo + i }

end VectorRef

/-- `ScatterGate`: a gate on adjoining source bits whose destinations are one-bit signals. -/
inductive ScatterGate
  | buf (dsts : List Nat) (src : VectorRef) (width : Nat) (invert : Bool)
  | bin (dsts : List Nat) (a b : VectorRef) (width : Nat) (op : GateBin) (invert : Bool)

namespace ScatterGate

/-- The signals it drives, lowest lane first. -/
def dsts : ScatterGate → List Nat
  | buf dsts _ _ _ => dsts
  | bin dsts _ _ _ _ _ => dsts

/-- Its number of lanes. -/
def width : ScatterGate → Nat
  | buf _ _ width _ => width
  | bin _ _ _ width _ _ => width

/-- What it reads. -/
def sources : ScatterGate → List VectorRef
  | buf _ src _ _ => [src]
  | bin _ a b _ _ _ => [a, b]

/-- It copies its source lanes as they are. -/
def copies : ScatterGate → Bool
  | buf _ _ _ invert => !invert
  | bin .. => false

/-- The single gate of a lane. -/
def gate (op : ScatterGate) (lane dst : Nat) : FusedGate :=
  match op with
  | buf _ src _ invert => .buf1 { sigId := dst, bit := 0 } (src.lane lane) invert
  | bin _ a b _ op invert => .bin2 { sigId := dst, bit := 0 } (a.lane lane) (b.lane lane) op invert

end ScatterGate

/-- The planes of a two-input gate, both operands and the result masked to the lanes. -/
def GateBin.planes (op : GateBin) (mask av ax bv bx : Word) : Word × Word :=
  match op with
  | .and =>
    let one := (av &&& ~~~ax) &&& (bv &&& ~~~bx)
    let zero := (~~~av &&& ~~~ax) ||| (~~~bv &&& ~~~bx)
    (one &&& mask, ~~~(one ||| zero) &&& mask)
  | .or =>
    let one := (av &&& ~~~ax) ||| (bv &&& ~~~bx)
    let zero := (~~~av &&& ~~~ax) &&& (~~~bv &&& ~~~bx)
    (one &&& mask, ~~~(one ||| zero) &&& mask)
  | .xor =>
    let unknown := (ax ||| bx) &&& mask
    ((av ^^^ bv) &&& ~~~unknown &&& mask, unknown)

/-- The mask of `width` lanes. -/
def laneMask (width : Nat) : Word := if width = 64 then BitVec.allOnes 64 else (1 : Word) <<< width - 1

/-- The code of one lane of both planes. -/
def laneBit (val xz : Word) (lane : Nat) : Nat :=
  ((val >>> lane &&& (1 : Word)) ||| ((xz >>> lane &&& (1 : Word)) <<< 1)).toNat

section Serial

variable [GateOps] (view : View) (gateDriven : Nat → Bool)

/-- `vector_ref_bits`. -/
def vectorRefBits (src : VectorRef) (width : Nat) : Word × Word :=
  ValueOps.sliceBitsSwar (view src.sigId) src.lo width

/-- `scatter_gate_eval`. -/
def scatterGateEval : ScatterGate → Word × Word
  | .buf _ src width invert =>
    let (v, x) := vectorRefBits view src width
    (if invert then ~~~v &&& ~~~x &&& laneMask width else v, x)
  | .bin _ a b width op invert =>
    let (av, ax) := vectorRefBits view a width
    let (bv, bx) := vectorRefBits view b width
    let (rv, rx) := op.planes (laneMask width) av ax bv bx
    (if invert then ~~~rv &&& ~~~rx &&& laneMask width else rv, rx)

end Serial

section Runs

variable [GateOps] {α : Type}

/-- The loop over the destinations of an entry: the bit of each is found and committed in turn. With the simulator
after, the signals given to `mark_dirty_id`. -/
def commitEach (bitOf : CommitSim → α → BitRef × Nat) (commit : CommitSim → BitRef → Nat → CommitSim × Bool) :
    List α → CommitSim → CommitSim × List Nat
  | [], s => (s, [])
  | a :: rest, s =>
    let (dst, newBit) := bitOf s a
    let (next, changed) := commit s dst newBit
    let (last, marked) := commitEach bitOf commit rest next
    (last, if changed then dst.sigId :: marked else marked)

/-- `exec_fused_gate` on every gate of a list. -/
def execFusedGates (gateDriven : Nat → Bool) (gates : List FusedGate) (s : CommitSim) : CommitSim × List Nat :=
  commitEach (fun s op => fusedGateEval s.signalTable gateDriven op)
    (fun s dst newBit => s.fusedBitCommit dst newBit (s.sdfDelays ≠ [])) gates s

/-- `exec_scatter_gate`. -/
def execScatterGate (op : ScatterGate) (s : CommitSim) : CommitSim × List Nat :=
  let (val, xz) := scatterGateEval s.signalTable op
  let sdfAny : Bool := s.sdfDelays ≠ []
  let bit := fun (_ : CommitSim) (l : Nat × Nat) => (({ sigId := l.1, bit := 0 } : BitRef), laneBit val xz l.2)
  match s.fusedBatchCommitState with
  | some (edgeActive, armedActive) =>
    commitEach bit (fun s dst newBit => s.fusedScalarCommitPlanned dst.sigId newBit sdfAny edgeActive armedActive)
      op.dsts.zipIdx s
  | none => commitEach bit (fun s dst newBit => s.fusedBitCommit dst newBit sdfAny) op.dsts.zipIdx s

/-- `exec_fused_buf_fanout`. -/
def execFusedBufFanout (gateDriven : Nat → Bool) (src : BitRef) (dsts : List BitRef) (invert : Bool)
    (s : CommitSim) : CommitSim × List Nat :=
  let newBit := fusedBufSrcBit s.signalTable src invert
  let sdfAny : Bool := s.sdfDelays ≠ []
  commitEach (fun _ dst => (dst, fusedBufDstBit gateDriven dst newBit invert))
    (fun s dst newBit => s.fusedBitCommit dst newBit sdfAny) dsts s

/-- `exec_fused_and_fanout`. -/
def execFusedAndFanout (common : BitRef) (branches : List FusedAndBranch) (invert : Bool) (s : CommitSim) :
    CommitSim × List Nat :=
  let commonCode := codeAt s.signalTable common
  let sdfAny : Bool := s.sdfDelays ≠ []
  commitEach (fun s branch => (branch.dst, fusedAndBranchBit s.signalTable commonCode branch invert))
    (fun s dst newBit => s.fusedBitCommit dst newBit sdfAny) branches s

end Runs

/-- The entries that drive several gates at once. -/
inductive GateBatch
  | scatter (op : ScatterGate)
  | bufFanout (src : BitRef) (dsts : List BitRef) (invert : Bool)
  | andFanout (common : BitRef) (branches : List FusedAndBranch) (invert : Bool)

namespace GateBatch

/-- The single gates an entry stands for, in the order of its destinations. -/
def gates : GateBatch → List FusedGate
  | scatter op => op.dsts.zipIdx.map fun l => op.gate l.2 l.1
  | bufFanout src dsts invert => dsts.map fun dst => .buf1 dst src invert
  | andFanout common branches invert => branches.map fun b => .bin2 b.dst common b.other .and invert

variable [GateOps]

/-- What the evaluator does with an entry. -/
def exec (gateDriven : Nat → Bool) : GateBatch → CommitSim → CommitSim × List Nat
  | scatter op => execScatterGate op
  | bufFanout src dsts invert => execFusedBufFanout gateDriven src dsts invert
  | andFanout common branches invert => execFusedAndFanout common branches invert

end GateBatch

end Xezim.Comb
