import Xezim.Arrays.Operand

/-! The array arms of the bytecode interpreter and of its isolated sibling. -/

namespace Xezim.Arrays

open Function

section Arms

variable [VmOps] (D : ArrayDesign)

/-- The index a load resolves: an unknown one becomes a number meant to lie below every array. -/
def loadIndex (idxV : Value) : Int :=
  if idxV.xz ≠ 0 then -2 ^ 63 else (BitVec.ofNat 64 ((WordRead.toU64 idxV).getD 0)).toInt

/-- The element a store resolves, none for an unknown index. -/
def writtenElem (array : ArrayOperand) (idxV : Value) : Option Nat :=
  (VmOps.toIndex idxV).bind (resolveBytecodeArrayElem D array)

/-- `vm_store`: the register left by a result of one word in each plane. -/
def vmStore (val xz : Word) (width : Nat) (signed : Bool) : Value :=
  if width > 64 then
    { (List.range 64).foldl (fun v i => VmOps.setBit v i (val.getLsbD i, xz.getLsbD i)) (ValueOps.new width) with
      isSigned := signed }
  else { ValueOps.fromInline val xz width with isSigned := signed }

/-- What a register receives of an element. -/
def elemValue (s : VmSim) (eid : Nat) : Value :=
  if isPackedId eid then vmStore (s.packed eid).1 (s.packed eid).2 (D.packedWidth eid) (D.packedSigned eid)
  else s.signalTable eid

/-- `Insn::LoadArrayElem` in `exec_insns`. -/
def loadArrayElem (s : VmSim) (array : ArrayOperand) (idxV : Value) : Value :=
  match resolveBytecodeArrayElem D array (loadIndex idxV) with
  | some eid => elemValue D s eid
  | none =>
    let w := missWidth D s.signalTable array
    vmStore 0#64 (xmask w) w false

/-- `Insn::BlockingAssignArray` in `exec_insns`. -/
def blockingAssignArrayInsn (s : VmSim) (array : ArrayOperand) (idxV v : Value) (width : Nat) : VmSim :=
  match writtenElem D array idxV with
  | some eid => blockingAssignArray D.toVmDesign s eid v width
  | none => s

/-- `Insn::NbaAssignArray` in `exec_insns`. -/
def nbaAssignArrayInsn (s : VmSim) (array : ArrayOperand) (idxV v : Value) (width : Nat) : VmSim :=
  match writtenElem D array idxV with
  | some eid => nbaAssignArray s eid v width
  | none => s

/-- The value `Insn::NbaAssignArrayRead` queues in `exec_insns`. -/
def arrayReadInsn (s : VmSim) (array : ArrayOperand) (idxSig width : Nat) : Value :=
  arrayReadValue s (resolveBytecodeArrayElem D array) idxSig width

/-- The entries an isolated run queues, oldest first. -/
abbrev NbaOut := List (Nat × Value)

/-- The packed memories as an isolated run may see them. -/
abbrev PackedView := Option (Nat → Word × Word)

/-- `PackedMem::read`. -/
def packedRead (cells : Nat → Word × Word) (eid : Nat) : Value :=
  { ValueOps.fromInline (cells eid).1 (cells eid).2 (D.packedWidth eid) with isSigned := D.packedSigned eid }

/-- `Insn::LoadArrayElem` in `exec_insns_isolated`. -/
def loadArrayElemIsolated (table : Nat → Value) (packed : PackedView) (array : ArrayOperand) (idxV : Value) :
    Value :=
  match resolveBytecodeArrayElem D array (loadIndex idxV) with
  | some eid =>
    if isPackedId eid then
      match packed with
      | some cells => packedRead D cells eid
      | none => ValueOps.new 1
    else table eid
  | none =>
    match bytecodeArrayFirstId D array, packed with
    | some first, some _ =>
      ValueOps.new (if isPackedId first then D.packedWidth first else bytecodeArrayElemWidth D table array)
    | _, _ => ValueOps.new (bytecodeArrayElemWidth D table array)

/-- Overwrite the last queued value of a signal, if one is queued. -/
def replaceLast (id : Nat) (val : Value) : NbaOut → Option NbaOut
  | [] => none
  | e :: rest =>
    match replaceLast id val rest with
    | some rest => some (e :: rest)
    | none => if e.1 = id then some ((id, val) :: rest) else none

/-- Queue a value in an isolated run. Only a block that may write one signal twice looks for an earlier entry; a
value without one is left out when `elided`. -/
def queueIsolated (nbaDup : Bool) (out : NbaOut) (id : Nat) (val : Value) (elided : Bool) : NbaOut :=
  match if nbaDup then replaceLast id val out else none with
  | some out => out
  | none => if elided then out else out ++ [(id, val)]

/-- `Insn::NbaAssignArray` in `exec_insns_isolated`. -/
def nbaAssignArrayIsolated (table : Nat → Value) (nbaDup : Bool) (out : NbaOut) (array : ArrayOperand)
    (idxV v : Value) (width : Nat) : NbaOut :=
  match writtenElem D array idxV with
  | some eid =>
    let val := VmOps.resize v width
    queueIsolated nbaDup out eid val (!isPackedId eid && decide (table eid = val))
  | none => out

/-- The value `Insn::NbaAssignArrayRead` queues in `exec_insns_isolated`. -/
def arrayReadIsolated (table : Nat → Value) (packed : PackedView) (array : ArrayOperand) (idxSig width : Nat) :
    Value :=
  match VmOps.toIndex (table idxSig) with
  | none => ValueOps.new (max width 1)
  | some idx =>
    match resolveBytecodeArrayElem D array idx with
    | some eid =>
      if isPackedId eid then
        match packed with
        | some cells => VmOps.resizeForAssign (packedRead D cells eid) width
        | none => ValueOps.new (max width 1)
      else VmOps.resizeForAssign (table eid) width
    | none => ValueOps.new (max width 1)

/-- `apply_nba_entry`: commit one queued value. -/
def applyNbaEntry (s : VmSim) (e : Nat × Value) : VmSim :=
  if isPackedId e.1 then
    packedStore D.toVmDesign s e.1 (ValueOps.rawBits e.2).1 (ValueOps.rawBits e.2).2
  else writeChanged D.toVmDesign s e.1 (nbaEntryValue D.toVmDesign e.1 e.2)

/-- Commit the queue and then what an isolated run added behind it. -/
def applyIsolated (s : VmSim) (out : NbaOut) : VmSim := out.foldl (applyNbaEntry D) (applyNba D.toVmDesign s)

end Arms

end Xezim.Arrays
