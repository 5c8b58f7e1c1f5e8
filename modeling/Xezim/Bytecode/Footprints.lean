import Xezim.Bytecode.TrafficLaws
import Xezim.Lib.Footprint

/-! The executor's log tells the whole of what an instruction does with the register file. -/

namespace Xezim.Bytecode

open Traced Arrays

variable {Stmt Expr ι W α : Type}

/-- The registers as cells, the rest of the machine beside them. -/
def regCells (ι W : Type) : Cells (Vm W) (Access ι) RegId Value (W × Nat) where
  cell vm r := vm.regs r
  rest vm := (vm.world, vm.numRegs)
  reads a r := a = .readReg r
  writes a r := a = .writeReg r

/-- An honest step of the executor. -/
abbrev Honest (m : Exec ι W α) : Prop := (regCells ι W).Honest m

section Primitives

variable {D : Numbering ι} {fns : ValueFns}

/-- A register read answers the register it logs. -/
theorem readReg_honest (r : RegId) : Honest (readReg r : Exec ι W Value) where
  follows s t agree := by
    have same : s.regs r = t.regs r := agree.2 r ⟨_, by simp [readReg], rfl⟩
    refine ⟨same.symm, rfl, agree.1.symm, fun k written => ?_⟩
    obtain ⟨a, member, writes⟩ := written
    subst writes
    simp [readReg] at member
  frame _ _ _ := rfl

/-- A register write changes the register it logs. -/
theorem writeReg_honest (r : RegId) (v : Value) : Honest (writeReg r v : Exec ι W Unit) where
  follows s t agree := by
    refine ⟨rfl, rfl, agree.1.symm, fun k written => ?_⟩
    obtain ⟨a, member, writes⟩ := written
    subst writes
    obtain rfl : k = r := by simpa [writeReg] using member
    simp [regCells, writeReg]
  frame s k unwritten := by
    have other : k ≠ r := by
      rintro rfl
      exact unwritten ⟨_, by simp [writeReg], rfl⟩
    simp [regCells, writeReg, Function.update_of_ne other]

/-- The rest of the simulator is no register. -/
theorem world_honest : Honest (world : Exec ι W W) :=
  Cells.Honest.get (fun _ _ same => congrArg (fun p => Pure.pure p.1) same) fun _ => Cells.Honest.pure _

theorem setWorld_honest (w : W) : Honest (setWorld w : Exec ι W Unit) where
  follows s t agree :=
    ⟨rfl, rfl, Prod.ext rfl (congrArg Prod.snd agree.1).symm, fun k written => absurd written (by simp [setWorld])⟩
  frame _ _ _ := rfl

/-- What the interpreter leaves of the registers it logs. -/
theorem settle_honest (left : Settled W) : Honest (settle left : Exec ι W Unit) :=
  (setWorld_honest _).bind fun _ => Cells.Honest.forM fun _ => writeReg_honest _ _

/-- An access of a signal is logged and touches no register. -/
theorem note_honest {a : Access ι} (noWrite : ∀ r, a ≠ .writeReg r) : Honest (note a : Exec ι W Unit) where
  follows s t agree := by
    refine ⟨rfl, rfl, agree.1.symm, fun k written => ?_⟩
    obtain ⟨b, member, writes⟩ := written
    obtain rfl : b = a := by simpa using member
    exact absurd writes (noWrite k)
  frame _ _ _ := rfl

theorem readSig_honest (id : SigId) (f : W → ι → α) : Honest (readSig D id f : Exec ι W α) :=
  (note_honest (by simp)).bind fun _ => world_honest.bind fun _ => Cells.Honest.pure _

theorem writeSig_honest (id : SigId) (f : W → ι → W) : Honest (writeSig D id f : Exec ι W Unit) :=
  (note_honest (by simp)).bind fun _ => world_honest.bind fun _ => setWorld_honest _

/-- Whether a position is in the register file is the same in machines with files of one size. -/
theorem inFile_honest {m m' : Exec ι W α} {n : Nat} (inside : Honest m) (outside : Honest m') :
    Honest (Traced.get >>= fun vm : Vm W => if n < vm.numRegs then m else m') := by
  refine Cells.Honest.get (fun s t same => ?_) fun s => ?_
  · have size : s.numRegs = t.numRegs := congrArg Prod.snd same
    simp only [size]
  · split
    · exact inside
    · exact outside

theorem readArgs_honest (argStart nArgs : Nat) : Honest (readArgs fns argStart nArgs : Exec ι W (List Value)) :=
  Cells.Honest.mapM fun _ => inFile_honest (readReg_honest _) (Cells.Honest.pure _)

theorem writeBack_honest (argStart : Nat) (back : List (Nat × Value)) :
    Honest (writeBack argStart back : Exec ι W Unit) :=
  Cells.Honest.forM fun _ => inFile_honest (writeReg_honest _ _) (Cells.Honest.pure _)

theorem frameOf_honest (locals : List FbLocal) : Honest (frameOf fns locals : Exec ι W (List (String × Value))) :=
  Cells.Honest.mapM fun _ => (readReg_honest _).bind fun _ => Cells.Honest.pure _

theorem popFrame_honest (locals : List FbLocal) (frame : String → Option Value) :
    Honest (popFrame fns locals frame : Exec ι W Unit) := by
  refine Cells.Honest.forM fun l => ?_
  split
  · refine (readReg_honest _).bind fun slot => ?_
    split
    · exact writeReg_honest _ _
    · exact Cells.Honest.pure _
  · exact Cells.Honest.pure _

theorem readAll_honest (regs : List RegId) : Honest (regs.mapM readReg : Exec ι W (List Value)) :=
  Cells.Honest.mapM readReg_honest

theorem fall_honest {pc : Nat} {arm : Exec ι W Unit} (honest : Honest arm) : Honest (fall pc arm) :=
  honest.bind fun _ => Cells.Honest.pure _

end Primitives

section Arms

variable {H : Host Stmt Expr ι W} {D : Numbering ι}

theorem unArm_honest (f : Value → Value) (d s : RegId) : Honest (unArm f d s : Exec ι W Unit) :=
  (readReg_honest _).bind fun _ => writeReg_honest _ _

theorem binArm_honest (f : Value → Value → Value) (d l r : RegId) : Honest (binArm f d l r : Exec ι W Unit) :=
  (readReg_honest _).bind fun _ => (readReg_honest _).bind fun _ => writeReg_honest _ _

theorem loadSigArm_honest (f : Value → Value) (d : RegId) (sig : SigId) : Honest (loadSigArm H D f d sig) :=
  (readSig_honest _ _).bind fun _ => writeReg_honest _ _

theorem storeSigArm_honest (f : W → ι → Value → W) (sig : SigId) (v : RegId) :
    Honest (storeSigArm D f sig v : Exec ι W Unit) :=
  (readReg_honest _).bind fun _ => writeSig_honest _ _

theorem loadArrayElemArm_honest (d : RegId) (array : ArrayOperand) (idx : RegId) :
    Honest (loadArrayElemArm H D d array idx) := by
  refine (readReg_honest _).bind fun ir => ?_
  split
  · exact (readSig_honest _ _).bind fun _ => writeReg_honest _ _
  · -- A miss reads at the width of the array's first element, where there is one.
    split
    · exact (readSig_honest _ _).bind fun _ => writeReg_honest _ _
    · exact world_honest.bind fun _ => writeReg_honest _ _

theorem elemOrX_honest (array : ArrayOperand) (iv : Value) (w : Nat) : Honest (elemOrX H D array iv w) := by
  unfold elemOrX
  split
  · exact readSig_honest _ _
  · exact Cells.Honest.pure _

theorem storeElemArm_honest {array : ArrayOperand} {idx : RegId} {store : SigId → Exec ι W Unit}
    (stored : ∀ eid, Honest (store eid)) : Honest (storeElemArm H D array idx store) := by
  refine (readReg_honest _).bind fun iv => ?_
  split
  · exact stored _
  · exact Cells.Honest.pure _

theorem elemRangeArm_honest (f : W → ι → Value → Value → Value → W) (hi lo v : RegId) (eid : SigId) :
    Honest (elemRangeArm D f hi lo v eid : Exec ι W Unit) :=
  (readReg_honest _).bind fun _ => (readReg_honest _).bind fun _ => (readReg_honest _).bind fun _ =>
    writeSig_honest _ _

theorem rangeDynArm_honest (f : W → ι → Int → Int → Value → W) (sig : SigId) (hi lo v : RegId) :
    Honest (rangeDynArm H D f sig hi lo v) := by
  refine (readReg_honest _).bind fun h => (readReg_honest _).bind fun l => ?_
  split
  · refine (readSig_honest _ _).bind fun dropped => ?_
    split
    · exact Cells.Honest.pure _
    · exact (readReg_honest _).bind fun _ => writeSig_honest _ _
  · exact Cells.Honest.pure _

theorem bitDynArm_honest (f : W → ι → Nat → Value → W) (sig : SigId) (idx v : RegId) :
    Honest (bitDynArm H D f sig idx v) := by
  refine (readReg_honest _).bind fun iv => ?_
  split
  · exact (readReg_honest _).bind fun _ => writeSig_honest _ _
  · exact Cells.Honest.pure _

theorem replicateArm_honest (d s : RegId) (n : Nat) : Honest (replicateArm H d s n) := by
  unfold replicateArm
  split
  · exact writeReg_honest _ _
  · split
    · split
      · exact Cells.Honest.pure _
      · exact (readReg_honest _).bind fun _ => writeReg_honest _ _
    · exact (readReg_honest _).bind fun _ => writeReg_honest _ _

theorem moveArm_honest (d s : RegId) : Honest (moveArm d s : Exec ι W Unit) := by
  unfold moveArm
  split
  · exact Cells.Honest.pure _
  · exact (readReg_honest _).bind fun _ => writeReg_honest _ _

theorem selectWiden_honest (thenR elseR : RegId) : Honest (selectWiden H thenR elseR : Exec ι W Unit) := by
  refine (readReg_honest _).bind fun t => (readReg_honest _).bind fun e => ?_
  split
  · exact writeReg_honest _ _
  · split
    · exact writeReg_honest _ _
    · exact Cells.Honest.pure _

theorem selectPick_honest (d cond thenR elseR : RegId) :
    Honest (selectPick H d cond thenR elseR : Exec ι W Unit) := by
  refine (readReg_honest _).bind fun c => ?_
  split
  · exact (readReg_honest _).bind fun _ => (readReg_honest _).bind fun _ => writeReg_honest _ _
  · split
    · exact (readReg_honest _).bind fun _ => writeReg_honest _ _
    · exact (readReg_honest _).bind fun _ => writeReg_honest _ _

theorem collRef_honest (handle : RegId) (member : String) : Honest (collRef handle member : Exec ι W CollRef) := by
  unfold collRef
  split
  · exact Cells.Honest.pure _
  · split
    · exact Cells.Honest.pure _
    · exact (readReg_honest _).bind fun _ => Cells.Honest.pure _

/-- A call's result and what it writes back follow from its arguments and the rest of the simulator. -/
theorem callArm_honest (d : RegId) (callee : Callee) (argStart nArgs : Nat) :
    Honest (callArm H d callee argStart nArgs) :=
  (readArgs_honest _ _).bind fun _ => world_honest.bind fun _ => (settle_honest _).bind fun _ =>
    (writeBack_honest _ _).bind fun _ => writeReg_honest _ _

theorem castStore_honest (c : CastInsn Expr) (v : Value) : Honest (castStore H c v) := by
  unfold castStore
  split
  · exact (readReg_honest _).bind fun _ => writeReg_honest _ _
  · exact (readReg_honest _).bind fun _ => world_honest.bind fun _ => setWorld_honest _
  · exact world_honest.bind fun _ => setWorld_honest _

theorem castArm_honest (c : CastInsn Expr) (src out : RegId) : Honest (castArm H c src out) := by
  refine (readReg_honest _).bind fun v => world_honest.bind fun w => ?_
  split
  · exact (castStore_honest _ _).bind fun _ => writeReg_honest _ _
  · exact (setWorld_honest _).bind fun _ => writeReg_honest _ _

theorem assignPendingArm_honest (key : String) (v : RegId) : Honest (assignPendingArm H key v) := by
  refine world_honest.bind fun w => (settle_honest _).bind fun _ => ?_
  split
  · exact Cells.Honest.pure _
  · exact (readReg_honest _).bind fun _ => world_honest.bind fun _ => settle_honest _

theorem foreachNextArm_honest (ok : RegId) (slot : Nat) (var : RegId) : Honest (foreachNextArm H ok slot var) := by
  refine world_honest.bind fun w => ?_
  split
  · exact writeReg_honest _ _
  · exact (writeReg_honest _ _).bind fun _ => (writeReg_honest _ _).bind fun _ => setWorld_honest _

theorem stmtArm_honest (p : StmtPayload Stmt) : Honest (stmtArm H p) :=
  (frameOf_honest _).bind fun _ => world_honest.bind fun _ => (settle_honest _).bind fun _ => popFrame_honest _ _

theorem exprArm_honest (p : ExprPayload Expr) (d : RegId) (ctxw : Nat) : Honest (exprArm H p d ctxw) :=
  (frameOf_honest _).bind fun _ => world_honest.bind fun _ => (settle_honest _).bind fun _ =>
    (popFrame_honest _ _).bind fun _ => writeReg_honest _ _

theorem orFinish_honest {pc : Nat} {arm : Exec ι W Unit} (honest : Honest arm) : Honest (orFinish H pc arm) := by
  refine honest.bind fun _ => world_honest.bind fun w => ?_
  split
  · exact Cells.Honest.pure _
  · exact Cells.Honest.pure _

theorem jumpTo_honest (pc target : Nat) : Honest (jumpTo H pc target : Exec ι W Next) := by
  refine world_honest.bind fun w => ?_
  split
  · exact (setWorld_honest _).bind fun _ => Cells.Honest.pure _
  · exact Cells.Honest.pure _

end Arms

variable (H : Host Stmt Expr ι W) (D : Numbering ι)

/-- What an instruction does follows from the registers its log reads, and a register its log does not write keeps its
value. -/
theorem execInsn_honest (pc : Nat) (insn : Insn Stmt Expr) : Honest (execInsn H D pc insn) := by
  cases insn with
  -- Registers computed from registers, from a signal or from the rest of the simulator.
  | add d l r | sub d l r | mul d l r | div d l r | mod d l r | bitAnd d l r | bitOr d l r | bitXor d l r
  | bitXnor d l r | logAnd d l r | logOr d l r | eq d l r | neq d l r | caseEq d l r | casezEq d l r
  | casexEq d l r | lt d l r | leq d l r | gt d l r | geq d l r | shl d l r | shr d l r | aShr d l r | pow d l r =>
    exact fall_honest (binArm_honest _ _ _ _)
  | bitNot d s | logNot d s | negate d s | reduceAnd d s | reduceOr d s | reduceXor d s | moveResize d s w
  | binOpConst d s k kind | bitSelectConst d s i | rangeSelectConst d s l r | caseLut d s lut
  | setSigned r | clearSigned r | dropXz r =>
    exact fall_honest (unArm_honest _ _ _)
  | loadSignal d sig | loadSignalSigned d sig | loadSignalRange d sig l r | loadSignalBit d sig i =>
    exact fall_honest (loadSigArm_honest _ _ _)
  | loadConst d k => exact fall_honest (writeReg_honest _ _)
  | loadProcessLocal d name => exact fall_honest (world_honest.bind fun _ => writeReg_honest _ _)
  | loadProcessStatus d handle | loadClassMember d handle field =>
    exact fall_honest ((readReg_honest _).bind fun _ => world_honest.bind fun _ => writeReg_honest _ _)
  | storeClassMember handle v field =>
    exact fall_honest ((readReg_honest _).bind fun _ => (readReg_honest _).bind fun _ =>
      world_honest.bind fun _ => setWorld_honest _)
  | resize r w =>
    refine fall_honest ((readReg_honest _).bind fun v => ?_)
    split
    · exact writeReg_honest _ _
    · exact Cells.Honest.pure _
  | binOpConstAdd2 a => exact fall_honest ((unArm_honest _ _ _).bind fun _ => unArm_honest _ _ _)
  | bitSelect d base idx | rangeSelectW d base idx w up =>
    refine fall_honest ((readReg_honest _).bind fun iv => ?_)
    split
    · exact writeReg_honest _ _
    · exact (readReg_honest _).bind fun _ => writeReg_honest _ _
  | rangeSelect d base l r =>
    refine fall_honest ((readReg_honest _).bind fun av => (readReg_honest _).bind fun bv => ?_)
    split
    · exact (readReg_honest _).bind fun _ => writeReg_honest _ _
    · exact writeReg_honest _ _
  | loadSignalRangeDyn d sig lo w =>
    refine fall_honest ((readReg_honest _).bind fun lv => ?_)
    split
    · exact (readSig_honest _ _).bind fun _ => writeReg_honest _ _
    · exact writeReg_honest _ _
  | concat d parts | strOp d kind parts => exact fall_honest ((readAll_honest _).bind fun _ => writeReg_honest _ _)
  | format d f => exact fall_honest ((readAll_honest _).bind fun _ => writeReg_honest _ _)
  | replicate d s n => exact fall_honest (replicateArm_honest _ _ _)
  | select d c t e =>
    exact fall_honest ((selectWiden_honest _ _).bind fun _ => selectPick_honest _ _ _ _)
  | move d s => exact fall_honest (moveArm_honest _ _)
  -- Stores to signals and array elements.
  | nbaAssign sig v w | blockingAssignRange sig hi lo v => exact fall_honest (storeSigArm_honest _ _ _)
  | nbaAssignConst sig k w => exact fall_honest (writeSig_honest _ _)
  | nbaAssignRange sig hi lo v | blockingAssign sig v w | blockingAssignString sig v =>
    refine fall_honest ((readSig_honest _ _).bind fun skipped => ?_)
    split
    · exact Cells.Honest.pure _
    · exact storeSigArm_honest _ _ _
  | nbaAssignRangeDyn sig hi lo v | blockingAssignRangeDyn sig hi lo v =>
    exact fall_honest (rangeDynArm_honest _ _ _ _ _)
  | nbaAssignBitDyn sig idx v | blockingAssignBitDyn sig idx v => exact fall_honest (bitDynArm_honest _ _ _ _)
  | loadArrayElem d array idx => exact fall_honest (loadArrayElemArm_honest _ _ _)
  | nbaAssignArray array idx v w | blockingAssignArray array idx v w =>
    exact fall_honest (storeElemArm_honest fun _ => storeSigArm_honest _ _ _)
  | nbaAssignArrayRange array idx hi lo v | blockingAssignArrayRange array idx hi lo v =>
    exact fall_honest (storeElemArm_honest fun _ => elemRangeArm_honest _ _ _ _ _)
  | nbaAssignArrayRead sig array idxSig w =>
    exact fall_honest ((readSig_honest _ _).bind fun _ => (elemOrX_honest _ _ _).bind fun _ => writeSig_honest _ _)
  -- Branches.
  | branchIfFalse c target => exact (readReg_honest _).bind fun _ => Cells.Honest.pure _
  | cmpBranch kind l r tmp target =>
    exact (readReg_honest _).bind fun _ => (readReg_honest _).bind fun _ => Cells.Honest.pure _
  | cmpBranchConst kind src k tmp target =>
    refine (readReg_honest _).bind fun a => ?_
    split
    · exact Cells.Honest.pure _
    · exact Cells.Honest.pure _
    · exact Cells.Honest.pure _
  | branchIfSignalFalse sig target bit => exact (readSig_honest _ _).bind fun _ => Cells.Honest.pure _
  | branchUnlessZero c target =>
    refine (readReg_honest _).bind fun v => ?_
    split
    · exact jumpTo_honest _ _
    · exact Cells.Honest.pure _
  | jump target => exact jumpTo_honest _ _
  | caseJump src cj => exact (readReg_honest _).bind fun _ => Cells.Honest.pure _
  | caseMaskJump src mj => exact (readReg_honest _).bind fun _ => Cells.Honest.pure _
  -- Waits, counters and interpreted fragments.
  | waitDelayReg r =>
    exact (readReg_honest _).bind fun _ => world_honest.bind fun _ => (setWorld_honest _).bind fun _ =>
      Cells.Honest.pure _
  | waitEdge ix => exact world_honest.bind fun _ => (setWorld_honest _).bind fun _ => Cells.Honest.pure _
  | covHit c => exact fall_honest (world_honest.bind fun _ => setWorld_honest _)
  | initLocalColl stmt reason => exact fall_honest (world_honest.bind fun _ => settle_honest _)
  | nop => exact fall_honest (Cells.Honest.pure _)
  | stmtFallback p => exact orFinish_honest (stmtArm_honest _)
  | evalExprFallback p d ctxw => exact orFinish_honest (exprArm_honest _ _ _)
  -- Class instructions.
  | callMethod d handle name a n | callScopedMethod d handle name a n | callCollMethod d handle name a n bare =>
    exact orFinish_honest ((readReg_honest _).bind fun _ => callArm_honest _ _ _ _)
  | callFreeFunction d name a n | callStaticScoped d name a n => exact orFinish_honest (callArm_honest _ _ _ _)
  | constructObject d name a n =>
    exact orFinish_honest ((readArgs_honest _ _).bind fun _ => world_honest.bind fun _ =>
      (settle_honest _).bind fun _ => writeReg_honest _ _)
  | retCollection a n =>
    exact orFinish_honest ((readArgs_honest _ _).bind fun _ => world_honest.bind fun _ => setWorld_honest _)
  | loadClassStatic d names => exact orFinish_honest (world_honest.bind fun _ => writeReg_honest _ _)
  | storeClassStatic names src =>
    exact orFinish_honest ((readReg_honest _).bind fun _ => world_honest.bind fun _ => setWorld_honest _)
  | loadCollElem d handle member idx =>
    exact orFinish_honest ((readReg_honest _).bind fun _ => (collRef_honest _ _).bind fun _ =>
      world_honest.bind fun _ => writeReg_honest _ _)
  | storeCollElem handle member idx v =>
    exact orFinish_honest ((readReg_honest _).bind fun _ => (readReg_honest _).bind fun _ =>
      (collRef_honest _ _).bind fun _ => world_honest.bind fun _ => settle_honest _)
  | foreachKeys slot handle member =>
    exact orFinish_honest ((collRef_honest _ _).bind fun _ => world_honest.bind fun _ => setWorld_honest _)
  | cast c src out => exact orFinish_honest (castArm_honest _ _ _)
  | assignPendingColl key v => exact orFinish_honest (assignPendingArm_honest _ _)
  | foreachNext ok slot var => exact fall_honest (foreachNextArm_honest _ _ _)

section Consequences

/-- A write in a log, as the footprint has it. -/
theorem regCells_writtenIn {log : List (Access ι)} {r : RegId} :
    (regCells ι W).WrittenIn log r ↔ .writeReg r ∈ log := by
  simp [Cells.WrittenIn, regCells]

/-- Machines with one register file size and one rest of the simulator, whose registers differ at most where `off`
says. -/
structure AgreeOff (off : RegId → Prop) (s t : Vm W) : Prop where
  world : t.world = s.world
  numRegs : t.numRegs = s.numRegs
  regs : ∀ r, ¬ off r → t.regs r = s.regs r

/-- An instruction that reads none of the registers that differ goes on alike, makes the same accesses, and leaves
different only registers it does not write. -/
theorem execInsn_agreeOff (pc : Nat) {off : RegId → Prop} {insn : Insn Stmt Expr} {s t : Vm W}
    (agree : AgreeOff off s t) (unread : ∀ r, off r → insn.insnReadsReg r = false) :
    (execInsn H D pc insn t).value = (execInsn H D pc insn s).value ∧
      (execInsn H D pc insn t).log = (execInsn H D pc insn s).log ∧
      AgreeOff (fun r => off r ∧ .writeReg r ∉ (execInsn H D pc insn s).log) (execInsn H D pc insn s).state
        (execInsn H D pc insn t).state := by
  have honest := execInsn_honest H D pc insn
  -- A register the log reads is reported, so it is none of those that differ.
  have same : (regCells ι W).Same (execInsn H D pc insn s) (execInsn H D pc insn t) := by
    refine honest.follows s t ⟨Prod.ext agree.world.symm agree.numRegs.symm, fun r read => (agree.regs r ?_).symm⟩
    obtain ⟨a, member, reads⟩ := read
    subst reads
    intro isOff
    have reported : insn.insnReadsReg r = true := (execInsn_traffic H D pc insn s).1 _ member
    simp [unread r isOff] at reported
  refine ⟨same.value, same.log, congrArg Prod.fst same.rest, congrArg Prod.snd same.rest, fun r notOff => ?_⟩
  by_cases written : .writeReg r ∈ (execInsn H D pc insn s).log
  · exact same.written r (regCells_writtenIn.mpr written)
  · -- A register neither run writes agrees as it did before.
    have before : ¬ off r := fun isOff => notOff ⟨isOff, written⟩
    have left := honest.frame s r (fun made => written (regCells_writtenIn.mp made))
    have right := honest.frame t r (fun made => written (same.log ▸ regCells_writtenIn.mp made))
    exact right.trans ((agree.regs r before).trans left.symm)

/-- An instruction leaves a register alone that is neither its destination nor modified in place, unless it is opaque
or writes the register unreported. -/
theorem execInsn_frame (pc : Nat) {insn : Insn Stmt Expr} {r : RegId} (vm : Vm W) (notDest : insn.destReg ≠ some r)
    (notInPlace : insn.inPlaceReg ≠ some r) (notOpaque : insn.isOpaqueInsn = false)
    (reported : ¬ insn.UnreportedWrite r) : .writeReg r ∉ (execInsn H D pc insn vm).log ∧
      (execInsn H D pc insn vm).state.regs r = vm.regs r := by
  have silent : .writeReg r ∉ (execInsn H D pc insn vm).log := by
    intro written
    have traffic : insn.WriteReported r ∨ insn.UnreportedWrite r :=
      (execInsn_traffic H D pc insn vm).1 _ written
    simp [Insn.WriteReported, notDest, notInPlace, notOpaque, reported] at traffic
  exact ⟨silent, (execInsn_honest H D pc insn).frame vm r fun made => silent (regCells_writtenIn.mp made)⟩

end Consequences

end Xezim.Bytecode
