import Xezim.Bytecode.Traffic

/-! What every instruction reads and writes is what the compiler reports, but for the writes it leaves out. -/

namespace Xezim.Bytecode

open Traced Arrays

variable {Stmt Expr ι W : Type} (H : Host Stmt Expr ι W) (D : Numbering ι)

section Traffic

attribute [local simp] Insn.Traffic Insn.insnReadsReg Insn.insnReadRegs Insn.WriteReported Insn.destReg
  Insn.inPlaceReg Insn.isOpaqueInsn Insn.UnreportedWrite Insn.succs

/-- A select reads its three registers; where its branches are two registers it may widen either. -/
theorem selectArm_logs {d cond thenR elseR : RegId} :
    Logs (selectArm H d cond thenR elseR : Exec ι W Unit)
      (Insn.select d cond thenR elseR : Insn Stmt Expr).Traffic fun _ => True := by
  refine Logs.bind (Q := fun _ => True) ?_ fun _ _ => selectPick_logs (by simp) (by simp)
  by_cases same : thenR = elseR
  · intro vm
    simp [same, selectWiden_same]
  · exact selectWiden_logs (by simp) (by simp [same])

/-- From any state an instruction makes only accesses of its traffic, and goes on to one of its successors. -/
theorem execInsn_traffic (pc : Nat) (insn : Insn Stmt Expr) :
    Logs (execInsn H D pc insn) insn.Traffic (Next.In (insn.succs pc)) := by
  cases insn with
  -- Registers computed from registers, from a signal or from the rest of the simulator.
  | add d l r | sub d l r | mul d l r | div d l r | mod d l r | bitAnd d l r | bitOr d l r | bitXor d l r
  | bitXnor d l r | logAnd d l r | logOr d l r | eq d l r | neq d l r | caseEq d l r | casezEq d l r
  | casexEq d l r | lt d l r | leq d l r | gt d l r | geq d l r | shl d l r | shr d l r | aShr d l r | pow d l r =>
    refine fall_follows (by simp) (binArm_logs ?_ ?_ ?_) <;> simp
  | bitNot d s | logNot d s | negate d s | reduceAnd d s | reduceOr d s | reduceXor d s | moveResize d s w
  | binOpConst d s k kind | bitSelectConst d s i | rangeSelectConst d s l r | caseLut d s lut
  | setSigned r | clearSigned r | dropXz r =>
    refine fall_follows (by simp) (unArm_logs ?_ ?_) <;> simp
  | loadSignal d sig | loadSignalSigned d sig | loadSignalRange d sig l r | loadSignalBit d sig i =>
    refine fall_follows (by simp) (loadSigArm_logs ?_ ?_) <;> simp
  | loadConst d k => exact fall_follows (by simp) (writeReg_logs (by simp))
  | loadProcessLocal d name =>
    exact fall_follows (by simp) (Logs.bind world_logs fun _ _ => writeReg_logs (by simp))
  | loadProcessStatus d handle | loadClassMember d handle field =>
    exact fall_follows (by simp) (Logs.bind (readReg_logs (by simp)) fun _ _ =>
      Logs.bind world_logs fun _ _ => writeReg_logs (by simp))
  | storeClassMember handle v field =>
    exact fall_follows (by simp) (Logs.bind (readReg_logs (by simp)) fun _ _ =>
      Logs.bind (readReg_logs (by simp)) fun _ _ => Logs.bind world_logs fun _ _ => setWorld_logs)
  | resize r w =>
    refine fall_follows (by simp) (Logs.bind (readReg_logs (by simp)) fun v _ => ?_)
    split
    · exact writeReg_logs (by simp)
    · exact Logs.pure trivial
  | binOpConstAdd2 a =>
    exact fall_follows (by simp) (Logs.bind (unArm_logs (by simp) (by simp)) fun _ _ =>
      unArm_logs (by simp) (by simp))
  | bitSelect d base idx =>
    refine fall_follows (by simp) (Logs.bind (readReg_logs (by simp)) fun iv _ => ?_)
    split
    · exact writeReg_logs (by simp)
    · exact Logs.bind (readReg_logs (by simp)) fun _ _ => writeReg_logs (by simp)
  | rangeSelectW d base idx w up =>
    refine fall_follows (by simp) (Logs.bind (readReg_logs (by simp)) fun iv _ => ?_)
    split
    · exact writeReg_logs (by simp)
    · exact Logs.bind (readReg_logs (by simp)) fun _ _ => writeReg_logs (by simp)
  | rangeSelect d base l r =>
    refine fall_follows (by simp) (Logs.bind (readReg_logs (by simp)) fun av _ =>
      Logs.bind (readReg_logs (by simp)) fun bv _ => ?_)
    split
    · exact Logs.bind (readReg_logs (by simp)) fun _ _ => writeReg_logs (by simp)
    · exact writeReg_logs (by simp)
  | loadSignalRangeDyn d sig lo w =>
    refine fall_follows (by simp) (Logs.bind (readReg_logs (by simp)) fun lv _ => ?_)
    split
    · exact Logs.bind (readSig_logs (by simp)) fun _ _ => writeReg_logs (by simp)
    · exact writeReg_logs (by simp)
  | concat d parts | strOp d kind parts =>
    exact fall_follows (by simp) (Logs.bind (readAll_logs (by simp)) fun _ _ => writeReg_logs (by simp))
  | format d f =>
    exact fall_follows (by simp) (Logs.bind (readAll_logs (by simp)) fun _ _ => writeReg_logs (by simp))
  | replicate d s n => exact fall_follows (by simp) (replicateArm_logs (by simp) (by simp))
  | select d c t e => exact fall_follows (by simp) (selectArm_logs H)
  | move d s => exact fall_follows (by simp) (moveArm_logs (by simp) (by simp))
  -- Stores to signals and array elements.
  | nbaAssign sig v w | blockingAssignRange sig hi lo v =>
    exact fall_follows (by simp) (storeSigArm_logs (by simp) (by simp))
  | nbaAssignConst sig k w => exact fall_follows (by simp) (writeSig_logs (by simp))
  | nbaAssignRange sig hi lo v | blockingAssign sig v w | blockingAssignString sig v =>
    refine fall_follows (by simp) (Logs.bind (readSig_logs (by simp)) fun skipped _ => ?_)
    split
    · exact Logs.pure trivial
    · exact storeSigArm_logs (by simp) (by simp)
  | nbaAssignRangeDyn sig hi lo v | blockingAssignRangeDyn sig hi lo v =>
    exact fall_follows (by simp) (rangeDynArm_logs (by simp) (by simp) (by simp))
  | nbaAssignBitDyn sig idx v | blockingAssignBitDyn sig idx v =>
    exact fall_follows (by simp) (bitDynArm_logs (by simp) (by simp) (by simp))
  | loadArrayElem d array idx =>
    exact fall_follows (by simp) (loadArrayElemArm_logs (by simp) (by simp) (by simp))
  | nbaAssignArray array idx v w | blockingAssignArray array idx v w =>
    exact fall_follows (by simp) (storeElemArm_logs (by simp) fun _ => storeSigArm_logs (by simp) (by simp))
  | nbaAssignArrayRange array idx hi lo v | blockingAssignArrayRange array idx hi lo v =>
    exact fall_follows (by simp) (storeElemArm_logs (by simp) fun _ => elemRangeArm_logs (by simp) (by simp))
  | nbaAssignArrayRead sig array idxSig w =>
    exact fall_follows (by simp) (Logs.bind (readSig_logs (by simp)) fun _ _ =>
      Logs.bind (elemOrX_logs (by simp)) fun _ _ => writeSig_logs (by simp))
  -- Branches.
  | branchIfFalse c target =>
    exact Logs.bind (readReg_logs (by simp)) fun _ _ => Logs.pure (branchUnless_in _ _ _)
  | cmpBranch kind l r tmp target =>
    exact Logs.bind (readReg_logs (by simp)) fun _ _ => Logs.bind (readReg_logs (by simp)) fun _ _ =>
      Logs.pure (branchUnless_in _ _ _)
  | cmpBranchConst kind src k tmp target =>
    refine Logs.bind (readReg_logs (by simp)) fun a _ => ?_
    split
    · exact Logs.pure (branchUnless_in _ _ _)
    · exact Logs.pure (branchUnless_in _ _ _)
    · exact Logs.pure trivial
  | branchIfSignalFalse sig target bit =>
    exact Logs.bind (readSig_logs (by simp)) fun _ _ => Logs.pure (branchUnless_in _ _ _)
  | branchUnlessZero c target =>
    refine Logs.bind (readReg_logs (by simp)) fun v _ => ?_
    split
    · exact jumpTo_logs (by simp)
    · exact Logs.pure (by simp [Next.In])
  | jump target => exact jumpTo_logs (by simp)
  | caseJump src cj =>
    exact Logs.bind (readReg_logs (by simp)) fun s _ => Logs.pure (caseJumpTarget_mem cj s)
  | caseMaskJump src mj =>
    exact Logs.bind (readReg_logs (by simp)) fun s _ => Logs.pure (caseMaskNext_in mj s)
  -- Waits, counters and interpreted fragments.
  | waitDelayReg r =>
    exact Logs.bind (readReg_logs (by simp)) fun _ _ => Logs.bind world_logs fun _ _ =>
      Logs.bind setWorld_logs fun _ _ => Logs.pure (by simp [Next.In])
  | waitEdge ix =>
    exact Logs.bind world_logs fun _ _ => Logs.bind setWorld_logs fun _ _ => Logs.pure (by simp [Next.In])
  | covHit c => exact fall_follows (by simp) (Logs.bind world_logs fun _ _ => setWorld_logs)
  | initLocalColl stmt reason =>
    exact fall_follows (by simp) (Logs.bind world_logs fun _ _ => settle_logs (by simp))
  | nop => exact fall_follows (by simp) (Logs.pure trivial)
  | stmtFallback p => exact orFinish_follows (by simp) (stmtArm_logs (by simp) (by simp))
  | evalExprFallback p d ctxw => exact orFinish_follows (by simp) (exprArm_logs (by simp) (by simp))
  -- Class instructions.
  | callMethod d handle name a n | callScopedMethod d handle name a n | callCollMethod d handle name a n bare =>
    refine orFinish_follows (by simp) (Logs.bind (readReg_logs (by simp)) fun _ _ =>
      callArm_logs (fun r member => ?_) (by simp))
    simp [member]
  | callFreeFunction d name a n | callStaticScoped d name a n =>
    refine orFinish_follows (by simp) (callArm_logs (fun r member => ?_) (by simp))
    simp [member]
  | constructObject d name a n =>
    refine orFinish_follows (by simp) (Logs.bind (readArgs_logs fun r member => ?_) fun _ _ =>
      Logs.bind world_logs fun _ _ => Logs.bind (settle_logs (by simp)) fun _ _ => writeReg_logs (by simp))
    simp [member]
  | retCollection a n =>
    refine orFinish_follows (by simp) (Logs.bind (readArgs_logs fun r member => ?_) fun _ _ =>
      Logs.bind world_logs fun _ _ => setWorld_logs)
    simp [member]
  | loadClassStatic d names =>
    exact orFinish_follows (by simp) (Logs.bind world_logs fun _ _ => writeReg_logs (by simp))
  | storeClassStatic names src =>
    exact orFinish_follows (by simp) (Logs.bind (readReg_logs (by simp)) fun _ _ =>
      Logs.bind world_logs fun _ _ => setWorld_logs)
  | loadCollElem d handle member idx =>
    exact orFinish_follows (by simp) (Logs.bind (readReg_logs (by simp)) fun _ _ =>
      Logs.bind (collRef_logs (by simp)) fun _ _ => Logs.bind world_logs fun _ _ => writeReg_logs (by simp))
  | storeCollElem handle member idx v =>
    exact orFinish_follows (by simp) (Logs.bind (readReg_logs (by simp)) fun _ _ =>
      Logs.bind (readReg_logs (by simp)) fun _ _ => Logs.bind (collRef_logs (by simp)) fun _ _ =>
        Logs.bind world_logs fun _ _ => settle_logs (by simp))
  | foreachKeys slot handle member =>
    exact orFinish_follows (by simp) (Logs.bind (collRef_logs (by simp)) fun _ _ =>
      Logs.bind world_logs fun _ _ => setWorld_logs)
  | cast c src out =>
    refine orFinish_follows (by simp) (castArm_logs ?_ (fun r route => ?_) (fun h field route => ?_) (by simp))
    · cases route : c.dest <;> simp [route]
    · simp [route]
    · simp [route]
  | assignPendingColl key v => exact orFinish_follows (by simp) (assignPendingArm_logs (by simp) (by simp))
  | foreachNext ok slot var => exact fall_follows (by simp) (foreachNextArm_logs (by simp))

/-- A register write makes that write. -/
theorem writeReg_makes {r : RegId} {v : Value} : Makes (writeReg r v : Exec ι W Unit) (.writeReg r) :=
  Makes.left Makes.note

/-- A select ends by writing its destination. -/
theorem selectPick_makes (d cond thenR elseR : RegId) :
    Makes (selectPick H d cond thenR elseR : Exec ι W Unit) (.writeReg d) := by
  refine Makes.right fun c => ?_
  split
  · exact Makes.right fun _ => Makes.right fun _ => writeReg_makes
  · split <;> exact Makes.right fun _ => writeReg_makes

/-- From any state an instruction writes the register it is said to define, but for the compare and branch that keeps
the register of the eliminated compare, and for a copy of a register onto itself, which reads it. -/
theorem execInsn_defines (pc : Nat) {insn : Insn Stmt Expr} {r : RegId} (dest : insn.destReg = some r)
    (notCmp : ∀ kind a b tmp t, insn ≠ .cmpBranch kind a b tmp t) (unread : insn.insnReadsReg r = false) :
    Makes (execInsn H D pc insn) (.writeReg r) := by
  cases insn with
  | add d _ _ | sub d _ _ | mul d _ _ | div d _ _ | mod d _ _ | bitAnd d _ _ | bitOr d _ _ | bitXor d _ _
  | bitXnor d _ _ | logAnd d _ _ | logOr d _ _ | eq d _ _ | neq d _ _ | caseEq d _ _ | casezEq d _ _
  | casexEq d _ _ | lt d _ _ | leq d _ _ | gt d _ _ | geq d _ _ | shl d _ _ | shr d _ _ | aShr d _ _ | pow d _ _ =>
    obtain rfl : d = r := by simpa using dest
    exact Makes.left (Makes.right fun _ => Makes.right fun _ => writeReg_makes)
  | bitNot d _ | logNot d _ | negate d _ | reduceAnd d _ | reduceOr d _ | reduceXor d _ | moveResize d _ _
  | binOpConst d _ _ _ | bitSelectConst d _ _ | rangeSelectConst d _ _ _ | caseLut d _ _
  | loadSignal d _ | loadSignalSigned d _ | loadSignalRange d _ _ _ | loadSignalBit d _ _ =>
    obtain rfl : d = r := by simpa using dest
    exact Makes.left (Makes.right fun _ => writeReg_makes)
  | loadConst d _ =>
    obtain rfl : d = r := by simpa using dest
    exact Makes.left writeReg_makes
  | loadProcessLocal d _ | concat d _ =>
    obtain rfl : d = r := by simpa using dest
    exact Makes.left (Makes.right fun _ => writeReg_makes)
  | loadProcessStatus d _ =>
    obtain rfl : d = r := by simpa using dest
    exact Makes.left (Makes.right fun _ => Makes.right fun _ => writeReg_makes)
  | bitSelect d _ _ | rangeSelectW d _ _ _ _ =>
    obtain rfl : d = r := by simpa using dest
    refine Makes.left (Makes.right fun iv => ?_)
    split
    · exact writeReg_makes
    · exact Makes.right fun _ => writeReg_makes
  | rangeSelect d _ _ _ =>
    obtain rfl : d = r := by simpa using dest
    refine Makes.left (Makes.right fun av => Makes.right fun bv => ?_)
    split
    · exact Makes.right fun _ => writeReg_makes
    · exact writeReg_makes
  | loadSignalRangeDyn d _ _ _ =>
    obtain rfl : d = r := by simpa using dest
    refine Makes.left (Makes.right fun lv => ?_)
    split
    · exact Makes.right fun _ => writeReg_makes
    · exact writeReg_makes
  | loadArrayElem d array idx =>
    obtain rfl : d = r := by simpa using dest
    refine Makes.left (Makes.right fun ir => ?_)
    split
    · exact Makes.right fun _ => writeReg_makes
    · split <;> exact Makes.right fun _ => writeReg_makes
  | select d cond thenR elseR =>
    obtain rfl : d = r := by simpa using dest
    exact Makes.left (Makes.right fun _ => selectPick_makes H d cond thenR elseR)
  | replicate d src n =>
    obtain rfl : d = r := by simpa using dest
    have other : d ≠ src := by simpa [eq_comm] using unread
    refine Makes.left ?_
    unfold replicateArm
    split
    · exact writeReg_makes
    · -- A single copy onto another register moves it.
      split <;> exact Makes.right fun _ => writeReg_makes
  | move d src =>
    obtain rfl : d = r := by simpa using dest
    have other : d ≠ src := by simpa [eq_comm] using unread
    refine Makes.left ?_
    simp only [moveArm, other, if_false]
    exact Makes.right fun _ => writeReg_makes
  | cmpBranch kind a b tmp t => exact absurd rfl (notCmp kind a b tmp t)
  | _ => simp at dest

end Traffic

section Described

/-- An access the compiler reports: a read register is listed, a written one is a destination, modified in place or one
of an opaque instruction. -/
def Insn.Reports (insn : Insn Stmt Expr) : Access ι → Prop
  | .readReg r => insn.insnReadsReg r = true
  | .writeReg r => insn.WriteReported r
  | .readSig _ | .writeSig _ => True

/-- Every register access of an instruction is reported, whatever surrounds the executor and from any state. -/
def Insn.Described (insn : Insn Stmt Expr) : Prop :=
  ∀ (ι W : Type) (H : Host Stmt Expr ι W) (D : Numbering ι) (pc : Nat) (vm : Vm W),
    ∀ a ∈ (execInsn H D pc insn vm).log, insn.Reports a

/-- A design without signals. -/
def noSignals : Numbering Unit where
  signalWidths := fun _ => 1
  signalSigned := fun _ => false
  signalTwoState := fun _ => false
  ref := fun _ => ()

/-- A machine whose registers hold a fill exactly where `fill` says. -/
def fillVm (fill : RegId → Bool) : Vm Unit where
  regs := fun r => ⟨1, 0, 0, false, false, fill r⟩
  numRegs := 0
  numRegs_le := Nat.zero_le _
  world := ()

/-- A select writes the register of a branch that is a fill beside one that is not. -/
theorem select_writes (d cond thenR elseR : RegId) (other : thenR ≠ elseR) {branch : RegId}
    (either : branch = thenR ∨ branch = elseR) :
    .writeReg branch ∈ (execInsn (default : Host Stmt Expr Unit Unit) noSignals 0
      (.select d cond thenR elseR) (fillVm fun r => r == branch)).log := by
  rcases either with rfl | rfl
  · simp [execInsn, fall, selectArm, selectWiden, readReg, writeReg, fillVm, other.symm]
  · simp [execInsn, fall, selectArm, selectWiden, readReg, writeReg, fillVm, other]

/-- A simulator in which the settle after a store to a collection runs a block that writes register 0. -/
def settlingHost : Host Stmt Expr Unit Unit :=
  { (default : Host Stmt Expr Unit Unit) with
    storeCollElem := fun _ _ _ _ => ⟨(), [(0, default)]⟩
    assignPending := fun _ _ => (⟨(), [(0, default)]⟩, true) }

/-- Exactly the instructions with no unreported write are described. -/
theorem Insn.described_iff (insn : Insn Stmt Expr) : insn.Described ↔ ∀ r, ¬ insn.UnreportedWrite r := by
  constructor
  · intro described
    have onDefault := described Unit Unit default noSignals 0
    cases insn with
    | loadClassMember d handle field | loadClassStatic d names =>
      have reported := onDefault (fillVm fun _ => false) (.writeReg d) (by
        simp [execInsn, fall, orFinish, execClassOpcode, readReg, writeReg, world])
      simp [Reports, WriteReported, destReg, inPlaceReg, isOpaqueInsn] at reported
    | loadCollElem d handle member idx =>
      have reported := onDefault (fillVm fun _ => false) (.writeReg d) (by
        simp [execInsn, orFinish, execClassOpcode, readReg, writeReg, world])
      simp [Reports, WriteReported, destReg, inPlaceReg, isOpaqueInsn] at reported
    | select d cond thenR elseR =>
      -- Two distinct branches would both have to be the destination.
      rintro - ⟨other, -⟩
      have first := onDefault _ _ (select_writes d cond thenR elseR other (Or.inl rfl))
      have second := onDefault _ _ (select_writes d cond thenR elseR other (Or.inr rfl))
      simp only [Reports, WriteReported, destReg, inPlaceReg, isOpaqueInsn, Option.some.injEq, reduceCtorEq,
        Bool.false_eq_true, or_false] at first second
      exact other (first.symm.trans second)
    | storeCollElem handle member idx v | assignPendingColl key v =>
      -- The settle writes a register, which is no destination of a store.
      have reported := described Unit Unit settlingHost noSignals 0 (fillVm fun _ => false) (.writeReg 0) (by
        simp [execInsn, orFinish, execClassOpcode, assignPendingArm, settlingHost, settle, writeReg, world])
      simp [Reports, WriteReported, destReg, inPlaceReg, isOpaqueInsn] at reported
    | _ => simp [UnreportedWrite]
  · intro none ι W H D pc vm a member
    have traffic := (execInsn_traffic H D pc insn vm).1 a member
    cases a with
    | readReg r => exact traffic
    | writeReg r => simpa [Traffic, Reports, none] using traffic
    | readSig x => trivial
    | writeSig x => trivial

end Described

end Xezim.Bytecode
