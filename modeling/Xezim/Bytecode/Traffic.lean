import Xezim.Bytecode.Exec

/-! The registers each instruction really reads and writes, against what the compiler says of it. -/

namespace Xezim.Bytecode

open Traced Arrays

variable {Stmt Expr ι W α : Type} {P : Access ι → Prop}

section Primitives

variable {D : Numbering ι} {fns : ValueFns}

/-- A register read logs that read. -/
theorem readReg_logs {r : RegId} (holds : P (.readReg r)) :
    Logs (readReg r : Exec ι W Value) P fun _ => True :=
  Logs.bind (Logs.note holds) fun _ _ =>
    Logs.bind (Logs.get fun _ => trivial) fun _ _ => Logs.pure trivial

/-- A register write logs that write. -/
theorem writeReg_logs {r : RegId} {v : Value} (holds : P (.writeReg r)) :
    Logs (writeReg r v : Exec ι W Unit) P fun _ => True :=
  Logs.bind (Logs.note holds) fun _ _ => Logs.modify

/-- The rest of the simulator is no register. -/
theorem world_logs : Logs (world : Exec ι W W) P fun _ => True :=
  Logs.bind (Logs.get fun _ => trivial) fun _ _ => Logs.pure trivial

theorem setWorld_logs {w : W} : Logs (setWorld w : Exec ι W Unit) P fun _ => True := Logs.modify

/-- What the interpreter leaves writes the registers its settles wrote. -/
theorem settle_logs {left : Settled W} (writes : ∀ r, P (.writeReg r)) :
    Logs (settle left : Exec ι W Unit) P fun _ => True :=
  Logs.bind setWorld_logs fun _ _ => Logs.forM fun _ _ => writeReg_logs (writes _)

/-- A signal read logs that read. -/
theorem readSig_logs {id : SigId} {f : W → ι → α} (holds : P (.readSig (D.ref id))) :
    Logs (readSig D id f : Exec ι W α) P fun _ => True :=
  Logs.bind (Logs.note holds) fun _ _ => Logs.bind world_logs fun _ _ => Logs.pure trivial

/-- A signal write logs that write. -/
theorem writeSig_logs {id : SigId} {f : W → ι → W} (holds : P (.writeSig (D.ref id))) :
    Logs (writeSig D id f : Exec ι W Unit) P fun _ => True :=
  Logs.bind (Logs.note holds) fun _ _ => Logs.bind world_logs fun _ _ => setWorld_logs

/-- An argument range reads the registers of the range, whose numbers are not wrapped. -/
theorem readArgs_logs {argStart nArgs : Nat} (holds : ∀ r ∈ Insn.argRegs argStart nArgs, P (.readReg r)) :
    Logs (readArgs fns argStart nArgs : Exec ι W (List Value)) P fun _ => True := by
  -- The register count bounds the argument, so its number does not wrap.
  apply Logs.mapM
  intro i member
  refine Logs.bind (Logs.get (Q := fun vm => vm.numRegs ≤ regLimit) fun vm => vm.numRegs_le) fun vm bounded => ?_
  split
  · rename_i inside
    have wrapped : (argStart + i) % regLimit = argStart + i := Nat.mod_eq_of_lt (by omega)
    exact readReg_logs (holds _ (List.mem_map.mpr ⟨i, member, wrapped⟩))
  · exact Logs.pure trivial

/-- Arguments written back log writes. -/
theorem writeBack_logs {argStart : Nat} {back : List (Nat × Value)} (holds : ∀ r, P (.writeReg r)) :
    Logs (writeBack argStart back : Exec ι W Unit) P fun _ => True := by
  apply Logs.forM
  intro p _
  refine Logs.bind (Logs.get fun _ => trivial) fun vm _ => ?_
  split
  · exact writeReg_logs (holds _)
  · exact Logs.pure trivial

/-- A frame reads the registers of its locals. -/
theorem frameOf_logs {locals : List FbLocal} (holds : ∀ r, P (.readReg r)) :
    Logs (frameOf fns locals : Exec ι W (List (String × Value))) P fun _ => True :=
  Logs.mapM fun _ _ => Logs.bind (readReg_logs (holds _)) fun _ _ => Logs.pure trivial

/-- A frame left behind reads and writes the registers of its locals. -/
theorem popFrame_logs {locals : List FbLocal} {frame : String → Option Value} (reads : ∀ r, P (.readReg r))
    (writes : ∀ r, P (.writeReg r)) : Logs (popFrame fns locals frame : Exec ι W Unit) P fun _ => True := by
  -- A local's slot is read before it is written back.
  apply Logs.forM
  intro l _
  split
  · refine Logs.bind (readReg_logs (reads _)) fun slot _ => ?_
    split
    · exact writeReg_logs (writes _)
    · exact Logs.pure trivial
  · exact Logs.pure trivial

/-- A list of registers read one after the other. -/
theorem readAll_logs {regs : List RegId} (holds : ∀ r ∈ regs, P (.readReg r)) :
    Logs (regs.mapM readReg : Exec ι W (List Value)) P fun _ => True :=
  Logs.mapM fun r member => readReg_logs (holds r member)

/-- An instruction that falls through goes on at the next position. -/
theorem fall_logs {pc : Nat} {arm : Exec ι W Unit} (met : Logs arm P fun _ => True) :
    Logs (fall pc arm) P fun next => next = .goto (pc + 1) :=
  Logs.bind met fun _ _ => Logs.pure rfl

end Primitives

section Arms

variable {H : Host Stmt Expr ι W} {D : Numbering ι}

theorem unArm_logs {f : Value → Value} {d s : RegId} (reads : P (.readReg s)) (writes : P (.writeReg d)) :
    Logs (unArm f d s : Exec ι W Unit) P fun _ => True :=
  Logs.bind (readReg_logs reads) fun _ _ => writeReg_logs writes

theorem binArm_logs {f : Value → Value → Value} {d l r : RegId} (left : P (.readReg l)) (right : P (.readReg r))
    (writes : P (.writeReg d)) : Logs (binArm f d l r : Exec ι W Unit) P fun _ => True :=
  Logs.bind (readReg_logs left) fun _ _ => Logs.bind (readReg_logs right) fun _ _ => writeReg_logs writes

theorem loadSigArm_logs {f : Value → Value} {d : RegId} {sig : SigId} (sigs : ∀ x, P (.readSig x))
    (writes : P (.writeReg d)) : Logs (loadSigArm H D f d sig) P fun _ => True :=
  Logs.bind (readSig_logs (sigs _)) fun _ _ => writeReg_logs writes

theorem storeSigArm_logs {f : W → ι → Value → W} {sig : SigId} {v : RegId} (reads : P (.readReg v))
    (sigs : ∀ x, P (.writeSig x)) : Logs (storeSigArm D f sig v : Exec ι W Unit) P fun _ => True :=
  Logs.bind (readReg_logs reads) fun _ _ => writeSig_logs (sigs _)

theorem loadArrayElemArm_logs {d idx : RegId} {array : ArrayOperand} (reads : P (.readReg idx))
    (sigs : ∀ x, P (.readSig x)) (writes : P (.writeReg d)) :
    Logs (loadArrayElemArm H D d array idx) P fun _ => True := by
  refine Logs.bind (readReg_logs reads) fun ir _ => ?_
  split
  · exact Logs.bind (readSig_logs (sigs _)) fun _ _ => writeReg_logs writes
  · split
    · exact Logs.bind (readSig_logs (sigs _)) fun _ _ => writeReg_logs writes
    · exact Logs.bind world_logs fun _ _ => writeReg_logs writes

theorem elemOrX_logs {array : ArrayOperand} {iv : Value} {w : Nat} (sigs : ∀ x, P (.readSig x)) :
    Logs (elemOrX H D array iv w) P fun _ => True := by
  unfold elemOrX
  split
  · exact readSig_logs (sigs _)
  · exact Logs.pure trivial

theorem storeElemArm_logs {idx : RegId} {array : ArrayOperand} {store : SigId → Exec ι W Unit}
    (reads : P (.readReg idx)) (stored : ∀ eid, Logs (store eid) P fun _ => True) :
    Logs (storeElemArm H D array idx store) P fun _ => True := by
  refine Logs.bind (readReg_logs reads) fun iv _ => ?_
  split
  · exact stored _
  · exact Logs.pure trivial

theorem elemRangeArm_logs {f : W → ι → Value → Value → Value → W} {hi lo v : RegId} {eid : SigId}
    (reads : ∀ r ∈ [hi, lo, v], P (.readReg r)) (sigs : ∀ x, P (.writeSig x)) :
    Logs (elemRangeArm D f hi lo v eid : Exec ι W Unit) P fun _ => True :=
  Logs.bind (readReg_logs (reads _ (by simp))) fun _ _ =>
    Logs.bind (readReg_logs (reads _ (by simp))) fun _ _ =>
      Logs.bind (readReg_logs (reads _ (by simp))) fun _ _ => writeSig_logs (sigs _)

theorem rangeDynArm_logs {f : W → ι → Int → Int → Value → W} {sig : SigId} {hi lo v : RegId}
    (reads : ∀ r ∈ [hi, lo, v], P (.readReg r)) (readSigs : ∀ x, P (.readSig x)) (sigs : ∀ x, P (.writeSig x)) :
    Logs (rangeDynArm H D f sig hi lo v) P fun _ => True := by
  -- The two bounds are read first; a known range then reads the signal, the value, and writes the signal.
  refine Logs.bind (readReg_logs (reads _ (by simp))) fun h _ => ?_
  refine Logs.bind (readReg_logs (reads _ (by simp))) fun l _ => ?_
  split
  · refine Logs.bind (readSig_logs (readSigs _)) fun dropped _ => ?_
    split
    · exact Logs.pure trivial
    · exact Logs.bind (readReg_logs (reads _ (by simp))) fun _ _ => writeSig_logs (sigs _)
  · exact Logs.pure trivial

theorem bitDynArm_logs {f : W → ι → Nat → Value → W} {sig : SigId} {idx v : RegId} (index : P (.readReg idx))
    (reads : P (.readReg v)) (sigs : ∀ x, P (.writeSig x)) :
    Logs (bitDynArm H D f sig idx v) P fun _ => True := by
  refine Logs.bind (readReg_logs index) fun iv _ => ?_
  split
  · exact Logs.bind (readReg_logs reads) fun _ _ => writeSig_logs (sigs _)
  · exact Logs.pure trivial

theorem replicateArm_logs {d s : RegId} {n : Nat} (reads : P (.readReg s)) (writes : P (.writeReg d)) :
    Logs (replicateArm H d s n) P fun _ => True := by
  unfold replicateArm
  -- A count of zero writes without reading.
  split
  · exact writeReg_logs writes
  · split
    · split
      · exact Logs.pure trivial
      · exact Logs.bind (readReg_logs reads) fun _ _ => writeReg_logs writes
    · exact Logs.bind (readReg_logs reads) fun _ _ => writeReg_logs writes

theorem moveArm_logs {d s : RegId} (reads : P (.readReg s)) (writes : P (.writeReg d)) :
    Logs (moveArm d s : Exec ι W Unit) P fun _ => True := by
  unfold moveArm
  split
  · exact Logs.pure trivial
  · exact Logs.bind (readReg_logs reads) fun _ _ => writeReg_logs writes

/-- A select reads its three registers; beside its destination it may write those of its branches. -/
theorem selectPick_logs {d cond thenR elseR : RegId} (reads : ∀ r ∈ [cond, thenR, elseR], P (.readReg r))
    (writes : P (.writeReg d)) : Logs (selectPick H d cond thenR elseR) P fun _ => True := by
  refine Logs.bind (readReg_logs (reads _ (by simp))) fun c _ => ?_
  split
  · exact Logs.bind (readReg_logs (reads _ (by simp))) fun _ _ =>
      Logs.bind (readReg_logs (reads _ (by simp))) fun _ _ => writeReg_logs writes
  · split
    · exact Logs.bind (readReg_logs (reads _ (by simp))) fun _ _ => writeReg_logs writes
    · exact Logs.bind (readReg_logs (reads _ (by simp))) fun _ _ => writeReg_logs writes

theorem selectWiden_logs {thenR elseR : RegId} (reads : ∀ r ∈ [thenR, elseR], P (.readReg r))
    (writes : ∀ r ∈ [thenR, elseR], P (.writeReg r)) : Logs (selectWiden H thenR elseR) P fun _ => True := by
  refine Logs.bind (readReg_logs (reads _ (by simp))) fun t _ => ?_
  refine Logs.bind (readReg_logs (reads _ (by simp))) fun e _ => ?_
  split
  · exact writeReg_logs (writes _ (by simp))
  · split
    · exact writeReg_logs (writes _ (by simp))
    · exact Logs.pure trivial

/-- A select of one register widens nothing: it cannot be a fill and no fill. -/
theorem selectWiden_same (r : RegId) (vm : Vm W) :
    (selectWiden H r r : Exec ι W Unit) vm = ⟨(), vm, [.readReg r, .readReg r]⟩ := by
  simp [selectWiden, readReg]

/-- A member's collection reads at most the handle's register. -/
theorem collRef_logs {handle : RegId} {member : String} (reads : P (.readReg handle)) :
    Logs (collRef handle member : Exec ι W CollRef) P fun _ => True := by
  unfold collRef
  split
  · exact Logs.pure trivial
  · split
    · exact Logs.pure trivial
    · exact Logs.bind (readReg_logs reads) fun _ _ => Logs.pure trivial

/-- A call reads its argument range; it may write any register back. -/
theorem callArm_logs {d : RegId} {callee : Callee} {argStart nArgs : Nat}
    (reads : ∀ r ∈ Insn.argRegs argStart nArgs, P (.readReg r)) (writes : ∀ r, P (.writeReg r)) :
    Logs (callArm H d callee argStart nArgs) P fun _ => True :=
  Logs.bind (readArgs_logs reads) fun _ _ => Logs.bind world_logs fun _ _ =>
    Logs.bind (settle_logs writes) fun _ _ => Logs.bind (writeBack_logs writes) fun _ _ => writeReg_logs (writes _)

theorem castStore_logs {c : CastInsn Expr} {v : Value} (dest : ∀ r, c.dest = .reg r → P (.readReg r))
    (handle : ∀ h field, c.dest = .member h field → P (.readReg h)) (writes : ∀ r, P (.writeReg r)) :
    Logs (castStore H c v) P fun _ => True := by
  -- The destination says which register is read: its own, the handle, or none.
  unfold castStore
  split
  · rename_i r route
    exact Logs.bind (readReg_logs (dest r route)) fun _ _ => writeReg_logs (writes r)
  · rename_i h field route
    exact Logs.bind (readReg_logs (handle h field route)) fun _ _ =>
      Logs.bind world_logs fun _ _ => setWorld_logs
  · exact Logs.bind world_logs fun _ _ => setWorld_logs

theorem castArm_logs {c : CastInsn Expr} {src out : RegId} (source : P (.readReg src))
    (dest : ∀ r, c.dest = .reg r → P (.readReg r)) (handle : ∀ h field, c.dest = .member h field → P (.readReg h))
    (writes : ∀ r, P (.writeReg r)) : Logs (castArm H c src out) P fun _ => True := by
  refine Logs.bind (readReg_logs source) fun v _ => Logs.bind world_logs fun w _ => ?_
  split
  · exact Logs.bind (castStore_logs dest handle writes) fun _ _ => writeReg_logs (writes out)
  · exact Logs.bind setWorld_logs fun _ _ => writeReg_logs (writes out)

theorem assignPendingArm_logs {key : String} {v : RegId} (reads : P (.readReg v)) (writes : ∀ r, P (.writeReg r)) :
    Logs (assignPendingArm H key v) P fun _ => True := by
  refine Logs.bind world_logs fun w _ => Logs.bind (settle_logs writes) fun _ _ => ?_
  split
  · exact Logs.pure trivial
  · exact Logs.bind (readReg_logs reads) fun _ _ => Logs.bind world_logs fun _ _ => settle_logs writes

theorem foreachNextArm_logs {ok var : RegId} {slot : Nat} (writes : ∀ r, P (.writeReg r)) :
    Logs (foreachNextArm H ok slot var) P fun _ => True := by
  refine Logs.bind world_logs fun w _ => ?_
  split
  · exact writeReg_logs (writes _)
  · exact Logs.bind (writeReg_logs (writes _)) fun _ _ =>
      Logs.bind (writeReg_logs (writes _)) fun _ _ => setWorld_logs

/-- An interpreted fragment reads and writes the registers of its locals. -/
theorem stmtArm_logs {p : StmtPayload Stmt} (reads : ∀ r, P (.readReg r)) (writes : ∀ r, P (.writeReg r)) :
    Logs (stmtArm H p) P fun _ => True :=
  Logs.bind (frameOf_logs reads) fun _ _ => Logs.bind world_logs fun _ _ =>
    Logs.bind (settle_logs writes) fun _ _ => popFrame_logs reads writes

theorem exprArm_logs {p : ExprPayload Expr} {d : RegId} {ctxw : Nat} (reads : ∀ r, P (.readReg r))
    (writes : ∀ r, P (.writeReg r)) : Logs (exprArm H p d ctxw) P fun _ => True :=
  Logs.bind (frameOf_logs reads) fun _ _ => Logs.bind world_logs fun _ _ =>
    Logs.bind (settle_logs writes) fun _ _ => Logs.bind (popFrame_logs reads writes) fun _ _ => writeReg_logs (writes d)

end Arms

section Reports

/-- Where a run can stand after an instruction. -/
def Next.In (targets : List Nat) : Next → Prop
  | .goto pc | .suspend pc => pc ∈ targets
  | .stop => True

/-- An instruction may write a register that the compiler neither takes for its destination, nor for modified in place,
nor hides behind an opaque instruction. After a store to a collection the design settles, and the blocks it runs share
the register file. -/
def Insn.UnreportedWrite (r : RegId) : Insn Stmt Expr → Prop
  | loadClassMember d _ _ | loadClassStatic d _ | loadCollElem d _ _ _ => r = d
  | select _ _ thenR elseR => thenR ≠ elseR ∧ (r = thenR ∨ r = elseR)
  | storeCollElem _ _ _ _ | assignPendingColl _ _ => True
  | _ => False

/-- A written register is the destination, one modified in place, or one of an opaque instruction. -/
def Insn.WriteReported (insn : Insn Stmt Expr) (r : RegId) : Prop :=
  insn.destReg = some r ∨ insn.inPlaceReg = some r ∨ insn.isOpaqueInsn = true

/-- What an access of an instruction can be: a reported read, a reported write or one of the writes left out. -/
def Insn.Traffic (insn : Insn Stmt Expr) : Access ι → Prop
  | .readReg r => insn.insnReadsReg r = true
  | .writeReg r => insn.WriteReported r ∨ insn.UnreportedWrite r
  | .readSig _ | .writeSig _ => True

variable {H : Host Stmt Expr ι W} {D : Numbering ι}

/-- An instruction that falls through follows its only successor. -/
theorem fall_follows {pc : Nat} {arm : Exec ι W Unit} {targets : List Nat} (next : pc + 1 ∈ targets)
    (met : Logs arm P fun _ => True) : Logs (fall pc arm) P (Next.In targets) :=
  (fall_logs met).mono (fun _ holds => holds) fun _ same => by
    subst same
    exact next

/-- An instruction that stops a finished run follows its only successor, too. -/
theorem orFinish_follows {pc : Nat} {arm : Exec ι W Unit} {targets : List Nat} (next : pc + 1 ∈ targets)
    (met : Logs arm P fun _ => True) : Logs (orFinish H pc arm) P (Next.In targets) := by
  refine Logs.bind met fun _ _ => Logs.bind world_logs fun w _ => ?_
  split
  · exact Logs.pure trivial
  · exact Logs.pure next

/-- A branch goes to its target or falls through. -/
theorem branchUnless_in (pc target : Nat) (holds : Bool) : (branchUnless pc target holds).In [pc + 1, target] := by
  cases holds <;> simp [branchUnless, Next.In]

/-- A jump goes to its target. -/
theorem jumpTo_logs {pc target : Nat} {targets : List Nat} (next : target ∈ targets) :
    Logs (jumpTo H pc target : Exec ι W Next) P (Next.In targets) := by
  refine Logs.bind world_logs fun w _ => ?_
  split
  · exact Logs.bind setWorld_logs fun _ _ => Logs.pure trivial
  · exact Logs.pure next

/-- A table jump goes to an entry of its table or to its default. -/
theorem caseJumpTarget_mem (jump : CaseJumpData) (s : Value) :
    caseJumpTarget H jump s ∈ jump.default :: jump.table.reverse := by
  -- The default is in front of the table, and a hit is an entry of the table.
  unfold caseJumpTarget
  split
  · simp
  · split
    · rename_i i _
      cases entry : jump.table[i]? with
      | none => simp
      | some t => simp [List.mem_of_getElem? entry]
    · simp

/-- A masked table jump goes to an entry of its table or to the path of an x or z window. -/
theorem caseMaskNext_in (mj : CaseMaskJumpData) (s : Value) :
    (caseMaskNext H mj s).In (mj.xzPath :: mj.table.reverse) := by
  -- An unknown window goes to the x path; a known one picks an entry of the table, or none.
  unfold caseMaskNext
  split
  · split
    · simp [Next.In]
    · split
      · split
        · rename_i t entry
          simp [Next.In, List.mem_of_getElem? entry]
        · trivial
      · simp [Next.In]
  · simp [Next.In]

end Reports

end Xezim.Bytecode
