import Xezim.Bytecode.Machine

/-! The arms of the bytecode executor, one for each instruction, and its runs. -/

namespace Xezim.Bytecode

open Arrays (ArrayOperand resolveBytecodeArrayElem bytecodeArrayFirstId)

variable {Stmt Expr ι W : Type} (H : Host Stmt Expr ι W) (D : Numbering ι)

section Arms

/-- A register computed from another one. -/
def unArm (f : Value → Value) (d s : RegId) : Exec ι W Unit := do
  let v ← readReg s
  writeReg d (f v)

/-- A register computed from two others. -/
def binArm (f : Value → Value → Value) (d l r : RegId) : Exec ι W Unit := do
  let a ← readReg l
  let b ← readReg r
  writeReg d (f a b)

/-- A register computed from a signal. -/
def loadSigArm (f : Value → Value) (d : RegId) (sig : SigId) : Exec ι W Unit := do
  let v ← readSig D sig H.signal
  writeReg d (f v)

/-- A signal changed by one register. -/
def storeSigArm (f : W → ι → Value → W) (sig : SigId) (v : RegId) : Exec ι W Unit := do
  let val ← readReg v
  writeSig D sig fun w x => f w x val

/-- The index of an element load: an unknown one becomes a number meant to lie below every array. -/
def elemIndex (v : Value) : Int :=
  if H.hasXz v then -2 ^ 63 else (BitVec.ofNat 64 ((H.toU64 v).getD 0)).toInt

/-- `Insn::LoadArrayElem`: a miss reads x at the width of an element. -/
def loadArrayElemArm (d : RegId) (array : ArrayOperand) (idx : RegId) : Exec ι W Unit := do
  let ir ← readReg idx
  match resolveBytecodeArrayElem D.toArrayDesign array (elemIndex H ir) with
  | some eid => do
    let v ← readSig D eid H.elem
    writeReg d v
  | none =>
    match bytecodeArrayFirstId D.toArrayDesign array with
    | some first => do
      let v ← readSig D first fun w x => H.elemMiss w (some x)
      writeReg d v
    | none => do
      let w ← world
      writeReg d (H.elemMiss w none)

/-- The element value a fused memory read queues, x for an unknown index or one outside the bounds. -/
def elemOrX (array : ArrayOperand) (iv : Value) (w : Nat) : Exec ι W Value :=
  match (H.toIndex iv).bind (resolveBytecodeArrayElem D.toArrayDesign array) with
  | some eid => readSig D eid fun s x => H.elemForAssign s x w
  | none => return H.new (max w 1)

/-- A store to an array element, nothing for an unknown index or one outside the bounds. -/
def storeElemArm (array : ArrayOperand) (idx : RegId) (store : SigId → Exec ι W Unit) : Exec ι W Unit := do
  let iv ← readReg idx
  match (H.toIndex iv).bind (resolveBytecodeArrayElem D.toArrayDesign array) with
  | some eid => store eid
  | none => pure ()

/-- The rest of an array element's range store, once the element is known. -/
def elemRangeArm (f : W → ι → Value → Value → Value → W) (hi lo v : RegId) (eid : SigId) : Exec ι W Unit := do
  let h ← readReg hi
  let l ← readReg lo
  let val ← readReg v
  writeSig D eid fun w x => f w x h l val

/-- A range store with bounds from registers: an x or z bound and a range outside the signal drop it, the value
unread. -/
def rangeDynArm (f : W → ι → Int → Int → Value → W) (sig : SigId) (hi lo v : RegId) : Exec ι W Unit := do
  let h ← readReg hi
  let l ← readReg lo
  match H.toIndex h, H.toIndex l with
  | some hiN, some loN => do
    let dropped ← readSig D sig fun w x => H.rangeDropped w x hiN loN
    if dropped then pure () else
      let val ← readReg v
      writeSig D sig fun w x => f w x hiN loN val
  | _, _ => pure ()

/-- A bit store with an index from a register, nothing for an unknown index. -/
def bitDynArm (f : W → ι → Nat → Value → W) (sig : SigId) (idx v : RegId) : Exec ι W Unit := do
  let iv ← readReg idx
  match H.dynBitIndex iv with
  | some i => do
    let val ← readReg v
    writeSig D sig fun w x => f w x i val
  | none => pure ()

/-- A fill branch of a select takes the width of the other branch, in its own register. -/
def selectWiden (thenR elseR : RegId) : Exec ι W Unit := do
  let t ← readReg thenR
  let e ← readReg elseR
  if t.isFill ∧ ¬e.isFill then writeReg thenR (H.resize t e.width)
  else if e.isFill ∧ ¬t.isFill then writeReg elseR (H.resize e t.width)
  else pure ()

/-- The branch a select takes, both merged under an unknown condition; a real one is not merged. -/
def selectPick (d cond thenR elseR : RegId) : Exec ι W Unit := do
  let c ← readReg cond
  if H.hasUnknown c then
    let tv ← readReg thenR
    let ev ← readReg elseR
    writeReg d (if tv.isReal || ev.isReal then ev else H.mergeUnknown tv ev)
  else if H.isTrue c then
    let tv ← readReg thenR
    writeReg d tv
  else
    let ev ← readReg elseR
    writeReg d ev

/-- `Insn::Select`. -/
def selectArm (d cond thenR elseR : RegId) : Exec ι W Unit := do
  selectWiden H thenR elseR
  selectPick H d cond thenR elseR

/-- `Insn::Replicate`: no copy leaves a zero of width 0, one copy moves the register. -/
def replicateArm (d s : RegId) (n : Nat) : Exec ι W Unit := do
  if n = 0 then writeReg d (H.fromU64 0 0)
  else if n = 1 then
    if d = s then pure ()
    else
      let v ← readReg s
      writeReg d v
  else
    let v ← readReg s
    writeReg d (H.replicate v n)

/-- `Insn::Move`. -/
def moveArm (d s : RegId) : Exec ι W Unit := do
  if d = s then pure ()
  else
    let v ← readReg s
    writeReg d v

/-- `Insn::BinOpConst`: the operator of a fused operation. -/
def binOpConstFn : BinOpConstKind → Value → Value → Value
  | .add => H.add
  | .eq => H.isEqual
  | .caseEq => H.caseEq
  | .xor => H.bitwiseXor
  | .and => H.bitwiseAnd
  | .or => H.bitwiseOr
  | .mul => H.mul
  | .sub => H.sub

/-- The comparison of a fused compare and branch. -/
def cmpFn : CmpKind → Value → Value → Value
  | .eq => H.isEqual
  | .neq => H.isNotEqual
  | .caseEq => H.caseEq
  | .lt => H.lessThan
  | .leq => H.lessEqual
  | .gt => H.greaterThan
  | .geq => H.greaterEqual

/-- The target of a branch that is taken unless its condition holds. -/
def branchUnless (pc target : Nat) (holds : Bool) : Next := if holds then .goto (pc + 1) else .goto target

/-- A jump; a backward one is where an interrupt stops a loop. -/
def jumpTo (pc target : Nat) : Exec ι W Next := do
  let w ← world
  if target ≤ pc ∧ H.loopStopRequested w then
    setWorld (H.takeInterrupt w)
    return .stop
  else return .goto target

/-- `Insn::CaseJump`: the target of a selector. -/
def caseJumpTarget (jump : CaseJumpData) (s : Value) : Nat :=
  if H.hasXz s then jump.default
  else match H.toU64 s with
    | some i => (jump.table[i]?).getD jump.default
    | none => jump.default

/-- `Insn::CaseMaskJump`: where a selector goes on; a table shorter than its window panics. -/
def caseMaskNext (mj : CaseMaskJumpData) (s : Value) : Next :=
  match H.inlineBits s with
  | some (v, xz) =>
    if s.isFill then .goto mj.xzPath
    else if ((xz % 2 ^ min s.width 64) >>> mj.lo) % 2 ^ mj.width = 0 then
      match mj.table[((v % 2 ^ min s.width 64) >>> mj.lo) % 2 ^ mj.width]? with
      | some t => .goto t
      | none => .stop
    else .goto mj.xzPath
  | none => .goto mj.xzPath

/-- A member's collection: local, of `this` when the handle register is 0, or of the handle in its register. -/
def collRef (handle : RegId) (member : String) : Exec ι W CollRef := do
  if member.startsWith "\x01" then return .localColl (member.drop 1).toString
  else if handle = 0 then return .bare member
  else
    let h ← readReg handle
    return .dotted h member

/-- A call: its arguments are read from a range of registers, which it may write back, and its result goes to its
own register. -/
def callArm (d : RegId) (callee : Callee) (argStart nArgs : Nat) : Exec ι W Unit := do
  let args ← readArgs H.toValueFns argStart nArgs
  let w ← world
  let (result, back, left) := H.call w callee args
  settle left
  writeBack argStart back
  writeReg d result

/-- The destination of a dynamic cast takes its value. -/
def castStore (c : CastInsn Expr) (v : Value) : Exec ι W Unit :=
  match c.dest with
  | .reg r => do
    let prev ← readReg r
    writeReg r (H.castFit prev v)
  | .member handle field => do
    let h ← readReg handle
    setWorld (H.storeClassMember (← world) h v field)
  | .scope => do
    setWorld (H.assignValue (← world) c.expr v)

/-- `Insn::Cast`: the value goes to its destination when the types agree, the verdict to its own register. -/
def castArm (c : CastInsn Expr) (src out : RegId) : Exec ι W Unit := do
  let v ← readReg src
  let w ← world
  if H.castOk w c.expr v c.declClass then
    castStore H c v
    writeReg out (H.fromU64 1 32)
  else
    setWorld (if c.stmtForm then H.castFailed w else w)
    writeReg out (H.fromU64 0 32)

/-- `Insn::AssignPendingColl`: the call's result is read only when it handed no collection back. -/
def assignPendingArm (key : String) (v : RegId) : Exec ι W Unit := do
  let w ← world
  let (left, copied) := H.assignPending w key
  settle left
  if copied then pure () else
    let val ← readReg v
    settle (H.assignPendingValue (← world) key val)

/-- `Insn::StmtFallback`. -/
def stmtArm (p : StmtPayload Stmt) : Exec ι W Unit := do
  let frame ← frameOf H.toValueFns p.locals
  let (locals, left) := H.execStatement (← world) frame p.stmt
  settle left
  popFrame H.toValueFns p.locals locals

/-- `Insn::EvalExprFallback`. -/
def exprArm (p : ExprPayload Expr) (d : RegId) (ctxw : Nat) : Exec ι W Unit := do
  let frame ← frameOf H.toValueFns p.locals
  let (v, locals, left) := H.evalExpr (← world) frame p.expr ctxw
  settle left
  popFrame H.toValueFns p.locals locals
  writeReg d v

/-- `Insn::ForeachNext`. -/
def foreachNextArm (ok : RegId) (slot : Nat) (var : RegId) : Exec ι W Unit := do
  match H.foreachNext (← world) slot with
  | none => writeReg ok (H.fromU64 0 32)
  | some (v, w) => do
    writeReg ok (H.fromU64 1 32)
    writeReg var v
    setWorld w

/-- An instruction after which a finished run stops. -/
def orFinish (pc : Nat) (arm : Exec ι W Unit) : Exec ι W Next := do
  arm
  let w ← world
  if H.finished w then return .stop else return .goto (pc + 1)

end Arms

/-- `exec_class_opcode`, and the arms of the class instructions that the common loop keeps. -/
def execClassOpcode : Insn Stmt Expr → Exec ι W Unit
  | .callMethod d handle name a n => do
    let h ← readReg handle
    callArm H d (.method h name) a n
  | .callScopedMethod d this names a n => do
    let h ← readReg this
    callArm H d (.scoped h names) a n
  | .callFreeFunction d name a n => callArm H d (.free name) a n
  | .callStaticScoped d names a n => callArm H d (.staticScoped names) a n
  | .callCollMethod d handle names a n bare => do
    let h ← readReg handle
    callArm H d (.coll h names bare) a n
  | .loadClassStatic d names => do writeReg d (H.classStatic (← world) names)
  | .storeClassStatic names src => do
    let v ← readReg src
    setWorld (H.storeClassStatic (← world) names v)
  | .constructObject d className a n => do
    let args ← readArgs H.toValueFns a n
    let (v, left) := H.construct (← world) className args
    settle left
    writeReg d v
  | .loadCollElem d handle member idx => do
    let i ← readReg idx
    let coll ← collRef handle member
    writeReg d (H.collElem (← world) coll i)
  | .storeCollElem handle member idx v => do
    let i ← readReg idx
    let val ← readReg v
    let coll ← collRef handle member
    settle (H.storeCollElem (← world) coll i val)
  | .cast c src out => castArm H c src out
  | .foreachKeys slot handle member => do
    let coll ← collRef handle member
    setWorld (H.foreachKeys (← world) slot coll)
  | .retCollection a n => do
    let args ← readArgs H.toValueFns a n
    setWorld (H.retCollection (← world) args)
  | .assignPendingColl key v => assignPendingArm H key v
  | _ => pure ()

/-- One instruction of `exec_insns` at a position of the stream. -/
def execInsn (pc : Nat) : Insn Stmt Expr → Exec ι W Next
  | .waitDelayReg r => do
    let v ← readReg r
    setWorld (H.waitDelay (← world) v)
    return .suspend (pc + 1)
  | .waitEdge ix => do
    setWorld (H.waitEdge (← world) ix)
    return .suspend (pc + 1)
  | .caseLut d src lut => fall pc (unArm (fun v =>
      if H.hasXz v then lut.default
      else (((H.toU64 v).bind fun i => lut.table[i]?).getD lut.default)) d src)
  | .loadConst d k => fall pc (writeReg d k)
  | .loadSignal d sig => fall pc (loadSigArm H D id d sig)
  | .loadSignalSigned d sig => fall pc (loadSigArm H D (fun v => { v with isSigned := true }) d sig)
  | .loadProcessLocal d name => fall pc do writeReg d (H.processLocal (← world) name)
  | .loadProcessStatus d handle => fall pc do
    let h ← readReg handle
    writeReg d (H.processStatus (← world) h)
  | .loadClassMember d handle field => fall pc do
    let h ← readReg handle
    writeReg d (H.classMember (← world) h field)
  | .storeClassMember handle v field => fall pc do
    let h ← readReg handle
    let val ← readReg v
    setWorld (H.storeClassMember (← world) h val field)
  | .callMethod d h name a n => orFinish H pc (execClassOpcode H (.callMethod d h name a n))
  | .callScopedMethod d t names a n => orFinish H pc (execClassOpcode H (.callScopedMethod d t names a n))
  | .callFreeFunction d name a n => orFinish H pc (execClassOpcode H (.callFreeFunction d name a n))
  | .callStaticScoped d names a n => orFinish H pc (execClassOpcode H (.callStaticScoped d names a n))
  | .loadClassStatic d names => orFinish H pc (execClassOpcode H (.loadClassStatic d names))
  | .storeClassStatic names src => orFinish H pc (execClassOpcode H (.storeClassStatic names src))
  | .constructObject d name a n => orFinish H pc (execClassOpcode H (.constructObject d name a n))
  | .callCollMethod d h names a n bare => orFinish H pc (execClassOpcode H (.callCollMethod d h names a n bare))
  | .loadCollElem d h member idx => orFinish H pc (execClassOpcode H (.loadCollElem d h member idx))
  | .storeCollElem h member idx v => orFinish H pc (execClassOpcode H (.storeCollElem h member idx v))
  | .cast c src out => orFinish H pc (execClassOpcode H (.cast c src out))
  | .foreachKeys slot h member => orFinish H pc (execClassOpcode H (.foreachKeys slot h member))
  | .retCollection a n => orFinish H pc (execClassOpcode H (.retCollection a n))
  | .assignPendingColl key v => orFinish H pc (execClassOpcode H (.assignPendingColl key v))
  | .foreachNext ok slot var => fall pc (foreachNextArm H ok slot var)
  | .resize r w => fall pc do
    let v ← readReg r
    if v.width ≠ w then writeReg r (H.resize v w) else pure ()
  | .add d l r => fall pc (binArm H.add d l r)
  | .sub d l r => fall pc (binArm H.sub d l r)
  | .mul d l r => fall pc (binArm H.mul d l r)
  | .div d l r => fall pc (binArm H.div d l r)
  | .mod d l r => fall pc (binArm H.modulo d l r)
  | .bitAnd d l r => fall pc (binArm H.bitwiseAnd d l r)
  | .bitOr d l r => fall pc (binArm H.bitwiseOr d l r)
  | .bitXor d l r => fall pc (binArm H.bitwiseXor d l r)
  | .bitXnor d l r => fall pc (binArm H.bitwiseXnor d l r)
  | .logAnd d l r => fall pc (binArm H.logicAnd d l r)
  | .logOr d l r => fall pc (binArm H.logicOr d l r)
  | .eq d l r => fall pc (binArm H.isEqual d l r)
  | .neq d l r => fall pc (binArm H.isNotEqual d l r)
  | .caseEq d l r => fall pc (binArm H.caseEq d l r)
  | .binOpConstAdd2 a => fall pc do
    unArm (fun v => H.add v a.k1) a.d1 a.s1
    unArm (fun v => H.add v a.k2) a.d2 a.s2
  | .binOpConst d s k kind => fall pc (unArm (fun v => binOpConstFn H kind v k) d s)
  | .casezEq d l r => fall pc (binArm H.casezEq d l r)
  | .casexEq d l r => fall pc (binArm H.casexEq d l r)
  | .lt d l r => fall pc (binArm H.lessThan d l r)
  | .leq d l r => fall pc (binArm H.lessEqual d l r)
  | .gt d l r => fall pc (binArm H.greaterThan d l r)
  | .geq d l r => fall pc (binArm H.greaterEqual d l r)
  | .shl d l r => fall pc (binArm H.shiftLeft d l r)
  | .shr d l r => fall pc (binArm H.shiftRight d l r)
  | .aShr d l r => fall pc (binArm H.arithShiftRight d l r)
  | .bitNot d s => fall pc (unArm H.bitwiseNot d s)
  | .logNot d s => fall pc (unArm H.logicNot d s)
  | .negate d s => fall pc (unArm H.negate d s)
  | .reduceAnd d s => fall pc (unArm H.reduceAnd d s)
  | .reduceOr d s => fall pc (unArm H.reduceOr d s)
  | .reduceXor d s => fall pc (unArm H.reduceXor d s)
  | .bitSelect d base idx => fall pc do
    let iv ← readReg idx
    match (H.toIndex iv).filter (0 ≤ ·) with
    | none => writeReg d (H.new 1)
    | some i => do
      let b ← readReg base
      writeReg d (H.bitSelect b i.toNat)
  | .bitSelectConst d base idx => fall pc (unArm (fun v => H.bitSelect v idx) d base)
  | .rangeSelectW d base idx w up => fall pc do
    let iv ← readReg idx
    match H.toIndex iv with
    | none => writeReg d (H.new w)
    | some n => do
      let i := (BitVec.ofInt 32 n).toInt
      let b ← readReg base
      writeReg d (if up then H.oobRangeSelect b (i + w - 1) i else H.oobRangeSelect b i (i - w + 1))
  | .rangeSelect d base l r => fall pc do
    let av ← readReg l
    let bv ← readReg r
    match H.toIndex av, H.toIndex bv with
    | some a, some b => do
      let a := (BitVec.ofInt 32 a).toInt
      let b := (BitVec.ofInt 32 b).toInt
      let v ← readReg base
      writeReg d (H.oobRangeSelect v (max a b) (min a b))
    | _, _ =>
      let a := (BitVec.ofNat 32 ((H.toU64 av).getD 0)).toInt
      let b := (BitVec.ofNat 32 ((H.toU64 bv).getD 0)).toInt
      writeReg d (H.new (((a - b).natAbs + 1) % 2 ^ 32))
  | .rangeSelectConst d base l r => fall pc (unArm (fun v =>
      if max l r ≥ v.width then H.oobRangeSelect v (max l r : Nat) (min l r : Nat) else H.rangeSelect v l r) d base)
  | .loadSignalRangeDyn d sig lo w => fall pc do
    let lv ← readReg lo
    match H.toIndex lv with
    | some n => do
      let i := (BitVec.ofInt 32 n).toInt
      let v ← readSig D sig H.signal
      writeReg d (H.oobRangeSelect v (i + w - 1) i)
    | none => writeReg d (H.new w)
  | .loadSignalRange d sig l r => fall pc (loadSigArm H D (fun v =>
      if max l r ≥ v.width then H.oobRangeSelect v (max l r : Nat) (min l r : Nat) else H.rangeSelect v l r) d sig)
  | .loadSignalBit d sig idx => fall pc (loadSigArm H D (fun v => H.bitSelect v idx) d sig)
  | .concat d parts => fall pc do
    let vs ← parts.mapM readReg
    writeReg d (H.concat vs)
  | .replicate d s n => fall pc (replicateArm H d s n)
  | .branchIfFalse c target => do
    let v ← readReg c
    return branchUnless pc target (H.isTrue v)
  | .moveResize d s w => fall pc (unArm (fun v => if v.width ≠ w then H.resize v w else v) d s)
  | .cmpBranchConst kind src k _ target => do
    let a ← readReg src
    match kind with
    | .eq => return branchUnless pc target (H.isTrue (H.isEqual a k))
    | .caseEq => return branchUnless pc target (H.isTrue (H.caseEq a k))
    -- Only equality kinds are emitted; any other panics.
    | _ => return .stop
  | .cmpBranch kind l r _ target => do
    let a ← readReg l
    let b ← readReg r
    return branchUnless pc target (H.isTrue (cmpFn H kind a b))
  | .nbaAssignConst sig k _ => fall pc (writeSig D sig fun w x => H.nbaAssignConst w x k)
  | .branchUnlessZero c target => do
    let v ← readReg c
    if H.isNonzero v ≠ some false then jumpTo H pc target else return .goto (pc + 1)
  | .branchIfSignalFalse sig target bit => do
    let v ← readSig D sig H.signal
    return branchUnless pc target (if bit = 2 ^ 32 - 1 then H.isTrue v else H.isTrue (H.bitSelect v bit))
  | .select d c t e => fall pc (selectArm H d c t e)
  | .jump target => jumpTo H pc target
  | .caseJump src cj => do
    let s ← readReg src
    return .goto (caseJumpTarget H cj s)
  | .caseMaskJump src mj => do
    let s ← readReg src
    return caseMaskNext H mj s
  | .format d f => fall pc do
    let args ← f.args.mapM readReg
    writeReg d (H.execFormat f.segs args)
  | .strOp d kind args => fall pc do
    let vs ← args.mapM readReg
    writeReg d (H.execStrOp kind vs)
  | .nbaAssign sig v w => fall pc (storeSigArm D (fun s x val => H.nbaAssign s x val w) sig v)
  | .nbaAssignArrayRead sig array idxSig w => fall pc do
    let iv ← readSig D idxSig H.signal
    let val ← elemOrX H D array iv w
    writeSig D sig fun s x => H.nbaAssign s x val w
  | .nbaAssignRange sig hi lo v => fall pc do
    let dropped ← readSig D sig fun w x => H.nbaRangeDropped w x hi lo
    if dropped then pure () else storeSigArm D (fun w x val => H.nbaAssignRange w x hi lo val) sig v
  | .nbaAssignRangeDyn sig hi lo v => fall pc (rangeDynArm H D H.nbaAssignRangeDyn sig hi lo v)
  | .nbaAssignBitDyn sig idx v => fall pc (bitDynArm H D H.nbaAssignBitDyn sig idx v)
  | .evalExprFallback p d ctxw => orFinish H pc (exprArm H p d ctxw)
  | .stmtFallback p => orFinish H pc (stmtArm H p)
  | .initLocalColl s _ => fall pc do
    settle (H.execStatement (← world) [] s).2
  | .blockingAssign sig v w => fall pc do
    let forced ← readSig D sig H.isForced
    if forced then pure () else storeSigArm D (fun s x val => H.blockingAssign s x val w) sig v
  | .blockingAssignString sig v => fall pc do
    let forced ← readSig D sig H.isForced
    if forced then pure () else storeSigArm D H.blockingAssignString sig v
  | .blockingAssignBitDyn sig idx v => fall pc (bitDynArm H D H.blockingAssignBitDyn sig idx v)
  | .blockingAssignRange sig hi lo v => fall pc (storeSigArm D
    (fun w x val => H.blockingAssignRange w x hi lo val) sig v)
  | .blockingAssignRangeDyn sig hi lo v => fall pc (rangeDynArm H D H.blockingAssignRangeDyn sig hi lo v)
  | .loadArrayElem d array idx => fall pc (loadArrayElemArm H D d array idx)
  | .nbaAssignArray array idx v w => fall pc (storeElemArm H D array idx fun eid =>
      storeSigArm D (fun s x val => H.nbaAssignArray s x val w) eid v)
  | .blockingAssignArray array idx v w => fall pc (storeElemArm H D array idx fun eid =>
      storeSigArm D (fun s x val => H.blockingAssignArray s x val w) eid v)
  | .nbaAssignArrayRange array idx hi lo v => fall pc (storeElemArm H D array idx
      (elemRangeArm D H.nbaAssignArrayRange hi lo v))
  | .blockingAssignArrayRange array idx hi lo v => fall pc (storeElemArm H D array idx
      (elemRangeArm D H.blockingAssignArrayRange hi lo v))
  | .move d s => fall pc (moveArm d s)
  | .setSigned r => fall pc (unArm (fun v => { v with isSigned := true }) r r)
  | .clearSigned r => fall pc (unArm (fun v => { v with isSigned := false }) r r)
  | .dropXz r => fall pc (unArm H.dropXz r r)
  | .pow d l r => fall pc (binArm H.power d l r)
  | .covHit c => fall pc do setWorld (H.covCount (← world) c)
  | .nop => fall pc (pure ())

/-- `exec_insns`: at most `n` instructions of a stream from a position; the answer is where the run then stands. -/
def execInsns (insns : List (Insn Stmt Expr)) : Nat → Nat → Exec ι W Next
  | 0, pc => return .goto pc
  | n + 1, pc =>
    match insns[pc]? with
    | none => return .stop
    | some insn => do
      match ← execInsn H D pc insn with
      | .goto pc' => execInsns insns n pc'
      | .suspend pc' => return .suspend pc'
      | .stop => return .stop

end Xezim.Bytecode
