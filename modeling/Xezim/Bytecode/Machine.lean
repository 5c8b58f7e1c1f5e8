import Xezim.Bytecode.Metadata
import Xezim.Lib.Traced

/-! The bytecode executor, with every access it makes to a register and through a signal id. -/

namespace Xezim.Bytecode

open Arrays (ArrayOperand ArrayDesign resolveBytecodeArrayElem bytecodeArrayFirstId)

/-- An access of the executor: to a register, or to what a signal id stands for. -/
inductive Access (ι : Type) where
  | readReg (r : RegId)
  | writeReg (r : RegId)
  | readSig (sig : ι)
  | writeSig (sig : ι)
  deriving DecidableEq

/-- The register file, and everything else the executor changes. -/
structure Vm (W : Type) where
  regs : RegId → Value
  /-- `vm_regs.len()`, which register numbers bound. -/
  numRegs : Nat
  numRegs_le : numRegs ≤ regLimit
  world : W

instance : Inhabited Value := ⟨⟨1, 0, 0, false, false, false⟩⟩

/-- The functions of values that the executor calls, each with its inline fast path. -/
structure ValueFns where
  resize : Value → Nat → Value
  add : Value → Value → Value
  sub : Value → Value → Value
  mul : Value → Value → Value
  div : Value → Value → Value
  modulo : Value → Value → Value
  bitwiseAnd : Value → Value → Value
  bitwiseOr : Value → Value → Value
  bitwiseXor : Value → Value → Value
  bitwiseXnor : Value → Value → Value
  logicAnd : Value → Value → Value
  logicOr : Value → Value → Value
  isEqual : Value → Value → Value
  isNotEqual : Value → Value → Value
  caseEq : Value → Value → Value
  casezEq : Value → Value → Value
  casexEq : Value → Value → Value
  lessThan : Value → Value → Value
  lessEqual : Value → Value → Value
  greaterThan : Value → Value → Value
  greaterEqual : Value → Value → Value
  shiftLeft : Value → Value → Value
  shiftRight : Value → Value → Value
  arithShiftRight : Value → Value → Value
  power : Value → Value → Value
  bitwiseNot : Value → Value
  logicNot : Value → Value
  negate : Value → Value
  reduceAnd : Value → Value
  reduceOr : Value → Value
  reduceXor : Value → Value
  dropXz : Value → Value
  bitSelect : Value → Nat → Value
  rangeSelect : Value → Nat → Nat → Value
  oobRangeSelect : Value → Int → Int → Value
  concat : List Value → Value
  replicate : Value → Nat → Value
  mergeUnknown : Value → Value → Value
  /-- `Value::new`: all x. -/
  new : Nat → Value
  fromU64 : Nat → Nat → Value
  toU64 : Value → Option Nat
  toIndex : Value → Option Int
  dynBitIndex : Value → Option Nat
  isTrue : Value → Bool
  isNonzero : Value → Option Bool
  hasXz : Value → Bool
  hasUnknown : Value → Bool
  /-- The low words of both planes, for storage that holds no more. -/
  inlineBits : Value → Option (Nat × Nat)
  execFormat : List FmtSeg → List Value → Value
  execStrOp : StrOpKind → List Value → Value
  /-- The value a dynamic cast leaves in a register, from the register's old value. -/
  castFit : Value → Value → Value
  fbFit : Value → LocalKind → Value
  deriving Inhabited

/-- The callee of a call: what its instruction names, and the handle it was given. -/
inductive Callee where
  | method (handle : Value) (name : String)
  | scoped (this : Value) (names : String × String)
  | free (name : String)
  | staticScoped (names : String × String)
  | coll (handle : Value) (names : String × String) (bare : Nat)

/-- A collection as an instruction names it: a local one, a member of `this`, or a member of a handle. -/
inductive CollRef where
  | localColl (name : String)
  | bare (member : String)
  | dotted (handle : Value) (member : String)

/-- What the interpreter leaves of the rest of the simulator, and the registers that the settles on its way wrote: the
blocks they run share the register file, where each defines a register before it reads it. -/
structure Settled (W : Type) where
  world : W
  regs : List (RegId × Value)
  deriving Inhabited

/-- What the simulator does for the executor outside its registers. Signals are given by what their ids stand
for, everything else by name. -/
structure Host (Stmt Expr ι W : Type) extends ValueFns where
  /-- The value of a signal's cell, or of an array element's. -/
  signal : W → ι → Value
  elem : W → ι → Value
  /-- What an access outside an array reads, from the array's first element. -/
  elemMiss : W → Option ι → Value
  isForced : W → ι → Bool
  nbaRangeDropped : W → ι → Nat → Nat → Bool
  rangeDropped : W → ι → Int → Int → Bool
  nbaAssign : W → ι → Value → Nat → W
  nbaAssignConst : W → ι → Value → W
  nbaAssignRange : W → ι → Nat → Nat → Value → W
  nbaAssignRangeDyn : W → ι → Int → Int → Value → W
  nbaAssignBitDyn : W → ι → Nat → Value → W
  blockingAssign : W → ι → Value → Nat → W
  blockingAssignString : W → ι → Value → W
  blockingAssignRange : W → ι → Nat → Nat → Value → W
  blockingAssignRangeDyn : W → ι → Int → Int → Value → W
  blockingAssignBitDyn : W → ι → Nat → Value → W
  nbaAssignArray : W → ι → Value → Nat → W
  blockingAssignArray : W → ι → Value → Nat → W
  nbaAssignArrayRange : W → ι → Value → Value → Value → W
  blockingAssignArrayRange : W → ι → Value → Value → Value → W
  /-- The element value a fused memory read queues, at the destination's width. -/
  elemForAssign : W → ι → Nat → Value
  processLocal : W → String → Value
  processStatus : W → Value → Value
  classMember : W → Value → String → Value
  storeClassMember : W → Value → Value → String → W
  classStatic : W → String × String → Value
  storeClassStatic : W → String × String → Value → W
  /-- A call: its result, and the arguments it writes back, by position. -/
  call : W → Callee → List Value → Value × List (Nat × Value) × Settled W
  construct : W → String → List Value → Value × Settled W
  collElem : W → CollRef → Value → Value
  storeCollElem : W → CollRef → Value → Value → Settled W
  castOk : W → Expr → Value → Option String → Bool
  castFailed : W → W
  assignValue : W → Expr → Value → W
  foreachKeys : W → Nat → CollRef → W
  foreachNext : W → Nat → Option (Value × W)
  retCollection : W → List Value → W
  /-- The pending collection is copied to the destination, if one is there to copy. -/
  assignPending : W → String → Settled W × Bool
  assignPendingValue : W → String → Value → Settled W
  /-- An interpreted statement over a frame of locals: the frame it leaves. -/
  execStatement : W → List (String × Value) → Stmt → (String → Option Value) × Settled W
  evalExpr : W → List (String × Value) → Expr → Nat → Value × (String → Option Value) × Settled W
  waitDelay : W → Value → W
  waitEdge : W → Nat → W
  covCount : W → Nat → W
  finished : W → Bool
  loopStopRequested : W → Bool
  takeInterrupt : W → W
  deriving Inhabited

/-- A design's numbering of its signals: what an id stands for, and the tables that resolve array names. -/
structure Numbering (ι : Type) extends ArrayDesign where
  ref : SigId → ι

/-- Where the executor goes after an instruction. -/
inductive Next where
  | goto (pc : Nat)
  /-- The process is parked and resumes there. -/
  | suspend (pc : Nat)
  /-- The run is finished, interrupted or stopped by a panic. -/
  | stop
  deriving DecidableEq

/-- A step of the executor. -/
abbrev Exec (ι W α : Type) : Type := Traced (Vm W) (Access ι) α

section Primitives

variable {Stmt Expr ι W α : Type}

open Traced (get modify note)

/-- A register's value. -/
def readReg (r : RegId) : Exec ι W Value := do
  note (.readReg r)
  let vm ← get
  return vm.regs r

/-- A register set to a value. -/
def writeReg (r : RegId) (v : Value) : Exec ι W Unit := do
  note (.writeReg r)
  modify fun vm => { vm with regs := Function.update vm.regs r v }

/-- The rest of the simulator, and a change of it. -/
def world : Exec ι W W := do
  let vm ← get
  return vm.world

def setWorld (w : W) : Exec ι W Unit := modify fun vm => { vm with world := w }

/-- What the interpreter leaves, with the registers its settles wrote. -/
def settle (left : Settled W) : Exec ι W Unit := do
  setWorld left.world
  left.regs.forM fun p => writeReg p.1 p.2

/-- What the simulator answers for the signal of an id. -/
def readSig (D : Numbering ι) (id : SigId) (f : W → ι → α) : Exec ι W α := do
  note (.readSig (D.ref id))
  return f (← world) (D.ref id)

/-- A change the simulator makes to the signal of an id. -/
def writeSig (D : Numbering ι) (id : SigId) (f : W → ι → W) : Exec ι W Unit := do
  note (.writeSig (D.ref id))
  setWorld (f (← world) (D.ref id))

/-- The values of an argument range; past the register file the executor takes the 32-bit zero. -/
def readArgs (fns : ValueFns) (argStart nArgs : Nat) : Exec ι W (List Value) :=
  (List.range nArgs).mapM fun i => do
    let vm ← get
    if argStart + i < vm.numRegs then readReg (argStart + i) else return fns.fromU64 0 32

/-- Arguments written back to their registers, those past the register file dropped. -/
def writeBack (argStart : Nat) (back : List (Nat × Value)) : Exec ι W Unit :=
  back.forM fun p => do
    let vm ← get
    if argStart + p.1 < vm.numRegs then writeReg (argStart + p.1) p.2 else pure ()

/-- The frame of locals an interpreted fragment sees. -/
def frameOf (fns : ValueFns) (locals : List FbLocal) : Exec ι W (List (String × Value)) :=
  locals.mapM fun l => do return (l.name, fns.fbFit (← readReg l.reg) l.kind)

/-- The locals an interpreted fragment left changed, copied back to their registers. -/
def popFrame (fns : ValueFns) (locals : List FbLocal) (frame : String → Option Value) : Exec ι W Unit :=
  locals.forM fun l => do
    match frame l.name with
    | some v =>
      let slot ← readReg l.reg
      if slot ≠ fns.fbFit v l.kind then writeReg l.reg (fns.fbFit v l.kind) else pure ()
    | none => pure ()

/-- An instruction that falls through to the next one. -/
def fall (pc : Nat) (arm : Exec ι W Unit) : Exec ι W Next := do
  arm
  return .goto (pc + 1)

end Primitives

end Xezim.Bytecode
