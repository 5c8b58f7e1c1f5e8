import Xezim.Bytecode.Insn

/-! What the compiler says of an instruction: its registers, its successors, and whether it holds a signal id. -/

namespace Xezim.Bytecode

variable {Stmt Expr : Type}

open Arrays (ArrayOperand)

namespace Insn

/-- The registers of an argument range, wrapped as a register number is. -/
def argRegs (argStart nArgs : Nat) : List RegId := (List.range nArgs).map fun i => (argStart + i) % regLimit

/-- `insn_read_regs`: the registers an instruction reads, none for one that may read any. -/
def insnReadRegs : Insn Stmt Expr → Option (List RegId)
  | waitDelayReg d => some [d]
  | waitEdge _ | covHit _ => some []
  | cmpBranch _ l r _ _ => some [l, r]
  | moveResize _ s _ | cmpBranchConst _ s _ _ _ => some [s]
  | caseLut _ src _ | caseJump src _ | caseMaskJump src _ => some [src]
  | format _ f => some f.args
  | strOp _ _ args => some args
  | blockingAssignString _ v => some [v]
  | loadProcessStatus _ h => some [h]
  | loadSignalRangeDyn _ _ lo _ => some [lo]
  | loadConst _ _ | loadSignal _ _ | loadSignalSigned _ _ | loadProcessLocal _ _ | loadSignalRange _ _ _ _
  | loadSignalBit _ _ _ | nbaAssignConst _ _ _ | branchIfSignalFalse _ _ _ | nbaAssignArrayRead _ _ _ _
  | jump _ | nop => some []
  | branchUnlessZero c _ => some [c]
  | resize a _ | setSigned a | clearSigned a | dropXz a => some [a]
  | loadClassMember _ h _ => some [h]
  | storeClassMember h v _ => some [h, v]
  | callMethod _ h _ a n | callScopedMethod _ h _ a n | callCollMethod _ h _ a n _ => some (h :: argRegs a n)
  | constructObject _ _ a n | callStaticScoped _ _ a n | callFreeFunction _ _ a n | retCollection a n =>
    some (argRegs a n)
  | assignPendingColl _ v => some [v]
  | loadClassStatic _ _ => some []
  | storeClassStatic _ src => some [src]
  | loadCollElem _ h _ i => some [h, i]
  | storeCollElem h _ i v => some [h, i, v]
  | foreachKeys _ h _ => some [h]
  | foreachNext _ _ _ => some []
  | cast c s _ =>
    match c.dest with
    | .reg d => some [s, d]
    | .member h _ => some [s, h]
    | .scope => some [s]
  | pow _ l r | add _ l r | sub _ l r | mul _ l r | div _ l r | mod _ l r | bitAnd _ l r | bitOr _ l r
  | bitXor _ l r | bitXnor _ l r | logAnd _ l r | logOr _ l r | eq _ l r | neq _ l r | caseEq _ l r
  | casezEq _ l r | casexEq _ l r | lt _ l r | leq _ l r | gt _ l r | geq _ l r | shl _ l r | shr _ l r
  | aShr _ l r => some [l, r]
  | bitNot _ s | logNot _ s | negate _ s | reduceAnd _ s | reduceOr _ s | reduceXor _ s | move _ s
  | replicate _ s _ => some [s]
  | binOpConst _ s _ _ => some [s]
  | binOpConstAdd2 a => some [a.s1, a.s2]
  | bitSelect _ b i => some [b, i]
  | bitSelectConst _ b _ => some [b]
  | rangeSelect _ b l r => some [b, l, r]
  | rangeSelectW _ b i _ _ => some [b, i]
  | rangeSelectConst _ b _ _ => some [b]
  | concat _ parts => some parts
  | branchIfFalse c _ => some [c]
  | select _ c t e => some [c, t, e]
  | nbaAssign _ v _ | blockingAssign _ v _ => some [v]
  | nbaAssignRange _ _ _ v | blockingAssignRange _ _ _ v => some [v]
  | nbaAssignRangeDyn _ h l v | blockingAssignRangeDyn _ h l v => some [h, l, v]
  | nbaAssignBitDyn _ i v | blockingAssignBitDyn _ i v => some [i, v]
  | loadArrayElem _ _ i => some [i]
  | nbaAssignArray _ i v _ | blockingAssignArray _ i v _ => some [i, v]
  | nbaAssignArrayRange _ i h l v | blockingAssignArrayRange _ i h l v => some [i, h, l, v]
  -- An interpreted fragment can read anything through the interpreter.
  | stmtFallback _ | initLocalColl _ _ | evalExprFallback _ _ _ => none

/-- `insn_reads_reg`: an instruction may read a register. -/
def insnReadsReg (insn : Insn Stmt Expr) (r : RegId) : Bool :=
  match insn.insnReadRegs with
  | some regs => regs.contains r
  | none => true

/-- `dest_reg`: the register an instruction defines outright. -/
def destReg : Insn Stmt Expr → Option RegId
  | loadConst d _ | loadSignal d _ | loadSignalSigned d _ | loadProcessLocal d _ | loadProcessStatus d _
  | loadSignalRange d _ _ _ | loadSignalBit d _ _ | loadSignalRangeDyn d _ _ _ | loadArrayElem d _ _
  | pow d _ _ | add d _ _ | sub d _ _ | mul d _ _ | div d _ _ | mod d _ _ | bitAnd d _ _ | bitOr d _ _
  | bitXor d _ _ | bitXnor d _ _ | logAnd d _ _ | logOr d _ _ | eq d _ _ | neq d _ _ | caseEq d _ _
  | casezEq d _ _ | casexEq d _ _ | lt d _ _ | leq d _ _ | gt d _ _ | geq d _ _ | shl d _ _ | shr d _ _
  | aShr d _ _ | bitNot d _ | logNot d _ | negate d _ | reduceAnd d _ | reduceOr d _ | reduceXor d _
  | move d _ | moveResize d _ _ | replicate d _ _ | binOpConst d _ _ _ | bitSelect d _ _
  | bitSelectConst d _ _ | rangeSelect d _ _ _ | rangeSelectW d _ _ _ _ | rangeSelectConst d _ _ _
  | concat d _ | select d _ _ _ | caseLut d _ _ | cmpBranch _ _ _ d _ => some d
  | _ => none

/-- `in_place_reg`: the register an instruction modifies in place. -/
def inPlaceReg : Insn Stmt Expr → Option RegId
  | resize a _ | setSigned a | clearSigned a | dropXz a => some a
  | _ => none

/-- `is_opaque_insn`: the rewrites do not model the instruction's registers. -/
def isOpaqueInsn : Insn Stmt Expr → Bool
  | stmtFallback _ | initLocalColl _ _ | evalExprFallback _ _ _ | format _ _ | strOp _ _ _ | binOpConstAdd2 _
  | callMethod _ _ _ _ _ | callScopedMethod _ _ _ _ _ | callStaticScoped _ _ _ _ | callFreeFunction _ _ _ _
  | callCollMethod _ _ _ _ _ _ | constructObject _ _ _ _ | foreachNext _ _ _ | cast _ _ _ => true
  | _ => false

/-- The positions the liveness search goes on to after an instruction, the next one it visits first. -/
def succs (pc : Nat) : Insn Stmt Expr → List Nat
  | jump t => [t]
  | branchIfFalse _ t | branchUnlessZero _ t | branchIfSignalFalse _ t _ | cmpBranch _ _ _ _ t
  | cmpBranchConst _ _ _ _ t => [pc + 1, t]
  | caseJump _ cj => cj.default :: cj.table.reverse
  | caseMaskJump _ mj => mj.xzPath :: mj.table.reverse
  | _ => [pc + 1]

/-- `carries_sig_id`: the instruction is listed as holding a signal id. -/
def carriesSigId : Insn Stmt Expr → Bool
  | loadSignal _ _ | loadSignalSigned _ _ | blockingAssignString _ _ | nbaAssign _ _ _ | nbaAssignRange _ _ _ _
  | nbaAssignRangeDyn _ _ _ _ | nbaAssignBitDyn _ _ _ | blockingAssign _ _ _ | blockingAssignRange _ _ _ _
  | blockingAssignRangeDyn _ _ _ _ | blockingAssignBitDyn _ _ _ | loadSignalRange _ _ _ _
  | loadSignalRangeDyn _ _ _ _ | loadSignalBit _ _ _ | nbaAssignConst _ _ _ | branchIfSignalFalse _ _ _
  | nbaAssignArrayRead _ _ _ _ => true
  | _ => false

end Insn

/-- The signal ids an array operand holds. -/
def operandIds : ArrayOperand → List SigId
  | .dense _ span => [span.first]
  | .named _ => []

namespace Insn

/-- Every signal id an instruction holds, in a field of its own or inside an operand. -/
def sigIds : Insn Stmt Expr → List SigId
  | loadSignal _ s | loadSignalSigned _ s | blockingAssignString s _ | nbaAssign s _ _ | nbaAssignRange s _ _ _
  | nbaAssignRangeDyn s _ _ _ | nbaAssignBitDyn s _ _ | blockingAssign s _ _ | blockingAssignRange s _ _ _
  | blockingAssignRangeDyn s _ _ _ | blockingAssignBitDyn s _ _ | loadSignalRange _ s _ _
  | loadSignalRangeDyn _ s _ _ | loadSignalBit _ s _ | nbaAssignConst s _ _ | branchIfSignalFalse s _ _ => [s]
  | loadArrayElem _ array _ | nbaAssignArray array _ _ _ | blockingAssignArray array _ _ _
  | nbaAssignArrayRange array _ _ _ _ | blockingAssignArrayRange array _ _ _ _ => operandIds array
  | nbaAssignArrayRead s array idx _ => s :: idx :: operandIds array
  | _ => []

end Insn

/-- `CompiledBlock::carries_sig_id`: some instruction of a block is listed as holding a signal id. -/
def carriesSigId (block : List (Insn Stmt Expr)) : Bool := block.any Insn.carriesSigId

end Xezim.Bytecode
