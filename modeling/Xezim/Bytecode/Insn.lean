import Xezim.Arrays.Operand

/-! The bytecode instruction set, its operands in registers, signal ids and payloads. -/

namespace Xezim.Bytecode

/-- A register number, which 16 bits hold. -/
abbrev RegId := Nat

/-- A position in the signal table. -/
abbrev SigId := Nat

/-- The bound of the register numbers. -/
def regLimit : Nat := 2 ^ 16

/-- The comparison of a fused compare and branch. -/
inductive CmpKind where
  | eq | neq | caseEq | lt | leq | gt | geq

/-- The operator of a fused operation with a constant. -/
inductive BinOpConstKind where
  | add | eq | caseEq | xor | and | or | mul | sub

/-- Two constant adds in one instruction. -/
structure AddC2 where
  d1 : RegId
  s1 : RegId
  k1 : Value
  d2 : RegId
  s2 : RegId
  k2 : Value

/-- A table `case`: its values and what an unknown or outside selector reads. -/
structure CaseLutData where
  table : List Value
  default : Value

/-- A bucket table over a window of the selector, and the target of an x or z window. -/
structure CaseMaskJumpData where
  lo : Nat
  width : Nat
  table : List Nat
  xzPath : Nat

/-- One piece of a format template. -/
inductive FmtSeg where
  | lit (text : String)
  | spec (spec : Char) (width : Option Nat) (left strValued : Bool)

/-- A format template and the registers it takes its arguments from. -/
structure FormatData where
  segs : List FmtSeg
  args : List RegId

/-- A native string operation. -/
inductive StrOpKind where
  | len | getC | substr | toUpper | toLower | compare | iCompare | aToI | aToHex | aToOct | aToBin | concat | putC
  | iToA | hexToA | octToA | binToA | order | toStr

/-- How a local held in a register is typed. -/
inductive LocalKind where
  | int (width : Nat) (signed twoState : Bool)
  | real
  | str
  | handle

/-- A local held in a register that an interpreted fragment names. -/
structure FbLocal where
  name : String
  reg : RegId
  kind : LocalKind
  viaBinding : Bool
  «class» : Option String

/-- Where a dynamic cast stores its value. -/
inductive CastDest where
  | reg (r : RegId)
  | member (handle : RegId) (field : String)
  | scope

/-- A dynamic cast: its destination, as a route and as an expression, and its form. -/
structure CastInsn (Expr : Type) where
  dest : CastDest
  expr : Expr
  stmtForm : Bool
  declClass : Option String

/-- A statement the interpreter runs, the reason, and the locals it names. -/
structure StmtPayload (Stmt : Type) where
  stmt : Stmt
  reason : String
  locals : List FbLocal

/-- An expression the interpreter evaluates, the reason, and the locals it names. -/
structure ExprPayload (Expr : Type) where
  expr : Expr
  reason : String
  locals : List FbLocal

open Arrays (ArrayOperand)

/-- `Insn`, over the statements and expressions of the syntax tree. Destinations come first; a target is a position
in the stream. -/
inductive Insn (Stmt Expr : Type) where
  | loadConst (d : RegId) (k : Value)
  | loadSignal (d : RegId) (sig : SigId)
  | loadSignalSigned (d : RegId) (sig : SigId)
  | loadProcessLocal (d : RegId) (name : String)
  | loadProcessStatus (d handle : RegId)
  | resize (r : RegId) (w : Nat)
  | add (d l r : RegId)
  | sub (d l r : RegId)
  | mul (d l r : RegId)
  | div (d l r : RegId)
  | mod (d l r : RegId)
  | bitAnd (d l r : RegId)
  | bitOr (d l r : RegId)
  | bitXor (d l r : RegId)
  | bitXnor (d l r : RegId)
  | logAnd (d l r : RegId)
  | logOr (d l r : RegId)
  | eq (d l r : RegId)
  | neq (d l r : RegId)
  | caseEq (d l r : RegId)
  | caseLut (d src : RegId) (lut : CaseLutData)
  | caseJump (src : RegId) (jump : CaseJumpData)
  | caseMaskJump (src : RegId) (jump : CaseMaskJumpData)
  | cmpBranch (kind : CmpKind) (l r tmp : RegId) (target : Nat)
  | moveResize (d src : RegId) (w : Nat)
  | format (d : RegId) (f : FormatData)
  | strOp (d : RegId) (kind : StrOpKind) (args : List RegId)
  | blockingAssignString (sig : SigId) (v : RegId)
  | casezEq (d l r : RegId)
  | casexEq (d l r : RegId)
  | lt (d l r : RegId)
  | leq (d l r : RegId)
  | gt (d l r : RegId)
  | geq (d l r : RegId)
  | shl (d l r : RegId)
  | shr (d l r : RegId)
  | aShr (d l r : RegId)
  | bitNot (d s : RegId)
  | logNot (d s : RegId)
  | negate (d s : RegId)
  | reduceAnd (d s : RegId)
  | reduceOr (d s : RegId)
  | reduceXor (d s : RegId)
  | bitSelect (d base idx : RegId)
  | bitSelectConst (d base : RegId) (idx : Nat)
  | rangeSelect (d base l r : RegId)
  | rangeSelectW (d base idx : RegId) (w : Nat) (up : Bool)
  | rangeSelectConst (d base : RegId) (l r : Nat)
  | concat (d : RegId) (parts : List RegId)
  | replicate (d s : RegId) (n : Nat)
  | branchIfFalse (cond : RegId) (target : Nat)
  | select (d cond thenR elseR : RegId)
  | jump (target : Nat)
  | nbaAssign (sig : SigId) (v : RegId) (w : Nat)
  | nbaAssignRange (sig : SigId) (hi lo : Nat) (v : RegId)
  | nbaAssignRangeDyn (sig : SigId) (hi lo v : RegId)
  | nbaAssignBitDyn (sig : SigId) (idx v : RegId)
  | blockingAssign (sig : SigId) (v : RegId) (w : Nat)
  | blockingAssignRange (sig : SigId) (hi lo : Nat) (v : RegId)
  | blockingAssignRangeDyn (sig : SigId) (hi lo v : RegId)
  | blockingAssignBitDyn (sig : SigId) (idx v : RegId)
  | loadArrayElem (d : RegId) (array : ArrayOperand) (idx : RegId)
  | nbaAssignArray (array : ArrayOperand) (idx v : RegId) (w : Nat)
  | blockingAssignArray (array : ArrayOperand) (idx v : RegId) (w : Nat)
  | nbaAssignArrayRange (array : ArrayOperand) (idx hi lo v : RegId)
  | blockingAssignArrayRange (array : ArrayOperand) (idx hi lo v : RegId)
  | move (d s : RegId)
  | stmtFallback (payload : StmtPayload Stmt)
  | initLocalColl (stmt : Stmt) (reason : String)
  | evalExprFallback (payload : ExprPayload Expr) (d : RegId) (ctxw : Nat)
  | setSigned (r : RegId)
  | clearSigned (r : RegId)
  | dropXz (r : RegId)
  | pow (d l r : RegId)
  | loadClassMember (d handle : RegId) (field : String)
  | storeClassMember (handle v : RegId) (field : String)
  | callMethod (d handle : RegId) (method : String) (argStart nArgs : Nat)
  | callScopedMethod (d this : RegId) (names : String × String) (argStart nArgs : Nat)
  | callFreeFunction (d : RegId) (name : String) (argStart nArgs : Nat)
  | loadClassStatic (d : RegId) (names : String × String)
  | storeClassStatic (names : String × String) (src : RegId)
  | constructObject (d : RegId) (className : String) (argStart nArgs : Nat)
  | callStaticScoped (d : RegId) (names : String × String) (argStart nArgs : Nat)
  | callCollMethod (d handle : RegId) (names : String × String) (argStart nArgs bare : Nat)
  | loadCollElem (d handle : RegId) (member : String) (idx : RegId)
  | storeCollElem (handle : RegId) (member : String) (idx v : RegId)
  | cast (c : CastInsn Expr) (src out : RegId)
  | foreachKeys (slot : Nat) (handle : RegId) (member : String)
  | foreachNext (ok : RegId) (slot : Nat) (var : RegId)
  | retCollection (argStart nArgs : Nat)
  | assignPendingColl (key : String) (v : RegId)
  | nop
  | loadSignalRange (d : RegId) (sig : SigId) (l r : Nat)
  | loadSignalRangeDyn (d : RegId) (sig : SigId) (lo : RegId) (w : Nat)
  | loadSignalBit (d : RegId) (sig : SigId) (idx : Nat)
  | nbaAssignConst (sig : SigId) (k : Value) (w : Nat)
  | branchUnlessZero (cond : RegId) (target : Nat)
  | branchIfSignalFalse (sig : SigId) (target : Nat) (bit : Nat)
  | nbaAssignArrayRead (sig : SigId) (array : ArrayOperand) (idxSig : SigId) (w : Nat)
  | binOpConst (d s : RegId) (k : Value) (kind : BinOpConstKind)
  | binOpConstAdd2 (a : AddC2)
  | waitDelayReg (r : RegId)
  | waitEdge (ix : Nat)
  | covHit (c : Nat)
  | cmpBranchConst (kind : BinOpConstKind) (src : RegId) (k : Value) (tmp : RegId) (target : Nat)

end Xezim.Bytecode
