import Xezim.Arrays.Arms
import Xezim.TwoState.ExecX

/-! The array arms of the two-state lowering, whose code the two-state executors run. -/

namespace Xezim.Arrays

section Lowering

/-- What the lowering knows of the registers when it reaches an instruction. -/
structure LowerRegs where
  /-- `rw`: the width of a register, none for one it does not track. -/
  rw : Nat → Option Nat
  /-- `rc`: the constant a register holds. -/
  rc : Nat → Option Word := fun _ => none
  /-- `mn!`: a signed register that may be negative. -/
  mn : Nat → Bool := fun _ => false

variable (D : ArrayDesign) (R : LowerRegs)

/-- `narrow_reg!`: the width of a tracked register of at most one word. -/
def narrowReg (r : Nat) : Option Nat := (R.rw r).filter (· ≤ 64)

/-- The span an operand names, if it names one. -/
def spanOf : ArrayOperand → Option ArraySpan
  | .dense _ span => some span
  | .named name => D.arrayFirstId name

/-- `array_span`: an array of narrow, unsigned elements that are no reals. -/
def arraySpan (array : ArrayOperand) : Option ArraySpan :=
  (spanOf D array).filter fun a =>
    a.lo ≤ a.hi ∧ a.first < D.signalCount ∧ D.signalWidths a.first ≤ 64 ∧ D.signalSigned a.first = false ∧
      D.signalReal a.first = false

/-- The operands of an element access. -/
def tsElemOp (a : ArraySpan) (idx s w : Nat) (mask : Word) : TsElemOp :=
  { first := a.first, lo := a.lo, hi := a.hi, idx, s, w, mask }

/-- The code of `Insn::NbaAssignArray`, and of `Insn::BlockingAssignArray`. A constant index outside the bounds
leaves no code. -/
def lowerArrayStore (nba : Bool) (array : ArrayOperand) (idx val w : Nat) : Option (List TsInsn) := do
  let a ← arraySpan D array
  let vw ← narrowReg R val
  if w > 64 ∨ D.signalWidths a.first ≠ w then none
  else if vw < w ∧ R.mn val then none
  else
    match R.rc idx with
    | some k =>
      some ((a.elem k.toInt).toList.map fun eid =>
        if nba then .storeNba eid val w (xmask w) else .store eid val (xmask w))
    | none =>
      let _ ← narrowReg R idx
      some [if nba then .elemStoreNba (tsElemOp a idx val w (xmask w))
        else .elemStore (tsElemOp a idx val w (xmask w))]

/-- The code of `Insn::LoadArrayElem`; a constant index has to name an element of the array's shape. -/
def lowerLoadArrayElem (d : Nat) (array : ArrayOperand) (idx : Nat) : Option (List TsInsn) := do
  let a ← spanOf D array
  let ew := D.signalWidths a.first
  if a.hi < a.lo ∨ D.signalCount ≤ a.first ∨ D.signalReal a.first then none
  else if D.signalSigned a.first then none
  else if ew > 512 then none
  else
    match R.rc idx with
    | some k =>
      let eid ← a.elem k.toInt
      if D.signalCount ≤ eid ∨ D.signalWidths eid ≠ ew ∨ D.signalSigned eid ∨ D.signalReal eid then none
      else some [if ew > 64 then .wLoadSig d eid else .loadSig d eid]
    | none =>
      let _ ← narrowReg R idx
      some [if ew > 64 then .wElemLoad (tsElemOp a idx d 0 0#64) else .elemLoad (tsElemOp a idx d 0 0#64)]

/-- The code of `Insn::NbaAssignArrayRead`. -/
def lowerArrayRead (dst : Nat) (array : ArrayOperand) (idxSig w : Nat) : Option (List TsInsn) := do
  let narrowSig := idxSig < D.signalCount ∧ D.signalWidths idxSig ≤ 64 ∧ D.signalReal idxSig = false
  if ¬ narrowSig ∨ D.signalCount ≤ dst ∨ D.signalReal dst then none
  else
    let a ← spanOf D array
    let op : TsNbaFromElem := { dst, first := a.first, lo := a.lo, hi := a.hi, idxSig, w }
    if a.hi < a.lo ∨ D.signalCount ≤ a.first ∨ D.signalReal a.first ∨ D.signalSigned a.first then none
    else if D.signalWidths a.first > 64 then
      if w ≠ D.signalWidths a.first ∨ D.signalWidths dst ≠ D.signalWidths a.first then none
      else some [.wNbaFromElem op]
    else if w > 64 then none
    else some [.nbaFromElem op]

/-- The element `TsInsn::WElemLoad` reads in the wide executor, none where it gives up. -/
def wElemLoadElem (r : Regs) (op : TsElemOp) : Option Nat :=
  let i := (r op.idx).toInt
  if outside op.lo op.hi i then none else some (elemId op.first op.lo i)

/-- What the lowering knows of an index register agrees with the index it holds. -/
structure LowerRegs.Tracks (idx : Nat) (idxV : Value) : Prop where
  narrow : idxV.width ≤ 64
  const : ∀ k, R.rc idx = some k → idxV.planes = (k, 0#64)

end Lowering

end Xezim.Arrays
