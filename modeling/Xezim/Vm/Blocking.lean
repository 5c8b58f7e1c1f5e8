import Xezim.Vm.Nba

/-! The blocking writes of the bytecode interpreter, of native code and of the wide executor. -/

namespace Xezim

open Function

section Arms

variable [VmOps] (D : VmDesign) (s : VmSim)

/-- `write_sig!`: replace a signal's value, unless a force holds it. -/
def writeSig (id : Nat) (val : Value) : VmSim :=
  if s.forced id then s
  else s.onSignals fun s => s.setSignal id
    (if val.isReal then val else { val with isSigned := D.signalSigned id })

/-- Replace a signal's value where it changes. -/
def writeChanged (id : Nat) (val : Value) : VmSim :=
  if s.signalTable id ≠ val then writeSig D s id val else s

/-- `packed_store`: replace the planes of a packed cell, unless a force holds it. -/
def packedStore (eid : Nat) (v x : Word) : VmSim :=
  if s.forced eid then s
  else { s with packed := update s.packed eid (packedSetRaw D eid v x) }

/-- `Insn::BlockingAssign`. -/
def blockingAssign (id : Nat) (v : Value) (width : Nat) : VmSim :=
  let slow := writeChanged D s id (fitValueToSignal D id v)
  if s.forced id then s
  else if 0 < width ∧ width ≤ 64 ∧ D.signalWidths id = width ∧ D.signalReal id = false ∧
      D.signalTwoState id = false then
    let src := ValueOps.rawBits v
    let dst := ValueOps.rawBits (s.signalTable id)
    if src.1 &&& xmask width = dst.1 &&& xmask width ∧
        src.2 &&& xmask width = dst.2 &&& xmask width then s
    else
      match ValueOps.setInlineBits (s.signalTable id) (src.1 &&& xmask width)
          (src.2 &&& xmask width) with
      | some new => s.onSignals fun s => s.setSignal id { new with isSigned := D.signalSigned id }
      | none => slow
  else slow

/-- `Insn::BlockingAssignString`. -/
def blockingAssignString (id : Nat) (v : Value) : VmSim :=
  if s.forced id then s else writeChanged D s id (fitValueToSignal D id v)

/-- `Insn::BlockingAssignBitDyn`, which writes the table in place. -/
def blockingAssignBitDyn (id : Nat) (idxV v : Value) : VmSim :=
  match dynBitIndex idxV with
  | some idx =>
    let bit := VmOps.getBit v 0
    if idx < D.signalWidths id ∧ VmOps.getBit (s.signalTable id) idx ≠ bit then
      s.onSignals fun s => s.setSignal id
        { VmOps.setBit (s.signalTable id) idx bit with isSigned := D.signalSigned id }
    else s
  | none => s

/-- A range that covers its signal of `w` bits. -/
def coversWhole (w low high : Nat) : Prop := low = 0 ∧ min high (w - 1) + 1 ≥ w

instance (w low high : Nat) : Decidable (coversWhole w low high) :=
  inferInstanceAs (Decidable (_ ∧ _))

/-- The bits `low..=high` of a signal written by the range arms: through `write_sig!` where they
are the whole signal, else in place. -/
def blockingWindow (id low high : Nat) (val : Value) : VmSim :=
  let sigW := D.signalWidths id
  let highEff := min high (sigW - 1)
  let entry := s.signalTable id
  if coversWhole sigW low high then
    writeChanged D s id { VmOps.resizeForAssign val sigW with isSigned := D.signalSigned id }
  else if sigW ≤ 64 ∧ D.signalReal id = false ∧ low ≤ highEff then
    let src := ValueOps.rawBits val
    let base := ValueOps.rawBits entry
    let new := composeInlineRangeBits base.1 base.2 src.1 src.2 low highEff
    let len := highEff - low + 1
    let mask := if len ≥ 64 then BitVec.allOnes 64 else shl (shl 1#64 len - 1#64) low
    if (base.1 ^^^ new.1) &&& mask ≠ 0#64 ∨ (base.2 ^^^ new.2) &&& mask ≠ 0#64 then
      s.onSignals fun s => s.setSignal id
        { (ValueOps.setInlineBits entry new.1 new.2).getD entry with isSigned := D.signalSigned id }
    else s
  else
    let copied := VmOps.copyBitsFrom entry low val 0 (highEff + 1 - low)
    if copied.2 then
      s.onSignals fun s => s.setSignal id { copied.1 with isSigned := D.signalSigned id }
    else s

/-- `Insn::BlockingAssignRange`. -/
def blockingAssignRange (id hi lo : Nat) (v : Value) : VmSim :=
  let low := min hi lo
  let high := max hi lo
  if oobWriteDiscard D high low (D.signalWidths id) then s
  else blockingWindow D s id low high (VmOps.resize v ((high - low + 1) % 2 ^ 32))

/-- `Insn::BlockingAssignRangeDyn`. -/
def blockingAssignRangeDyn (id : Nat) (hiV loV v : Value) : VmSim :=
  match dynBounds D id hiV loV v with
  | some (low, high, val) => blockingWindow D s id low high val
  | none => s

/-- `Insn::BlockingAssignArray` on a resolved element. -/
def blockingAssignArray (eid : Nat) (v : Value) (width : Nat) : VmSim :=
  let val := VmOps.resizeForAssign v width
  if isPackedId eid then
    let bits := ValueOps.rawBits val
    packedStore D s eid bits.1 bits.2
  else
    let val := if D.signalTwoState eid then VmOps.toTwoState val else val
    writeChanged D s eid { val with isSigned := D.signalSigned eid }

/-- A window of the table written bit by bit in place. -/
def bitsInPlace (id : Nat) (val : Value) (low high : Nat) : VmSim :=
  if bitsDiffer (s.signalTable id) val low high then
    s.onSignals fun s => s.setSignal id
      { setBits (s.signalTable id) val low high with isSigned := D.signalSigned id }
  else s

/-- `Insn::BlockingAssignArrayRange` on a resolved element, whose bounds default to zero. -/
def blockingAssignArrayRange (eid : Nat) (hiV loV v : Value) : VmSim :=
  let hi : Nat := (WordRead.toU64 hiV).getD 0 % 2 ^ 32
  let lo : Nat := (WordRead.toU64 loV).getD 0 % 2 ^ 32
  let low : Nat := min hi lo
  let high : Nat := max hi lo
  let val := VmOps.resize v ((high - low + 1) % 2 ^ 32)
  if isPackedId eid then
    let cellW := D.packedWidth eid
    if oobWriteDiscard D high low cellW then s
    else
      let base := s.packed eid
      let highEff := min high (cellW - 1)
      let src := ValueOps.rawBits val
      packedStore D s eid (spliceBits base.1 src.1 low highEff) (spliceBits base.2 src.2 low highEff)
  else
    let sigW := D.signalWidths eid
    if oobWriteDiscard D high low sigW then s
    else if coversWhole sigW low high then
      writeChanged D s eid { VmOps.resizeForAssign val sigW with isSigned := D.signalSigned eid }
    else bitsInPlace D s eid val low (min high (sigW - 1))

/-- `jit_store_signal_4s`: a whole-signal write of both planes. -/
def jitStoreSignal4s (id : Nat) (valBits xzBits : Word) (width : Nat) : VmSim :=
  let p := tsScrubTwoState D.toDesign id valBits xzBits
  let w := jitWidth D id width
  let v := p.1 &&& xmask w
  let x := p.2 &&& xmask w
  if w = D.signalWidths id ∧ w ≤ 64 ∧ ValueOps.rawBits (s.signalTable id) = (v, x) then s
  else writeChanged D s id (jitFit D id (ValueOps.fromInline v x w) w)

/-- `jit_store_signal`: a whole-signal write of a known word. -/
def jitStoreSignal (id : Nat) (valBits : Word) (width : Nat) : VmSim :=
  let w := jitWidth D id width
  writeChanged D s id (jitFit D id (ValueOps.fromU64 valBits w) w)

/-- `jit_blocking_assign_range`, which writes the table in place. -/
def jitBlockingAssignRange (id hi lo : Nat) (valBits xzBits : Word) : VmSim :=
  let low := min hi lo
  let high := max hi lo
  let w := (high - low + 1) % 2 ^ 32
  let sigW := D.signalWidths id
  let entry := s.signalTable id
  let store (new : Value) : VmSim :=
    s.onSignals fun s => s.setSignal id { new with isSigned := D.signalSigned id }
  let old := ValueOps.rawBits entry
  let m := shl (xmask w) low &&& xmask sigW
  let new := ((old.1 &&& ~~~m) ||| (shl valBits low &&& m),
    (old.2 &&& ~~~m) ||| (shl xzBits low &&& m))
  match if sigW ≤ 64 ∧ low < 64 then ValueOps.setInlineBits entry new.1 new.2 else none with
  | some narrow => if new = old then s else store narrow
  | none =>
    if w = 1 ∧ sigW > 64 then
      let bit := (valBits.getLsbD 0, xzBits.getLsbD 0)
      if low ≥ sigW ∨ VmOps.getBit entry low = bit then s else store (VmOps.setBit entry low bit)
    else if w ≤ 64 then
      let spliced := ValueOps.spliceBits64 entry low valBits xzBits w
      if spliced.2 then store spliced.1 else s
    else if oobWriteDiscard D high low sigW then s
    else bitsInPlace D s id (ValueOps.fromInline valBits xzBits w) low (min high (sigW - 1))

/-- `ts_store_wide`: a whole-signal write of known words. -/
def tsStoreWide (id : Nat) (words : List Word) : VmSim :=
  let written := VmOps.setWords (s.signalTable id) words
  if written.2 then s.onSignals fun s => s.setSignal id written.1 else s

/-- `ts_wide_range_store2`: a write of a window of known bits given as words. -/
def tsWideRangeStore2 (id lo : Nat) (words : List Word) (w : Nat) : VmSim :=
  let spliced := spliceWords (s.signalTable id) lo words w
  if spliced.2 then s.onSignals fun s => s.setSignal id spliced.1 else s

/-- `ts_store_nba_wide`: a whole nonblocking write of known words. -/
def tsStoreNbaWide (id : Nat) (words : List Word) (w : Nat) : VmSim :=
  s.onSignals fun s => tsStoreNbaVal s id (VmOps.fromWords words w)

end Arms

end Xezim
