import Xezim.Vm.Ops

/-! The nonblocking writes of the bytecode interpreter and of compiled native code. -/

namespace Xezim

open Function

section Arms

variable [VmOps] (D : VmDesign) (s : VmSim)

/-- The simulator with its signal part changed. -/
def VmSim.onSignals (f : Sim → Sim) : VmSim := { s with toSim := f s.toSim }

/-- A write through a select that leaves `[0, w)` is dropped as a whole. -/
def oobWriteDiscard (hi lo : Int) (w : Nat) : Bool :=
  D.oobSelectWhole && decide (lo < 0 ∨ (w : Int) ≤ hi)

/-- `Insn::NbaAssign`. -/
def nbaAssign (id : Nat) (v : Value) (width : Nat) : VmSim :=
  s.onSignals fun s => tsStoreNbaVal s id (VmOps.resizeForAssign v width)

/-- `Insn::NbaAssignConst`, its constant already fitted. -/
def nbaAssignConst (id : Nat) (k : Value) : VmSim := s.onSignals fun s => tsStoreNbaVal s id k

/-- Queue a window of a value where the planes do not fit in one word each. -/
def copyNba (s : Sim) (id low : Nat) (val : Value) (n : Nat) : Sim :=
  match s.nbaFast.index id with
  | some i => s.modifyNba i fun target => (VmOps.copyBitsFrom target low val 0 n).1
  | none =>
    let copied := VmOps.copyBitsFrom (s.signalTable id) low val 0 n
    if copied.2 then s.pushNba id copied.1 else s

/-- `Insn::NbaAssignRange`. -/
def nbaAssignRange (id hi lo : Nat) (v : Value) : VmSim :=
  let low := min hi lo
  let high := max hi lo
  if oobWriteDiscard D high low (D.signalWidths id) then s
  else
    -- Labels above the most significant bit are outside the vector.
    let high := min high (D.signalWidths id - 1)
    if low > high then s
    else
      let w := high - low + 1
      let val := VmOps.resize v w
      if D.signalWidths id ≤ 64 ∧ D.signalReal id = false then
        let src := ValueOps.rawBits val
        s.onSignals fun s => tsRangeStoreNbaXz D.toDesign s id low high src.1 src.2
      else s.onSignals fun s => copyNba s id low val w

/-- The bits a part-select with run-time bounds writes: its first bit, its last one inside the
signal, and the value moved down past the labels below bit zero. -/
structure DynWindow where
  low : Nat
  highEff : Nat
  val : Value

/-- The bounds and the moved-down value of a run-time range, before they are cut to the signal. -/
def dynBounds (id : Nat) (hiV loV v : Value) : Option (Nat × Nat × Value) :=
  match VmOps.toIndex hiV, VmOps.toIndex loV with
  | some hi, some lo =>
    let lowI := min hi lo
    let highI := max hi lo
    if oobWriteDiscard D highI lowI (D.signalWidths id) = true ∨ highI < 0 then none
    else
      let below := (-lowI).toNat
      let low := lowI.toNat % 2 ^ 32
      let high := (min highI (2 ^ 32 - 1)).toNat
      let w := (high - low + 1) % 2 ^ 32
      some (low, high, if below > 0 then
          VmOps.resize (VmOps.shiftRight v (ValueOps.fromU64 (BitVec.ofNat 64 below) 32)) w
        else VmOps.resize v w)
  | _, _ => none

/-- Where `Insn::NbaAssignRangeDyn` writes, if it writes at all. -/
def dynWindow (id : Nat) (hiV loV v : Value) : Option DynWindow :=
  (dynBounds D id hiV loV v).map fun b =>
    { low := b.1, highEff := min b.2.1 (D.signalWidths id - 1), val := b.2.2 }

/-- `Insn::NbaAssignRangeDyn`. -/
def nbaAssignRangeDyn (id : Nat) (hiV loV v : Value) : VmSim :=
  match dynWindow D id hiV loV v with
  | none => s
  | some p =>
    let sigW := D.signalWidths id
    if p.low = 0 ∧ p.highEff + 1 ≥ sigW then
      -- The whole signal: nothing queued before is looked up here.
      let v := { VmOps.resizeForAssign p.val sigW with isSigned := D.signalSigned id }
      if s.signalTable id ≠ v then s.onSignals fun s => s.pushNba id v else s
    else if sigW ≤ 64 ∧ D.signalReal id = false then
      let src := ValueOps.rawBits p.val
      s.onSignals fun s => tsRangeStoreNbaXz D.toDesign s id p.low p.highEff src.1 src.2
    else s.onSignals fun s => copyNba s id p.low p.val (p.highEff + 1 - p.low)

/-- The bit a run-time index names, none for an unknown index. -/
def dynBitIndex (v : Value) : Option Nat :=
  if v.xz ≠ 0 then none else some ((WordRead.toU64 v).getD 0)

/-- Queue one bit. -/
def bitNba (s : Sim) (id idx : Nat) (bit : LogicBit) : Sim :=
  match s.nbaFast.index id with
  | some i => s.modifyNba i fun target => VmOps.setBit target idx bit
  | none =>
    if VmOps.getBit (s.signalTable id) idx = bit then s
    else s.pushNba id (VmOps.setBit (s.signalTable id) idx bit)

/-- `Insn::NbaAssignBitDyn`. -/
def nbaAssignBitDyn (id : Nat) (idxV v : Value) : VmSim :=
  match dynBitIndex idxV with
  | some idx => s.onSignals fun s => bitNba s id idx (VmOps.getBit v 0)
  | none => s

/-- The queued planes of a packed cell. -/
def packedQueued (q : List (Nat × Word × Word)) (eid : Nat) : Option (Word × Word) :=
  (q.find? fun e => e.1 == eid).map Prod.snd

/-- Replace the queued planes of the first entry of a packed cell. -/
def packedReplace (eid : Nat) (v x : Word) : List (Nat × Word × Word) → List (Nat × Word × Word)
  | [] => []
  | e :: rest => if e.1 = eid then (eid, v, x) :: rest else e :: packedReplace eid v x rest

/-- `queue_packed_nba`: overwrite a queued write of the cell, else queue one that changes it. -/
def queuePackedNba (eid : Nat) (v x : Word) : VmSim :=
  match packedQueued s.packedNba eid with
  | some _ => { s with packedNba := packedReplace eid v x s.packedNba }
  | none =>
    if s.packed eid ≠ (v, x) then { s with packedNba := s.packedNba ++ [(eid, v, x)] } else s

/-- `Insn::NbaAssignArray` on a resolved element. -/
def nbaAssignArray (eid : Nat) (v : Value) (width : Nat) : VmSim :=
  let val := VmOps.resize v width
  if isPackedId eid then
    let bits := ValueOps.rawBits val
    queuePackedNba s eid bits.1 bits.2
  else s.onSignals fun s => tsStoreNbaVal s eid val

/-- Bits `lo..=hi` of a word replaced by the low bits of another. -/
def spliceBits (dst src : Word) (lo hi : Nat) : Word :=
  if lo > hi then dst
  else
    let len := hi - lo + 1
    let m := if len ≥ 64 then BitVec.allOnes 64 else shl (shl 1#64 len - 1#64) lo
    (dst &&& ~~~m) ||| (shl src lo &&& m)

/-- Bits `lo..=hi` of a value overwritten one by one by the low bits of another. -/
def setBits (v src : Value) (lo hi : Nat) : Value :=
  (List.range' lo (hi + 1 - lo)).foldl
    (fun v pos => VmOps.setBit v pos (VmOps.getBit src (pos - lo))) v

/-- Whether some bit of `lo..=hi` differs from the low bits of another value. -/
def bitsDiffer (v src : Value) (lo hi : Nat) : Bool :=
  (List.range' lo (hi + 1 - lo)).any
    fun pos => decide (VmOps.getBit v pos ≠ VmOps.getBit src (pos - lo))

/-- Queue a window bit by bit where the table shows another one. -/
def bitsNba (s : Sim) (id : Nat) (val : Value) (low high : Nat) : Sim :=
  match s.nbaFast.index id with
  | some i => s.modifyNba i fun target => setBits target val low high
  | none =>
    -- The source starts its copy at the first bit that differs, which leaves the same bits.
    if bitsDiffer (s.signalTable id) val low high then
      s.pushNba id (setBits (s.signalTable id) val low high)
    else s

/-- `Insn::NbaAssignArrayRange` on a resolved element, whose bounds default to zero. -/
def nbaAssignArrayRange (eid : Nat) (hiV loV v : Value) : VmSim :=
  let hi : Nat := (WordRead.toU64 hiV).getD 0 % 2 ^ 32
  let lo : Nat := (WordRead.toU64 loV).getD 0 % 2 ^ 32
  let low : Nat := min hi lo
  let high : Nat := max hi lo
  -- The width is computed in 32 bits and wraps for a range of all positions.
  let w := (high - low + 1) % 2 ^ 32
  let val := VmOps.resize v w
  if isPackedId eid then
    let cellW := D.packedWidth eid
    if oobWriteDiscard D high low cellW then s
    else
      let base := (packedQueued s.packedNba eid).getD (s.packed eid)
      let highEff := min high (cellW - 1)
      let src := ValueOps.rawBits val
      queuePackedNba s eid (spliceBits base.1 src.1 low highEff) (spliceBits base.2 src.2 low highEff)
  else
    let sigW := D.signalWidths eid
    let highEff := min high (sigW - 1)
    if oobWriteDiscard D high low sigW then s
    else if low = 0 ∧ highEff + 1 ≥ sigW then
      s.onSignals fun s =>
        tsStoreNbaVal s eid { VmOps.resizeForAssign val sigW with isSigned := D.signalSigned eid }
    else s.onSignals fun s => bitsNba s eid val low highEff

/-- The element a signal's value selects, as `Insn::NbaAssignArrayRead` reads it. -/
def arrayReadValue (elem : Int → Option Nat) (idxSig width : Nat) : Value :=
  match VmOps.toIndex (s.signalTable idxSig) with
  | none => ValueOps.new (max width 1)
  | some idx =>
    match elem idx with
    | some eid =>
      if isPackedId eid then ValueOps.fromInline (s.packed eid).1 (s.packed eid).2 width
      else VmOps.resizeForAssign (s.signalTable eid) width
    | none => ValueOps.new (max width 1)

/-- `Insn::NbaAssignArrayRead`. -/
def nbaAssignArrayRead (id : Nat) (elem : Int → Option Nat) (idxSig width : Nat) : VmSim :=
  s.onSignals fun sim => tsStoreNbaVal sim id (arrayReadValue s elem idxSig width)

/-- `splice_words`: overwrite a window of known bits a word at a time; says whether a bit moved. -/
def spliceWords (t : Value) (lo : Nat) : List Word → Nat → Value × Bool
  | [], _ => (t, false)
  | a :: rest, w =>
    if w = 0 then (t, false)
    else
      let step := ValueOps.spliceBits64 t lo a 0#64 (min w 64)
      let done := spliceWords step.1 (lo + 64) rest (w - 64)
      (done.1, step.2 || done.2)

/-- `ts_wide_range_store2_nba`: queue a window of known bits given as words. -/
def tsWideRangeStore2Nba (id lo : Nat) (v : List Word) (w : Nat) : VmSim :=
  s.onSignals fun s =>
    match s.nbaFast.index id with
    | some i => s.modifyNba i fun target => (spliceWords target lo v w).1
    | none =>
      let spliced := spliceWords (s.signalTable id) lo v w
      if spliced.2 then s.pushNba id { spliced.1 with isSigned := D.signalSigned id } else s

/-- The width a native store was compiled for, the signal's own where it names none. -/
def jitWidth (id width : Nat) : Nat := if width = 0 then D.signalWidths id else width

/-- A value brought to its signal's width and sign. -/
def jitFit (id : Nat) (val : Value) (w : Nat) : Value :=
  { (if w ≠ D.signalWidths id then VmOps.resize val (D.signalWidths id) else val) with
    isSigned := D.signalSigned id }

/-- `jit_schedule_nba_4s`: a whole-signal write of both planes. -/
def jitScheduleNba4s (id : Nat) (valBits xzBits : Word) (width : Nat) : VmSim :=
  let p := tsScrubTwoState D.toDesign id valBits xzBits
  let w := jitWidth D id width
  let v := p.1 &&& xmask w
  let x := p.2 &&& xmask w
  if w = D.signalWidths id ∧ ValueOps.rawBits (s.signalTable id) = (v, x) ∧
      s.nbaFast.index id = none then s
  else s.onSignals fun s => s.pushNba id (jitFit D id (ValueOps.fromInline v x w) w)

/-- `jit_schedule_nba`: a whole-signal write of a known word. -/
def jitScheduleNba (id : Nat) (valBits : Word) (width : Nat) : VmSim :=
  let w := jitWidth D id width
  s.onSignals fun s => s.pushNba id (jitFit D id (ValueOps.fromU64 valBits w) w)

/-- `jit_schedule_nba_fast`: a whole-signal write of a known word of the signal's width. -/
def jitScheduleNbaFast (id : Nat) (valBits : Word) : VmSim :=
  s.onSignals fun s => s.pushNba id
    { ValueOps.fromU64 valBits (D.signalWidths id) with isSigned := D.signalSigned id }

/-- `jit_schedule_nba_range`: a write of a window of both planes. -/
def jitScheduleNbaRange (id hi lo : Nat) (valBits xzBits : Word) : VmSim :=
  let low := min hi lo
  let high := max hi lo
  let val := ValueOps.fromInline valBits xzBits ((high - low + 1) % 2 ^ 32)
  let highEff := min high (D.signalWidths id - 1)
  if oobWriteDiscard D high low (D.signalWidths id) then s
  else s.onSignals fun s =>
    match s.nbaFast.index id with
    | some i => s.modifyNba i fun target => setBits target val low highEff
    | none => s.pushNba id (setBits (s.signalTable id) val low highEff)

/-- `jit_schedule_nba_bit`: a write of one bit. -/
def jitScheduleNbaBit (id idx : Nat) (v x : Word) : VmSim :=
  let bit := (v.getLsbD 0, x.getLsbD 0)
  s.onSignals fun s =>
    match s.nbaFast.index id with
    | some i => s.modifyNba i fun target => VmOps.setBit target idx bit
    | none => s.pushNba id (VmOps.setBit (s.signalTable id) idx bit)

end Arms

section Commit

variable [VmOps] (D : VmDesign)

/-- `fit_value_to_signal`: convert a value as an assignment to the signal converts it. -/
def fitValueToSignal (id : Nat) (val : Value) : Value :=
  let width := D.signalWidths id
  if D.signalReal id then
    { (if val.isReal then val else VmOps.realOf val) with isSigned := D.signalSigned id }
  else if width = 0 then val
  else if D.signalIsString id ∧ val.isReal = false then val
  else
    let v := if val.isReal then VmOps.intOfReal val width else VmOps.resizeForAssign val width
    let v := if D.signalTwoState id then VmOps.toTwoState v else v
    { v with isSigned := D.signalSigned id }

/-- The value `apply_nba_entry` stores for a queued one: itself where it fits, else converted. -/
def nbaEntryValue (id : Nat) (v : Value) : Value :=
  let width := D.signalWidths id
  let val :=
    if width ≠ 0 ∧ v.width = width ∧ v.isFill = false ∧ v.isReal = false ∧
        D.signalReal id = false ∧ D.signalIsString id = false ∧
        ¬ (D.signalTwoState id = true ∧ v.xz ≠ 0) then v
    else fitValueToSignal D id v
  { val with isSigned := D.signalSigned id }

/-- The planes a packed cell holds after a store: cut to the element, x dropped by a two-state one. -/
def packedSetRaw (eid : Nat) (v x : Word) : Word × Word :=
  (v &&& xmask (D.packedWidth eid),
    if D.packedTwoState eid then 0#64 else x &&& xmask (D.packedWidth eid))

/-- `apply_nba`: commit the queued writes of packed cells, then those of signals, in order; a forced
cell or signal keeps its value. -/
def applyNba (s : VmSim) : VmSim where
  signalTable :=
    s.nbaFast.replay (fun id v old => if s.forced id then old else nbaEntryValue D id v)
      s.signalTable
  nbaFast := KeyedLog.empty
  tsSaveList := s.tsSaveList
  codeCovHits := s.codeCovHits
  packed := s.packedNba.foldl
    (fun t e => update t e.1
      (if s.forced e.1 then t e.1 else packedSetRaw D e.1 e.2.1 e.2.2)) s.packed
  packedNba := []
  forced := s.forced

end Commit

end Xezim
