import Xezim.Lib.KeyedLog
import Xezim.TwoState.Insn

/-! The signal table, the nonblocking queue, and the store helpers the executors call. -/

namespace Xezim

open Function

/-- The declarations of the design that stores consult. -/
structure Design where
  /-- `signal_widths`. -/
  signalWidths : Nat → Nat
  /-- `signal_signed`. -/
  signalSigned : Nat → Bool
  /-- `signal_two_state`: the destination drops x and z on every write. -/
  signalTwoState : Nat → Bool

/-- One entry of the list of saves an aborted run undoes. -/
inductive TsSave where
  | narrow (sig : Nat) (v x : Word)
  | wideWord (sig : Nat) (v x : Word)
  | wideMark (sig nw : Nat)
  | cov (c : Nat)
  deriving DecidableEq, Repr

/-- The part of the simulator that compiled blocks read and write. -/
@[ext]
structure Sim where
  /-- `signal_table`. -/
  signalTable : Nat → Value
  /-- `nba_fast` with `nba_fast_index`: the queued nonblocking values by signal. -/
  nbaFast : KeyedLog Nat Value
  /-- `ts_save_list`, last save first. -/
  tsSaveList : List TsSave
  /-- `code_cov_hits`. -/
  codeCovHits : Nat → Nat

section Helpers

variable [ValueOps] (D : Design)

/-- The planes of the bits `low..=high` of a base replaced by a source. -/
def composeInlineRangeBits (baseV baseX srcV srcX : Word) (low high : Nat) : Word × Word :=
  -- A range whose bounds cross is a write of nothing.
  if high < low then (baseV, baseX)
  else
    let srcMask := xmask (high - low + 1)
    let dstMask := shl srcMask low
    ((baseV &&& ~~~dstMask) ||| shl (srcV &&& srcMask) low,
      (baseX &&& ~~~dstMask) ||| shl (srcX &&& srcMask) low)

/-- Both planes of a `w`-bit slice of a value from bit `lo`. -/
def rawBitsSlice (v : Value) (lo w : Nat) : Word × Word :=
  if v.width ≤ 64 then
    let raw := ValueOps.rawBits v
    (shr raw.1 lo &&& xmask w, shr raw.2 lo &&& xmask w)
  else ValueOps.sliceBitsSwar v lo w

/-- The low 32 bits of a word, as a cast to a bit position takes them. -/
def asU32 (a : Word) : Nat := a.toNat % 2 ^ 32

/-- Whether a slice at a run-time offset runs past a signal of `sw` bits; nothing when the sum
overflows its 64 bits, on which a checked build panics. -/
def pastEnd (lo : Word) (w sw : Nat) : Option Bool :=
  if lo.toNat + w < 2 ^ 64 then some (decide (lo.toNat + w > sw)) else none

/-- Replace one signal's table value. -/
def Sim.setSignal (s : Sim) (id : Nat) (v : Value) : Sim :=
  { s with signalTable := update s.signalTable id v }

/-- Queue a value for a signal. -/
def Sim.pushNba (s : Sim) (id : Nat) (v : Value) : Sim :=
  { s with nbaFast := s.nbaFast.push id v }

/-- Change the queued value of the entry at a position. -/
def Sim.modifyNba (s : Sim) (i : Nat) (f : Value → Value) : Sim :=
  { s with nbaFast := s.nbaFast.modify i f }

/-- Write both planes of a narrow value in place, or build the value afresh. -/
def writeInline (id : Nat) (v : Value) (a x : Word) : Value :=
  match ValueOps.setInlineBits v a x with
  | some v => v
  | none => { ValueOps.fromInline a x (D.signalWidths id) with isSigned := D.signalSigned id }

/-- A two-state destination reads every x and z bit of a store as zero. -/
def tsScrubTwoState (id : Nat) (v x : Word) : Word × Word :=
  if x ≠ 0#64 ∧ D.signalTwoState id = true then (v &&& ~~~x, 0#64) else (v, x)

/-- Whole-signal blocking store of a known value, compared under the destination's mask. -/
def tsStore (s : Sim) (id : Nat) (v mask : Word) : Sim :=
  let entry := s.signalTable id
  let raw := ValueOps.rawBits entry
  if v ≠ raw.1 &&& mask ∨ raw.2 &&& mask ≠ 0#64 then
    match ValueOps.setInlineBits entry v 0#64 with
    | some entry => s.setSignal id entry
    | none => s.setSignal id
        { ValueOps.fromU64 v (D.signalWidths id) with isSigned := D.signalSigned id }
  else s

/-- Whole-signal blocking store of both planes. -/
def tsStoreXz (s : Sim) (id : Nat) (v x : Word) : Sim :=
  let p := tsScrubTwoState D id v x
  let entry := s.signalTable id
  if p.1 = (ValueOps.rawBits entry).1 ∧ p.2 = (ValueOps.rawBits entry).2 then s
  else s.setSignal id (writeInline D id entry p.1 p.2)

/-- Blocking store of both planes into a window of a narrow signal. -/
def tsRangeStoreXz (s : Sim) (id : Nat) (v x : Word) (lo hi : Nat) : Sim :=
  let p := tsScrubTwoState D id v x
  let entry := s.signalTable id
  let base := ValueOps.rawBits entry
  let new := composeInlineRangeBits base.1 base.2 p.1 p.2 lo hi
  if new = base then s
  else s.setSignal id (writeInline D id entry new.1 new.2)

/-- Blocking store of a known value into a window of a narrow signal. -/
def tsRangeStore (s : Sim) (id : Nat) (v : Word) (lo hi : Nat) : Sim :=
  tsRangeStoreXz D s id v 0#64 lo hi

/-- Blocking store of both planes into a window of a wide signal. -/
def tsWideRangeStore (s : Sim) (id lo hi : Nat) (v x : Word) : Sim :=
  let p := tsScrubTwoState D id v x
  let spliced := ValueOps.spliceBits64 (s.signalTable id) lo p.1 p.2 (hi + 1 - lo)
  if spliced.2 then s.setSignal id spliced.1 else s

/-- Dynamic bit store into a wide signal. -/
def tsWideBitStore (s : Sim) (id idx : Nat) (bit : Word) : Sim :=
  tsWideRangeStore D s id idx idx (bit &&& 1#64) 0#64

/-- Splice one bit pattern from `pos` up to `stop`, a word at a time; says whether a bit moved. -/
def spliceFill (fillV fillX : Nat → Word) : Nat → Value → Nat → Nat → Value × Bool
  | 0, v, _, _ => (v, false)
  | fuel + 1, v, pos, stop =>
    if pos < stop then
      let n := min (stop - pos) 64
      let step := ValueOps.spliceBits64 v pos (fillV n) (fillX n) n
      let rest := spliceFill fillV fillX fuel step.1 (pos + n) stop
      (rest.1, step.2 || rest.2)
    else (v, false)

/-- The value plane of a fill with one known bit. -/
def fillWord (bit : Nat) : Word := if bit ≠ 0 then BitVec.allOnes 64 else 0#64

/-- Blocking fill of a window with one known bit. -/
def tsWideRangeFill (s : Sim) (id lo hi bit : Nat) : Sim :=
  let filled := spliceFill (fun _ => fillWord bit) (fun _ => 0#64) (hi + 1) (s.signalTable id)
    lo (hi + 1)
  if filled.2 then s.setSignal id filled.1 else s

/-- Blocking fill of a window with x or z bits. -/
def tsWideRangeFillXz (s : Sim) (id lo hi vbit : Nat) : Sim :=
  if D.signalTwoState id = true then tsWideRangeFill s id lo hi 0
  else
    let filled := spliceFill (fun n => fillWord vbit &&& xmask n) (fun n => xmask n) (hi + 1)
      (s.signalTable id) lo (hi + 1)
    if filled.2 then s.setSignal id filled.1 else s

/-- Whole-signal nonblocking update with an already built value. -/
def tsStoreNbaVal (s : Sim) (id : Nat) (val : Value) : Sim :=
  match s.nbaFast.index id with
  | some i => s.modifyNba i fun _ => val
  | none => if s.signalTable id ≠ val then s.pushNba id val else s

/-- Whole-signal nonblocking update with a known word. -/
def tsStoreNba (s : Sim) (id : Nat) (v : Word) (w : Nat) : Sim :=
  tsStoreNbaVal s id (ValueOps.fromU64 v w)

/-- Whole-signal nonblocking update with both planes. -/
def tsStoreNbaXz (s : Sim) (id : Nat) (v x : Word) (w : Nat) : Sim :=
  if x = 0#64 then tsStoreNba s id v w
  else tsStoreNbaVal s id { ValueOps.fromInline v x (max w 1) with isSigned := false }

/-- Nonblocking update of a window of a narrow signal with both planes. -/
def tsRangeStoreNbaXz (s : Sim) (id lo hi : Nat) (v x : Word) : Sim :=
  match s.nbaFast.index id with
  | some i => s.modifyNba i fun target =>
      let base := ValueOps.rawBits target
      let new := composeInlineRangeBits base.1 base.2 v x lo hi
      { (ValueOps.setInlineBits target new.1 new.2).getD target with
        isSigned := D.signalSigned id }
  | none =>
    let base := ValueOps.rawBits (s.signalTable id)
    let new := composeInlineRangeBits base.1 base.2 v x lo hi
    if new = base then s
    else s.pushNba id
      { ValueOps.fromInline new.1 new.2 (D.signalWidths id) with isSigned := D.signalSigned id }

/-- Nonblocking update of a window of a narrow signal with a known word. -/
def tsRangeStoreNba (s : Sim) (id lo hi : Nat) (v : Word) : Sim :=
  tsRangeStoreNbaXz D s id lo hi v 0#64

/-- Nonblocking update of one bit of a narrow signal. -/
def tsBitStoreNba (s : Sim) (id idx : Nat) (bit : Word) : Sim :=
  tsRangeStoreNbaXz D s id idx idx bit 0#64

/-- Nonblocking update of a window of a wide signal with both planes. -/
def tsWideRangeStoreNbaXz (s : Sim) (id lo hi : Nat) (v x : Word) : Sim :=
  match s.nbaFast.index id with
  | some i => s.modifyNba i fun target =>
      (ValueOps.spliceBits64 target lo v x (hi + 1 - lo)).1
  | none =>
    let spliced := ValueOps.spliceBits64 (s.signalTable id) lo v x (hi + 1 - lo)
    if spliced.2 then s.pushNba id { spliced.1 with isSigned := D.signalSigned id } else s

/-- Nonblocking update of a window of a wide signal with a known word. -/
def tsWideRangeStoreNba (s : Sim) (id lo hi : Nat) (v : Word) : Sim :=
  tsWideRangeStoreNbaXz D s id lo hi v 0#64

/-- Nonblocking fill of a window with one known bit. -/
def tsWideRangeFillNba (s : Sim) (id lo hi bit : Nat) : Sim :=
  let fill v := spliceFill (fun _ => fillWord bit) (fun _ => 0#64) (hi + 1) v lo (hi + 1)
  match s.nbaFast.index id with
  | some i => s.modifyNba i fun target => (fill target).1
  | none =>
    let filled := fill (s.signalTable id)
    if filled.2 then s.pushNba id { filled.1 with isSigned := D.signalSigned id } else s

/-- Count a coverage marker and remember how to undo it. -/
def tsCovHit (s : Sim) (c : Nat) : Sim :=
  { s with
    codeCovHits := update s.codeCovHits c (s.codeCovHits c + 1)
    tsSaveList := .cov c :: s.tsSaveList }

/-- Save a narrow signal ahead of a hazard. -/
def tsSaveSig (s : Sim) (sig : Nat) : Sim :=
  let raw := ValueOps.rawBits (s.signalTable sig)
  { s with tsSaveList := .narrow sig raw.1 raw.2 :: s.tsSaveList }

/-- Save a wide signal word by word, then its marker. -/
def tsSaveSigW (s : Sim) (sig : Nat) : Sim :=
  let w := D.signalWidths sig
  let nw := (w + 63) / 64
  let word i :=
    let raw := rawBitsSlice (s.signalTable sig) (i * 64) (min (w - i * 64) 64)
    TsSave.wideWord sig raw.1 raw.2
  { s with tsSaveList := .wideMark sig nw :: ((List.range nw).map word).reverse ++ s.tsSaveList }

end Helpers

end Xezim
