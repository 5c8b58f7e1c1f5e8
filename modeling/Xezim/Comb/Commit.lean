import Mathlib.Logic.Function.Basic
import Xezim.Comb.Gate

/-! The commits of one gate bit: the generic one, and the two fast ones. -/

namespace Xezim.Comb

/-- What the commits read and write of the simulator. -/
structure CommitSim where
  signalTable : Nat → Value
  /-- Length of `signal_table`. -/
  tableLen : Nat
  signalWidths : Nat → Nat
  forcedSignals : Nat → Option Value
  sdfDelays : List Nat
  time : Nat
  /-- The calls of `schedule_delayed`. -/
  scheduled : List (Nat × Value)
  valueTraceIds : Option (List Nat)
  valueTracePending : List (Nat × Nat × Value)
  dumpDirtyActive : Bool
  dumpDirtyMark : List Nat
  dumpDirtyEpoch : Nat
  dumpDirty : List Nat
  /-- Number of `active_force_exprs`. -/
  activeForceExprs : Nat
  activeForceSignalEpochs : List (BitVec 64)
  forceEpochGen : BitVec 64
  signalInlineBits : List (Word × Word)
  signalHasXz : List Nat
  eventMeasure : Bool
  sigLastChange : List Nat
  eventPhase : Nat
  signalCommitPlan : List Nat
  quietValid : Bool
  quietBits : Nat → Bool
  tableModified : Bool
  dirtyEdge : Bool
  dirtyEdgeShadow : Bool
  inEdgeBlock : Bool
  inEdgeCont : Bool
  /-- `sig_to_edge_pos`, where it is not negative. -/
  sigToEdgePos : Nat → Option Nat
  edgeExecSeen : Nat → Bool
  edgeExecWrote : List Nat
  edgePosSeen : Nat → Bool
  changedEdgePos : List Nat
  armedEdge : Bool
  armedInputSet : Nat → Bool
  armedInputRanges : Nat → Nat × Nat
  armedInputBlocks : Nat → Nat
  /-- The `EDGE_ARMED` bit of every `edge_block_armed`. -/
  edgeBlockArmed : Nat → Bool
  armCensus : Option (List (Nat × Nat))

namespace CommitSim

variable [GateOps] (s : CommitSim)

/-- `note_armed_write`. -/
def noteArmedWrite (id : Nat) : CommitSim :=
  if !s.armedEdge || !s.armedInputSet id then s
  else
    let (lo, hi) := s.armedInputRanges id
    { s with
      armCensus := s.armCensus.map fun c =>
        (c ++ List.replicate (id + 1 - c.length) (0, 0)).modify id fun n => (n.1 + 1, n.2 + (hi - lo))
      edgeBlockArmed := fun bi => s.edgeBlockArmed bi || (List.range' lo (hi - lo)).any fun k =>
        s.armedInputBlocks k = bi }

/-- The first part of `note_edge_write`: a write made during edge execution. -/
def noteEdgeExec (id : Nat) : CommitSim :=
  if s.inEdgeBlock || s.inEdgeCont then
    match s.sigToEdgePos id with
    | some p =>
      if s.edgeExecSeen p then s
      else { s with edgeExecSeen := Function.update s.edgeExecSeen p true, edgeExecWrote := s.edgeExecWrote ++ [p] }
    | none => s
  else s

/-- `note_edge_write`. -/
def noteEdgeWrite (id : Nat) : CommitSim :=
  let s := s.noteEdgeExec id
  if !s.dirtyEdge && !s.dirtyEdgeShadow then s
  else
    match s.sigToEdgePos id with
    | some p =>
      if s.edgePosSeen p then s
      else { s with edgePosSeen := Function.update s.edgePosSeen p true, changedEdgePos := s.changedEdgePos ++ [p] }
    | none => s

/-- `sync_mirror`. -/
def syncMirror (id : Nat) : CommitSim :=
  if id < s.signalInlineBits.length then
    { s with
      signalInlineBits := s.signalInlineBits.set id (ValueOps.rawBits (s.signalTable id))
      signalHasXz := s.signalHasXz.set id (if (s.signalTable id).xz ≠ 0 then 1 else 0) }
  else s

/-- `vcd_mark!`. -/
def vcdMark (id : Nat) : CommitSim :=
  if s.dumpDirtyActive ∧ id < s.dumpDirtyMark.length ∧ s.dumpDirtyMark[id]? ≠ some s.dumpDirtyEpoch then
    { s with dumpDirtyMark := s.dumpDirtyMark.set id s.dumpDirtyEpoch, dumpDirty := s.dumpDirty ++ [id] }
  else s

/-- `after_signal_write_observed`. -/
def afterSignalWriteObserved (id : Nat) (premirrored edgeSidecar armedSidecar : Bool) : CommitSim :=
  let s :=
    if s.valueTraceIds.any fun ids => ids.contains id && id < s.tableLen then
      { s with valueTracePending := s.valueTracePending ++ [(id, s.time, s.signalTable id)] }
    else s
  let s := if armedSidecar then s.noteArmedWrite id else s
  let s := if edgeSidecar then s.noteEdgeWrite id else s
  let s := s.vcdMark id
  let s :=
    if s.activeForceExprs ≠ 0 ∧ id < s.activeForceSignalEpochs.length then
      { s with
        activeForceSignalEpochs := s.activeForceSignalEpochs.modify id (· + 1)
        forceEpochGen := s.forceEpochGen + 1 }
    else s
  let s :=
    if !premirrored && id < s.signalInlineBits.length then
      { s with signalInlineBits := s.signalInlineBits.set id (ValueOps.rawBits (s.signalTable id)) }
    else s
  if s.eventMeasure && !s.armedEdge && id < s.sigLastChange.length then
    { s with sigLastChange := s.sigLastChange.set id s.eventPhase }
  else s

/-- `after_signal_write_inner`. -/
def afterSignalWriteInner (id : Nat) (premirrored : Bool) : CommitSim :=
  if s.tableLen ≤ id then s
  else if s.signalCommitPlan = [] then
    if s.quietValid && s.quietBits id && s.valueTraceIds.isNone && !s.dumpDirtyActive && s.activeForceExprs = 0 &&
        (premirrored || s.signalInlineBits = []) && !(s.eventMeasure && !s.armedEdge) then s
    else s.afterSignalWriteObserved id premirrored true true
  else
    let plan := s.signalCommitPlan[id]?.getD 3
    let edge := plan &&& 1 ≠ 0 && (s.dirtyEdge || s.dirtyEdgeShadow || s.inEdgeBlock || s.inEdgeCont)
    let armed := plan &&& 2 ≠ 0 && s.armedEdge
    let observer := s.valueTraceIds.isSome || s.dumpDirtyActive || s.activeForceExprs ≠ 0 ||
      (!premirrored && s.signalInlineBits ≠ []) || (s.eventMeasure && !s.armedEdge)
    if !edge && !armed && !observer then s else s.afterSignalWriteObserved id premirrored edge armed

/-- `after_signal_write_premirrored`. -/
def afterSignalWritePremirrored (id : Nat) : CommitSim := s.afterSignalWriteInner id true

/-- `schedule_delayed`. -/
def scheduleDelayed (id : Nat) (v : Value) : CommitSim := { s with scheduled := s.scheduled ++ [(id, v)] }

/-- A destination is delayed by the annotation now. -/
def delayedNow (sdfAny : Bool) (id : Nat) : Bool := sdfAny && 0 < s.sdfDelays[id]?.getD 0 && 0 < s.time

/-- The table with one signal replaced. -/
def setSignal (id : Nat) (v : Value) : CommitSim := { s with signalTable := Function.update s.signalTable id v }

/-- `fused_bit_commit`: the simulator after, and whether the table changed. -/
def fusedBitCommit (dst : BitRef) (newBit : Nat) (sdfAny : Bool) : CommitSim × Bool :=
  let id := dst.sigId
  if s.delayedNow sdfAny id then
    if GateOps.getBitCode (s.signalTable id) dst.bit ≠ newBit then
      (s.scheduleDelayed id (GateOps.setBitCode (s.signalTable id) dst.bit newBit).1, false)
    else (s, false)
  else
    let (v, changed) := GateOps.setBitCode (s.signalTable id) dst.bit newBit
    let s := s.setSignal id v
    if changed then
      match s.forcedSignals id with
      | some fv =>
        -- A forced net keeps its forced value against its driver.
        (s.setSignal id (GateOps.setBitCode (s.signalTable id) dst.bit (GateOps.getBitCode fv dst.bit)).1, false)
      | none => (({ s.syncMirror id with tableModified := true } : CommitSim).afterSignalWritePremirrored id, true)
    else (s, false)

/-- `fused_batch_commit_state`: whether edge and armed notes are taken, when the planned commit may run. -/
def fusedBatchCommitState : Option (Bool × Bool) :=
  if s.signalCommitPlan = [] || s.valueTraceIds.isSome || s.dumpDirtyActive || s.activeForceExprs ≠ 0 ||
      s.signalInlineBits ≠ [] || (s.eventMeasure && !s.armedEdge) then none
  else some (s.dirtyEdge || s.dirtyEdgeShadow || s.inEdgeBlock || s.inEdgeCont, s.armedEdge)

/-- `fused_scalar_commit_planned`. -/
def fusedScalarCommitPlanned (id newBit : Nat) (sdfAny edgeActive armedActive : Bool) : CommitSim × Bool :=
  if s.delayedNow sdfAny id then
    if GateOps.getBitCode (s.signalTable id) 0 ≠ newBit then
      (s.scheduleDelayed id (GateOps.setScalarCode (s.signalTable id) newBit).1, false)
    else (s, false)
  else
    let (v, changed) := GateOps.setScalarCode (s.signalTable id) newBit
    let s := s.setSignal id v
    if !changed then (s, false)
    else
      let s := { s with tableModified := true }
      let plan := s.signalCommitPlan[id]?.getD 3
      let s := if armedActive && plan &&& 2 ≠ 0 then s.noteArmedWrite id else s
      let s := if edgeActive && plan &&& 1 ≠ 0 then s.noteEdgeWrite id else s
      (s, true)

/-- `gate_lane_slow`. -/
def gateLaneSlow : Bool :=
  s.valueTraceIds.isSome || s.dumpDirtyActive || s.activeForceExprs ≠ 0 || s.signalInlineBits ≠ [] ||
    (s.eventMeasure && !s.armedEdge) || s.sdfDelays ≠ [] || s.signalCommitPlan ≠ []

/-- The notes a destination needs, as `build_gate_lane` finds them: an armed input, an edge signal, and a
destination wider than a word. -/
def gateObs (id : Nat) : Nat :=
  (s.armedInputSet id).toNat ||| (s.sigToEdgePos id).isSome.toNat <<< 1 |||
    (decide (64 < s.signalWidths id)).toNat <<< 2

/-- The low words of both planes with one bit replaced. -/
def replaceBit (planes : Word × Word) (bit newBit : Nat) : Word × Word :=
  let m := (1 : Word) <<< bit
  (if newBit &&& 1 ≠ 0 then planes.1 ||| m else planes.1 &&& ~~~m,
    if newBit &&& 2 ≠ 0 then planes.2 ||| m else planes.2 &&& ~~~m)

/-- `gate_lane_commit`. -/
def gateLaneCommit (dst : BitRef) (newBit obs : Nat) (slow : Bool) : CommitSim × Bool :=
  let id := dst.sigId
  if slow || obs &&& 4 ≠ 0 then s.fusedBitCommit dst newBit (s.sdfDelays ≠ [])
  else
    let (v, x) := ValueOps.rawBits (s.signalTable id)
    let cur := (((x >>> dst.bit &&& 1) <<< 1) ||| (v >>> dst.bit &&& 1)).toNat
    if cur = newBit then (s, false)
    else
      let (nv, nx) := replaceBit (v, x) dst.bit newBit
      match ValueOps.setInlineBits (s.signalTable id) nv nx with
      | none => s.fusedBitCommit dst newBit (s.sdfDelays ≠ [])
      | some entry =>
        let s := { s.setSignal id entry with tableModified := true }
        let s := if obs &&& 1 ≠ 0 then s.noteArmedWrite id else s
        let s := if obs &&& 2 ≠ 0 then s.noteEdgeWrite id else s
        (s, true)

end CommitSim

end Xezim.Comb
