import Xezim.Comb.Commit

/-! Gate bits that reach their signal after the annotated delay of the signal. -/

namespace Xezim.Comb

/-- An entry of `delayed_updates`. -/
structure DelayedUpdate where
  due : Nat
  id : Nat
  val : Value

/-- The simulator with its delayed updates. -/
structure DelaySim where
  sim : CommitSim
  signalSigned : Nat → Bool
  delayedUpdates : List DelayedUpdate
  gateFallDelayById : List (Nat × Nat)
  gateOffDelayById : List (Nat × Nat)

/-- `swap_remove`: the last entry takes the place of the removed one. -/
def swapRemove {α : Type} (l : List α) (i : Nat) : List α :=
  match l.getLast? with
  | some last => (l.set i last).dropLast
  | none => []

/-- `write_sig!` on a signal that no force holds. -/
def CommitSim.storeSig [GateOps] (s : CommitSim) (id : Nat) (val : Value) : CommitSim :=
  let changed := s.signalTable id ≠ val
  let s :=
    if id < s.signalHasXz.length then
      { s with signalHasXz := s.signalHasXz.set id (if (ValueOps.rawBits val).2 ≠ 0 then 1 else 0) }
    else s
  let s :=
    if id < s.signalInlineBits.length then
      { s with signalInlineBits := s.signalInlineBits.set id (ValueOps.rawBits val) }
    else s
  let s :=
    if (s.valueTraceIds.any fun ids => ids.contains id) ∧ changed then
      { s with valueTracePending := s.valueTracePending ++ [(id, s.time, val)] }
    else s
  let s := s.setSignal id val
  let s :=
    if changed ∧ s.activeForceExprs ≠ 0 ∧ id < s.activeForceSignalEpochs.length then
      { s with
        activeForceSignalEpochs := s.activeForceSignalEpochs.modify id (· + 1)
        forceEpochGen := s.forceEpochGen + 1 }
    else s
  let s := s.vcdMark id
  let s :=
    if s.eventMeasure && !s.armedEdge && id < s.sigLastChange.length then
      { s with sigLastChange := s.sigLastChange.set id s.eventPhase }
    else s
  let s := s.noteArmedWrite id
  s.noteEdgeWrite id

/-- A value with the declared sign of its signal. -/
def signedAs (signed : Bool) (val : Value) : Value := if val.isReal then val else { val with isSigned := signed }

/-- `write_sig!`. -/
def CommitSim.writeSig [GateOps] (s : CommitSim) (signed : Bool) (id : Nat) (val : Value) : CommitSim :=
  if (s.forcedSignals id).isSome then s else s.storeSig id (signedAs signed val)

namespace DelaySim

variable [GateOps] (s : DelaySim)

/-- Every bit of a value is `b`. -/
def allBits (v : Value) (b : LogicBit) : Bool := (List.range v.width).all fun i => VmOps.getBit v i = b

/-- The delay of a transition: the fall and turn-off delays of a gate may replace the annotated one. -/
def transitionDelay (id : Nat) (val : Value) (delay : Nat) : Nat :=
  if s.gateFallDelayById = [] then delay
  else
    let allZero := fun v : Value => decide (v.xz = 0) && allBits v (false, false)
    let fall := s.gateFallDelayById.lookup id
    let off := s.gateOffDelayById.lookup id
    if fall.isNone ∧ off.isNone then delay
    else if allZero val ∧ !allZero (s.sim.signalTable id) then fall.getD delay
    else if 0 < val.width ∧ allBits val (true, true) then off.getD (fall.elim delay fun f => min f delay)
    else if val.xz ≠ 0 then (fall.toList ++ off.toList).foldl min delay
    else delay

/-- `schedule_delayed_with_delay` on a net without module paths, as an annotated one is. -/
def scheduleDelayedWithDelay (id : Nat) (val : Value) (delay : Nat) : DelaySim :=
  { s with
    delayedUpdates := s.delayedUpdates.filter (·.id ≠ id) ++
      [{ due := s.sim.time + s.transitionDelay id val delay, id := id, val := val }] }

/-- `schedule_delayed`. -/
def scheduleDelayed (id : Nat) (val : Value) : DelaySim :=
  s.scheduleDelayedWithDelay id val (s.sim.sdfDelays[id]?.getD 0)

/-- `fused_bit_commit`, its calls of `schedule_delayed` made. -/
def commit (dst : BitRef) (newBit : Nat) : DelaySim × Bool :=
  let (sim, changed) := { s.sim with scheduled := [] }.fusedBitCommit dst newBit (s.sim.sdfDelays ≠ [])
  (sim.scheduled.foldl (fun s call => s.scheduleDelayed call.1 call.2) { s with sim := { sim with scheduled := [] } },
    changed)

/-- A due update reaches its signal. -/
def applyOne (u : DelayedUpdate) : DelaySim × Bool :=
  let val := { u.val with isSigned := s.signalSigned u.id }
  if s.sim.signalTable u.id ≠ val then
    ({ s with sim := { s.sim.writeSig (s.signalSigned u.id) u.id val with tableModified := true } }, true)
  else (s, false)

/-- The loop of `apply_delayed_updates` from entry `i`; every round takes an entry out or steps past one. -/
def applyFrom : Nat → Nat → DelaySim → DelaySim × Bool
  | 0, _, s => (s, false)
  | rounds + 1, i, s =>
    match s.delayedUpdates[i]? with
    | some u =>
      if u.due ≤ s.sim.time then
        let (s, applied) := { s with delayedUpdates := swapRemove s.delayedUpdates i }.applyOne u
        let (s, later) := applyFrom rounds i s
        (s, applied || later)
      else applyFrom rounds (i + 1) s
    | none => (s, false)

/-- `apply_delayed_updates`. -/
def applyDelayedUpdates : DelaySim × Bool := applyFrom s.delayedUpdates.length 0 s

/-- What happens to delayed gate outputs: a gate drives its bit, or time moves on and the due updates are applied. -/
inductive Event
  | commit (dst : BitRef) (newBit : Fin 4)
  | advance (ticks : Nat)

/-- One event. -/
def step (s : DelaySim) : Event → DelaySim
  | .commit dst newBit => (s.commit dst newBit).1
  | .advance ticks => { s with sim := { s.sim with time := s.sim.time + ticks } }.applyDelayedUpdates.1

/-- A run of events. -/
def run (events : List Event) : DelaySim := events.foldl step s

end DelaySim

end Xezim.Comb
