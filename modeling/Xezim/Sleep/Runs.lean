import Xezim.Sleep.Tables

/-! The two-state evaluations of comb entries and edge blocks, in any order with the waking of sleepers. -/

namespace Xezim.Sleep

variable {Stream : Type}

/-- How a two-state attempt goes: a guard bails, it runs through (on x-planes after an x read, perhaps), it bails on an
x read, or it is aborted. -/
inductive Attempt where
  | warnX
  | forced
  | clean
  | xPlane
  | xRead
  | aborted
  deriving DecidableEq

/-- How native code of a stream goes: there is none, its guards decline, it runs, it reads x, or it gives up. -/
inductive Native where
  | absent
  | declined
  | clean
  | xRead
  | abort
  deriving DecidableEq

/-- A block: a comb entry or an edge block. -/
structure Block where
  edge : Bool
  idx : Nat
  deriving DecidableEq

namespace Engine

/-- `ts_guard_and_exec`: whether the block ran, and the reason if it did not. -/
def tsGuardAndExec (s : Engine Stream) (attempt : Attempt) : Bool × Engine Stream :=
  let s := { s with tsExecAborted := false, tsLastXbail := false }
  match attempt with
  | .warnX => (false, s)
  | .forced => (false, s)
  | .clean => (true, { s with profTsEvals := s.profTsEvals + 1 })
  | .xPlane => (true, { s with profTsEvals := s.profTsEvals + 1 })
  | .xRead => (false, { s with tsLastXbail := true })
  | .aborted => (false, { s with tsExecAborted := true })

/-- `ts_guard_and_exec_arena`, the same for a stream in the arena, but for the mark of an x read. -/
def tsGuardAndExecArena (s : Engine Stream) (attempt : Attempt) : Bool × Engine Stream :=
  let s := { s with tsExecAborted := false, tsLastXbail := false }
  match attempt with
  | .warnX => (false, s)
  | .forced => (false, s)
  | .clean => (true, { s with profTsEvals := s.profTsEvals + 1 })
  | .xPlane => (true, { s with profTsEvals := s.profTsEvals + 1 })
  | .xRead => (false, s)
  | .aborted => (false, { s with tsExecAborted := true })

/-- A bail noted when it was an x read. -/
def noteBail (s : Engine Stream) (ok : Bool) (kind : Kind) (idx : Nat) : Engine Stream :=
  if !ok && s.tsLastXbail then tsXbailNote s kind idx else s

/-- A comb entry's plan replaced, asleep or not. -/
def setPlan (s : Engine Stream) (idx : Nat) (plan : CombPlan Stream) : Engine Stream :=
  { s with
    forms := { s.forms with combPlan := Function.update s.forms.combPlan idx plan }
    awake := { s.awake with combPlan := Function.update s.awake.combPlan idx plan } }

/-- A comb entry's arena header replaced. -/
def setHdr (s : Engine Stream) (idx : Nat) (h : TsHdr) : Engine Stream :=
  { s with
    forms := { s.forms with tsHdr := Function.update s.forms.tsHdr idx h }
    awake := { s.awake with tsHdr := Function.update s.awake.tsHdr idx h } }

/-- A comb entry's slot replaced. -/
def setComb (s : Engine Stream) (idx : Nat) (slot : TsSlot Stream) : Engine Stream :=
  { s with
    forms := { s.forms with tsComb := Function.update s.forms.tsComb idx slot }
    awake := { s.awake with tsComb := Function.update s.awake.tsComb idx slot } }

/-- An edge block's slot replaced. -/
def setEdge (s : Engine Stream) (idx : Nat) (slot : TsSlot Stream) : Engine Stream :=
  { s with
    forms := { s.forms with tsEdge := Function.update s.forms.tsEdge idx slot }
    awake := { s.awake with tsEdge := Function.update s.awake.tsEdge idx slot } }

/-- The slot of a comb entry or of an edge block. -/
def slot (s : Engine Stream) (edge : Bool) (idx : Nat) : TsSlot Stream :=
  if edge then s.forms.tsEdge idx else s.forms.tsComb idx

/-- A slot replaced. -/
def setSlot (s : Engine Stream) (edge : Bool) (idx : Nat) (slot : TsSlot Stream) : Engine Stream :=
  if edge then s.setEdge idx slot else s.setComb idx slot

/-- One more interpreted evaluation of a sleeping block. -/
def noteInterpreted (s : Engine Stream) (edge : Bool) (idx : Nat) : Engine Stream :=
  if s.sleepers.heap ≠ [] ∧ s.marker edge idx ≠ 0 then
    s.setMarker edge idx (min 4294967295 (s.marker edge idx + 1))
  else s

end Engine

/-- The executor of a stream: wide registers, control flow, or a straight line. -/
def tsKindOf (block : TwoStateBlock Stream) : Nat :=
  if block.hasWide then if 2 < block.wideWords then 4 else 3 else if block.hasCtrl then 2 else 1

/-- The slot of a stream that lowered or did not. -/
def TsSlot.ofLowered (lowered : Option (TwoStateBlock Stream)) : TsSlot Stream :=
  match lowered with
  | some block => .yes block
  | none => .no

/-- A lowered stream appended to the arena, when its header holds it. -/
def placeInArena (s : Engine Stream) (idx : Nat) (block : TwoStateBlock Stream) : Engine Stream :=
  if block.len ≤ tsHdrLenMax ∧ block.numRegs ≤ 65535 ∧ s.tsArenaLen + block.len < 4294967295 then
    let s := s.setHdr idx ⟨s.tsArenaLen, block.len + tsKindOf block * 8192, block.numRegs⟩
    { s with tsArenaLen := s.tsArenaLen + block.len }
  else s

/-- A comb entry lowered at its first evaluation through a plan. -/
def lowerComb (s : Engine Stream) (idx : Nat) (lowered : Option (TwoStateBlock Stream)) : Engine Stream :=
  match s.forms.tsComb idx with
  | .untried =>
    let s := match lowered with
      | some block => placeInArena s idx block
      | none => s
    s.setComb idx (.ofLowered lowered)
  | _ => s

/-- `resolve_comb_plan`: two-state if the entry lowers, else native code, else the interpreter. -/
def resolveCombPlan (s : Engine Stream) (idx : Nat) (tsOn : Bool) (lowered : Option (TwoStateBlock Stream))
    (jit tpl : Bool) : CombPlan Stream × Engine Stream :=
  let native : CombPlan Stream := if jit then .jit else if tpl then .tpl else .interp
  if tsOn then
    let s := lowerComb s idx lowered
    match s.forms.tsComb idx with
    | .yes block => (.ts block, s)
    | _ => (native, s)
  else (native, s)

/-- The plan of an entry resolved at its first dispatch. -/
def resolvePlan (s : Engine Stream) (idx : Nat) (tsOn : Bool) (lowered : Option (TwoStateBlock Stream))
    (jit tpl : Bool) : Engine Stream :=
  match s.forms.combPlan idx with
  | .unresolved =>
    let resolved := resolveCombPlan s idx tsOn lowered jit tpl
    resolved.2.setPlan idx resolved.1
  | _ => s

/-- A plan whose native code died. -/
def downgradeCombPlan (s : Engine Stream) (idx : Nat) : Engine Stream :=
  match s.forms.combPlan idx with
  | .jit => s.setPlan idx .interp
  | .tpl => s.setPlan idx .interp
  | _ => s

/-- An aborted attempt through a plan counted, and the plan demoted with its header after too many. -/
def abortPlan (s : Engine Stream) (idx : Nat) : Engine Stream :=
  if s.tsExecAborted then
    let n := min 65535 (s.combPlanAbortn idx + 1)
    let s := { s with combPlanAbortn := Function.update s.combPlanAbortn idx n }
    if tsAbortDemote ≤ n then (s.setPlan idx .interp).setHdr idx { s.forms.tsHdr idx with lenKind := 0 } else s
  else s

/-- An aborted attempt through a slot counted, and the slot demoted after too many. -/
def abortSlot (s : Engine Stream) (edge : Bool) (idx : Nat) : Engine Stream :=
  if s.tsExecAborted then
    let n := min 65535 ((if edge then s.tsEdgeAbortn idx else s.tsCombAbortn idx) + 1)
    let s := if edge then { s with tsEdgeAbortn := Function.update s.tsEdgeAbortn idx n }
      else { s with tsCombAbortn := Function.update s.tsCombAbortn idx n }
    if tsAbortDemote ≤ n then s.setSlot edge idx .no else s
  else s

/-- A comb entry run through its plan, a two-state one. -/
def runPlan (s : Engine Stream) (idx : Nat) (attempt : Attempt) : Bool × Engine Stream :=
  let ran := s.tsGuardAndExec attempt
  (ran.1, ran.2.noteBail ran.1 .plan idx)

/-- A block run through its slot, a lowered one. -/
def runSlot (s : Engine Stream) (edge : Bool) (idx : Nat) (attempt : Attempt) : Bool × Engine Stream :=
  let ran := s.tsGuardAndExec attempt
  let s := ran.2.noteBail ran.1 (if edge then .edge else .slot) idx
  (ran.1, if ran.1 then s else abortSlot s edge idx)

/-- `dispatch_comb_plan`: a comb entry evaluated through its plan. Where native code runs after a bail, it may die. -/
def dispatchCombPlan (s : Engine Stream) (idx : Nat) (tsOn : Bool) (lowered : Option (TwoStateBlock Stream))
    (jit tpl : Bool) (attempt : Attempt) (jitDies : Bool) : Engine Stream :=
  let s := resolvePlan s idx tsOn lowered jit tpl
  match s.forms.combPlan idx with
  | .ts _ =>
    let ran := runPlan s idx attempt
    if ran.1 then ran.2
    else
      let s := abortPlan ran.2 idx
      if jitDies then downgradeCombPlan s idx else s
  | .jit => if jitDies then downgradeCombPlan s idx else s
  | .tpl => if jitDies then downgradeCombPlan s idx else s
  | _ => s

/-- A slot lowered at its first evaluation. -/
def lowerSlot (s : Engine Stream) (edge : Bool) (idx : Nat) (lowered : Option (TwoStateBlock Stream)) :
    Engine Stream :=
  match s.slot edge idx with
  | .untried => s.setSlot edge idx (.ofLowered lowered)
  | _ => s

/-- `try_two_state_in`: a block evaluated through its slot, and whether it ran. -/
def tryTwoStateIn (s : Engine Stream) (idx : Nat) (tsOn : Bool) (lowered : Option (TwoStateBlock Stream))
    (edge : Bool) (attempt : Attempt) : Bool × Engine Stream :=
  if tsOn then
    let s := lowerSlot s edge idx lowered
    match s.slot edge idx with
    | .yes _ => runSlot s edge idx attempt
    | _ => (false, s)
  else (false, s)

/-- An edge block fired: its slot first, the interpreter when it did not run. -/
def fireEdge (s : Engine Stream) (idx : Nat) (tsOn : Bool) (lowered : Option (TwoStateBlock Stream))
    (attempt : Attempt) : Engine Stream :=
  let ran := match s.forms.tsEdge idx with
    | .no => (false, s)
    | .yes _ => runSlot s true idx attempt
    | .untried => tryTwoStateIn s idx tsOn lowered true attempt
  if ran.1 then ran.2 else ran.2.noteInterpreted true idx

/-- What native code of the arena's stream leaves: whether the entry ran, whether it bailed for good. -/
def runNative (s : Engine Stream) (native : Native) : Bool × Bool × Engine Stream :=
  match native with
  | .absent => (false, false, s)
  | .declined => (false, false, { s with tsExecAborted := false })
  | .clean => (true, false, { s with tsExecAborted := false, profTsEvals := s.profTsEvals + 1 })
  | .xRead => (false, false, { s with tsExecAborted := false })
  | .abort => (false, true, { s with tsExecAborted := true })

/-- The arena first, then the plan. -/
def runArenaOrPlan (s : Engine Stream) (idx : Nat) (attempt : Attempt) : Bool × Engine Stream :=
  if (s.forms.tsHdr idx).kind ≠ 0 then
    let ran := s.tsGuardAndExecArena attempt
    (ran.1, ran.2.noteBail ran.1 .plan idx)
  else match s.forms.combPlan idx with
    | .ts _ => runPlan s idx attempt
    | _ => (false, s)

/-- A settle's visit of a comb entry, outside a process unless `nested`; the interpreter follows when it did not run. -/
def settleVisit (s : Engine Stream) (idx : Nat) (nested : Bool) (native : Native) (attempt : Attempt) :
    Engine Stream :=
  let first := if nested then (false, false, s) else runNative s native
  let ran := if !first.1 && !first.2.1 && !nested then runArenaOrPlan first.2.2 idx attempt else (first.1, first.2.2)
  if ran.1 then ran.2 else ran.2.noteInterpreted false idx

/-- One step: an evaluation of a block on one of its paths, or the waking of sleepers. -/
inductive Op (Stream : Type) where
  | settle (idx : Nat) (nested : Bool) (native : Native) (attempt : Attempt)
  | dispatch (idx : Nat) (tsOn : Bool) (lowered : Option (TwoStateBlock Stream)) (jit tpl : Bool) (attempt : Attempt)
      (jitDies : Bool)
  | trySlot (idx : Nat) (tsOn : Bool) (lowered : Option (TwoStateBlock Stream)) (edge : Bool) (attempt : Attempt)
  | fire (idx : Nat) (tsOn : Bool) (lowered : Option (TwoStateBlock Stream)) (attempt : Attempt)
  | wake

/-- What a step does. -/
def step (s : Engine Stream) : Op Stream → Engine Stream
  | .settle idx nested native attempt => settleVisit s idx nested native attempt
  | .dispatch idx tsOn lowered jit tpl attempt jitDies =>
    dispatchCombPlan s idx tsOn lowered jit tpl attempt jitDies
  | .trySlot idx tsOn lowered edge attempt => (tryTwoStateIn s idx tsOn lowered edge attempt).2
  | .fire idx tsOn lowered attempt => fireEdge s idx tsOn lowered attempt
  | .wake => if s.sleepers.heap ≠ [] then tsWakeSleepers s else s

/-- Nothing lowered, nothing asleep. -/
def initial : Engine Stream where
  profTsEvals := 0
  tsArenaLen := 0
  forms := ⟨fun _ => ⟨0, 0, 0⟩, fun _ => .unresolved, fun _ => .untried, fun _ => .untried⟩
  awake := ⟨fun _ => ⟨0, 0, 0⟩, fun _ => .unresolved, fun _ => .untried, fun _ => .untried⟩
  sleepers := TimedSlab.empty
  tsCombXb _ := ⟨0, 0, 0⟩
  tsEdgeXb _ := ⟨0, 0, 0⟩
  tsAsleepComb _ := 0
  tsAsleepEdge _ := 0
  tsLastXbail := false
  tsExecAborted := false
  tsCombAbortn _ := 0
  tsEdgeAbortn _ := 0
  combPlanAbortn _ := 0

end Xezim.Sleep
