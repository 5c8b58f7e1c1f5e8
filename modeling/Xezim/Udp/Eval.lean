import Xezim.Udp.Table

/-! The evaluators of user-defined primitives, and the row search they stand for. -/

namespace Xezim

open Digits

/-- `BitRef`: one bit of a net, or a constant. -/
structure BitRef where
  sigId : Nat
  bit : Nat
  deriving DecidableEq

/-- The signal id of a constant terminal, whose bit is the constant's code. -/
def constSig : Nat := 2 ^ 32 - 1

/-- `UdpRuntime`: one instance, with the level it drives. -/
structure UdpRuntime where
  inRefs : List BitRef
  isSequential : Bool
  rows : List UdpTableRow
  transitionLut : Option (List Nat)
  lutInputStates : Nat
  inputStateIdx : Nat
  eventInput : Option Nat
  eventTransitionMask : Nat
  state : Nat
  prevInputs : List Nat
  initialized : Bool
  warned : Bool
  /-- The code last handed to `drive_udp_output`, at first the one the output net starts with. -/
  driven : Nat

/-- The 4-state code of every net bit. -/
abbrev Nets := BitRef → Fin 4

/-- A terminal's code as the fast paths read it: only a net's z is taken for x. -/
def fastCode (nets : Nets) (b : BitRef) : Nat :=
  if b.sigId = constSig then b.bit else min (nets b).val 2

/-- A terminal's level, z taken for x. -/
def levelCode (nets : Nets) (b : BitRef) : Nat :=
  let code := if b.sigId = constSig then b.bit else (nets b).val
  if code ≥ 2 then 2 else code

/-- The number that encodes levels, built up as the loops do. -/
def encodeTernary (codes : List Nat) : Nat :=
  (codes.foldl (fun acc code => (acc.1 + code * acc.2, acc.2 * 3)) (0, 1)).1

namespace UdpRuntime

variable (rt : UdpRuntime) (nets : Nets)

/-- Commit a new state and hand it to the output. -/
def drive (curIdx newCode : Nat) : UdpRuntime :=
  { rt with state := newCode, inputStateIdx := curIdx, driven := newCode }

/-- The cached levels of the data terminals brought up to date. -/
def refreshData (eventInput : Nat) : Nat :=
  (List.range rt.inRefs.length).foldl (fun encoded i =>
    match rt.inRefs[i]? with
    | some b => if i ≠ eventInput then replaceDigit 3 encoded i (fastCode nets b) else encoded
    | none => encoded) rt.inputStateIdx

/-- An event terminal of the filter changed: look the transition up, unless it never changes the
state. `none` where the code indexes past the table. -/
def onEvent (eventInput prev code : Nat) (codes : List Nat) : Option UdpRuntime :=
  if !rt.eventTransitionMask.testBit (prev * 3 + code) then
    some { rt with inputStateIdx := replaceDigit 3 rt.inputStateIdx eventInput code }
  else
    let curIdx := encodeTernary codes
    let prevIdx := curIdx - code * 3 ^ eventInput + prev * 3 ^ eventInput
    match rt.transitionLut with
    | some lut => (lutAt lut rt.lutInputStates rt.state prevIdx curIdx).map (rt.drive curIdx)
    | none => none

/-- The part of `eval_udp` behind the fast path: compare all inputs, then look up or search. -/
def evalFull : Option UdpRuntime :=
  let n := rt.inRefs.length
  let cur := rt.inRefs.map (levelCode nets)
  let curIdx := encodeTernary cur
  let first := !rt.initialized
  let commit (newCode : Nat) : UdpRuntime :=
    { rt.drive curIdx newCode with prevInputs := cur, initialized := true }
  match rt.transitionLut with
  | some lut =>
    if first || curIdx != rt.inputStateIdx then
      let prevIdx := if first then rt.lutInputStates - 1 else rt.inputStateIdx
      -- Data terminals count as already at their levels.
      let prevIdx := match rt.eventInput with
        | some eventInput => (List.range n).foldl (fun prevIdx i =>
            if i ≠ eventInput then replaceDigit 3 prevIdx i (cur.getD i 0) else prevIdx) prevIdx
        | none => prevIdx
      (lutAt lut rt.lutInputStates rt.state prevIdx curIdx).map commit
    else some rt
  | none =>
    let prev := if first then List.replicate n 2 else rt.prevInputs
    if first || (List.range n).any fun i => cur.getD i 0 != prev.getD i 0 then
      some (commit (udpNext rt.rows cur prev rt.state rt.isSequential))
    else some rt

/-- `eval_udp`. -/
def evalUdp : Option UdpRuntime :=
  if rt.inRefs.length > 32 then some { rt with warned := true }
  else
    match rt.initialized, rt.eventInput with
    | true, some eventInput =>
      match rt.inRefs[eventInput]? with
      | some input =>
        let code := fastCode nets input
        let prev := digit 3 rt.inputStateIdx eventInput
        if prev = code then some { rt with inputStateIdx := rt.refreshData nets eventInput }
        else rt.onEvent eventInput prev code (rt.inRefs.map (fastCode nets))
      | none => none
    | _, _ => rt.evalFull nets

/-- One instance of `eval_udp_batch`, whose event net is read once for the whole batch unless a
force holds the instance's own. -/
def evalBatchOne (forced : Nat → Bool) (eventRef : BitRef) : Option UdpRuntime :=
  if !rt.initialized then rt.evalUdp nets
  else
    match rt.eventInput with
    | some eventInput =>
      match rt.inRefs[eventInput]? with
      | some own =>
        let code :=
          if forced own.sigId then min (nets own).val 2 else min (nets eventRef).val 2
        let prev := digit 3 rt.inputStateIdx eventInput
        if prev = code then some rt
        else rt.onEvent eventInput prev code
          (rt.inRefs.mapIdx fun i b => if i = eventInput then code else fastCode nets b)
      | none => none
    | none => none

end UdpRuntime

/-- `FusedGate::UdpLut3`: a combinational primitive of at most three nets as a packed table. -/
structure UdpLut3 where
  inputs : List BitRef
  table : Nat
  deriving DecidableEq

/-- What the packed gate drives. -/
def UdpLut3.eval (gate : UdpLut3) (nets : Nets) : Nat :=
  let lutIdx := encodeTernary (gate.inputs.map fun b => min (nets b).val 2)
  gate.table >>> (lutIdx * 2) &&& 3

/-- The declaration of a primitive and the terminals of one instance. -/
structure UdpInstance where
  rows : List UdpTableRow
  isSequential : Bool
  init : Option Char
  delay : Nat
  delayFall : Nat
  inputs : List BitRef

namespace UdpInstance

variable (inst : UdpInstance)

/-- The compiled table of the instance's primitive. -/
def program : Option (List Nat × Nat) :=
  compileUdpTransitionLut inst.rows inst.inputs.length inst.isSequential

/-- The event filter of the instance's primitive. -/
def filter : Option (Nat × Nat) :=
  if inst.isSequential then
    inst.program.bind fun p => compileUdpEventFilter p.1 p.2 inst.inputs.length
  else none

/-- The instance as `build_udp_entries` sets it up. -/
def runtime : UdpRuntime :=
  let state := if inst.init = some '0' then 0 else if inst.init = some '1' then 1 else 2
  { inRefs := inst.inputs
    isSequential := inst.isSequential
    rows := inst.rows
    transitionLut := inst.program.map Prod.fst
    lutInputStates := (inst.program.map Prod.snd).getD 0
    inputStateIdx := (inst.program.map Prod.snd).getD 0 - 1
    eventInput := inst.filter.map Prod.fst
    eventTransitionMask := (inst.filter.map Prod.snd).getD 0
    state
    prevInputs := List.replicate inst.inputs.length 255
    initialized := false
    warned := false
    driven := if inst.isSequential then state else 2 }

/-- The packed gate an instance is lowered to, where it is. -/
def gate : Option UdpLut3 :=
  if inst.isSequential = false ∧ inst.delay = 0 ∧ inst.delayFall = 0 ∧ inst.inputs.length ≤ 3 ∧
      ∀ b ∈ inst.inputs, b.sigId ≠ constSig then
    inst.program.map fun p =>
      -- One plane of the table: the state x, and all previous inputs x.
      { inputs := inst.inputs
        table := (List.range p.2).foldl (fun table curIdx =>
          table ||| ((lutAt p.1 p.2 2 (p.2 - 1) curIdx).getD 0) <<< (curIdx * 2)) 0 }
  else none

end UdpInstance

/-- An instance evaluated by row search. -/
structure UdpReference where
  prev : List Nat
  state : Nat
  driven : Nat
  initialized : Bool

/-- The previous inputs a row search sees: where the event terminal changes too, the changes of the
others count as having happened before. -/
def settledPrev (event : Option Nat) (prev cur : List Nat) : List Nat :=
  match event with
  | some e => if prev.getD e 0 ≠ cur.getD e 0 then cur.set e (prev.getD e 0) else prev
  | none => prev

/-- One evaluation by row search; before the first one every input was x. -/
def UdpReference.eval (inst : UdpInstance) (cur : List Nat) (r : UdpReference) : UdpReference :=
  let prev := if r.initialized then r.prev else List.replicate cur.length 2
  if r.initialized ∧ cur = prev then r
  else
    let next := udpNext inst.rows cur (settledPrev (inst.filter.map Prod.fst) prev cur) r.state
      inst.isSequential
    { prev := cur, state := next, driven := next, initialized := true }

/-- The reference before its first evaluation. -/
def UdpInstance.reference (inst : UdpInstance) : UdpReference where
  prev := []
  state := inst.runtime.state
  driven := inst.runtime.driven
  initialized := false

end Xezim
