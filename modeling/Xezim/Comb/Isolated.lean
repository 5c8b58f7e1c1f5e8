import Mathlib.Logic.Function.Basic
import Xezim.Comb.Gate
import Xezim.Vm.Nba

/-! The two isolated evaluators of the parallel settle. -/

namespace Xezim.Comb

section Isolated

variable [GateOps]

/-- A view with the ids of the signals changed so far. -/
abbrev Outcome := View × List Nat

/-- Store a bit in a signal of the view, and note the signal when it changed. -/
def setBit (s : Outcome) (dst : BitRef) (code : Nat) : Outcome :=
  let (v, changed) := GateOps.setBitCode (s.1 dst.sigId) dst.bit code
  (Function.update s.1 dst.sigId v, if changed then s.2 ++ [dst.sigId] else s.2)

/-- The gate algebra of `exec_fused_gate_isolated`. -/
def isolatedGate (view : View) (gateDriven : Nat → Bool) : FusedGate → BitRef × Nat
  | .buf1 dst src invert =>
    let s := codeAt view src
    (dst, if invert then not4 s else if gateDriven dst.sigId then (if s = 3 then 2 else s) else s)
  | .bin2 dst a b op invert =>
    let r := op.eval (codeAt view a) (codeAt view b)
    (dst, if invert then not4 r else r)
  | .mux2 dst s t e => (dst, mux4 (codeAt view s) (codeAt view t) (codeAt view e))
  | .udpLut3 dst inputs inputCount table => (dst, lutCode view inputs inputCount table)

/-- `exec_fused_gate_isolated`. -/
def execFusedGateIsolated (gateDriven : Nat → Bool) (op : FusedGate) (s : Outcome) : Outcome :=
  let (dst, newBit) := isolatedGate s.1 gateDriven op
  setBit s dst newBit

/-- The result of one branch in `exec_fused_and_fanout_isolated`. -/
def isolatedAndBranch (view : View) (commonCode : Nat) (branch : FusedAndBranch) (invert : Bool) : Nat :=
  let other := codeAt view branch.other
  let and := if commonCode = 0 ∨ other = 0 then 0 else if commonCode = 1 ∧ other = 1 then 1 else 2
  if invert then (if and = 0 then 1 else if and = 1 then 0 else 2) else and

/-- `exec_fused_and_fanout_isolated`. -/
def execFusedAndFanoutIsolated (common : BitRef) (branches : List FusedAndBranch) (invert : Bool) (s : Outcome) :
    Outcome :=
  let commonCode := codeAt s.1 common
  branches.foldl (fun s b => setBit s b.dst (isolatedAndBranch s.1 commonCode b invert)) s

variable (D : VmDesign) (gateDriven : Nat → Bool)

/-- Copy raw planes to one destination, x and z dropped by a two-state one; wide storage refuses them. -/
def copyRaw (src : Word × Word) (dst : Nat) (s : Outcome) : Outcome :=
  let new := if src.2 ≠ 0 ∧ D.signalTwoState dst then (src.1 &&& ~~~src.2, 0) else src
  if new ≠ ValueOps.rawBits (s.1 dst) then
    match ValueOps.setInlineBits (s.1 dst) new.1 new.2 with
    | some v => (Function.update s.1 dst v, s.2 ++ [dst])
    | none => s
  else s

/-- The inline branch of `DirectCopy`, when it handles the copy. -/
def copyInline (dst src width : Nat) (s : Outcome) : Option Outcome :=
  if width ≤ 64 ∧ D.signalWidths dst = width ∧ D.signalWidths src = width ∧ D.signalTwoState dst = false then
    let new := ValueOps.rawBits (s.1 src)
    if new = ValueOps.rawBits (s.1 dst) then some s
    else (ValueOps.setInlineBits (s.1 dst) new.1 new.2).map fun v => (Function.update s.1 dst v, s.2 ++ [dst])
  else none

/-- Store a value in a signal of the view, unless it is there already. -/
def storeValue (dst : Nat) (v : Value) (s : Outcome) : Outcome :=
  if s.1 dst ≠ v then (Function.update s.1 dst v, s.2 ++ [dst]) else s

/-- The value the static evaluator stores when the inline branch does not handle a copy. -/
def resizedCopy (dst width : Nat) (srcVal : Value) : Value :=
  let resized := if srcVal.width ≠ width then VmOps.resize srcVal width else srcVal
  if D.signalTwoState dst then VmOps.toTwoState resized else resized

/-- `eval_comb_entry_isolated`, on the items with an evaluation of their own there. -/
def evalCombEntryIsolated (forced : Nat → Bool) (item : CombItem) (s : Outcome) : Outcome :=
  match item with
  | .noop | .other => s
  | .fastDirectCopy dst src => if forced dst then s else copyRaw D (ValueOps.rawBits (s.1 src)) dst s
  | .fastDirectFanout src dsts =>
    let bits := ValueOps.rawBits (s.1 src)
    dsts.foldl (fun s dst => if forced dst then s else copyRaw D bits dst s) s
  | .directCopy dst src width =>
    if forced dst then s
    else
      match copyInline D dst src width s with
      | some s => s
      | none => storeValue dst (fitValueToSignal D dst (s.1 src)) s
  | .fusedGate op => execFusedGateIsolated gateDriven op s
  | .fusedBufFanout src dsts invert =>
    dsts.foldl (fun s dst => execFusedGateIsolated gateDriven (.buf1 dst src invert) s) s
  | .fusedAndFanout common branches invert => execFusedAndFanoutIsolated common branches invert s

/-- `eval_comb_item_isolated`, on the same items. -/
def evalCombItemIsolated (item : CombItem) (s : Outcome) : Outcome :=
  match item with
  | .noop | .other => s
  | .fastDirectCopy dst src => copyRaw D (ValueOps.rawBits (s.1 src)) dst s
  | .fastDirectFanout src dsts =>
    let bits := ValueOps.rawBits (s.1 src)
    dsts.foldl (fun s dst => copyRaw D bits dst s) s
  | .directCopy dst src width =>
    match copyInline D dst src width s with
    | some s => s
    | none => storeValue dst (resizedCopy D dst width (s.1 src)) s
  | .fusedGate op => execFusedGateIsolated gateDriven op s
  | .fusedBufFanout src dsts invert =>
    dsts.foldl (fun s dst => execFusedGateIsolated gateDriven (.buf1 dst src invert) s) s
  | .fusedAndFanout common branches invert => execFusedAndFanoutIsolated common branches invert s

end Isolated

/-- An item the parallel settle runs on the isolated path: it is evaluated there, it is the one writer of each of
its destinations, and a direct copy is as wide as its destination. -/
structure ParItem (D : VmDesign) where
  item : CombItem
  evaluated : item ≠ .other
  single : item.dstIds.Nodup
  widths : ∀ dst src width, item = .directCopy dst src width → width = D.signalWidths dst

end Xezim.Comb
