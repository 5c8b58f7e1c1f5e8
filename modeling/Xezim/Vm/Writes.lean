import Xezim.Vm.Blocking
import Xezim.Vm.NbaOps
import Xezim.TwoState.ExecX

/-! Every write a compiled block can make, and which signals a two-state stream writes. -/

namespace Xezim

open Function

/-- A blocking write of the bytecode interpreter or of native code, its operands read and its
element resolved. -/
inductive BlockingOp where
  | assign (id : Nat) (v : Value) (width : Nat)
  | assignString (id : Nat) (v : Value)
  | bitDyn (id : Nat) (idxV v : Value)
  | range (id hi lo : Nat) (v : Value)
  | rangeDyn (id : Nat) (hiV loV v : Value)
  | array (eid : Nat) (v : Value) (width : Nat)
  | arrayRange (eid : Nat) (hiV loV v : Value)
  | jitStore4s (id : Nat) (v x : Word) (width : Nat)
  | jitStore (id : Nat) (v : Word) (width : Nat)
  | jitRange (id hi lo : Nat) (v x : Word)

/-- A call of a store helper by a two-state executor, or of a restore after it gave up. -/
inductive TsCall where
  | narrow (op : StoreOp)
  | storeWide (id : Nat) (words : List Word)
  | rangeStore2 (id lo : Nat) (words : List Word) (w : Nat)
  | storeNbaWide (id : Nat) (words : List Word) (w : Nat)
  | rangeStore2Nba (id lo : Nat) (words : List Word) (w : Nat)
  | restore (id : Nat) (v x : Word)
  | restoreWord (id i : Nat) (v x : Word)

section Writes

variable [VmOps] (D : VmDesign) (s : VmSim)

/-- Carry out a blocking write. -/
def BlockingOp.apply : BlockingOp → VmSim
  | .assign id v width => blockingAssign D s id v width
  | .assignString id v => blockingAssignString D s id v
  | .bitDyn id idxV v => blockingAssignBitDyn D s id idxV v
  | .range id hi lo v => blockingAssignRange D s id hi lo v
  | .rangeDyn id hiV loV v => blockingAssignRangeDyn D s id hiV loV v
  | .array eid v width => blockingAssignArray D s eid v width
  | .arrayRange eid hiV loV v => blockingAssignArrayRange D s eid hiV loV v
  | .jitStore4s id v x width => jitStoreSignal4s D s id v x width
  | .jitStore id v width => jitStoreSignal D s id v width
  | .jitRange id hi lo v x => jitBlockingAssignRange D s id hi lo v x

/-- The signal whose table value a blocking write changes in place, without `write_sig!`. -/
def BlockingOp.splices : BlockingOp → Option Nat
  | .bitDyn id _ _ | .jitRange id _ _ _ _ => some id
  | .range id hi lo _ =>
    if coversWhole (D.signalWidths id) (min hi lo) (max hi lo) then none else some id
  | .rangeDyn id hiV loV v =>
    (dynBounds D id hiV loV v).bind fun b =>
      if coversWhole (D.signalWidths id) b.1 b.2.1 then none else some id
  | .arrayRange eid hiV loV _ =>
    let hi : Nat := (WordRead.toU64 hiV).getD 0 % 2 ^ 32
    let lo : Nat := (WordRead.toU64 loV).getD 0 % 2 ^ 32
    if isPackedId eid = true ∨ coversWhole (D.signalWidths eid) (min hi lo) (max hi lo) then none
    else some eid
  | .assign .. | .assignString .. | .array .. | .jitStore4s .. | .jitStore .. => none

/-- One pass of `ts_restore_saved` over a narrow save. -/
def restoreSaved (id : Nat) (v x : Word) : VmSim :=
  if ValueOps.rawBits (s.signalTable id) = (v, x) then s
  else s.onSignals fun sim => sim.setSignal id
    ((ValueOps.setInlineBits (s.signalTable id) v x).getD
      { ValueOps.fromInline v x (max (D.signalWidths id) 1) with isSigned := D.signalSigned id })

/-- One pass of `ts_restore_saved` over a word of a wide save. -/
def restoreSavedWord (id i : Nat) (v x : Word) : VmSim :=
  s.onSignals fun sim => sim.setSignal id
    (ValueOps.spliceBits64 (s.signalTable id) (i * 64) v x (min (D.signalWidths id - i * 64) 64)).1

/-- Carry out a call of a two-state executor. -/
def TsCall.apply : TsCall → VmSim
  | .narrow op => s.onSignals fun s => op.apply D.toDesign s
  | .storeWide id words => tsStoreWide s id words
  | .rangeStore2 id lo words w => tsWideRangeStore2 s id lo words w
  | .storeNbaWide id words w => tsStoreNbaWide s id words w
  | .rangeStore2Nba id lo words w => tsWideRangeStore2Nba D s id lo words w
  | .restore id v x => restoreSaved D s id v x
  | .restoreWord id i v x => restoreSavedWord D s id i v x

end Writes

/-- The signal a store call of a narrow executor writes, now or later. -/
def StoreOp.target : StoreOp → Option Nat
  | .store id .. | .storeXz id .. | .rangeStoreXz id .. | .wideRangeStore id ..
  | .wideRangeFill id .. | .wideRangeFillXz id .. | .storeNbaVal id _ | .storeNba id ..
  | .storeNbaXz id .. | .rangeStoreNbaXz id .. | .wideRangeStoreNbaXz id ..
  | .wideRangeFillNba id .. => some id
  | .covHit _ | .saveSig _ | .saveSigW _ => none

/-- The signal a call writes, now or later. -/
def TsCall.target : TsCall → Option Nat
  | .narrow op => op.target
  | .storeWide id _ | .rangeStore2 id .. | .storeNbaWide id .. | .rangeStore2Nba id ..
  | .restore id .. | .restoreWord id .. => some id

/-- The signal an instruction writes, as the write set of its stream lists it. -/
def TsInsn.writes : TsInsn → List Nat
  | .logAndStore _ _ _ sig _ | .andRangeStore _ _ _ sig _ _ | .logOrStore _ _ _ sig _
  | .orRangeStore _ _ _ sig _ _ | .bitStoreDyn sig _ _ _ | .constStoreX sig _ _
  | .constStoreNba sig _ _ | .rangeStore sig _ _ _ _ | .rangeStoreNba sig _ _ _ _
  | .rangeStoreW sig _ _ _ _ | .store sig _ _ | .storeNba sig _ _ _ | .bitStoreNbaDyn sig _ _ _
  | .rangeStoreDyn sig _ _ _ _ _ | .rangeStoreNbaDyn sig _ _ _ _ _ | .rangeFillXW sig _ _ _
  | .rangeStoreNbaW sig _ _ _ _ | .rangeFillW sig _ _ _ | .rangeFillNbaW sig _ _ _
  | .wRangeStore sig _ _ _ | .wRangeStoreNba sig _ _ _ | .wStore sig _ | .wStoreNba sig _ _ => [sig]
  | .rangeStoreX p | .rangeStoreXW p => [p.sig]
  | .nbaFromElem op | .wNbaFromElem op => [op.dst]
  | _ => []

/-- The elements an instruction may write, as a first id and a count. -/
def TsInsn.writesSpan : TsInsn → List (Nat × Nat)
  | .elemStoreNbaFromSig f => [(f.op.first, (f.op.hi - f.op.lo + 1).toNat)]
  | .elemStore op | .elemStoreNba op =>
    if op.lo ≤ op.hi then [(op.first, (op.hi - op.lo + 1).toNat)] else []
  | _ => []

/-- An instruction lists a signal among those it may write. -/
def TsInsn.Lists (insn : TsInsn) (id : Nat) : Prop :=
  id ∈ insn.writes ∨ ∃ span ∈ insn.writesSpan, span.1 ≤ id ∧ id < span.1 + span.2

/-- `ts_writes_forced`: a stream may write a signal that a force holds. -/
def tsWritesForced (forced : Nat → Bool) (insns : List TsInsn) : Bool :=
  (insns.flatMap TsInsn.writes).any forced ||
    (insns.flatMap TsInsn.writesSpan).any fun span =>
      (List.range span.2).any fun k => forced (span.1 + k)

/-- A stream that writes no forced signal lists none. -/
theorem forced_of_lists {forced : Nat → Bool} {insns : List TsInsn}
    (free : tsWritesForced forced insns = false) {insn : TsInsn} (member : insn ∈ insns) {id : Nat}
    (lists : insn.Lists id) : forced id = false := by
  simp only [tsWritesForced, Bool.or_eq_false_iff, List.any_eq_false, List.mem_flatMap,
    List.mem_range, forall_exists_index, and_imp, Bool.not_eq_true] at free
  rcases lists with whole | ⟨span, spans, above, below⟩
  · exact free.1 id insn member whole
  · have here := free.2 span insn member spans (id - span.1) (by omega)
    rwa [show span.1 + (id - span.1) = id by omega] at here

section Made

variable [VmOps] (D : VmDesign)

/-- A call some instruction of a stream makes, in some state of an executor. A restore follows a
save, which lowering emits only for a signal the stream writes. -/
def TsMakes (insns : List TsInsn) : TsCall → Prop
  | .narrow op =>
    ∃ insn ∈ insns, (∃ s poll r r', tsStep s poll r insn = .next r' (some op)) ∨
      ∃ s poll r r', xStep D.toDesign s poll r insn = .next r' (some op)
  | .storeWide id _ => ∃ r, TsInsn.wStore id r ∈ insns
  | .rangeStore2 id lo _ w => ∃ r, TsInsn.wRangeStore id lo r w ∈ insns
  | .storeNbaWide id _ w => ∃ r, TsInsn.wStoreNba id r w ∈ insns
  | .rangeStore2Nba id lo _ w => ∃ r, TsInsn.wRangeStoreNba id lo r w ∈ insns
  | .restore id _ _ => TsInsn.saveSig id ∈ insns ∧ ∃ insn ∈ insns, insn.Lists id
  | .restoreWord id _ _ _ => TsInsn.saveSigW id ∈ insns ∧ ∃ insn ∈ insns, insn.Lists id

end Made

section Lists

variable [ValueOps] {D : Design} {s : Sim} {poll : Bool} {op : StoreOp} {id : Nat}

omit [ValueOps] in
/-- A store at a run-time slice goes to its signal. -/
@[simp] theorem target_rangeStoreDynOp (nba : Bool) (sig : Nat) (lo v x : Word) (w sw : Nat) :
    (rangeStoreDynOp nba sig lo v x w sw).target = some sig := by
  unfold rangeStoreDynOp
  dsimp only
  split <;> rfl

omit [ValueOps] in
/-- A store at a run-time bit goes to its signal. -/
@[simp] theorem target_bitStoreDynOp (nba : Bool) (sig : Nat) (idx v x : Word) (w : Nat) :
    (bitStoreDynOp nba sig idx v x w).target = some sig := by
  unfold bitStoreDynOp
  dsimp only
  split <;> rfl

omit [ValueOps] in
/-- An element inside the bounds lies in the span of its array. -/
theorem elemId_span (first : Nat) {lo hi i : Int} (inside : outside lo hi i = false) :
    lo ≤ hi ∧ first ≤ elemId first lo i ∧ elemId first lo i < first + (hi - lo + 1).toNat := by
  simp only [outside, decide_eq_false_iff_not, not_or, Int.not_lt] at inside
  unfold elemId
  omega

omit [ValueOps] in
/-- An element store inside the bounds is listed by its instruction. -/
theorem lists_elem {insn : TsInsn} {e : TsElemOp}
    (span : e.lo ≤ e.hi → (e.first, (e.hi - e.lo + 1).toNat) ∈ insn.writesSpan) {i : Int}
    (inside : outside e.lo e.hi i = false) (here : id = elemId e.first e.lo i) :
    insn.Lists id := by
  subst here
  obtain ⟨ordered, above, below⟩ := elemId_span e.first inside
  exact Or.inr ⟨_, span ordered, above, below⟩

/-- A store call of a narrow two-state executor goes to a signal its instruction lists. -/
theorem tsStep_lists {r r' : Regs} {insn : TsInsn}
    (stepped : tsStep s poll r insn = .next r' (some op)) (target : op.target = some id) :
    insn.Lists id := by
  -- Unless the element was addressed dynamically, the instruction names the signal itself.
  cases insn with
  | elemStore e | elemStoreNba e =>
    simp only [tsStep] at stepped
    split at stepped
    · cases stepped
    · rename_i inside
      cases stepped
      cases target
      exact lists_elem (fun ordered => by simp [TsInsn.writesSpan, ordered])
        (Bool.eq_false_iff.mpr inside) rfl
  | elemStoreNbaFromSig f =>
    simp only [tsStep] at stepped
    split at stepped
    · cases stepped
    · rename_i inside
      cases stepped
      cases target
      exact lists_elem (fun _ => by simp [TsInsn.writesSpan]) (Bool.eq_false_iff.mpr inside) rfl
  | brSigFalse sig bit t =>
    cases bit <;> simp only [tsStep, TsOutcome.load] at stepped <;> repeat' split at stepped
    all_goals cases stepped
  | _ =>
    simp only [tsStep, TsOutcome.set, TsOutcome.load] at stepped
    all_goals repeat' split at stepped
    all_goals
      cases stepped
      try simp only [target_rangeStoreDynOp, target_bitStoreDynOp] at target
      try cases target
      try exact Or.inl (List.mem_singleton.mpr rfl)

/-- A store call of the x-plane executor goes to a signal its instruction lists. -/
theorem xStep_lists {r r' : XRegs} {insn : TsInsn}
    (stepped : xStep D s poll r insn = .next r' (some op)) (target : op.target = some id) :
    insn.Lists id := by
  cases insn with
  | elemStore e | elemStoreNba e =>
    simp only [xStep] at stepped
    split at stepped
    · rename_i inside
      cases stepped
      cases target
      exact lists_elem (fun ordered => by simp [TsInsn.writesSpan, ordered]) inside.2 rfl
    · cases stepped
  | elemStoreNbaFromSig f =>
    simp only [xStep] at stepped
    split at stepped
    · rename_i inside
      cases stepped
      cases target
      exact lists_elem (fun _ => by simp [TsInsn.writesSpan]) inside.2 rfl
    · cases stepped
  | brSigFalse sig bit t =>
    cases bit <;> simp only [xStep] at stepped <;> split at stepped
    all_goals cases stepped
  | _ =>
    simp only [xStep, XOutcome.set] at stepped
    all_goals repeat' split at stepped
    all_goals
      cases stepped
      try simp only [target_rangeStoreDynOp, target_bitStoreDynOp] at target
      try cases target
      try exact Or.inl (List.mem_singleton.mpr rfl)

end Lists

end Xezim
