import Xezim.Vm.Kept

/-! Runs of the two-state executors and the end of a time step leave forced signals alone. -/

namespace Xezim

open Function

variable [VmOps] (D : VmDesign)

section Calls

variable {s : VmSim}

/-- A call of a two-state executor reads and changes signals only. -/
theorem TsCall.apply_onSignals (call : TsCall) :
    ∃ f : Sim → Sim, ∀ s : VmSim, call.apply D s = s.onSignals f := by
  -- Every call only edits the signal table and the queue of writes.
  cases call with
  | narrow op => exact ⟨op.apply D.toDesign, fun _ => rfl⟩
  | storeWide id words =>
    refine ⟨fun sim => if (VmOps.setWords (sim.signalTable id) words).2 then
      sim.setSignal id (VmOps.setWords (sim.signalTable id) words).1 else sim, fun s => ?_⟩
    simp only [TsCall.apply, tsStoreWide, VmSim.onSignals]
    split <;> rfl
  | rangeStore2 id lo words w =>
    refine ⟨fun sim => if (spliceWords (sim.signalTable id) lo words w).2 then
      sim.setSignal id (spliceWords (sim.signalTable id) lo words w).1 else sim, fun s => ?_⟩
    simp only [TsCall.apply, tsWideRangeStore2, VmSim.onSignals]
    split <;> rfl
  | storeNbaWide id words w =>
    exact ⟨fun sim => tsStoreNbaVal sim id (VmOps.fromWords words w), fun _ => rfl⟩
  | rangeStore2Nba id lo words w =>
    refine ⟨fun sim => (sim.nbaFast.index id).elim
      (if (spliceWords (sim.signalTable id) lo words w).2 then
        sim.pushNba id { (spliceWords (sim.signalTable id) lo words w).1 with
          isSigned := D.signalSigned id }
      else sim)
      fun i => sim.modifyNba i fun target => (spliceWords target lo words w).1, fun s => ?_⟩
    simp only [TsCall.apply, tsWideRangeStore2Nba, VmSim.onSignals]
    cases s.nbaFast.index id <;> rfl
  | restore id v x =>
    refine ⟨fun sim => if ValueOps.rawBits (sim.signalTable id) = (v, x) then sim
      else sim.setSignal id ((ValueOps.setInlineBits (sim.signalTable id) v x).getD
        { ValueOps.fromInline v x (max (D.signalWidths id) 1) with
          isSigned := D.signalSigned id }), fun s => ?_⟩
    simp only [TsCall.apply, restoreSaved, VmSim.onSignals]
    split <;> rfl
  | restoreWord id i v x =>
    exact ⟨fun sim => sim.setSignal id (ValueOps.spliceBits64 (sim.signalTable id) (i * 64) v x
      (min (D.signalWidths id - i * 64) 64)).1, fun _ => rfl⟩

/-- A call of a two-state executor changes no signal but its target. -/
theorem TsCall.apply_frame {call : TsCall} {id' : Nat} (other : call.target ≠ some id') :
    (call.apply D s).signalTable id' = s.signalTable id' := by
  -- A call that stores at once writes its target alone, and the others only queue.
  cases call with
  | narrow op => exact StoreOp.apply_frame D.toDesign other
  | storeWide id words =>
    have other : id' ≠ id := fun same => other (congrArg some same.symm)
    simp only [TsCall.apply, tsStoreWide]
    split
    · exact Sim.setSignal_of_ne other _
    · rfl
  | rangeStore2 id lo words w =>
    have other : id' ≠ id := fun same => other (congrArg some same.symm)
    simp only [TsCall.apply, tsWideRangeStore2]
    split
    · exact Sim.setSignal_of_ne other _
    · rfl
  | storeNbaWide id words w => exact congrFun (tsStoreNbaVal_table id _) id'
  | rangeStore2Nba id lo words w => exact congrFun (Sim.edit_table (Sim.pushIf_table id _)) id'
  | restore id v x =>
    have other : id' ≠ id := fun same => other (congrArg some same.symm)
    simp only [TsCall.apply, restoreSaved]
    split
    · rfl
    · exact Sim.setSignal_of_ne other _
  | restoreWord id i v x =>
    exact Sim.setSignal_of_ne (fun same => other (congrArg some same.symm)) _

/-- Carry out the calls of a two-state run in order. -/
def runCalls (s : VmSim) (calls : List TsCall) : VmSim :=
  calls.foldl (fun s call => call.apply D s) s

/-- A two-state run reads and changes signals only. -/
theorem runCalls_onSignals (calls : List TsCall) :
    ∃ f : Sim → Sim, ∀ s : VmSim, runCalls D s calls = s.onSignals f := by
  -- The edits of the calls are done one after the other.
  induction calls with
  | nil => exact ⟨id, fun _ => rfl⟩
  | cons call rest ih =>
    obtain ⟨first, step⟩ := call.apply_onSignals D
    obtain ⟨after, run⟩ := ih
    refine ⟨fun sim => after (first sim), fun s => ?_⟩
    show runCalls D (call.apply D s) rest = _
    rw [step, run]
    rfl

/-- A two-state run changes no signal but the targets of its calls. -/
theorem runCalls_frame {calls : List TsCall} {id : Nat}
    (other : ∀ call ∈ calls, call.target ≠ some id) :
    (runCalls D s calls).signalTable id = s.signalTable id := by
  induction calls generalizing s with
  | nil => rfl
  | cons call rest ih =>
    show (runCalls D (call.apply D s) rest).signalTable id = _
    rw [ih fun later member => other later (List.mem_cons_of_mem _ member),
      TsCall.apply_frame D (other call List.mem_cons_self)]

/-- A call that an instruction of a stream makes goes to no forced signal, where the stream writes
none. -/
theorem TsMakes.free {insns : List TsInsn} {call : TsCall} {forced : Nat → Bool}
    (made : TsMakes D insns call) (admitted : tsWritesForced forced insns = false) {id : Nat}
    (target : call.target = some id) : forced id = false := by
  -- An attempt is only made where no instruction writes a forced signal.
  cases call with
  | narrow op =>
    obtain ⟨insn, member, ⟨s, poll, r, r', step⟩ | ⟨s, poll, r, r', step⟩⟩ := made
    · exact forced_of_lists admitted member (tsStep_lists step target)
    · exact forced_of_lists admitted member (xStep_lists step target)
  | storeWide | rangeStore2 | storeNbaWide | rangeStore2Nba =>
    obtain ⟨r, member⟩ := made
    cases target
    exact forced_of_lists admitted member (Or.inl (List.mem_singleton.mpr rfl))
  | restore | restoreWord =>
    obtain ⟨-, insn, member, lists⟩ := made
    cases target
    exact forced_of_lists admitted member lists

/-- A run of a stream that writes no forced signal is kept. -/
theorem runCalls_kept {insns : List TsInsn} {calls : List TsCall}
    (admitted : tsWritesForced s.forced insns = false)
    (made : ∀ call ∈ calls, TsMakes D insns call) :
    runCalls D s calls = keepForced s (runCalls D s.unforced calls) := by
  obtain ⟨f, run⟩ := runCalls_onSignals D calls
  -- A forced signal is the target of no call, so its entry stays.
  have frame : ∀ id, s.forced id = true → (f s.toSim).signalTable id = s.signalTable id := by
    intro id held
    have here : (runCalls D s calls).signalTable id = s.signalTable id :=
      runCalls_frame D fun call member target => by
        rw [(made call member).free D admitted target] at held
        cases held
    rwa [run] at here
  rw [run, run]
  exact (keepForced_onSignals frame).symm

end Calls

section Executors

/-- The calls of a narrow executor's store helpers are those of its run. -/
theorem runCalls_narrow (s : VmSim) (ops : List StoreOp) :
    runCalls D s (ops.map .narrow) =
      s.onSignals fun sim => ops.foldl (StoreOp.apply D.toDesign) sim := by
  induction ops generalizing s with
  | nil => rfl
  | cons op rest ih => exact ih _

/-- What a run did so far: its simulator is its start with its store calls carried out, each made by
an instruction of the stream. -/
structure Cfg.Made (insns : List TsInsn) (start : Sim) {ρ : Type} (c : Cfg ρ) : Prop where
  sim : c.sim = c.ops.foldl (StoreOp.apply D.toDesign) start
  made : ∀ op ∈ c.ops, TsMakes D insns (.narrow op)

/-- A run that is about to start did nothing. -/
theorem Cfg.made_start (insns : List TsInsn) (s : Sim) {ρ : Type} (regs : ρ) :
    (Cfg.start regs s).Made D insns s :=
  ⟨rfl, fun _ member => absurd member List.not_mem_nil⟩

/-- One instruction of a run keeps what the run did so far. -/
theorem Cfg.Made.after {insns : List TsInsn} {start : Sim} {ρ : Type} {c : Cfg ρ}
    (so : c.Made D insns start) (pc : Nat) (regs : ρ) {op : Option StoreOp}
    (made : ∀ o, op = some o → TsMakes D insns (.narrow o)) :
    (c.after D.toDesign pc regs op).Made D insns start := by
  -- The operation of a step is added at the end, and it is one of an instruction.
  cases op with
  | none =>
    refine ⟨by simpa [Cfg.after] using so.sim, fun o member => so.made o ?_⟩
    simpa [Cfg.after] using member
  | some o =>
    refine ⟨by simp [Cfg.after, so.sim], fun o' member => ?_⟩
    simp only [Cfg.after, Option.toList_some, List.mem_append, List.mem_singleton] at member
    rcases member with earlier | rfl
    · exact so.made o' earlier
    · exact made o' rfl

/-- A run of `exec_two_state_ctrl` to the end made its store calls and changed nothing else. -/
theorem execTwoStateCtrl_made {insns : List TsInsn} {polls : Nat → Bool} {start : Sim} {fuel : Nat}
    {c c' : Cfg Regs} (run : execTwoStateCtrl D.toDesign insns polls fuel c = .done c')
    (so : c.Made D insns start) : c'.Made D insns start := by
  -- Every step that goes on adds at most the operation of its instruction.
  induction fuel generalizing c with
  | zero =>
    simp only [execTwoStateCtrl] at run
    split at run <;> cases run
    exact so
  | succ fuel ih =>
    simp only [execTwoStateCtrl] at run
    split at run
    · cases run; exact so
    · rename_i insn here
      have member := List.mem_of_getElem? here
      split at run
      · rename_i r op step
        refine ih run (so.after D _ _ fun o made => ?_)
        subst made
        exact ⟨insn, member, Or.inl ⟨_, _, _, _, step⟩⟩
      · exact ih run (so.after D _ _ fun o made => by cases made)
      all_goals cases run

/-- A run of `exec_two_state_line` to the end made its store calls and changed nothing else. -/
theorem execTwoStateLine_made {insns rest : List TsInsn} {polls : Nat → Bool} {start : Sim}
    {c c' : Cfg Regs} (run : execTwoStateLine D.toDesign polls rest c = .done c')
    (inside : ∀ insn ∈ rest, insn ∈ insns) (so : c.Made D insns start) :
    c'.Made D insns start := by
  -- The straight line adds the operation of each instruction in turn.
  induction rest generalizing c with
  | nil => cases run; exact so
  | cons insn rest ih =>
    simp only [execTwoStateLine] at run
    split at run
    · cases run
    · split at run
      · rename_i r op step
        refine ih run (fun i member => inside i (List.mem_cons_of_mem _ member))
          (so.after D _ _ fun o made => ?_)
        subst made
        exact ⟨insn, inside insn List.mem_cons_self, Or.inl ⟨_, _, _, _, step⟩⟩
      all_goals cases run

/-- A run of `exec_two_state_x` to the end made its store calls and changed nothing else. -/
theorem execTwoStateX_made {insns : List TsInsn} {polls : Nat → Bool} {start : Sim} {fuel : Nat}
    {c c' : Cfg XRegs} (run : execTwoStateX D.toDesign insns polls fuel c = .done c')
    (so : c.Made D insns start) : c'.Made D insns start := by
  -- Every step that goes on adds at most the operation of its instruction.
  induction fuel generalizing c with
  | zero =>
    simp only [execTwoStateX] at run
    split at run <;> cases run
    exact so
  | succ fuel ih =>
    simp only [execTwoStateX] at run
    split at run
    · cases run; exact so
    · rename_i insn here
      have member := List.mem_of_getElem? here
      split at run
      · rename_i r op step
        refine ih run (so.after D _ _ fun o made => ?_)
        subst made
        exact ⟨insn, member, Or.inr ⟨_, _, _, _, step⟩⟩
      · exact ih run (so.after D _ _ fun o made => by cases made)
      all_goals cases run

end Executors

section Commit

/-- How `apply_nba` commits a queued value of a signal. -/
def commitSignal (forced : Nat → Bool) (id : Nat) (v old : Value) : Value :=
  if forced id then old else nbaEntryValue D id v

/-- How `apply_nba` commits the queued planes of a packed cell. -/
def commitCell (forced : Nat → Bool) (eid : Nat) (p old : Word × Word) : Word × Word :=
  if forced eid then old else packedSetRaw D eid p.1 p.2

/-- The end of a time step is kept. -/
theorem applyNba_kept (s : VmSim) : applyNba D s = keepForced s (applyNba D s.unforced) := by
  refine VmSim.ext (funext fun id => ?_) rfl rfl rfl (funext fun id => ?_) rfl rfl
  · -- A forced signal is skipped at the commit, and any other is committed alike.
    show s.nbaFast.replay (commitSignal D s.forced) s.signalTable id = if s.forced id then
      s.signalTable id else s.nbaFast.replay (commitSignal D fun _ => false) s.signalTable id
    cases held : s.forced id with
    | true => exact KeyedLog.foldl_commit_keeps (fun v b => if_pos held) _ _
    | false =>
      refine KeyedLog.foldl_commit_congr (fun v b => ?_) _ rfl
      simp only [commitSignal, held]
  · -- The packed elements are committed in the same way.
    show s.packedNba.foldl (fun t e => update t e.1 (commitCell D s.forced e.1 e.2 (t e.1)))
      s.packed id = if s.forced id then s.packed id else s.packedNba.foldl
        (fun t e => update t e.1 (commitCell D (fun _ => false) e.1 e.2 (t e.1))) s.packed id
    cases held : s.forced id with
    | true => exact KeyedLog.foldl_commit_keeps (fun v b => if_pos held) _ _
    | false =>
      refine KeyedLog.foldl_commit_congr (fun v b => ?_) _ rfl
      simp only [commitCell, held]

end Commit

end Xezim
