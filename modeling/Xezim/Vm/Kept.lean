import Xezim.Vm.Writes

/-! Writes that leave forced signals alone, and treat every other one as if nothing were forced. -/

namespace Xezim

open Function

/-- The same simulator with no force in place. -/
def VmSim.unforced (s : VmSim) : VmSim := { s with forced := fun _ => false }

/-- Lifting every force changes no value. -/
@[simp] theorem VmSim.unforced_signalTable (s : VmSim) : s.unforced.signalTable = s.signalTable := rfl

/-- A state reached as if nothing were forced, with every forced signal and packed cell put back to
its value. -/
def keepForced (before after : VmSim) : VmSim :=
  { after with
    signalTable := fun id => if before.forced id then before.signalTable id else after.signalTable id
    packed := fun id => if before.forced id then before.packed id else after.packed id
    forced := before.forced }

section Kept

variable {s after : VmSim}

/-- What leaves forced signals, cells and the forces alone is kept. -/
theorem keepForced_unforced (after : VmSim) (forces : after.forced = s.forced)
    (table : ∀ id, s.forced id = true → after.signalTable id = s.signalTable id)
    (cells : ∀ id, s.forced id = true → after.packed id = s.packed id) :
    keepForced s after.unforced = after := by
  -- A forced signal keeps its value and any other shows the new one.
  refine VmSim.ext (funext fun id => ?_) rfl rfl rfl (funext fun id => ?_) rfl forces.symm
  · show (if s.forced id then s.signalTable id else after.signalTable id) = _
    split
    · rename_i held; exact (table id held).symm
    · rfl
  · show (if s.forced id then s.packed id else after.packed id) = _
    split
    · rename_i held; exact (cells id held).symm
    · rfl

/-- Doing nothing is kept. -/
@[simp] theorem keepForced_self (s : VmSim) : keepForced s s.unforced = s :=
  keepForced_unforced s rfl (fun _ _ => rfl) fun _ _ => rfl

/-- A change of the signal part that leaves forced signals alone is kept. -/
theorem keepForced_onSignals {f : Sim → Sim}
    (frame : ∀ id, s.forced id = true → (f s.toSim).signalTable id = s.signalTable id) :
    keepForced s (s.unforced.onSignals f) = s.onSignals f :=
  keepForced_unforced (s.onSignals f) rfl frame fun _ _ => rfl

/-- Replacing the value of a signal no force holds is kept. -/
theorem keepForced_setSignal {id : Nat} (free : s.forced id = false) (v : Value) :
    keepForced s (s.unforced.onSignals fun s => s.setSignal id v) =
      s.onSignals fun s => s.setSignal id v := by
  refine keepForced_onSignals fun id' held => ?_
  have other : id' ≠ id := by
    rintro rfl
    rw [free] at held
    cases held
  exact update_of_ne other _ _

/-- Putting back the value of a replaced forced signal leaves nothing changed. -/
theorem keepForced_setSignal_forced {id : Nat} (held : s.forced id = true) (v : Value) :
    keepForced s (s.unforced.onSignals fun s => s.setSignal id v) = s := by
  refine VmSim.ext (funext fun id' => ?_) rfl rfl rfl (funext fun id' => ite_self _) rfl rfl
  show (if s.forced id' then s.signalTable id' else update s.signalTable id v id') = _
  split
  · rfl
  · rename_i free
    exact update_of_ne (by rintro rfl; exact free held) _ _

variable [VmOps] (D : VmDesign)

omit [VmOps] in
/-- `write_sig!` is kept. -/
theorem writeSig_kept (id : Nat) (v : Value) :
    writeSig D s id v = keepForced s (writeSig D s.unforced id v) := by
  simp only [writeSig, VmSim.unforced, Bool.false_eq_true, if_false]
  cases held : s.forced id with
  | true => exact (keepForced_setSignal_forced held _).symm
  | false =>
    simp only [Bool.false_eq_true, if_false]
    exact (keepForced_setSignal held _).symm

omit [VmOps] in
/-- A write through `write_sig!` where the value changes is kept. -/
theorem writeChanged_kept (id : Nat) (v : Value) :
    writeChanged D s id v = keepForced s (writeChanged D s.unforced id v) := by
  unfold writeChanged
  show (if s.signalTable id ≠ v then _ else _) = keepForced s (if s.signalTable id ≠ v then _ else _)
  split
  · exact writeSig_kept D id v
  · exact (keepForced_self s).symm

omit [VmOps] in
/-- A write of a signal that a force holds leaves nothing changed. -/
theorem writeChanged_forced {id : Nat} (held : s.forced id = true) (v : Value) :
    keepForced s (writeChanged D s.unforced id v) = s := by
  rw [← writeChanged_kept]
  simp only [writeChanged, writeSig, held, if_true, ite_self]

omit [VmOps] in
/-- `packed_store` is kept. -/
theorem packedStore_kept (eid : Nat) (v x : Word) :
    packedStore D s eid v x = keepForced s (packedStore D s.unforced eid v x) := by
  -- A forced element is not written, and any other is written alike.
  cases held : s.forced eid with
  | true =>
    refine VmSim.ext (funext fun id => ?_) ?_ ?_ ?_ (funext fun id => ?_) ?_ ?_ <;>
      simp only [packedStore, held, keepForced, VmSim.unforced, if_true, Bool.false_eq_true, if_false,
        ite_self]
    split
    · rfl
    · rename_i free
      exact (update_of_ne (by rintro rfl; exact free held) _ _).symm
  | false =>
    refine VmSim.ext (funext fun id => ?_) ?_ ?_ ?_ (funext fun id => ?_) ?_ ?_ <;>
      simp only [packedStore, held, keepForced, VmSim.unforced, Bool.false_eq_true, if_false,
        ite_self]
    split
    · rename_i held'
      exact update_of_ne (by rintro rfl; rw [held] at held'; cases held') _ _
    · rfl

omit [VmOps] in
/-- A case distinction is kept where each of its cases is. -/
theorem keepForced_ite {c : Prop} [Decidable c] {a b a' b' : VmSim}
    (yes : c → a = keepForced s a') (no : ¬ c → b = keepForced s b') :
    (if c then a else b) = keepForced s (if c then a' else b') := by
  split
  · exact yes ‹_›
  · exact no ‹_›

omit [VmOps] in
/-- A case distinction all of whose cases leave the forced values is kept. -/
theorem self_eq_keepForced_ite {c : Prop} [Decidable c] {a b : VmSim}
    (yes : c → s = keepForced s a) (no : ¬ c → s = keepForced s b) :
    s = keepForced s (if c then a else b) := by
  split
  · exact yes ‹_›
  · exact no ‹_›

/-- The range arms are kept, unless they change a forced signal in place. -/
theorem blockingWindow_kept {id low high : Nat} (val : Value)
    (free : ¬ coversWhole (D.signalWidths id) low high → s.forced id = false) :
    blockingWindow D s id low high val =
      keepForced s (blockingWindow D s.unforced id low high val) := by
  refine keepForced_ite (fun _ => writeChanged_kept D id _) fun notWhole => ?_
  have free := free notWhole
  refine keepForced_ite (fun _ => ?_) fun _ => ?_
  · exact keepForced_ite (fun _ => (keepForced_setSignal free _).symm) fun _ =>
      (keepForced_self s).symm
  · exact keepForced_ite (fun _ => (keepForced_setSignal free _).symm) fun _ =>
      (keepForced_self s).symm

/-- A window of the table written bit by bit is kept where no force holds the signal. -/
theorem bitsInPlace_kept {id : Nat} (val : Value) (low high : Nat) (free : s.forced id = false) :
    bitsInPlace D s id val low high = keepForced s (bitsInPlace D s.unforced id val low high) :=
  keepForced_ite (fun _ => (keepForced_setSignal free _).symm) fun _ => (keepForced_self s).symm

/-- `Insn::BlockingAssign` is kept. -/
theorem blockingAssign_kept (id : Nat) (v : Value) (width : Nat) :
    blockingAssign D s id v width = keepForced s (blockingAssign D s.unforced id v width) := by
  simp only [blockingAssign, VmSim.unforced, Bool.false_eq_true, if_false]
  cases held : s.forced id with
  | true =>
    -- The arm drops the write before it looks at the value.
    simp only [if_true]
    refine self_eq_keepForced_ite (fun _ => self_eq_keepForced_ite (fun _ => (keepForced_self s).symm)
      fun _ => ?_) fun _ => (writeChanged_forced D held _).symm
    split
    · exact (keepForced_setSignal_forced held _).symm
    · exact (writeChanged_forced D held _).symm
  | false =>
    simp only [Bool.false_eq_true, if_false]
    refine keepForced_ite (fun _ => keepForced_ite (fun _ => (keepForced_self s).symm) fun _ => ?_)
      fun _ => writeChanged_kept D id _
    split
    · exact (keepForced_setSignal held _).symm
    · exact writeChanged_kept D id _

/-- `jit_blocking_assign_range` is kept where no force holds the signal. -/
theorem jitBlockingAssignRange_kept {id : Nat} (hi lo : Nat) (v x : Word)
    (free : s.forced id = false) :
    jitBlockingAssignRange D s id hi lo v x =
      keepForced s (jitBlockingAssignRange D s.unforced id hi lo v x) := by
  have stored : ∀ new : Value, _ := fun new => (keepForced_setSignal free new).symm
  have same := (keepForced_self s).symm
  simp only [jitBlockingAssignRange, VmSim.unforced_signalTable]
  -- Each branch stores the window or finds it unchanged.
  split
  · exact keepForced_ite (fun _ => same) fun _ => stored _
  · refine keepForced_ite (fun _ => keepForced_ite (fun _ => same) fun _ => stored _) fun _ => ?_
    refine keepForced_ite (fun _ => keepForced_ite (fun _ => stored _) fun _ => same) fun _ => ?_
    exact keepForced_ite (fun _ => same) fun _ => bitsInPlace_kept D _ _ _ free

/-- A blocking write is kept, unless it changes a forced signal in place. -/
theorem BlockingOp.apply_kept {op : BlockingOp}
    (free : ∀ id, op.splices D = some id → s.forced id = false) :
    op.apply D s = keepForced s (op.apply D s.unforced) := by
  have same := (keepForced_self s).symm
  -- Every store writes in place only what is not forced, or tests the force itself.
  cases op with
  | assign id v width => exact blockingAssign_kept D id v width
  | assignString id v =>
    simp only [BlockingOp.apply, blockingAssignString, VmSim.unforced, Bool.false_eq_true, if_false]
    cases held : s.forced id with
    | true => exact (writeChanged_forced D held _).symm
    | false => exact writeChanged_kept D id _
  | bitDyn id idxV v =>
    simp only [BlockingOp.apply, blockingAssignBitDyn]
    cases dynBitIndex idxV with
    | none => exact same
    | some idx =>
      exact keepForced_ite (fun _ => (keepForced_setSignal (free id rfl) _).symm) fun _ => same
  | range id hi lo v =>
    refine keepForced_ite (fun _ => same) fun _ => blockingWindow_kept D _ fun notWhole => ?_
    exact free id (by simp only [BlockingOp.splices, if_neg notWhole])
  | rangeDyn id hiV loV v =>
    simp only [BlockingOp.apply, blockingAssignRangeDyn]
    cases bounds : dynBounds D id hiV loV v with
    | none => exact same
    | some b =>
      refine blockingWindow_kept D _ fun notWhole => free id ?_
      simp only [BlockingOp.splices, bounds, Option.bind_some, if_neg notWhole]
  | array eid v width =>
    exact keepForced_ite (fun _ => packedStore_kept D eid _ _) fun _ => writeChanged_kept D eid _
  | arrayRange eid hiV loV v =>
    refine keepForced_ite (fun _ => ?_) fun table => ?_
    · exact keepForced_ite (fun _ => same) fun _ => packedStore_kept D eid _ _
    · refine keepForced_ite (fun _ => same) fun _ => keepForced_ite
        (fun _ => writeChanged_kept D eid _) fun notWhole => bitsInPlace_kept D _ _ _ (free eid ?_)
      exact if_neg (not_or.mpr ⟨table, notWhole⟩)
  | jitStore4s id v x width => exact keepForced_ite (fun _ => same) fun _ => writeChanged_kept D id _
  | jitStore id v width => exact writeChanged_kept D id _
  | jitRange id hi lo v x => exact jitBlockingAssignRange_kept D hi lo v x (free id rfl)

end Kept

section Queue

variable {s : Sim}

/-- Changing or making a queue entry changes no table value. -/
theorem Sim.edit_table {id : Nat} {f : Value → Value} {fresh : Sim}
    (other : fresh.signalTable = s.signalTable) :
    (match s.nbaFast.index id with
      | some i => s.modifyNba i f
      | none => fresh).signalTable = s.signalTable := by
  split
  · rfl
  · exact other

/-- Queueing a value in one case of two changes no table value. -/
theorem Sim.pushIf_table {c : Prop} [Decidable c] (id : Nat) (v : Value) :
    (if c then s.pushNba id v else s).signalTable = s.signalTable := by
  split <;> rfl

/-- Queueing a value in the other case of two changes no table value. -/
theorem Sim.pushUnless_table {c : Prop} [Decidable c] (id : Nat) (v : Value) :
    (if c then s else s.pushNba id v).signalTable = s.signalTable := by
  split <;> rfl

/-- A whole nonblocking write changes no table value. -/
theorem tsStoreNbaVal_table (id : Nat) (val : Value) :
    (tsStoreNbaVal s id val).signalTable = s.signalTable :=
  Sim.edit_table (Sim.pushIf_table id val)

/-- A narrow nonblocking range write changes no table value. -/
theorem tsRangeStoreNbaXz_table [ValueOps] (D : Design) (id lo hi : Nat) (v x : Word) :
    (tsRangeStoreNbaXz D s id lo hi v x).signalTable = s.signalTable :=
  Sim.edit_table (Sim.pushUnless_table id _)

/-- Setting a signal changes no other one. -/
theorem Sim.setSignal_of_ne {id id' : Nat} (other : id' ≠ id) (v : Value) :
    (s.setSignal id v).signalTable id' = s.signalTable id' := update_of_ne other _ _

/-- Setting a signal in one case of two changes no other one. -/
theorem Sim.setIf_of_ne {c : Prop} [Decidable c] {id id' : Nat} (other : id' ≠ id) (v : Value) :
    (if c then s.setSignal id v else s).signalTable id' = s.signalTable id' := by
  split
  · exact Sim.setSignal_of_ne other v
  · rfl

/-- Setting a signal in the other case of two changes no other one. -/
theorem Sim.setUnless_of_ne {c : Prop} [Decidable c] {id id' : Nat} (other : id' ≠ id) (v : Value) :
    (if c then s else s.setSignal id v).signalTable id' = s.signalTable id' := by
  split
  · rfl
  · exact Sim.setSignal_of_ne other v

/-- A store call of a narrow executor changes no signal but its target. -/
theorem StoreOp.apply_frame [ValueOps] (D : Design) {op : StoreOp} {id' : Nat}
    (other : op.target ≠ some id') : (op.apply D s).signalTable id' = s.signalTable id' := by
  -- Every store edits its own signal alone.
  cases op with
  | store id v mask =>
    have other : id' ≠ id := fun same => other (congrArg some same.symm)
    simp only [StoreOp.apply, tsStore]
    split
    · split <;> exact Sim.setSignal_of_ne other _
    · rfl
  | storeXz id v x =>
    exact Sim.setUnless_of_ne (fun same => other (congrArg some same.symm)) _
  | rangeStoreXz id v x lo hi =>
    exact Sim.setUnless_of_ne (fun same => other (congrArg some same.symm)) _
  | wideRangeStore id lo hi v x =>
    exact Sim.setIf_of_ne (fun same => other (congrArg some same.symm)) _
  | wideRangeFill id lo hi bit =>
    exact Sim.setIf_of_ne (fun same => other (congrArg some same.symm)) _
  | wideRangeFillXz id lo hi vbit =>
    have other : id' ≠ id := fun same => other (congrArg some same.symm)
    simp only [StoreOp.apply, tsWideRangeFillXz]
    split
    · exact Sim.setIf_of_ne other _
    · exact Sim.setIf_of_ne other _
  | storeNbaVal id val => exact congrFun (tsStoreNbaVal_table id val) id'
  | storeNba id v w => exact congrFun (tsStoreNbaVal_table id _) id'
  | storeNbaXz id v x w =>
    simp only [StoreOp.apply, tsStoreNbaXz]
    split
    · exact congrFun (tsStoreNbaVal_table id _) id'
    · exact congrFun (tsStoreNbaVal_table id _) id'
  | rangeStoreNbaXz id lo hi v x => exact congrFun (tsRangeStoreNbaXz_table D id lo hi v x) id'
  | wideRangeStoreNbaXz id lo hi v x => exact congrFun (Sim.edit_table (Sim.pushIf_table id _)) id'
  | wideRangeFillNba id lo hi bit => exact congrFun (Sim.edit_table (Sim.pushIf_table id _)) id'
  | covHit | saveSig | saveSigW => rfl

/-- A store call that is no blocking update changes no table value. -/
theorem StoreOp.apply_table_of_nba [ValueOps] (D : Design) {op : StoreOp}
    (later : ∀ u, op.update D = some u → u.nba = true) :
    (op.apply D s).signalTable = s.signalTable := by
  -- A store that is not queued makes no update for later.
  cases op with
  | store | storeXz | rangeStoreXz | wideRangeStore | wideRangeFill => cases later _ rfl
  | wideRangeFillXz id lo hi vbit =>
    simp only [StoreOp.update] at later
    split at later <;> cases later _ rfl
  | storeNbaVal id val => exact tsStoreNbaVal_table id val
  | storeNba id v w => exact tsStoreNbaVal_table id _
  | storeNbaXz id v x w =>
    simp only [StoreOp.apply, tsStoreNbaXz]
    split
    · exact tsStoreNbaVal_table id _
    · exact tsStoreNbaVal_table id _
  | rangeStoreNbaXz id lo hi v x => exact tsRangeStoreNbaXz_table D id lo hi v x
  | wideRangeStoreNbaXz id lo hi v x => exact Sim.edit_table (Sim.pushIf_table id _)
  | wideRangeFillNba id lo hi bit => exact Sim.edit_table (Sim.pushIf_table id _)
  | covHit | saveSig | saveSigW => rfl

end Queue

section Runs

variable [VmOps] (D : VmDesign) {s : VmSim}

omit [VmOps] in
/-- A change of the queue alone is kept. -/
theorem keepForced_queue {f : Sim → Sim} (table : (f s.toSim).signalTable = s.signalTable) :
    s.onSignals f = keepForced s (s.unforced.onSignals f) :=
  (keepForced_onSignals fun id _ => congrFun table id).symm

omit [VmOps] in
/-- `queue_packed_nba` is kept. -/
theorem queuePackedNba_kept (eid : Nat) (v x : Word) :
    queuePackedNba s eid v x = keepForced s (queuePackedNba s.unforced eid v x) := by
  simp only [queuePackedNba, VmSim.unforced]
  split
  · exact (keepForced_unforced { s with packedNba := _ } rfl (fun _ _ => rfl)
      fun _ _ => rfl).symm
  · exact keepForced_ite (fun _ => (keepForced_unforced { s with packedNba := _ } rfl
      (fun _ _ => rfl) fun _ _ => rfl).symm) fun _ => (keepForced_self s).symm

/-- A nonblocking write is kept: it changes the queue alone. -/
theorem NbaOp.apply_kept {op : NbaOp}
    (later : ∀ o, op = .ts o → ∀ u, o.update D.toDesign = some u → u.nba = true) :
    op.apply D s = keepForced s (op.apply D s.unforced) := by
  have same := (keepForced_self s).symm
  -- A queued store changes the table on no path.
  cases op with
  | assign id v width =>
    simp only [NbaOp.apply, nbaAssign]
    exact keepForced_queue (tsStoreNbaVal_table id _)
  | assignConst id k =>
    simp only [NbaOp.apply, nbaAssignConst]
    exact keepForced_queue (tsStoreNbaVal_table id _)
  | range id hi lo v =>
    simp only [NbaOp.apply, nbaAssignRange]
    refine keepForced_ite (fun _ => same) fun _ => keepForced_ite (fun _ => same) fun _ =>
      keepForced_ite (fun _ => keepForced_queue ?_) fun _ => keepForced_queue ?_
    · exact tsRangeStoreNbaXz_table _ _ _ _ _ _
    · exact Sim.edit_table (Sim.pushIf_table id _)
  | rangeDyn id hiV loV v =>
    simp only [NbaOp.apply, nbaAssignRangeDyn, VmSim.unforced_signalTable]
    cases dynWindow D id hiV loV v with
    | none => exact same
    | some p =>
      simp only
      refine keepForced_ite (fun _ => keepForced_ite (fun _ => keepForced_queue rfl) fun _ => same)
        fun _ => keepForced_ite (fun _ => keepForced_queue ?_) fun _ => keepForced_queue ?_
      · exact tsRangeStoreNbaXz_table _ _ _ _ _ _
      · exact Sim.edit_table (Sim.pushIf_table id _)
  | bitDyn id idxV v =>
    simp only [NbaOp.apply, nbaAssignBitDyn]
    cases dynBitIndex idxV with
    | none => exact same
    | some idx => exact keepForced_queue (Sim.edit_table (Sim.pushUnless_table id _))
  | array eid v width =>
    simp only [NbaOp.apply, nbaAssignArray]
    refine keepForced_ite (fun _ => queuePackedNba_kept eid _ _) fun _ => keepForced_queue ?_
    exact tsStoreNbaVal_table eid _
  | arrayRange eid hiV loV v =>
    simp only [NbaOp.apply, nbaAssignArrayRange]
    refine keepForced_ite (fun _ => ?_) fun _ => ?_
    · exact keepForced_ite (fun _ => same) fun _ => queuePackedNba_kept eid _ _
    · refine keepForced_ite (fun _ => same) fun _ =>
        keepForced_ite (fun _ => keepForced_queue ?_) fun _ => keepForced_queue ?_
      · exact tsStoreNbaVal_table eid _
      · exact Sim.edit_table (Sim.pushIf_table eid _)
  | arrayRead id elem idxSig width =>
    exact keepForced_queue (f := fun sim => tsStoreNbaVal sim id (arrayReadValue s elem idxSig width))
      (tsStoreNbaVal_table id _)
  | ts op =>
    simp only [NbaOp.apply]
    exact keepForced_queue (StoreOp.apply_table_of_nba D.toDesign (later op rfl))
  | tsWide2 id lo words w =>
    simp only [NbaOp.apply, tsWideRangeStore2Nba]
    exact keepForced_queue (Sim.edit_table (Sim.pushIf_table id _))
  | jit4s id v x width =>
    simp only [NbaOp.apply, jitScheduleNba4s, VmSim.unforced_signalTable]
    exact keepForced_ite (fun _ => same) fun _ => keepForced_queue rfl
  | jit id v width =>
    simp only [NbaOp.apply, jitScheduleNba]
    exact keepForced_queue rfl
  | jitFast id v =>
    simp only [NbaOp.apply, jitScheduleNbaFast]
    exact keepForced_queue rfl
  | jitRange id hi lo v x =>
    simp only [NbaOp.apply, jitScheduleNbaRange]
    exact keepForced_ite (fun _ => same) fun _ => keepForced_queue (Sim.edit_table rfl)
  | jitBit id idx v x =>
    simp only [NbaOp.apply, jitScheduleNbaBit]
    exact keepForced_queue (Sim.edit_table rfl)

end Runs

end Xezim
