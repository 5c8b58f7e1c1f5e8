import Xezim.Arrays.ArmLaws
import Xezim.Arrays.CodeLaws

/-! Every executor reaches the element an index names, and no other, exactly for an index that is addressed right. -/

namespace Xezim.Arrays

open Function Splice KnownBits

section Laws

variable [VmOps] (D : ArrayDesign) (array : ArrayOperand) (span : ArraySpan) (idxV : Value)

/-- The array arms of the interpreter: a load inside the bounds shows the element, and after a store the stored
value; outside the bounds and for an unknown index a load is x and a store changes nothing; and no store changes
anything but its element. -/
structure InterpreterLaw : Prop where
  load : ∀ eid, target span idxV = some eid → ∀ s, loadArrayElem D s array idxV = elemValue D s eid
  miss : target span idxV = none → ∀ s, IsX (missWidth D s.signalTable array) (loadArrayElem D s array idxV)
  dropped : target span idxV = none → ∀ s v w,
    blockingAssignArrayInsn D s array idxV v w = s ∧ nbaAssignArrayInsn D s array idxV v w = s
  blocking : ∀ eid, target span idxV = some eid → ∀ s v w, s.forced eid = false →
    loadArrayElem D (blockingAssignArrayInsn D s array idxV v w) array idxV = storedElem D eid v w
  blockingFrame : ∀ s v w id, target span idxV ≠ some id → SameCell s (blockingAssignArrayInsn D s array idxV v w) id
  nba : ∀ eid, target span idxV = some eid → ∀ s v w, QueuesOk s → s.forced eid = false →
    let after := applyNba D.toVmDesign (nbaAssignArrayInsn D s array idxV v w)
    loadArrayElem D after array idxV = elemValue D after eid ∧ Landed D s after eid (VmOps.resize v w)
  nbaFrame : ∀ s v w id, QueuesOk s → target span idxV ≠ some id →
    SameCell (applyNba D.toVmDesign s) (applyNba D.toVmDesign (nbaAssignArrayInsn D s array idxV v w)) id
  held : ∀ eid, target span idxV = some eid → ∀ s v w, QueuesOk s → s.forced eid = true →
    SameCell s (blockingAssignArrayInsn D s array idxV v w) eid ∧
      SameCell s (applyNba D.toVmDesign (nbaAssignArrayInsn D s array idxV v w)) eid

/-- What an isolated run's register receives of an element. -/
def isolatedElem (table : Nat → Value) (cells : Nat → Word × Word) (eid : Nat) : Value :=
  if isPackedId eid then packedRead D cells eid else table eid

/-- The array arms of the isolated interpreter, run on the tables of a simulator; their stores land when nothing else
is queued for the element, or the block looks for what it queued before. -/
structure IsolatedLaw : Prop where
  load : ∀ eid, target span idxV = some eid → ∀ s : VmSim,
    loadArrayElemIsolated D s.signalTable (some s.packed) array idxV = isolatedElem D s.signalTable s.packed eid
  miss : target span idxV = none → ∀ s : VmSim, IsX (missWidth D s.signalTable array)
    (loadArrayElemIsolated D s.signalTable (some s.packed) array idxV)
  dropped : target span idxV = none → ∀ table nbaDup out v w,
    nbaAssignArrayIsolated D table nbaDup out array idxV v w = out
  nba : ∀ eid, target span idxV = some eid → ∀ (s : VmSim) nbaDup out v w, QueuesOk s → s.forced eid = false →
    s.nbaFast.index eid = none → (nbaDup = true ∨ ∀ e ∈ out, e.1 ≠ eid) →
    let after := applyIsolated D s (nbaAssignArrayIsolated D s.signalTable nbaDup out array idxV v w)
    loadArrayElem D after array idxV = elemValue D after eid ∧ Landed D s after eid (VmOps.resize v w)
  nbaFrame : ∀ (s : VmSim) nbaDup out v w id, target span idxV ≠ some id →
    SameCell (applyIsolated D s out)
      (applyIsolated D s (nbaAssignArrayIsolated D s.signalTable nbaDup out array idxV v w)) id

/-- The element an array read copies, brought to the width of its destination. -/
def fittedElem (s : VmSim) (eid w : Nat) : Value :=
  if isPackedId eid then ValueOps.fromInline (s.packed eid).1 (s.packed eid).2 w
  else VmOps.resizeForAssign (s.signalTable eid) w

/-- The array read fused into a nonblocking write, in both interpreters. -/
structure ReadLaw : Prop where
  read : ∀ eid, target span idxV = some eid → ∀ s idxSig w, s.signalTable idxSig = idxV →
    arrayReadInsn D s array idxSig w = fittedElem s eid w
  miss : target span idxV = none → ∀ s idxSig w, s.signalTable idxSig = idxV →
    IsX (max w 1) (arrayReadInsn D s array idxSig w)
  isolated : ∀ eid, target span idxV = some eid → ∀ (s : VmSim) idxSig w, s.signalTable idxSig = idxV →
    arrayReadIsolated D s.signalTable (some s.packed) array idxSig w =
      VmOps.resizeForAssign (isolatedElem D s.signalTable s.packed eid) w
  isolatedMiss : target span idxV = none → ∀ (s : VmSim) idxSig w, s.signalTable idxSig = idxV →
    IsX (max w 1) (arrayReadIsolated D s.signalTable (some s.packed) array idxSig w)

/-- The lowered code of the array instructions in the two-state executors and in the x-plane executor, from registers
that hold the index. A two-state load outside the bounds, or of an element with x bits, gives the block back to the
interpreter. -/
structure TwoStateLaw : Prop where
  store : ∀ R nba idx val w code, lowerArrayStore D R nba array idx val w = some code → R.Tracks idx idxV →
    idxV.xz = 0 → ∀ (s : Sim) (r : Regs) polls, r idx = idxV.planes.1 →
    EndsWith (execTwoStateLine D.toDesign polls code (Cfg.start r s))
      ((target span idxV).toList.map (tsStoreCall nba (r val) w))
  storeX : ∀ R nba idx val w code, lowerArrayStore D R nba array idx val w = some code → R.Tracks idx idxV →
    ∀ (s : Sim) (r : XRegs) polls, r idx = pair idxV.planes →
    EndsWith (execTwoStateX D.toDesign code polls 1 (Cfg.start r s))
      ((target span idxV).toList.map (xStoreCall nba (r val) w))
  load : ∀ R d idx code, lowerLoadArrayElem D R d array idx = some code → R.Tracks idx idxV → idxV.xz = 0 →
    D.signalWidths span.first ≤ 64 → ∀ (s : Sim) (r : Regs) polls, r idx = idxV.planes.1 →
    match target span idxV with
    | some eid => (s.sigPlanes eid).2 = 0#64 →
      EndsLoading (execTwoStateLine D.toDesign polls code (Cfg.start r s)) (fun r => r d) (s.sigPlanes eid).1
    | none => execTwoStateLine D.toDesign polls code (Cfg.start r s) = .bail
  loadX : ∀ R d idx code, lowerLoadArrayElem D R d array idx = some code → R.Tracks idx idxV →
    D.signalWidths span.first ≤ 64 → ∀ (s : Sim) (r : XRegs) polls, r idx = pair idxV.planes →
    EndsLoading (execTwoStateX D.toDesign code polls 1 (Cfg.start r s)) (fun r => r d)
      (match target span idxV with
      | some eid => s.sigX eid
      | none => ⟨0#64, xmask (D.signalWidths span.first)⟩)
  wideLoad : ∀ R d idx op, lowerLoadArrayElem D R d array idx = some [.wElemLoad op] → R.Tracks idx idxV →
    idxV.xz = 0 → ∀ r : Regs, r idx = idxV.planes.1 → wElemLoadElem r op = target span idxV
  read : ∀ dst idxSig w code, lowerArrayRead D dst array idxSig w = some code → idxV.width ≤ 64 →
    ∀ (s : Sim) (r : Regs) polls, s.signalTable idxSig = idxV →
    match target span idxV with
    | some eid => ∀ op, readCall (decide (D.signalWidths span.first > 64)) s dst w eid = some op →
      EndsWith (execTwoStateLine D.toDesign polls code (Cfg.start r s)) [op]
    | none =>
      if idxV.xz = 0 then execTwoStateLine D.toDesign polls code (Cfg.start r s) = .bail
      else EndsWith (execTwoStateLine D.toDesign polls code (Cfg.start r s)) [missCall dst w]
  readX : ∀ dst idxSig w code, lowerArrayRead D dst array idxSig w = some code → idxV.width ≤ 64 →
    ∀ (s : Sim) (r : XRegs) polls, s.signalTable idxSig = idxV →
    EndsWith (execTwoStateX D.toDesign code polls 1 (Cfg.start r s))
      [match target span idxV with
      | some eid => xReadCall (decide (D.signalWidths span.first > 64)) s dst w eid
      | none => missCall dst w]

/-- All executors agree on the element an index names. -/
structure AddressingLaw : Prop where
  interpreter : InterpreterLaw D array span idxV
  isolated : IsolatedLaw D array span idxV
  reads : ReadLaw D array span idxV
  twoState : TwoStateLaw D array span idxV

end Laws

section Right

variable [VmOps] [LawfulVmOps] [LawfulIndexOps] {D : ArrayDesign} {array : ArrayOperand} {span : ArraySpan}
variable {idxV : Value}

omit [LawfulVmOps] [LawfulIndexOps] in
/-- A load resolves an index read alike to its element. -/
theorem ReadAlike.loaded (alike : ReadAlike span idxV) (declared : Declares D array span) :
    resolveBytecodeArrayElem D array (loadIndex idxV) = target span idxV := by
  rw [declared.resolve, alike.loads]

omit [LawfulVmOps] [LawfulIndexOps] in
/-- A store resolves an index read alike to its element. -/
theorem ReadAlike.written (alike : ReadAlike span idxV) (declared : Declares D array span) :
    writtenElem D array idxV = target span idxV := by
  rw [← alike.stores]
  unfold writtenElem
  exact congrArg _ (funext declared.resolve)

omit [LawfulIndexOps] in
/-- An index read alike reaches its element in the arms of the interpreter. -/
theorem ReadAlike.interpreter (alike : ReadAlike span idxV) (declared : Declares D array span) :
    InterpreterLaw D array span idxV := by
  have loaded := alike.loaded declared
  have written := alike.written declared
  have load : ∀ eid, target span idxV = some eid → ∀ s, loadArrayElem D s array idxV = elemValue D s eid := by
    intro eid hit s
    simp only [loadArrayElem, loaded, hit]
  refine
    { load := load
      miss := fun out s => ?_
      dropped := fun out s v w => ?_
      blocking := fun eid hit s v w free => ?_
      blockingFrame := fun s v w id other => ?_
      nba := fun eid hit s v w queues free => ?_
      nbaFrame := fun s v w id queues other => ?_
      held := fun eid hit s v w queues held => ?_ }
  · simp only [loadArrayElem, loaded, out]
    exact vmStore_x _ _
  · simp only [blockingAssignArrayInsn, nbaAssignArrayInsn, written, out, and_self]
  · rw [load eid hit]
    simp only [blockingAssignArrayInsn, written, hit]
    exact blockingAssignArray_elem D v w free
  · unfold blockingAssignArrayInsn
    rw [written]
    cases hit : target span idxV with
    | none => exact ⟨rfl, rfl⟩
    | some eid => exact blockingAssignArray_frame D v w fun same => other (by rw [hit, same])
  · refine ⟨load eid hit _, ?_⟩
    simp only [nbaAssignArrayInsn, written, hit]
    exact applyNba_landed D queues v w free
  · unfold nbaAssignArrayInsn
    rw [written]
    cases hit : target span idxV with
    | none => exact ⟨rfl, rfl⟩
    | some eid => exact applyNba_frame D queues v w fun same => other (by rw [hit, same])
  · simp only [blockingAssignArrayInsn, nbaAssignArrayInsn, written, hit]
    refine ⟨by rw [blockingAssignArray_held D v w held]; exact ⟨rfl, rfl⟩, ?_⟩
    -- The store changes the queues alone, and applying them keeps a forced element.
    obtain ⟨table, cells, forces⟩ := nbaAssignArray_tables (s := s) eid v w
    have kept := applyNba_held D (queues.nba eid v w) (forces ▸ held)
    exact ⟨kept.1.trans (congrFun table eid), kept.2.trans (congrFun cells eid)⟩

omit [LawfulIndexOps] in
/-- An index read alike reaches its element in the arms of the isolated interpreter. -/
theorem ReadAlike.isolated (alike : ReadAlike span idxV) (declared : Declares D array span) :
    IsolatedLaw D array span idxV := by
  -- The isolated path reads and writes through the same index, so each field is one case of the target.
  have loaded := alike.loaded declared
  have written := alike.written declared
  refine
    { load := fun eid hit s => ?_
      miss := fun out s => ?_
      dropped := fun out table nbaDup queue v w => ?_
      nba := fun eid hit s nbaDup queue v w queues free nothing once => ?_
      nbaFrame := fun s nbaDup queue v w id other => ?_ }
  · simp only [loadArrayElemIsolated, loaded, hit]
    rfl
  · simp only [loadArrayElemIsolated, loaded, out, missWidth]
    cases found : bytecodeArrayFirstId D array with
    | none => exact new_x _
    | some first =>
      cases packed : isPackedId first with
      | true => simpa [Option.filter, packed] using new_x (D.packedWidth first)
      | false => simpa [Option.filter, packed] using new_x (bytecodeArrayElemWidth D s.signalTable array)
  · simp only [nbaAssignArrayIsolated, written, out]
  · refine ⟨(alike.interpreter declared).load eid hit _, ?_⟩
    simp only [nbaAssignArrayIsolated, written, hit]
    exact applyIsolated_landed D queues _ free nothing once
  · unfold nbaAssignArrayIsolated
    rw [written]
    cases hit : target span idxV with
    | none => exact ⟨rfl, rfl⟩
    | some eid => exact applyIsolated_frame D nbaDup queue _ _ fun same => other (by rw [hit, same])

omit [LawfulIndexOps] in
/-- An index read alike reaches its element in the fused array reads. -/
theorem ReadAlike.reads (alike : ReadAlike span idxV) (declared : Declares D array span) :
    ReadLaw D array span idxV := by
  -- The element read is the one stored to: an index that names none reads x on both paths.
  have stores := alike.stores
  have resolve : resolveBytecodeArrayElem D array = span.elem := funext declared.resolve
  refine
    { read := fun eid hit s idxSig w holds => ?_
      miss := fun out s idxSig w holds => ?_
      isolated := fun eid hit s idxSig w holds => ?_
      isolatedMiss := fun out s idxSig w holds => ?_ }
  · rw [hit, Option.bind_eq_some_iff] at stores
    obtain ⟨i, number, names⟩ := stores
    simp only [arrayReadInsn, arrayReadValue, holds, number, resolve, names]
    rfl
  · rw [out] at stores
    simp only [arrayReadInsn, arrayReadValue, holds, resolve]
    cases number : VmOps.toIndex idxV with
    | none => exact new_x _
    | some i =>
      rw [number, Option.bind_some] at stores
      simp only [stores]
      exact new_x _
  · rw [hit, Option.bind_eq_some_iff] at stores
    obtain ⟨i, number, names⟩ := stores
    simp only [arrayReadIsolated, holds, number, resolve, names, isolatedElem]
    split <;> rfl
  · rw [out] at stores
    simp only [arrayReadIsolated, holds, resolve]
    cases number : VmOps.toIndex idxV with
    | none => exact new_x _
    | some i =>
      rw [number, Option.bind_some] at stores
      simp only [stores]
      exact new_x _

omit [LawfulVmOps] in
/-- The low word of a known index that is read alike names its element. -/
theorem ReadAlike.raw (alike : ReadAlike span idxV) (known : idxV.xz = 0) (bits : idxV.isReal = false) :
    span.elem idxV.planes.1.toInt = target span idxV := by
  rw [← alike.loads, loadIndex_known known bits]
  rfl

omit [VmOps] [LawfulVmOps] [LawfulIndexOps] in
/-- The planes of a narrow index show whether it is known. -/
theorem planes_known (narrow : idxV.width ≤ 64) (fits : idxV.Fits) : idxV.planes.2 = 0#64 ↔ idxV.xz = 0 := by
  have small : idxV.xz < 2 ^ 64 := Nat.lt_of_lt_of_le fits.2 (Nat.pow_le_pow_right (by decide) narrow)
  refine ⟨fun clean => ?_, fun known => by simp [Value.planes, known]⟩
  have zero : idxV.xz % 2 ^ 64 = 0 := congrArg BitVec.toNat clean
  rwa [Nat.mod_eq_of_lt small] at zero

omit [LawfulVmOps] in
/-- The planes of a narrow index read alike name its element, as the x-plane executor resolves them. -/
theorem ReadAlike.rawX (alike : ReadAlike span idxV) (narrow : idxV.width ≤ 64) (bits : idxV.isReal = false)
    (fits : idxV.Fits) :
    (if (pair idxV.planes).x = 0#64 then span.elem (pair idxV.planes).v.toInt else none) = target span idxV := by
  show (if idxV.planes.2 = 0#64 then span.elem idxV.planes.1.toInt else none) = _
  -- The raw index is meant only for a known value; an unknown one names no element.
  split
  · rename_i clean
    exact alike.raw ((planes_known narrow fits).mp clean) bits
  · rename_i unclean
    have unknown : idxV.xz ≠ 0 := fun known => unclean ((planes_known narrow fits).mpr known)
    rw [target, indexOf_eq_none.mpr unknown]
    rfl

/-- A narrow index read alike reaches its element in the code of the two-state lowering. -/
theorem ReadAlike.twoState (alike : ReadAlike span idxV) (declared : Declares D array span)
    (bits : idxV.isReal = false) (fits : idxV.Fits) : TwoStateLaw D array span idxV := by
  refine
    { store := fun R nba idx val w code lowers tracks known s r polls holds => ?_
      storeX := fun R nba idx val w code lowers tracks s r polls holds => ?_
      load := fun R d idx code lowers tracks known narrow s r polls holds => ?_
      loadX := fun R d idx code lowers tracks narrow s r polls holds => ?_
      wideLoad := fun R d idx op lowers tracks known r holds => ?_
      read := fun dst idxSig w code lowers narrow s r polls holds => ?_
      readX := fun dst idxSig w code lowers narrow s r polls holds => ?_ }
  · have raw := alike.raw known bits
    rcases lowerArrayStore_eq declared lowers with ⟨k, constant, rfl⟩ | rfl
    · -- A constant index was resolved when the code was made.
      rw [tracks.const k constant] at raw
      rw [raw]
      cases target span idxV with
      | none => exact ⟨_, rfl, rfl⟩
      | some eid => cases nba <;> exact ⟨_, rfl, rfl⟩
    · refine ⟨_, line_single D.toDesign (by cases nba <;> rfl) polls
        (tsStep_elemStore span s (polls 0) r nba idx val w), ?_⟩
      rw [holds, raw]
      cases target span idxV <;> rfl
  · have raw := alike.rawX tracks.narrow bits fits
    rcases lowerArrayStore_eq declared lowers with ⟨k, constant, rfl⟩ | rfl
    · rw [tracks.const k constant] at raw
      rw [show span.elem k.toInt = target span idxV from raw]
      cases target span idxV with
      | none => exact ⟨_, rfl, rfl⟩
      | some eid => cases nba <;> exact ⟨_, rfl, rfl⟩
    · refine ⟨_, x_single D.toDesign polls (xStep_elemStore D span s (polls 0) r nba idx val w), ?_⟩
      have resolved : (if (r idx).x = 0#64 then (span.elem (r idx).v.toInt).map (xStoreCall nba (r val) w) else none) =
          (target span idxV).map (xStoreCall nba (r val) w) := by
        rw [← raw, holds]
        split <;> rfl
      rw [resolved]
      cases target span idxV <;> rfl
  · have raw := alike.raw known bits
    rcases lowerLoadArrayElem_eq declared lowers with ⟨k, eid, constant, names, rfl⟩ | rfl
    · rw [tracks.const k constant, names] at raw
      rw [← raw, if_neg (by omega)]
      intro clean
      refine ⟨_, line_single D.toDesign rfl polls (show tsStep s (polls 0) r (.loadSig d eid) = _ by
        simp only [tsStep, TsOutcome.load, clean, ne_eq, not_true_eq_false, if_false]
        rfl), ?_, rfl⟩
      exact update_self ..
    · rw [if_neg (by omega)]
      have step := tsStep_elemLoad span s (polls 0) r idx d 0 0#64
      rw [holds, raw] at step
      cases hit : target span idxV with
      | none =>
        rw [hit] at step
        exact line_bail D.toDesign rfl polls step
      | some eid =>
        intro clean
        rw [hit] at step
        simp only [clean, ne_eq, not_true_eq_false, if_false] at step
        exact ⟨_, line_single D.toDesign rfl polls step, update_self .., rfl⟩
  · have raw := alike.rawX tracks.narrow bits fits
    rcases lowerLoadArrayElem_eq declared lowers with ⟨k, eid, constant, names, rfl⟩ | rfl
    · rw [tracks.const k constant] at raw
      rw [← raw, if_neg (by omega)]
      show EndsLoading _ _ (match span.elem k.toInt with
        | some eid => s.sigX eid
        | none => _)
      rw [names]
      exact ⟨_, x_single D.toDesign polls rfl, update_self .., rfl⟩
    · rw [if_neg (by omega)]
      have step := xStep_elemLoad D span s (polls 0) r idx d 0 0#64
      rw [holds, raw] at step
      exact ⟨_, x_single D.toDesign polls step, update_self .., rfl⟩
  · have raw := alike.raw known bits
    rcases lowerLoadArrayElem_eq declared lowers with ⟨k, eid, constant, names, same⟩ | same
    · split at same <;> cases same
    · split at same
      · cases same
        rw [← raw, elem_eq_elemId, ← holds]
        rfl
      · cases same
  · obtain rfl := lowerArrayRead_eq declared lowers
    have planes : s.sigPlanes idxSig = idxV.planes := by
      rw [Sim.sigPlanes, holds]
      exact LawfulValueOps.rawBits_eq idxV
    have step := tsStep_read span s (polls 0) r (decide (D.signalWidths span.first > 64)) dst idxSig w
    rw [planes] at step
    have straight : (readInsn span (decide (D.signalWidths span.first > 64)) dst idxSig w).isCtrl = false := by
      unfold readInsn
      split <;> rfl
    by_cases known : idxV.xz = 0
    · rw [alike.raw known bits, if_neg (by simp [(planes_known narrow fits).mpr known])] at step
      cases hit : target span idxV with
      | none =>
        rw [hit] at step
        simp only [known, if_true]
        exact line_bail D.toDesign straight polls step
      | some eid =>
        intro op queued
        rw [hit, Option.bind_some, queued] at step
        exact ⟨_, line_single D.toDesign straight polls step, rfl⟩
    · rw [if_pos (fun clean => known ((planes_known narrow fits).mp clean))] at step
      rw [target, indexOf_eq_none.mpr known]
      simp only [Option.bind_none, known, if_false]
      exact ⟨_, line_single D.toDesign straight polls step, rfl⟩
  · obtain rfl := lowerArrayRead_eq declared lowers
    have planes : s.sigX idxSig = pair idxV.planes := by
      rw [Sim.sigX, Sim.sigPlanes, holds]
      exact congrArg pair (LawfulValueOps.rawBits_eq idxV)
    have step := xStep_read D span s (polls 0) r (decide (D.signalWidths span.first > 64)) dst idxSig w
    rw [planes, alike.rawX narrow bits fits] at step
    exact ⟨_, x_single D.toDesign polls step, rfl⟩

end Right

section Necessary

variable [VmOps] [LawfulVmOps] {D : ArrayDesign} {array : ArrayOperand} {span : ArraySpan} {idxV : Value}

/-- A simulator of one-bit values that are zero except for one signal or cell. -/
def spotSim (hot : Nat) : VmSim where
  signalTable id := ⟨1, if id = hot then 1 else 0, 0, false, false, false⟩
  nbaFast := KeyedLog.empty
  tsSaveList := []
  codeCovHits _ := 0
  packed id := (if id = hot then 1#64 else 0#64, 0#64)
  packedNba := []
  forced _ := false

omit [VmOps] [LawfulVmOps] in
/-- The width that an index outside the bounds reads as is not zero. -/
theorem missWidth_pos (wf : D.Ok) (table : Nat → Value) : 1 ≤ missWidth D table array := by
  -- A width is positive by the design's cells, or because the code takes at least one bit.
  unfold missWidth
  split
  · exact (wf.cell _).1
  · unfold bytecodeArrayElemWidth
    split
    · split
      · exact Nat.le_refl 1
      · exact Nat.le_max_right _ _
    · exact Nat.le_refl 1

/-- Every element of a spotted simulator is known, and only the spotted one is not even. -/
theorem elemValue_spot (wf : D.Ok) (hot eid : Nat) :
    (elemValue D (spotSim hot) eid).xz.testBit 0 = false ∧
      (elemValue D (spotSim hot) eid).val.testBit 0 = decide (eid = hot) := by
  -- A packed element is made from its planes, another is read from the table.
  unfold elemValue
  cases packed : isPackedId eid with
  | true =>
    have narrow := (wf.cell eid).2
    obtain ⟨val, unk⟩ := LawfulValueOps.fromInline_planes ((spotSim hot).packed eid).1 ((spotSim hot).packed eid).2
      (D.packedWidth eid) narrow
    simp only [if_true, vmStore, if_neg (Nat.not_lt.mpr narrow), val, unk]
    by_cases here : eid = hot <;> simp [spotSim, here]
  | false => by_cases here : eid = hot <;> simp [spotSim, here]

/-- A load resolves the element an index names, if all loads of the array through it show that element or x. -/
theorem InterpreterLaw.loads (law : InterpreterLaw D array span idxV) (wf : D.Ok) (declared : Declares D array span) :
    span.elem (loadIndex idxV) = target span idxV := by
  have shows (hot : Nat) : loadArrayElem D (spotSim hot) array idxV = match span.elem (loadIndex idxV) with
      | some eid => elemValue D (spotSim hot) eid
      | none => vmStore 0#64 (xmask (missWidth D (spotSim hot).signalTable array))
          (missWidth D (spotSim hot).signalTable array) false := by
    cases read : span.elem (loadIndex idxV) <;> simp [loadArrayElem, declared.resolve, read]
  cases hit : target span idxV with
  | none =>
    cases read : span.elem (loadIndex idxV) with
    | none => rfl
    | some eid =>
      -- Outside the bounds an element would show a known bit for x.
      have x := (law.miss hit (spotSim 0)).unknown (missWidth_pos wf _)
      rw [shows 0, read] at x
      dsimp only at x
      rw [(elemValue_spot wf 0 eid).1] at x
      cases x
  | some eid =>
    have load := law.load eid hit (spotSim eid)
    cases read : span.elem (loadIndex idxV) with
    | none =>
      have x := (vmStore_x (missWidth D (spotSim eid).signalTable array) false).unknown (missWidth_pos wf _)
      rw [shows eid, read] at load
      dsimp only at load
      rw [load, (elemValue_spot wf eid eid).1] at x
      cases x
    | some other =>
      rw [shows eid, read] at load
      dsimp only at load
      have bit := (elemValue_spot wf eid other).2
      rw [load, (elemValue_spot wf eid eid).2] at bit
      exact congrArg some (decide_eq_decide.mp bit |>.mp rfl)

/-- A spotted simulator with an index in one signal. -/
def indexedSim (hot idxSig : Nat) (idxV : Value) : VmSim :=
  { spotSim hot with signalTable := update (spotSim hot).signalTable idxSig idxV }

/-- Every other element of it that is read to one bit is known, and only the spotted one is set. -/
theorem fittedElem_spot {hot idxSig eid : Nat} (other : eid ≠ idxSig) :
    (fittedElem (indexedSim hot idxSig idxV) eid 1).xz.testBit 0 = false ∧
      (fittedElem (indexedSim hot idxSig idxV) eid 1).val.testBit 0 = decide (eid = hot) := by
  -- The same by storage, now resized to one bit.
  unfold fittedElem
  cases packed : isPackedId eid with
  | true =>
    obtain ⟨val, unk⟩ := LawfulValueOps.fromInline_planes ((spotSim hot).packed eid).1 ((spotSim hot).packed eid).2
      1 (by decide)
    simp only [if_true, indexedSim, val, unk]
    by_cases here : eid = hot <;> simp [spotSim, here]
  | false =>
    have entry : (indexedSim hot idxSig idxV).signalTable eid = (spotSim hot).signalTable eid := update_of_ne other _ _
    obtain ⟨val, unk⟩ := LawfulVmOps.resizeForAssign_low ((spotSim hot).signalTable eid) 1 0 ⟨rfl, rfl⟩
      ⟨Nat.one_pos, Nat.one_pos⟩
    simp only [Bool.false_eq_true, if_false, entry, val, unk]
    by_cases here : eid = hot <;> simp [spotSim, here]

/-- The sign-aware reading names the element an index names, if all array reads through it show that element or x. -/
theorem ReadLaw.stores (law : ReadLaw D array span idxV) (declared : Declares D array span) :
    (VmOps.toIndex idxV).bind span.elem = target span idxV := by
  have resolve : resolveBytecodeArrayElem D array = span.elem := funext declared.resolve
  have shows (hot idxSig : Nat) : arrayReadInsn D (indexedSim hot idxSig idxV) array idxSig 1 =
      match (VmOps.toIndex idxV).bind span.elem with
      | some eid => fittedElem (indexedSim hot idxSig idxV) eid 1
      | none => ValueOps.new 1 := by
    have entry : (indexedSim hot idxSig idxV).signalTable idxSig = idxV := update_self ..
    rw [arrayReadInsn, arrayReadValue, entry, resolve]
    cases VmOps.toIndex idxV with
    | none => rfl
    | some i =>
      rw [Option.bind_some]
      cases names : span.elem i with
      | none => simp [names]
      | some eid => simp [names, fittedElem]
  have entry (hot idxSig : Nat) : (indexedSim hot idxSig idxV).signalTable idxSig = idxV := update_self ..
  cases hit : target span idxV with
  | none =>
    cases read : (VmOps.toIndex idxV).bind span.elem with
    | none => rfl
    | some eid =>
      have x := (law.miss hit (indexedSim 0 (eid + 1) idxV) (eid + 1) 1 (entry ..)).unknown (Nat.le_refl 1)
      rw [shows, read] at x
      dsimp only at x
      rw [(fittedElem_spot (by omega)).1] at x
      cases x
  | some eid =>
    cases read : (VmOps.toIndex idxV).bind span.elem with
    | none =>
      have load := law.read eid hit (indexedSim eid (eid + 1) idxV) (eid + 1) 1 (entry ..)
      have x := (new_x 1).unknown (Nat.le_refl 1)
      rw [shows, read] at load
      dsimp only at load
      rw [load, (fittedElem_spot (by omega)).1] at x
      cases x
    | some other =>
      -- The index signal lies beyond both elements, so neither is the index itself.
      have load := law.read eid hit (indexedSim eid (eid + other + 1) idxV) (eid + other + 1) 1 (entry ..)
      rw [shows, read] at load
      dsimp only at load
      have bit : (fittedElem (indexedSim eid (eid + other + 1) idxV) other 1).val.testBit 0 = decide (other = eid) :=
        (fittedElem_spot (by omega)).2
      rw [load, (fittedElem_spot (by omega)).2] at bit
      exact congrArg some (decide_eq_decide.mp bit |>.mp rfl)

end Necessary

section Main

variable [VmOps] [LawfulVmOps] [LawfulIndexOps] {D : ArrayDesign} {array : ArrayOperand} {span : ArraySpan}
variable {idxV : Value}

/-- All executors agree on the element an index names, and on x and nothing stored where it names none, exactly for
an index that is addressed right. -/
theorem addressing_iff (wf : D.Ok) (declared : Declares D array span) (bits : idxV.isReal = false)
    (fits : idxV.Fits) : AddressingLaw D array span idxV ↔ Addressed span idxV := by
  refine ⟨fun law => ?_, fun right => ?_⟩
  · exact (ReadAlike.mk (law.interpreter.loads wf declared) (law.reads.stores declared)).addressed bits fits
  · have alike := right.readAlike bits fits
    exact ⟨alike.interpreter declared, alike.isolated declared, alike.reads declared,
      alike.twoState declared bits fits⟩

end Main

section Samples

/-- The reference methods, with the index conversion as documented. -/
@[reducible] def indexVmOps : VmOps := { referenceVmOps with toIndex := indexOf }

attribute [local instance] indexVmOps

/-- These methods behave as documented. -/
theorem indexVmOps_lawful : LawfulVmOps where
  toLawfulValueOps := referenceOps_lawful
  resize_width := referenceVmOps_lawful.resize_width
  resizeForAssign_width := referenceVmOps_lawful.resizeForAssign_width
  resizeForAssign_low := referenceVmOps_lawful.resizeForAssign_low
  resize_bits := referenceVmOps_lawful.resize_bits
  resizeForAssign_bits := referenceVmOps_lawful.resizeForAssign_bits
  shiftRight_bits _ _ bits := bits
  fromInline_bits _ _ _ := ⟨rfl, rfl⟩
  fromU64_bits _ _ := ⟨rfl, rfl⟩
  new_bits _ := ⟨rfl, rfl⟩
  copyBitsFrom_eq := referenceVmOps_lawful.copyBitsFrom_eq
  getBit_eq := referenceVmOps_lawful.getBit_eq
  setBit_eq := referenceVmOps_lawful.setBit_eq
  toTwoState_eq := referenceVmOps_lawful.toTwoState_eq

/-- So do their index conversions. -/
theorem indexVmOps_index : LawfulIndexOps where
  toLawfulWordRead := referenceWordRead_lawful
  toIndex_unknown _ unknown := indexOf_eq_none.mpr unknown
  toIndex_known _ _ _ number _ := number

attribute [local instance] indexVmOps_lawful indexVmOps_index

/-- Eight bytes with the indices -4 to 3. -/
def byteSpan : ArraySpan where
  first := 0
  lo := -4
  hi := 3
  lo_min := by decide
  hi_max := hi_max_three

/-- Their operand. -/
def bytes : ArrayOperand := .dense "bytes" byteSpan

/-- A design of those bytes and one byte more. -/
def byteDesign : ArrayDesign where
  signalWidths _ := 8
  signalSigned _ := false
  signalTwoState _ := false
  signalCount := 9

/-- A known byte with a sign or without. -/
def byte (n : Fin 256) (signed : Bool) : Value := ⟨8, n, 0, signed, false, false⟩

/-- The widths of the design are as a design stores them, and the operand names the bytes. -/
theorem byteDesign_ok : byteDesign.Ok ∧ Declares byteDesign bytes byteSpan :=
  ⟨⟨fun _ => show 8 < 2 ^ 32 by decide, fun _ => show 1 ≤ 1 ∧ 1 ≤ 64 by decide⟩, ⟨rfl, fun _ named => by cases named⟩⟩

/-- The index 2 is addressed right, in a signed register too. -/
theorem addressing_two : Addressed byteSpan (byte 2 true) ∧ AddressingLaw byteDesign bytes byteSpan (byte 2 true) := by
  have right : Addressed byteSpan (byte 2 true) := by
    refine ⟨fun unknown => absurd rfl unknown, fun i number negative _ => ?_, fun i number outside => ?_⟩
    · -- Two is neither below zero nor too large for a word.
      cases number
      exact absurd negative (by decide)
    · cases number
      exact absurd (by decide) outside
  refine ⟨right, (addressing_iff byteDesign_ok.1 byteDesign_ok.2 rfl ?_).mpr right⟩
  exact ⟨by decide, by decide⟩

/-- The nine bytes at zero. -/
def byteSim : VmSim := { spotSim 0 with signalTable := fun _ => byte 0 false }

/-- The index -1 of a signed byte lies inside the bounds. A blocking store through it writes its element, but a load
through it is x, and the two-state code of the store writes nothing. -/
theorem addressing_minus_one : ¬ AddressingLaw byteDesign bytes byteSpan (byte 255 true) ∧
    target byteSpan (byte 255 true) = some 3 ∧
    ((blockingAssignArrayInsn byteDesign byteSim bytes (byte 255 true) (byte 5 false) 8).signalTable 3).val = 5 ∧
    loadArrayElem byteDesign (blockingAssignArrayInsn byteDesign byteSim bytes (byte 255 true) (byte 5 false) 8)
      bytes (byte 255 true) = ⟨8, 0, 255, false, false, false⟩ ∧
    (∃ c, lowerArrayStore byteDesign { rw := fun _ => some 8 } false bytes 0 1 8 =
        some [.elemStore (tsElemOp byteSpan 0 1 8 (xmask 8))] ∧
      execTwoStateLine byteDesign.toDesign (fun _ => false) [.elemStore (tsElemOp byteSpan 0 1 8 (xmask 8))]
        (Cfg.start (fun _ => 255#64) byteSim.toSim) = .done c ∧ c.ops = []) := by
  refine ⟨fun law => ?_, by decide, by decide, by decide, ⟨_, rfl, rfl, rfl⟩⟩
  -- The low word of the register reads 255, which is no index of the array.
  have loads := law.interpreter.loads byteDesign_ok.1 byteDesign_ok.2
  exact absurd loads (by decide)

end Samples

end Xezim.Arrays
