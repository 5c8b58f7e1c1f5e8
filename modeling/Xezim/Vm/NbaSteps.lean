import Xezim.Vm.NbaOps

/-! Every nonblocking write of every executor does to the pending bits what its update says. -/

namespace Xezim

open Splice Function

section Packed

/-- The first entry of a queue is found first. -/
theorem packedQueued_cons (e : Nat × Word × Word) (rest : List (Nat × Word × Word)) (id : Nat) :
    packedQueued (e :: rest) id = if e.1 = id then some e.2 else packedQueued rest id := by
  by_cases here : e.1 = id
  · simp [packedQueued, here]
  · simp [packedQueued, here, beq_eq_false_iff_ne.mpr here]

/-- Replacing the queued planes of a cell changes what is queued for that cell only. -/
theorem packedQueued_replace (eid : Nat) (v x : Word) (q : List (Nat × Word × Word)) (id : Nat) :
    packedQueued (packedReplace eid v x q) id =
      if id = eid then (packedQueued q eid).map fun _ => (v, x) else packedQueued q id := by
  -- The first entry of the element is replaced, and the others are looked up as before.
  induction q with
  | nil => simp [packedReplace, packedQueued]
  | cons e rest ih =>
    simp only [packedReplace]
    by_cases here : e.1 = eid
    · by_cases same : id = eid
      · simp [packedQueued_cons, here, same]
      · simp [packedQueued_cons, here, same, Ne.symm same]
    · simp only [if_neg here, packedQueued_cons, ih]
      by_cases there : e.1 = id
      · have other : ¬ id = eid := fun eq => here (there.trans eq)
        simp [there, other]
      · simp [there]

/-- Replacing queued planes keeps the cells the queue names. -/
theorem map_fst_packedReplace (eid : Nat) (v x : Word) (q : List (Nat × Word × Word)) :
    (packedReplace eid v x q).map Prod.fst = q.map Prod.fst := by
  -- Replacing an entry keeps its element.
  induction q with
  | nil => rfl
  | cons e rest ih =>
    simp only [packedReplace]
    split
    · rename_i here
      simp [here]
    · simp [ih]

/-- A cell is queued exactly when the queue names it. -/
theorem packedQueued_eq_none {q : List (Nat × Word × Word)} {id : Nat} :
    packedQueued q id = none ↔ id ∉ q.map Prod.fst := by
  simp only [packedQueued, Option.map_eq_none_iff, List.find?_eq_none, beq_iff_eq, List.mem_map,
    not_exists, not_and]

/-- Appending for a cell not yet queued makes its planes the queued ones. -/
theorem packedQueued_append (q : List (Nat × Word × Word)) (eid : Nat) (p : Word × Word) (id : Nat)
    (new : packedQueued q eid = none) :
    packedQueued (q ++ [(eid, p)]) id = if id = eid then some p else packedQueued q id := by
  -- The new entry is at the end, so it is found only where no other is.
  by_cases same : id = eid
  · subst same
    rw [packedQueued_eq_none] at new
    have nothing : q.find? (fun e => e.1 == id) = none := by
      rw [List.find?_eq_none]
      intro e member
      simp only [beq_iff_eq]
      rintro rfl
      exact new (List.mem_map_of_mem member)
    simp [packedQueued, List.find?_append, nothing]
  · simp [packedQueued, List.find?_append, same, Ne.symm same]

/-- Queueing planes for a cell makes them its pending ones. -/
theorem packedPending_queue (s : VmSim) (eid : Nat) (v x : Word) (id : Nat) :
    (queuePackedNba s eid v x).packedPending id = if id = eid then (v, x) else s.packedPending id := by
  unfold queuePackedNba VmSim.packedPending
  split
  · rename_i p there
    simp only [packedQueued_replace, there, Option.map_some]
    split <;> rfl
  · rename_i nothing
    split
    · simp only [packedQueued_append _ _ _ _ nothing]
      split <;> rfl
    · rename_i same
      -- An elided write leaves the planes the cell already has.
      simp only [ne_eq, not_not] at same
      split
      · rename_i here
        subst here
        rw [nothing, Option.getD_none, same]
      · rfl

variable {D : VmDesign} {s : VmSim}

/-- Queueing planes for a packed cell is a step whose update shows in those planes. -/
theorem VmSim.Ok.stepPacked (ok : s.Ok D) (wf : D.Ok) {u : Update} {v x : Word}
    (packed : isPackedId u.id = true)
    (shows : ∀ i, i < 64 → (v.getLsbD i, x.getLsbD i) = u.bit
      ((s.packedPending u.id).1.getLsbD i, (s.packedPending u.id).2.getLsbD i) i) :
    s.Step D (queuePackedNba s u.id v x) (some u) := by
  -- The queue of packed elements is all that changes.
  have still : (queuePackedNba s u.id v x).toSim = s.toSim ∧
      (queuePackedNba s u.id v x).packed = s.packed ∧
      (queuePackedNba s u.id v x).forced = s.forced := by
    unfold queuePackedNba
    split
    · exact ⟨rfl, rfl, rfl⟩
    · split <;> exact ⟨rfl, rfl, rfl⟩
  obtain ⟨sim, cells, forces⟩ := still
  -- An element that is queued keeps its entry, and a new one is not queued yet.
  have once : ((queuePackedNba s u.id v x).packedNba.map Prod.fst).Nodup := by
    unfold queuePackedNba
    split
    · simpa only [map_fst_packedReplace] using ok.once
    · rename_i nothing
      split
      · have new := packedQueued_eq_none.mp nothing
        rw [List.map_append, List.map_singleton]
        refine List.nodup_append.mpr ⟨ok.once, by simp, ?_⟩
        rintro a member b single rfl
        exact new (by rwa [List.mem_singleton.mp single] at member)
      · exact ok.once
  refine ⟨by rw [sim], cells, forces, ⟨?_, ?_, ?_, once⟩, fun id i inside => ?_⟩
  · rw [sim, cells]; exact ok.tables
  · rw [sim]; exact ok.queue
  · rw [sim]; exact ok.plain
  · show VmSim.pendingBit _ id i = if u.id = id then u.bit _ i else _
    -- A packed element reads through that queue, and its bits fit one word.
    by_cases here : isPackedId id = true
    · simp only [VmDesign.cellWidth, if_pos here] at inside
      have low : i < 64 := by have := (wf.cell id).2; omega
      simp only [VmSim.pendingBit, if_pos here, packedPending_queue]
      by_cases same : u.id = id
      · subst same
        simpa using shows i low
      · simp [same, Ne.symm same]
    · -- Any other element reads through the signal queue, which is untouched.
      have other : u.id ≠ id := by rintro rfl; exact here packed
      simp only [VmSim.pendingBit, if_neg here, if_neg other, sim]

end Packed

section Arms

variable [VmOps] {D : VmDesign} {s : VmSim}

omit [VmOps] in
/-- Every table entry is as the simulator part demands. -/
theorem VmSim.Ok.entries (ok : s.Ok D) (id : Nat) : s.toSim.EntryOk D.toDesign id :=
  ⟨ok.tables.width id, ok.tables.fits id⟩

omit [VmOps] in
/-- Replacing a whole pending value is a step. -/
theorem VmSim.Ok.stepStore (ok : s.Ok D) {id : Nat} {val : Value} (table : isPackedId id = false)
    (width : val.width = D.signalWidths id) (plain : D.Vector id → val.Plain) :
    s.Step D (s.onSignals fun s => tsStoreNbaVal s id val) (some (wholeUpdate D id val)) :=
  ok.step (tsStoreNbaVal_whole ok.queue width) (ok.plain.storeNbaVal ok.queue plain) table

omit [VmOps] in
/-- Queueing a whole value, whatever was queued before, is a step. -/
theorem VmSim.Ok.stepPush (ok : s.Ok D) {id : Nat} {val : Value} (table : isPackedId id = false)
    (width : val.width = D.signalWidths id) (plain : D.Vector id → val.Plain) :
    s.Step D (s.onSignals fun s => s.pushNba id val) (some (wholeUpdate D id val)) :=
  ok.step (Sim.queued_whole ok.queue width) (ok.plain.push ok.queue plain) table

omit [VmOps] in
/-- A change of neither the signal table nor the queue is a step that updates nothing. -/
theorem VmSim.Ok.stepQuiet (ok : s.Ok D) {f : Sim → Sim}
    (table : (f s.toSim).signalTable = s.signalTable) (queue : (f s.toSim).nbaFast = s.nbaFast) :
    s.Step D (s.onSignals f) none := by
  -- The pending value is read through the table and the queue, and both are the same.
  have pending : ∀ id, (s.onSignals f).pending id = s.pending id := by
    intro id
    show ((f s.toSim).nbaFast.live id).getD ((f s.toSim).signalTable id) = _
    rw [table, queue, Sim.pending]
  refine ⟨table, rfl, rfl, ⟨?_, ⟨?_, fun id => ?_⟩, fun id => ?_, ok.once⟩, fun id i _ => ?_⟩
  · rw [show (s.onSignals f).signalTable = s.signalTable from table]
    exact ok.tables
  · rw [show (s.onSignals f).nbaFast = s.nbaFast from queue]
    exact ok.queue.indexed
  · rw [pending]
    exact ok.queue.width id
  · rw [pending]
    exact ok.plain id
  · show VmSim.pendingBit _ id i = s.pendingBit id i
    simp only [VmSim.pendingBit, pending]
    rfl

variable [LawfulVmOps]

/-- The bits of a run of positions, written narrow or wide, are a step. -/
theorem VmSim.Ok.stepRange (ok : s.Ok D) (high low : Nat) (val : Value) {id : Nat}
    (table : isPackedId id = false) (inside : high + 1 - low ≤ val.width)
    (top : D.signalWidths id ≤ 64 → high < 64) :
    s.Step D
      (if D.signalWidths id ≤ 64 ∧ D.signalReal id = false then
        s.onSignals fun s => tsRangeStoreNbaXz D.toDesign s id low high
          (ValueOps.rawBits val).1 (ValueOps.rawBits val).2
      else s.onSignals fun s => copyNba s id low val (high + 1 - low))
      (some (rangeUpdate id low high val)) := by
  split
  · rename_i narrow
    exact ok.step (tsRangeStoreNbaXz_planes ok.queue ok.entries narrow.1 (top narrow.1) val)
      (ok.plain.rangeStoreNbaXz ok.queue narrow.1 _ _) table
  · exact ok.step (copyNba_queued ok.queue inside)
      (ok.plain.copyNba ok.tables.plain ok.queue inside) table

/-- `Insn::NbaAssignRange` is a step. -/
theorem nbaAssignRange_step (ok : s.Ok D) {id : Nat} (table : isPackedId id = false) (hi lo : Nat)
    (v : Value) :
    s.Step D (nbaAssignRange D s id hi lo v) (NbaOp.update D s (.range id hi lo v)) := by
  -- A range that is discarded or crossed stores nothing.
  simp only [nbaAssignRange, NbaOp.update]
  by_cases discard : oobWriteDiscard D (max hi lo : Nat) (min hi lo : Nat) (D.signalWidths id) = true
  · simp only [discard, if_true, true_or]
    exact ok.idle
  · by_cases crossed : min (max hi lo) (D.signalWidths id - 1) < min hi lo
    · simp only [discard, crossed, if_true, or_true]
      exact ok.idle
    · -- The code takes the low bits of the value for the part of the range that is there.
      have width := LawfulVmOps.resize_width v
        (min (max hi lo) (D.signalWidths id - 1) - min hi lo + 1)
      simp only [discard, crossed, if_false, or_self, Bool.false_eq_true]
      have step := ok.stepRange (min (max hi lo) (D.signalWidths id - 1)) (min hi lo)
        (VmOps.resize v (min (max hi lo) (D.signalWidths id - 1) - min hi lo + 1)) table
        (by omega) (fun narrow => by omega)
      rwa [show min (max hi lo) (D.signalWidths id - 1) + 1 - min hi lo =
        min (max hi lo) (D.signalWidths id - 1) - min hi lo + 1 by omega] at step

/-- What a run-time range writes stays inside the positions 32 bits count. -/
theorem dynWindow_bounds {id : Nat} {hiV loV v : Value} {p : DynWindow}
    (window : dynWindow D id hiV loV v = some p) :
    ∃ high w, p.low ≤ high ∧ high < 2 ^ 32 ∧ w = (high - p.low + 1) % 2 ^ 32 ∧
      p.highEff = min high (D.signalWidths id - 1) ∧
      ∃ src, (v.isReal = false → src.isReal = false) ∧ p.val = VmOps.resize src w := by
  obtain ⟨b, bounds, rfl⟩ := Option.map_eq_some_iff.mp window
  unfold dynBounds at bounds
  -- Without both bounds there is no window.
  split at bounds
  · rename_i hi lo _ _
    dsimp only at bounds
    split at bounds
    · cases bounds
    · -- The bounds are clamped to 32 bits each, in the order the code clamps them.
      rename_i kept
      simp only [not_or, Int.not_lt] at kept
      cases bounds
      have small : (min hi lo).toNat % 2 ^ 32 < 2 ^ 32 := Nat.mod_lt _ (by decide)
      have capped : (min hi lo).toNat % 2 ^ 32 ≤ (min hi lo).toNat := Nat.mod_le _ _
      refine ⟨(min (max hi lo) (2 ^ 32 - 1)).toNat, _, ?_, by omega, rfl, rfl, ?_⟩
      · show (min hi lo).toNat % 2 ^ 32 ≤ _
        omega
      · dsimp only
        split
        · exact ⟨_, fun bits => LawfulVmOps.shiftRight_bits _ _ bits, rfl⟩
        · exact ⟨_, fun bits => bits, rfl⟩
  · cases bounds

/-- `Insn::NbaAssignRangeDyn` is a step where it is ordered. -/
theorem nbaAssignRangeDyn_step (wf : D.Ok) (ok : s.Ok D) {id : Nat}
    (table : isPackedId id = false) {hiV loV v : Value} (bits : D.Vector id → v.isReal = false)
    (ordered : NbaOp.Ordered D s (.rangeDyn id hiV loV v)) :
    s.Step D (nbaAssignRangeDyn D s id hiV loV v) (NbaOp.update D s (.rangeDyn id hiV loV v)) := by
  unfold nbaAssignRangeDyn
  simp only [NbaOp.update]
  cases window : dynWindow D id hiV loV v with
  | none => exact ok.idle
  | some p =>
    obtain ⟨high, w, below, top, rfl, eff, src, srcBits, made⟩ := dynWindow_bounds window
    have short := wf.short id
    have width : p.val.width = (high - p.low + 1) % 2 ^ 32 := by
      rw [made, LawfulVmOps.resize_width]
    simp only [Option.map_some]
    by_cases whole : p.low = 0 ∧ p.highEff + 1 ≥ D.signalWidths id
    · simp only [if_pos whole]
      have plain : D.Vector id →
          ({ VmOps.resizeForAssign p.val (D.signalWidths id) with
            isSigned := D.signalSigned id } : Value).Plain := by
        intro vector
        refine LawfulVmOps.resizeForAssign_bits _ _ ?_
        rw [made]
        exact (LawfulVmOps.resize_bits _ _ (srcBits (bits vector))).1
      by_cases same : s.signalTable id =
          { VmOps.resizeForAssign p.val (D.signalWidths id) with isSigned := D.signalSigned id }
      · -- Elided: by the condition what is pending shows the table's bits, which are the value's.
        rw [if_neg (not_not.mpr same)]
        have pending := ordered p window whole.1 whole.2 same
        refine ok.step (f := fun s => s) (u := wholeUpdate D id _)
          (Sim.queued_elided ok.queue fun i inside => ?_) ok.plain table
        have bit := pending i inside
        simp only [Value.bit, Prod.mk.injEq, same] at bit
        have low : i < D.signalWidths id := inside
        simp only [wholeUpdate, Nat.zero_le, Nat.zero_add, low, and_self, if_true, Nat.sub_zero]
        exact bit
      · rw [if_pos same]
        exact ok.stepPush table (LawfulVmOps.resizeForAssign_width _ _) plain
    · simp only [if_neg whole]
      refine ok.stepRange _ _ _ table ?_ fun narrow => by omega
      -- A range that is not the whole signal is narrower than all the positions 32 bits count.
      rw [width]
      by_cases all : high - p.low + 1 < 2 ^ 32
      · rw [Nat.mod_eq_of_lt all]; omega
      · exact absurd (by omega) whole

/-- `Insn::NbaAssignBitDyn` is a step. -/
theorem nbaAssignBitDyn_step (ok : s.Ok D) {id : Nat} (table : isPackedId id = false)
    (idxV v : Value) :
    s.Step D (nbaAssignBitDyn s id idxV v) (NbaOp.update D s (.bitDyn id idxV v)) := by
  unfold nbaAssignBitDyn
  simp only [NbaOp.update]
  cases dynBitIndex idxV with
  | none => exact ok.idle
  | some idx =>
    exact ok.step (bitNba_queued ok.queue id idx _)
      (ok.plain.bitNba ok.tables.plain ok.queue id idx _) table

/-- `Insn::NbaAssignArray` is a step. -/
theorem nbaAssignArray_step (wf : D.Ok) (ok : s.Ok D) {eid width : Nat} {v : Value}
    (declared : width = D.cellWidth eid)
    (bits : isPackedId eid = false → D.Vector eid → v.isReal = false) :
    s.Step D (nbaAssignArray s eid v width) (NbaOp.update D s (.array eid v width)) := by
  simp only [nbaAssignArray, NbaOp.update]
  -- A packed element is one word, and any other is a cell of its own.
  cases packed : isPackedId eid with
  | true =>
    simp only [if_true]
    refine ok.stepPacked wf (u := ⟨true, eid, 0, 64, _, _⟩) packed fun i low => ?_
    simp only [Update.bit, LawfulValueOps.rawBits_eq, Value.planes, BitVec.getLsbD_ofNat, low,
      Nat.zero_le, Nat.zero_add, and_self, if_true, decide_true, Bool.true_and, Nat.sub_zero]
  | false =>
    simp only [Bool.false_eq_true, if_false]
    simp only [VmDesign.cellWidth, packed, Bool.false_eq_true, if_false] at declared
    exact ok.stepStore packed (by rw [LawfulVmOps.resize_width, declared])
      fun vector => LawfulVmOps.resize_bits _ _ (bits packed vector)

/-- `Insn::NbaAssignArrayRange` is a step. -/
theorem nbaAssignArrayRange_step (wf : D.Ok) (ok : s.Ok D) {eid : Nat} {hiV loV v : Value}
    (bits : isPackedId eid = false → D.Vector eid → v.isReal = false) :
    s.Step D (nbaAssignArrayRange D s eid hiV loV v)
      (NbaOp.update D s (.arrayRange eid hiV loV v)) := by
  have hiSmall : (WordRead.toU64 hiV).getD 0 % 2 ^ 32 < 2 ^ 32 := Nat.mod_lt _ (by decide)
  have loSmall : (WordRead.toU64 loV).getD 0 % 2 ^ 32 < 2 ^ 32 := Nat.mod_lt _ (by decide)
  simp only [nbaAssignArrayRange, NbaOp.update]
  generalize (WordRead.toU64 hiV).getD 0 % 2 ^ 32 = hi at hiSmall ⊢
  generalize (WordRead.toU64 loV).getD 0 % 2 ^ 32 = lo at loSmall ⊢
  have width := LawfulVmOps.resize_width v ((max hi lo - min hi lo + 1) % 2 ^ 32)
  cases packed : isPackedId eid with
  | true =>
    simp only [VmDesign.cellWidth, packed, if_true, Bool.true_eq_false, false_and, if_false]
    by_cases discard : oobWriteDiscard D (max hi lo : Nat) (min hi lo : Nat) (D.packedWidth eid) = true
    · simp only [discard, if_true]
      exact ok.idle
    · simp only [discard, if_false, Bool.false_eq_true]
      have cell := wf.cell eid
      refine ok.stepPacked wf (u := rangeUpdate eid _ _ _) packed fun i low => ?_
      have place : i - min hi lo < 64 := by omega
      show _ = Update.bit _ ((s.packedPending eid).1.getLsbD i, (s.packedPending eid).2.getLsbD i) i
      simp only [getLsbD_spliceBits _ _ (show min (max hi lo) (D.packedWidth eid - 1) < 64 by omega)
        i low, Update.bit, rangeUpdate, LawfulValueOps.rawBits_eq, Value.planes,
        BitVec.getLsbD_ofNat, place, decide_true, Bool.true_and]
      split
      · rename_i window
        exact (if_pos window).symm
      · rename_i window
        exact (if_neg window).symm
  | false =>
    have short := wf.short eid
    simp only [VmDesign.cellWidth, packed, Bool.false_eq_true, if_false, true_and]
    by_cases discard : oobWriteDiscard D (max hi lo : Nat) (min hi lo : Nat) (D.signalWidths eid) = true
    · simp only [discard, if_true]
      exact ok.idle
    · simp only [discard, if_false, Bool.false_eq_true]
      by_cases whole : min hi lo = 0 ∧ min (max hi lo) (D.signalWidths eid - 1) + 1 ≥ D.signalWidths eid
      · simp only [if_pos whole]
        exact ok.stepStore packed (LawfulVmOps.resizeForAssign_width _ _) fun vector =>
          LawfulVmOps.resizeForAssign_bits _ _ (LawfulVmOps.resize_bits _ _ (bits packed vector)).1
      · simp only [if_neg whole]
        -- A range that is not the whole element is narrower than all the positions 32 bits count.
        have inside : min (max hi lo) (D.signalWidths eid - 1) + 1 - min hi lo ≤
            (VmOps.resize v ((max hi lo - min hi lo + 1) % 2 ^ 32)).width := by
          rw [width]
          by_cases all : max hi lo - min hi lo + 1 < 2 ^ 32
          · rw [Nat.mod_eq_of_lt all]; omega
          · exact absurd (by omega) whole
        exact ok.step (bitsNba_queued ok.queue inside)
          (ok.plain.bitsNba ok.tables.plain ok.queue inside) packed

/-- The element a signal selects has the asked width, and is plain for an array of vectors. -/
theorem arrayReadValue_ok (ok : s.Ok D) {elem : Int → Option Nat} {width : Nat} (positive : 1 ≤ width)
    (vectors : ∀ i eid, elem i = some eid → isPackedId eid = false → D.Vector eid) (idxSig : Nat) :
    (arrayReadValue s elem idxSig width).width = width ∧
      (arrayReadValue s elem idxSig width).Plain := by
  -- An index that reads nothing gives an unknown value of the element's width.
  have blank : (ValueOps.new (max width 1)).width = width ∧ (ValueOps.new (max width 1)).Plain := by
    rw [Nat.max_eq_left positive]
    exact ⟨(LawfulValueOps.new_planes width).1, LawfulVmOps.new_bits width⟩
  unfold arrayReadValue
  split
  · exact blank
  · -- What is read is resized to the width of the element.
    rename_i idx _
    cases there : elem idx with
    | none => exact blank
    | some eid =>
      cases packed : isPackedId eid with
      | true =>
        simp only [packed, if_true]
        exact ⟨LawfulValueOps.fromInline_width _ _ _, LawfulVmOps.fromInline_bits _ _ _⟩
      | false =>
        simp only [packed, Bool.false_eq_true, if_false]
        exact ⟨LawfulVmOps.resizeForAssign_width _ _, LawfulVmOps.resizeForAssign_bits _ _
          (ok.tables.plain eid (vectors idx eid there packed)).1⟩

/-- A nonblocking store call of a two-state executor is a step. -/
theorem tsStore_step (ok : s.Ok D) {op : StoreOp} (legal : op.Ok D.toDesign)
    (later : ∀ u, op.update D.toDesign = some u → u.nba = true ∧ isPackedId u.id = false)
    (bits : ∀ id val, op = .storeNbaVal id val → D.Vector id → val.Plain) :
    s.Step D (s.onSignals fun s => op.apply D.toDesign s) (op.update D.toDesign) := by
  cases made : op.update D.toDesign with
  | none =>
    obtain ⟨table, queue⟩ := StoreOp.apply_none (D := D.toDesign) (s := s.toSim) made
    exact ok.stepQuiet table queue
  | some u =>
    obtain ⟨nba, table⟩ := later u made
    refine ok.step (StoreOp.apply_nba legal ok.queue ok.entries made nba) ?_ table
    -- The values built by the calls are plain, and a changed window leaves the flags.
    cases op with
    | storeNbaVal id val => exact ok.plain.storeNbaVal ok.queue (bits id val rfl)
    | storeNba id v w =>
      exact ok.plain.storeNbaVal ok.queue fun _ => LawfulVmOps.fromU64_bits v w
    | storeNbaXz id v x w =>
      simp only [StoreOp.apply, tsStoreNbaXz]
      split
      · exact ok.plain.storeNbaVal ok.queue fun _ => LawfulVmOps.fromU64_bits v w
      · exact ok.plain.storeNbaVal ok.queue fun _ => LawfulVmOps.fromInline_bits v x (max w 1)
    | rangeStoreNbaXz id lo hi v x => exact ok.plain.rangeStoreNbaXz ok.queue legal.1 v x
    | wideRangeStoreNbaXz id lo hi v x =>
      exact ok.plain.wideRangeStoreNbaXz ok.tables.plain ok.queue legal v x
    | wideRangeFillNba id lo hi bit =>
      exact ok.plain.wideRangeFillNba ok.tables.plain ok.queue id lo hi bit
    | store | storeXz | rangeStoreXz | wideRangeStore | wideRangeFill => cases made; cases nba
    | wideRangeFillXz =>
      simp only [StoreOp.update] at made
      split at made <;> cases made <;> cases nba
    | covHit | saveSig | saveSigW => cases made

/-- `ts_wide_range_store2_nba` is a step. -/
theorem tsWideRangeStore2Nba_step (ok : s.Ok D) {id : Nat} (table : isPackedId id = false) (lo : Nat)
    {words : List Word} {w : Nat} (room : w ≤ 64 * words.length) :
    s.Step D (tsWideRangeStore2Nba D s id lo words w)
      (some ⟨true, id, lo, w, wordsPlane words, 0⟩) := by
  have width := ok.queue.width id
  -- Splicing the words in is a write of their bits.
  have spliced : ∀ v : Value, _ := fun v => spliceWords_eq words v lo w room
  have written := Value.shows_write (s.pending id) lo w (wordsPlane words) 0
  rw [width] at written
  refine ok.step (u := ⟨true, id, lo, w, wordsPlane words, 0⟩) ?_ ?_ table
  · -- An entry that is queued is edited, and without one a changed value is queued.
    split
    · rename_i i indexed
      refine Sim.queued_modify (u := ⟨true, id, lo, w, wordsPlane words, 0⟩) ok.queue indexed ?_ ?_
      · simp only [(spliced _).1]
        exact width
      · simp only [(spliced _).1]
        exact written
    · rename_i indexed
      rw [← Sim.pending_of_none indexed]
      dsimp only
      split
      · refine Sim.queued_push (u := ⟨true, id, lo, w, wordsPlane words, 0⟩) ok.queue ?_ ?_
        · simp only [(spliced _).1]
          exact width
        · simp only [(spliced _).1]
          exact written
      · -- An unchanged value needs no entry, since the pending one shows the bits already.
        rename_i same
        refine Sim.queued_elided ok.queue ?_
        rw [← (spliced _).1, (spliced _).2 (by simpa using same)] at written
        exact written
  · refine ok.plain.edit ok.queue (fun member => ?_) ?_
    · simp only [(spliced _).1]
      exact ok.plain id member
    · refine ok.plain.pushIf ok.queue fun member => ?_
      simp only [(spliced _).1]
      exact ok.tables.plain id member

/-- A native value brought to its signal's width has that width, and is plain if it was. -/
theorem jitFit_ok (id : Nat) {w : Nat} {val : Value} (width : val.width = w) (plain : val.Plain) :
    (jitFit D id val w).width = D.signalWidths id ∧ (jitFit D id val w).Plain := by
  unfold jitFit
  split
  · exact ⟨LawfulVmOps.resize_width _ _, LawfulVmOps.resize_bits _ _ plain.1⟩
  · rename_i same
    simp only [ne_eq, not_not] at same
    exact ⟨width.trans same, plain⟩

/-- `jit_schedule_nba_4s` is a step. -/
theorem jitScheduleNba4s_step (ok : s.Ok D) {id : Nat} (table : isPackedId id = false) (v x : Word)
    {width : Nat} (narrow : jitWidth D id width ≤ 64) :
    s.Step D (jitScheduleNba4s D s id v x width) (NbaOp.update D s (.jit4s id v x width)) := by
  simp only [jitScheduleNba4s, NbaOp.update]
  generalize (tsScrubTwoState D.toDesign id v x).1 &&& xmask (jitWidth D id width) = a
  generalize (tsScrubTwoState D.toDesign id v x).2 &&& xmask (jitWidth D id width) = b
  obtain ⟨fit, plain⟩ := jitFit_ok (D := D) id
    (LawfulValueOps.fromInline_width a b (jitWidth D id width))
    (LawfulVmOps.fromInline_bits a b (jitWidth D id width))
  split
  · rename_i same
    obtain ⟨whole, planes, nothing⟩ := same
    -- Elided with nothing queued: the table already holds both planes.
    refine ok.step (f := fun s => s) (u := wholeUpdate D id _)
      (Sim.queued_elided ok.queue fun i inside => ?_) ok.plain table
    have low : i < D.signalWidths id := inside
    have built := LawfulValueOps.fromInline_planes a b (jitWidth D id width) narrow
    rw [whole] at narrow built
    have held := Value.planes_toNat (ok.tables.fits id) (by rw [ok.tables.width]; exact narrow)
    rw [← LawfulValueOps.rawBits_eq, planes] at held
    simp only [wholeUpdate, jitFit, whole, ne_eq, not_true_eq_false, if_false, built, held,
      Sim.pending_of_none nothing, Nat.zero_le, Nat.zero_add, low, and_self, if_true, Nat.sub_zero]
  · exact ok.stepPush table fit fun _ => plain

omit [VmOps] [LawfulVmOps] in
/-- A window written bit by bit and always queued is a step. -/
theorem VmSim.Ok.stepBits (ok : s.Ok D) {id lo len a x : Nat} (table : isPackedId id = false)
    {f : Value → Value} (writes : ∀ v, f v = v.write lo len a x) :
    s.Step D
      (s.onSignals fun s => match s.nbaFast.index id with
        | some i => s.modifyNba i f
        | none => s.pushNba id (f (s.signalTable id)))
      (some ⟨true, id, lo, len, a, x⟩) := by
  -- The bits are written to what is pending, whether it is queued or not.
  have width := ok.queue.width id
  have written := Value.shows_write (s.pending id) lo len a x
  rw [width, ← writes] at written
  refine ok.step (u := ⟨true, id, lo, len, a, x⟩) ?_ ?_ table
  · split
    · rename_i i indexed
      exact Sim.queued_modify (u := ⟨true, id, lo, len, a, x⟩) ok.queue indexed
        (by rw [writes]; exact width) written
    · rename_i indexed
      rw [← Sim.pending_of_none indexed]
      exact Sim.queued_push (u := ⟨true, id, lo, len, a, x⟩) ok.queue
        (by rw [writes]; exact width) written
  · refine ok.plain.edit ok.queue (fun member => ?_) (ok.plain.push ok.queue fun member => ?_)
    · rw [writes]; exact ok.plain id member
    · rw [writes]; exact ok.tables.plain id member

/-- `jit_schedule_nba_range` is a step where its width is counted right. -/
theorem jitScheduleNbaRange_step (ok : s.Ok D) {id hi lo : Nat} (table : isPackedId id = false)
    (v x : Word) (ordered : max hi lo - min hi lo + 1 < 2 ^ 32) :
    s.Step D (jitScheduleNbaRange D s id hi lo v x) (NbaOp.update D s (.jitRange id hi lo v x)) := by
  simp only [jitScheduleNbaRange, NbaOp.update, Nat.mod_eq_of_lt ordered]
  by_cases discard : oobWriteDiscard D (max hi lo : Nat) (min hi lo : Nat) (D.signalWidths id) = true
  · simp only [discard, if_true]
    exact ok.idle
  · simp only [discard, if_false, Bool.false_eq_true]
    have width := LawfulValueOps.fromInline_width v x (max hi lo - min hi lo + 1)
    exact ok.stepBits table fun target => setBits_eq _ _ _ target (by rw [width]; omega)

/-- Every nonblocking write of every executor is a step, where it is ordered. -/
theorem NbaOp.apply_step (wf : D.Ok) (ok : s.Ok D) {op : NbaOp} (legal : op.Ok D)
    (ordered : op.Ordered D s) : s.Step D (op.apply D s) (op.update D s) := by
  -- Each store is one of the few ways of editing the queue.
  cases op with
  | assign id v width =>
    obtain ⟨table, rfl, bits⟩ := legal
    exact ok.stepStore table (LawfulVmOps.resizeForAssign_width _ _) fun vector =>
      LawfulVmOps.resizeForAssign_bits _ _ (bits vector)
  | assignConst id k => exact ok.stepStore legal.1 legal.2.1 legal.2.2
  | range id hi lo v => exact nbaAssignRange_step ok legal hi lo v
  | rangeDyn id hiV loV v => exact nbaAssignRangeDyn_step wf ok legal.1 legal.2 ordered
  | bitDyn id idxV v => exact nbaAssignBitDyn_step ok legal idxV v
  | array eid v width => exact nbaAssignArray_step wf ok legal.1 legal.2
  | arrayRange eid hiV loV v => exact nbaAssignArrayRange_step wf ok legal
  | arrayRead id elem idxSig width =>
    obtain ⟨table, rfl, positive, vectors⟩ := legal
    obtain ⟨same, plain⟩ := arrayReadValue_ok ok positive vectors idxSig
    exact ok.stepStore table same fun _ => plain
  | ts op => exact tsStore_step ok legal.1 legal.2.1 legal.2.2
  | tsWide2 id lo words w => exact tsWideRangeStore2Nba_step ok legal.1 lo legal.2
  | jit4s id v x width => exact jitScheduleNba4s_step ok legal.1 v x legal.2
  | jit id v width =>
    obtain ⟨fit, plain⟩ := jitFit_ok (D := D) id
      (LawfulValueOps.fromU64_width v (jitWidth D id width)) (LawfulVmOps.fromU64_bits _ _)
    exact ok.stepPush legal fit fun _ => plain
  | jitFast id v =>
    exact ok.stepPush legal (LawfulValueOps.fromU64_width _ _) fun _ => LawfulVmOps.fromU64_bits _ _
  | jitRange id hi lo v x => exact jitScheduleNbaRange_step ok legal.1 v x ordered
  | jitBit id idx v x => exact ok.stepBits legal fun target => LawfulVmOps.setBit_eq target idx _

end Arms

end Xezim
