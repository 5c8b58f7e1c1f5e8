import Xezim.Vm.NbaSteps
import Xezim.Vm.Reference

/-! Once the queue is applied, every bit is the one last written to it in program order. -/

namespace Xezim

open Splice Function

/-- What a block does between two nonblocking writes, and the writes themselves. -/
inductive NbaEvent where
  | nba (op : NbaOp)
  /-- Anything else the block computes, which leaves new tables behind. -/
  | tables (signals : Nat → Value) (cells : Nat → Word × Word)

section Runs

variable [VmOps] (D : VmDesign)

/-- Carry out an event. -/
def NbaEvent.apply (s : VmSim) : NbaEvent → VmSim
  | .nba op => op.apply D s
  | .tables signals cells => { s with signalTable := signals, packed := cells }

/-- The update an event asks for. -/
def NbaEvent.update (s : VmSim) : NbaEvent → Option Update
  | .nba op => op.update D s
  | .tables _ _ => none

/-- Carry out a block's events in program order. -/
def runNba (s : VmSim) (events : List NbaEvent) : VmSim :=
  events.foldl (fun s e => e.apply D s) s

/-- The updates a block's events ask for, in program order. -/
def nbaUpdates : VmSim → List NbaEvent → List Update
  | _, [] => []
  | s, e :: rest => (e.update D s).toList ++ nbaUpdates (e.apply D s) rest

/-- A well-formed event that makes no blocking write to a destination. -/
def NbaEvent.Ok (s : VmSim) (id : Nat) : NbaEvent → Prop
  | .nba op => op.Ok D
  | .tables signals cells =>
    TablesOk D signals cells ∧ signals id = s.signalTable id ∧ cells id = s.packed id

/-- Every event of a block is well formed and makes no blocking write to a destination. -/
def NbaRunOk (id : Nat) : VmSim → List NbaEvent → Prop
  | _, [] => True
  | s, e :: rest => e.Ok D s id ∧ NbaRunOk id (e.apply D s) rest

/-- Every nonblocking write of a block is one the code orders rightly. -/
def NbaRunOrdered : VmSim → List NbaEvent → Prop
  | _, [] => True
  | s, e :: rest =>
    (match e with
      | .nba op => op.Ordered D s
      | .tables _ _ => True) ∧ NbaRunOrdered (e.apply D s) rest

variable {D} {s : VmSim}

omit [VmOps] in
/-- New tables leave the pending bit of a destination they do not change, and every other promise. -/
theorem VmSim.Ok.withTables (ok : s.Ok D) {signals : Nat → Value} {cells : Nat → Word × Word}
    (sound : TablesOk D signals cells) :
    ({ s with signalTable := signals, packed := cells } : VmSim).Ok D := by
  refine ⟨sound, ⟨ok.queue.indexed, fun id => ?_⟩, fun id vector => ?_, ok.once⟩
  · have width := ok.queue.width id
    unfold Sim.pending at width ⊢
    cases live : s.nbaFast.live id with
    | none => exact sound.width id
    | some v => simpa only [live, Option.getD_some] using width
  · have plain := ok.plain id vector
    unfold Sim.pending at plain ⊢
    cases live : s.nbaFast.live id with
    | none => exact sound.plain id vector
    | some v => simpa only [live, Option.getD_some] using plain

variable [LawfulVmOps]

/-- A block keeps its simulator sound, and a destination's pending bits follow the updates. -/
theorem runNba_pendingBit (wf : D.Ok) {id : Nat} (events : List NbaEvent) :
    ∀ s : VmSim, s.Ok D → NbaRunOk D id s events → NbaRunOrdered D s events →
      (runNba D s events).Ok D ∧ (runNba D s events).forced = s.forced ∧
        ∀ i, i < D.cellWidth id → (runNba D s events).pendingBit id i =
          lastWrite id i (s.pendingBit id i) (nbaUpdates D s events) := by
  induction events with
  | nil => exact fun s ok _ _ => ⟨ok, rfl, fun _ _ => rfl⟩
  | cons e rest ih =>
    intro s ok legal ordered
    have step : (e.apply D s).Ok D ∧ (e.apply D s).forced = s.forced ∧
        ∀ i, i < D.cellWidth id → (e.apply D s).pendingBit id i =
          lastWrite id i (s.pendingBit id i) (e.update D s).toList := by
      cases e with
      | nba op =>
        have step := NbaOp.apply_step wf ok legal.1 ordered.1
        exact ⟨step.ok, step.forces, step.bits id⟩
      | tables signals cells =>
        obtain ⟨sound, here, there⟩ := legal.1
        refine ⟨ok.withTables sound, rfl, fun i _ => ?_⟩
        simp only [NbaEvent.apply, NbaEvent.update, VmSim.pendingBit, VmSim.packedPending,
          Sim.pending, here, there]
        rfl
    obtain ⟨sound, forces, bits⟩ := step
    obtain ⟨sound', forces', bits'⟩ := ih _ sound legal.2 ordered.2
    refine ⟨sound', forces'.trans forces, fun i inside => ?_⟩
    show (runNba D (e.apply D s) rest).pendingBit id i = lastWrite id i _ (_ ++ _)
    rw [bits' i inside, bits i inside]
    simp only [lastWrite, List.foldl_append]

end Runs

section Landing

variable {D : VmDesign} {s : VmSim}

/-- Committing the queue of packed cells stores what is queued for an unforced cell. -/
theorem foldl_packed (id : Nat) (commit : Nat → Word → Word → Word × Word → Word × Word)
    (overwrites : ∀ v x b b', commit id v x b = commit id v x b') :
    ∀ (q : List (Nat × Word × Word)) (t : Nat → Word × Word), (q.map Prod.fst).Nodup →
      q.foldl (fun t e => update t e.1 (commit e.1 e.2.1 e.2.2 (t e.1))) t id =
        match packedQueued q id with
        | some p => commit id p.1 p.2 (t id)
        | none => t id := by
  intro q
  induction q with
  | nil => exact fun t _ => rfl
  | cons e rest ih =>
    intro t once
    simp only [List.map_cons, List.nodup_cons] at once
    rw [List.foldl_cons, ih _ once.2, packedQueued_cons]
    by_cases here : e.1 = id
    · -- The entry is the cell's only one, so nothing queued later overwrites it.
      subst here
      rw [packedQueued_eq_none.mpr once.1]
      simp
    · simp only [if_neg here, update_of_ne (Ne.symm here)]

/-- A stored packed bit is the landing of the queued one. -/
theorem packedSetRaw_bit (eid : Nat) (packed : isPackedId eid = true) (v x : Word) {i : Nat}
    (inside : i < D.packedWidth eid) (low : i < 64) :
    ((packedSetRaw D eid v x).1.getLsbD i, (packedSetRaw D eid v x).2.getLsbD i) =
      D.landing eid (v.getLsbD i, x.getLsbD i) := by
  simp only [packedSetRaw, VmDesign.landing, packed, if_true, BitVec.getLsbD_and, getLsbD_xmask,
    inside, low, and_self, decide_true, Bool.and_true]
  split
  · rename_i two
    simp [two]
  · rename_i four
    simp [four, getLsbD_xmask, inside, low]

variable [VmOps] [LawfulVmOps]

/-- A stored bit of a signal is the landing of the queued one. -/
theorem nbaEntryValue_bit {id : Nat} (table : isPackedId id = false) (vector : D.Vector id)
    {v : Value} (width : v.width = D.signalWidths id) (plain : v.Plain) {i : Nat}
    (inside : i < D.signalWidths id) :
    (nbaEntryValue D id v).bit i = D.landing id (v.bit i) := by
  obtain ⟨notReal, notString⟩ := vector
  have positive : D.signalWidths id ≠ 0 := by omega
  simp only [nbaEntryValue, VmDesign.landing, table, Bool.false_eq_true, if_false, positive, width,
    plain.1, plain.2, notReal, notString, ne_eq, not_false_eq_true, true_and]
  cases two : D.signalTwoState id with
  | false => simp [Value.bit]
  | true =>
    simp only [true_and, if_true]
    by_cases clean : v.xz = 0
    · simp [clean, Value.bit]
    · -- An x or z bit takes the conversion, which reads it as zero.
      obtain ⟨val, unk⟩ := LawfulVmOps.resizeForAssign_low v (D.signalWidths id) i plain
        ⟨inside, by omega⟩
      obtain ⟨-, known, bits⟩ := LawfulVmOps.toTwoState_eq
        (VmOps.resizeForAssign v (D.signalWidths id))
      simp [clean, fitValueToSignal, notReal, notString, positive, two, plain.1, Value.bit, known,
        bits, val, unk]

/-- Applying the queue lands every pending bit of an unforced destination. -/
theorem applyNba_bit (wf : D.Ok) (ok : s.Ok D) {id : Nat}
    (vector : isPackedId id = false → D.Vector id) (free : s.forced id = false) {i : Nat}
    (inside : i < D.cellWidth id) :
    (applyNba D s).bit id i = D.landing id (s.pendingBit id i) := by
  cases packed : isPackedId id with
  | true =>
    have low : i < 64 := by
      have := (wf.cell id).2
      simp only [VmDesign.cellWidth, packed, if_true] at inside
      omega
    simp only [VmDesign.cellWidth, packed, if_true] at inside
    have committed := foldl_packed id
      (fun k v x old => if s.forced k then old else packedSetRaw D k v x)
      (fun v x b b' => by simp [free]) s.packedNba s.packed ok.once
    simp only [VmSim.bit, VmSim.pendingBit, VmSim.packedPending, packed, if_true, applyNba,
      committed]
    rw [← packedSetRaw_bit id packed _ _ inside low]
    cases packedQueued s.packedNba id with
    | none => simp only [Option.getD_none, ok.tables.cut id]
    | some p => simp [free]
  | false =>
    simp only [VmDesign.cellWidth, packed, Bool.false_eq_true, if_false] at inside
    have committed := ok.queue.indexed.replay_eq
      (fun k v old => if s.forced k then old else nbaEntryValue D k v)
      s.signalTable id (fun v b b' => by simp [free])
    have width := ok.queue.width id
    have plain := ok.plain id (vector packed)
    simp only [VmSim.bit, VmSim.pendingBit, packed, Bool.false_eq_true, if_false, applyNba,
      committed, Sim.pending] at width plain ⊢
    cases live : s.nbaFast.live id with
    | none =>
      -- Nothing queued: the present value already is what the declaration keeps.
      simp only [Option.getD_none, VmDesign.landing, packed, Bool.false_eq_true, if_false]
      split
      · rename_i two
        simp [Value.bit, ok.tables.known id two]
      · rfl
    | some v =>
      simp only [live, Option.getD_some] at width plain
      simp only [Option.getD_some, free, Bool.false_eq_true, if_false]
      exact nbaEntryValue_bit packed (vector packed) width plain inside

/-- Once the queue is applied, each bit of a signal or packed cell that no force holds and no
blocking write touched is the one the updates of the block leave in program order. -/
theorem applyNba_lastWrite (wf : D.Ok) (ok : s.Ok D) {id : Nat}
    (vector : isPackedId id = false → D.Vector id) (free : s.forced id = false)
    (empty : s.nbaFast = KeyedLog.empty ∧ s.packedNba = []) {events : List NbaEvent}
    (legal : NbaRunOk D id s events) (ordered : NbaRunOrdered D s events) {i : Nat}
    (inside : i < D.cellWidth id) :
    (applyNba D (runNba D s events)).bit id i =
      D.landing id (lastWrite id i (s.bit id i) (nbaUpdates D s events)) := by
  obtain ⟨sound, forces, bits⟩ := runNba_pendingBit wf events s ok legal ordered
  have start : s.pendingBit id i = s.bit id i := by
    simp only [VmSim.pendingBit, VmSim.bit, VmSim.packedPending, Sim.pending, empty.1, empty.2]
    rfl
  rw [applyNba_bit wf sound vector (by rw [forces]; exact free) inside, bits i inside, start]

end Landing

section Samples

attribute [local instance] referenceVmOps referenceVmOps_lawful

/-- Three writes of one signal: whole, then one bit, then whole again through run-time bounds. -/
def overwritten : List NbaEvent :=
  [.nba (.assign 0 (fourBit 5) 4), .nba (.bitDyn 0 (fourBit 1) (fourBit 1)),
    .nba (.rangeDyn 0 (fourBit 3) (fourBit 0) (fourBit 9))]

/-- Of these writes to a signal at zero the last one is what lands. -/
theorem applyNba_lastWrite_overwritten :
    (applyNba fourBitDesign (runNba fourBitDesign (fourBitSim fun _ => 0) overwritten)).bit 0 3 =
      (true, false) := by
  have landed : (applyNba fourBitDesign
      (runNba fourBitDesign (fourBitSim fun _ => 0) overwritten)).bit 0 3 =
        fourBitDesign.landing 0 (lastWrite 0 3 ((fourBitSim fun _ => 0).bit 0 3)
          (nbaUpdates fourBitDesign (fourBitSim fun _ => 0) overwritten)) := by
    refine applyNba_lastWrite fourBitDesign_ok (fourBitSim_ok fun _ => 0)
      (fun _ => ⟨rfl, rfl⟩) rfl ⟨rfl, rfl⟩ ?_ ?_ (by decide)
    · exact And.intro ⟨rfl, rfl, fun _ => rfl⟩
        (And.intro rfl (And.intro ⟨rfl, fun _ => rfl⟩ trivial))
    · refine And.intro trivial (And.intro trivial (And.intro ?_ trivial))
      -- The value written through run-time bounds is not the one the table holds.
      intro p window _ _ same
      cases window
      exact absurd (congrArg Value.val same) (by decide)
  rw [landed]
  decide

/-- A whole write of the present value through run-time bounds leaves an earlier queued one. -/
theorem applyNba_not_lastWrite :
    (∀ id, NbaRunOk fourBitDesign id (fourBitSim fun _ => 0)
      [.nba (.assign 0 (fourBit 5) 4), .nba (.rangeDyn 0 (fourBit 3) (fourBit 0) (fourBit 0))]) ∧
    (applyNba fourBitDesign (runNba fourBitDesign (fourBitSim fun _ => 0)
      [.nba (.assign 0 (fourBit 5) 4),
        .nba (.rangeDyn 0 (fourBit 3) (fourBit 0) (fourBit 0))])).bit 0 0 = (true, false) ∧
    fourBitDesign.landing 0 (lastWrite 0 0 ((fourBitSim fun _ => 0).bit 0 0)
      (nbaUpdates fourBitDesign (fourBitSim fun _ => 0)
        [.nba (.assign 0 (fourBit 5) 4),
          .nba (.rangeDyn 0 (fourBit 3) (fourBit 0) (fourBit 0))])) = (false, false) := by
  refine ⟨fun _ => ?_, by decide, by decide⟩
  exact And.intro ⟨rfl, rfl, fun _ => rfl⟩ (And.intro ⟨rfl, fun _ => rfl⟩ trivial)

end Samples

end Xezim
