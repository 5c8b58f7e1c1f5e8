import Xezim.TwoState.StoreLaws

/-! The value each signal will have once the queue is applied, and what nonblocking stores do to it. -/

namespace Xezim

open Splice KnownBits Function

/-- `new` is `old` with `len` bits from `lo` overwritten in both planes, as far as bit `w`. -/
def Value.Shows (w : Nat) (new old : Value) (lo len a x : Nat) : Prop :=
  ∀ i, i < w →
    new.val.testBit i =
        (if lo ≤ i ∧ i < lo + len then a.testBit (i - lo) else old.val.testBit i) ∧
      new.xz.testBit i =
        (if lo ≤ i ∧ i < lo + len then x.testBit (i - lo) else old.xz.testBit i)

/-- A masked update shows itself. -/
theorem Value.shows_write (v : Value) (lo len a x : Nat) :
    (v.write lo len a x).Shows v.width v lo len a x :=
  fun i inside => ⟨v.testBit_write_val lo len a x i inside, v.testBit_write_xz lo len a x i inside⟩

/-- A signal's queued value, or its present one when nothing is queued. -/
def Sim.pending (s : Sim) (id : Nat) : Value := (s.nbaFast.live id).getD (s.signalTable id)

/-- The queue is well indexed and every pending value has its signal's width. -/
structure Sim.QueueOk (D : Design) (s : Sim) : Prop where
  indexed : s.nbaFast.WellIndexed
  width : ∀ id, (s.pending id).width = D.signalWidths id

/-- `after` is `before` with one update of a pending value. -/
structure Sim.Queued (D : Design) (before after : Sim) (u : Update) : Prop where
  table : after.signalTable = before.signalTable
  queue : after.QueueOk D
  others : ∀ id, id ≠ u.id → after.pending id = before.pending id
  shows : (after.pending u.id).Shows (D.signalWidths u.id) (before.pending u.id)
    u.lo u.len u.val u.xz

section Laws

variable {D : Design} {s : Sim} {u : Update}

/-- Without a live entry a signal's pending value is its present one. -/
theorem Sim.pending_of_none {id : Nat} (indexed : s.nbaFast.index id = none) :
    s.pending id = s.signalTable id := by
  simp [Sim.pending, KeyedLog.live_none indexed]

/-- Queueing a value that shows the update makes it the pending one. -/
theorem Sim.queued_push (ok : s.QueueOk D) {v : Value} (width : v.width = D.signalWidths u.id)
    (shows : v.Shows (D.signalWidths u.id) (s.pending u.id) u.lo u.len u.val u.xz) :
    s.Queued D (s.pushNba u.id v) u := by
  -- The new entry is the live one, and the other signals keep theirs.
  have here : (s.pushNba u.id v).pending u.id = v := by simp [Sim.pending, Sim.pushNba]
  have others : ∀ id, id ≠ u.id → (s.pushNba u.id v).pending id = s.pending id := by
    intro id other
    simp only [Sim.pending, Sim.pushNba, ok.indexed.live_push_of_ne other]
  refine ⟨rfl, ⟨ok.indexed.push _ _, fun id => ?_⟩, others, by rw [here]; exact shows⟩
  by_cases same : id = u.id
  · rw [same, here, width]
  · rw [others id same, ok.width]

/-- Changing the live entry so that it shows the update changes the pending value. -/
theorem Sim.queued_modify (ok : s.QueueOk D) {i : Nat} (indexed : s.nbaFast.index u.id = some i)
    {f : Value → Value} (width : (f (s.pending u.id)).width = D.signalWidths u.id)
    (shows : (f (s.pending u.id)).Shows (D.signalWidths u.id) (s.pending u.id)
      u.lo u.len u.val u.xz) :
    s.Queued D (s.modifyNba i f) u := by
  -- The signal has an entry, so the edited one is live.
  have live : (s.nbaFast.live u.id).isSome = true := by
    rw [ok.indexed.live_isSome, indexed]; rfl
  obtain ⟨v, there⟩ := Option.isSome_iff_exists.mp live
  have here : (s.modifyNba i f).pending u.id = f (s.pending u.id) := by
    simp only [Sim.pending, Sim.modifyNba, ok.indexed.live_modify indexed, there, Option.map_some,
      Option.getD_some]
  have others : ∀ id, id ≠ u.id → (s.modifyNba i f).pending id = s.pending id := by
    intro id other
    simp only [Sim.pending, Sim.modifyNba, ok.indexed.live_modify_of_ne indexed other]
  refine ⟨rfl, ⟨ok.indexed.modify _ _, fun id => ?_⟩, others, by rw [here]; exact shows⟩
  by_cases same : id = u.id
  · rw [same, here, width]
  · rw [others id same, ok.width]

/-- An elided update is one the pending value already shows. -/
theorem Sim.queued_elided (ok : s.QueueOk D)
    (shows : (s.pending u.id).Shows (D.signalWidths u.id) (s.pending u.id)
      u.lo u.len u.val u.xz) : s.Queued D s u :=
  ⟨rfl, ok, fun _ _ => rfl, shows⟩

/-- Replacing a whole pending value. -/
theorem tsStoreNbaVal_queued (ok : s.QueueOk D) {id : Nat} {val : Value}
    (width : val.width = D.signalWidths id) {a x : Nat}
    (planes : ∀ i, i < val.width → val.val.testBit i = a.testBit i ∧
      val.xz.testBit i = x.testBit i) :
    s.Queued D (tsStoreNbaVal s id val) ⟨true, id, 0, val.width, a, x⟩ := by
  have shows : ∀ old : Value, val.Shows (D.signalWidths id) old 0 val.width a x := by
    intro old i inside
    have low : i < val.width := by omega
    simpa [low] using planes i low
  unfold tsStoreNbaVal
  -- The queued value replaces the whole signal, whatever was pending.
  split
  · rename_i i indexed
    exact Sim.queued_modify (u := ⟨true, id, 0, val.width, a, x⟩) ok indexed width (shows _)
  · rename_i indexed
    split
    · exact Sim.queued_push (u := ⟨true, id, 0, val.width, a, x⟩) ok width (shows _)
    · -- An equal value is not queued, and the signal shows it already.
      rename_i same
      refine Sim.queued_elided ok ?_
      simp only [ne_eq, not_not] at same
      simp only [Sim.pending_of_none indexed, same]
      exact shows _

variable [ValueOps] [LawfulValueOps]

/-- Updating a window of a narrow pending value. -/
theorem tsRangeStoreNbaXz_queued (ok : s.QueueOk D) (entries : ∀ id, s.EntryOk D id)
    {id lo hi : Nat} (narrow : D.signalWidths id ≤ 64) (top : hi < 64) (v x : Word) :
    s.Queued D (tsRangeStoreNbaXz D s id lo hi v x)
      ⟨true, id, lo, hi + 1 - lo, v.toNat, x.toNat⟩ := by
  -- Whatever the base, composing and storing both planes shows the update below bit 64.
  have shows : ∀ (base new : Value),
      new.val = (composeInlineRangeBits base.planes.1 base.planes.2 v x lo hi).1.toNat →
      new.xz = (composeInlineRangeBits base.planes.1 base.planes.2 v x lo hi).2.toNat →
      new.Shows (D.signalWidths id) base lo (hi + 1 - lo) v.toNat x.toNat := by
    intro base new val unk i inside
    have composed := toNat_compose base.planes.1 base.planes.2 v x lo hi (Or.inr top)
    have low : i < 64 := by omega
    rw [val, unk, composed.1, composed.2]
    simp only [Value.planes, BitVec.toNat_ofNat, testBit_splice, Nat.testBit_mod_two_pow, low,
      decide_true, Bool.true_and, and_self]
  unfold tsRangeStoreNbaXz
  simp only [LawfulValueOps.rawBits_eq]
  split
  · rename_i i indexed
    have short : (s.pending id).width ≤ 64 := by rw [ok.width]; exact narrow
    refine Sim.queued_modify (u := ⟨true, id, lo, hi + 1 - lo, v.toNat, x.toNat⟩) ok indexed ?_ ?_
    · simp [LawfulValueOps.setInlineBits_narrow _ _ _ short, ok.width]
    · refine shows _ _ ?_ ?_ <;> simp [LawfulValueOps.setInlineBits_narrow _ _ _ short]
  · rename_i indexed
    have present := Sim.pending_of_none indexed
    split
    · rename_i same
      refine Sim.queued_elided ok (shows _ _ ?_ ?_)
      · have planes := Value.planes_toNat (entries id).fits
          (by rw [(entries id).width]; exact narrow)
        rw [present, same, planes.1]
      · have planes := Value.planes_toNat (entries id).fits
          (by rw [(entries id).width]; exact narrow)
        rw [present, same, planes.2]
    · refine Sim.queued_push (u := ⟨true, id, lo, hi + 1 - lo, v.toNat, x.toNat⟩) ok ?_ ?_
      · exact LawfulValueOps.fromInline_width _ _ _
      · refine shows _ _ ?_ ?_ <;>
          simp [LawfulValueOps.fromInline_planes _ _ _ narrow, present]

/-- Updating a window of a wide pending value. -/
theorem tsWideRangeStoreNbaXz_queued (ok : s.QueueOk D) {id lo hi : Nat}
    (short : hi + 1 - lo ≤ 64) (v x : Word) :
    s.Queued D (tsWideRangeStoreNbaXz D s id lo hi v x)
      ⟨true, id, lo, hi + 1 - lo, v.toNat, x.toNat⟩ := by
  have width := ok.width id
  unfold tsWideRangeStoreNbaXz
  simp only [LawfulValueOps.splice_planes _ _ _ _ _ short]
  -- An entry that is queued is edited in place.
  split
  · rename_i i indexed
    refine Sim.queued_modify (u := ⟨true, id, lo, hi + 1 - lo, v.toNat, x.toNat⟩) ok indexed width ?_
    rw [← width]
    exact Value.shows_write _ _ _ _ _
  · -- Without one the value in the table is pending, and only a change is queued.
    rename_i indexed
    have present := Sim.pending_of_none indexed
    rw [← present]
    split
    · refine Sim.queued_push (u := ⟨true, id, lo, hi + 1 - lo, v.toNat, x.toNat⟩) ok width ?_
      rw [← width]
      exact Value.shows_write (s.pending id) lo (hi + 1 - lo) v.toNat x.toNat
    · -- What is elided shows the bits already.
      rename_i same
      refine Sim.queued_elided ok ?_
      simp only [decide_eq_true_eq, ne_eq, not_not] at same
      have written := Value.shows_write (s.pending id) lo (hi + 1 - lo) v.toNat x.toNat
      rw [same, width] at written
      exact written

/-- Filling a window of a pending value. -/
theorem tsWideRangeFillNba_queued (ok : s.QueueOk D) (id lo hi bit : Nat) :
    s.Queued D (tsWideRangeFillNba D s id lo hi bit)
      ⟨true, id, lo, hi + 1 - lo, fillPlane bit (hi + 1 - lo), 0⟩ := by
  have width := ok.width id
  have blank : fillPlane 0 (hi + 1 - lo) = 0 := by simp [fillPlane]
  -- The fill writes one bit all over the window, a word at a time.
  have fill : ∀ v : Value, _ := fun v =>
    spliceFill_eq (fun _ => fillWord bit) (fun _ => 0#64) (a := bit) (b := 0)
      (fun _ _ i _ => getLsbD_fillWord bit i (by omega)) (fun _ _ i _ => by simp) (hi + 1) v lo
      (hi + 1) (by omega)
  rw [blank] at fill
  -- Whatever value the window is filled in, it shows the fill.
  have shows : ∀ v : Value, v.width = D.signalWidths id →
      (spliceFill (fun _ => fillWord bit) (fun _ => 0#64) (hi + 1) v lo (hi + 1)).1.Shows
        (D.signalWidths id) v lo (hi + 1 - lo) (fillPlane bit (hi + 1 - lo)) 0 := by
    intro v same
    rw [(fill v).1, ← same]
    exact Value.shows_write _ _ _ _ _
  unfold tsWideRangeFillNba
  split
  · rename_i i indexed
    refine Sim.queued_modify
      (u := ⟨true, id, lo, hi + 1 - lo, fillPlane bit (hi + 1 - lo), 0⟩) ok indexed ?_ (shows _ width)
    rw [(fill _).1]
    exact width
  · rename_i indexed
    have present := Sim.pending_of_none indexed
    rw [← present]
    dsimp only
    split
    · refine Sim.queued_push
        (u := ⟨true, id, lo, hi + 1 - lo, fillPlane bit (hi + 1 - lo), 0⟩) ok ?_ (shows _ width)
      simp only [(fill _).1]
      exact width
    · -- What is elided shows the fill already.
      rename_i still
      refine Sim.queued_elided ok ?_
      have written := shows _ width
      rw [(fill _).2 (by simpa using still)] at written
      exact written

/-- A nonblocking store call is its update of the pending value, and leaves the table alone. -/
theorem StoreOp.apply_nba {op : StoreOp} (ok : op.Ok D) (queue : s.QueueOk D)
    (entries : ∀ id, s.EntryOk D id) (made : op.update D = some u) (later : u.nba = true) :
    s.Queued D (op.apply D s) u := by
  -- Each queued store is a whole value, a window of bits or a filled window.
  cases op with
  | storeNbaVal id val =>
    cases made
    exact tsStoreNbaVal_queued queue ok fun _ _ => ⟨rfl, rfl⟩
  | storeNba id v w =>
    obtain ⟨rfl, narrow, small⟩ := ok
    cases made
    have planes := LawfulValueOps.fromU64_planes v (D.signalWidths id) (toNat_lt_of_fits small)
    have width := LawfulValueOps.fromU64_width v (D.signalWidths id)
    have queued := tsStoreNbaVal_queued queue width (a := v.toNat) (x := 0) fun i _ => by
      rw [planes.1, planes.2]; exact ⟨rfl, rfl⟩
    rwa [width] at queued
  | storeNbaXz id v x w =>
    obtain ⟨rfl, positive, narrow, small, unk⟩ := ok
    cases made
    simp only [StoreOp.apply, tsStoreNbaXz]
    -- Known planes take the two-state path, and others are queued with their unknown bits.
    split
    · rename_i clean
      subst clean
      have planes := LawfulValueOps.fromU64_planes v (D.signalWidths id) (toNat_lt_of_fits small)
      have width := LawfulValueOps.fromU64_width v (D.signalWidths id)
      have queued := tsStoreNbaVal_queued queue width (a := v.toNat) (x := 0) fun i _ => by
        rw [planes.1, planes.2]; exact ⟨rfl, rfl⟩
      rwa [width] at queued
    · have whole : max (D.signalWidths id) 1 = D.signalWidths id := by omega
      rw [whole]
      have planes := LawfulValueOps.fromInline_planes v x (D.signalWidths id) narrow
      have width := LawfulValueOps.fromInline_width v x (D.signalWidths id)
      have unsigned : ({ ValueOps.fromInline v x (D.signalWidths id) with isSigned := false } :
          Value).width = D.signalWidths id := width
      have queued := tsStoreNbaVal_queued queue unsigned (a := v.toNat) (x := x.toNat) fun i _ => by
        simp only [planes.1, planes.2, and_self]
      simpa only [width] using queued
  | rangeStoreNbaXz id lo hi v x =>
    cases made
    exact tsRangeStoreNbaXz_queued queue entries ok.1 ok.2 v x
  | wideRangeStoreNbaXz id lo hi v x =>
    cases made
    exact tsWideRangeStoreNbaXz_queued queue ok v x
  | wideRangeFillNba id lo hi bit =>
    cases made
    exact tsWideRangeFillNba_queued queue id lo hi bit
  | store | storeXz | rangeStoreXz | wideRangeStore | wideRangeFill => cases made; cases later
  | wideRangeFillXz =>
    simp only [StoreOp.update] at made
    split at made <;> cases made <;> cases later
  | covHit | saveSig | saveSigW => cases made

omit [LawfulValueOps] in
/-- A store call that is no update of a signal leaves the table and the queue alone. -/
theorem StoreOp.apply_none {op : StoreOp} (made : op.update D = none) :
    (op.apply D s).signalTable = s.signalTable ∧ (op.apply D s).nbaFast = s.nbaFast := by
  cases op with
  | covHit | saveSig | saveSigW => exact ⟨rfl, rfl⟩
  | wideRangeFillXz =>
    simp only [StoreOp.update] at made
    split at made <;> cases made
  | _ => cases made

/-- Every entry has its declared width and no bit past it, and the queue is well indexed. -/
structure Sim.Ok (D : Design) (s : Sim) : Prop where
  entries : ∀ id, s.EntryOk D id
  queue : s.QueueOk D

omit [ValueOps] [LawfulValueOps] in
/-- Replacing an entry by a masked update of itself keeps the simulator sound. -/
theorem Sim.Ok.setSignal_write (ok : s.Ok D) (id lo len a x : Nat) :
    (s.setSignal id ((s.signalTable id).write lo len a x)).Ok D where
  entries id' := by
    -- The width of an entry does not depend on its bits.
    by_cases same : id' = id
    · subst same
      constructor
      · simp [Sim.setSignal, (ok.entries id').width]
      · simpa [Sim.setSignal] using (ok.entries id').fits.write lo len a x
    · constructor
      · simpa [Sim.setSignal, update_of_ne same] using (ok.entries id').width
      · simpa [Sim.setSignal, update_of_ne same] using (ok.entries id').fits
  queue := by
    refine ⟨ok.queue.indexed, fun id' => ?_⟩
    have width := ok.queue.width id'
    simp only [Sim.pending, Sim.setSignal] at width ⊢
    -- A queued entry is untouched, and without one the table is read.
    cases live : s.nbaFast.live id' with
    | some v => simpa [live] using width
    | none =>
      by_cases same : id' = id
      · subst same
        simp [(ok.entries id').width]
      · simpa [live, update_of_ne same] using width

/-- A legal store call keeps the simulator sound. -/
theorem StoreOp.apply_ok {op : StoreOp} (legal : op.Ok D) (ok : s.Ok D) : (op.apply D s).Ok D := by
  -- A store leaves everything alone, writes the table at once or queues.
  cases made : op.update D with
  | none =>
    obtain ⟨table, queue⟩ := StoreOp.apply_none (s := s) made
    constructor
    · intro id
      exact ⟨by rw [table]; exact (ok.entries id).width, by rw [table]; exact (ok.entries id).fits⟩
    · refine ⟨by rw [queue]; exact ok.queue.indexed, fun id => ?_⟩
      rw [Sim.pending, table, queue]
      exact ok.queue.width id
  | some u =>
    cases kind : u.nba with
    | false =>
      rw [StoreOp.apply_blocking legal ok.entries made kind]
      exact ok.setSignal_write _ _ _ _ _
    | true =>
      have queued := StoreOp.apply_nba legal ok.queue ok.entries made kind
      refine ⟨fun id => ⟨?_, ?_⟩, queued.queue⟩
      · rw [queued.table]; exact (ok.entries id).width
      · rw [queued.table]; exact (ok.entries id).fits

end Laws

end Xezim
