import Xezim.WordLaws
import Xezim.TwoState.Exec

/-! Every store helper is one masked update of a signal or of its queued value. -/

namespace Xezim

open Splice KnownBits Function

/-- One write as the simulator's user sees it: bits of one signal, now or after the time step. -/
structure Update where
  /-- Queued until the end of the time step. -/
  nba : Bool
  id : Nat
  lo : Nat
  len : Nat
  val : Nat
  xz : Nat
  deriving DecidableEq, Repr

section Laws

variable [ValueOps] (D : Design)

/-- The update a store call makes, if it is one. -/
def StoreOp.update : StoreOp → Option Update
  | .store id v _ => some ⟨false, id, 0, D.signalWidths id, v.toNat, 0⟩
  | .storeXz id v x =>
    let p := tsScrubTwoState D id v x
    some ⟨false, id, 0, D.signalWidths id, p.1.toNat, p.2.toNat⟩
  | .rangeStoreXz id v x lo hi =>
    let p := tsScrubTwoState D id v x
    some ⟨false, id, lo, hi + 1 - lo, p.1.toNat, p.2.toNat⟩
  | .wideRangeStore id lo hi v x =>
    let p := tsScrubTwoState D id v x
    some ⟨false, id, lo, hi + 1 - lo, p.1.toNat, p.2.toNat⟩
  | .wideRangeFill id lo hi bit =>
    some ⟨false, id, lo, hi + 1 - lo, fillPlane bit (hi + 1 - lo), 0⟩
  | .wideRangeFillXz id lo hi vbit =>
    if D.signalTwoState id = true then some ⟨false, id, lo, hi + 1 - lo, 0, 0⟩
    else some ⟨false, id, lo, hi + 1 - lo, fillPlane vbit (hi + 1 - lo), ones (hi + 1 - lo)⟩
  | .storeNbaVal id val => some ⟨true, id, 0, val.width, val.val, val.xz⟩
  | .storeNba id v w => some ⟨true, id, 0, w, v.toNat, 0⟩
  | .storeNbaXz id v x w => some ⟨true, id, 0, w, v.toNat, x.toNat⟩
  | .rangeStoreNbaXz id lo hi v x => some ⟨true, id, lo, hi + 1 - lo, v.toNat, x.toNat⟩
  | .wideRangeStoreNbaXz id lo hi v x => some ⟨true, id, lo, hi + 1 - lo, v.toNat, x.toNat⟩
  | .wideRangeFillNba id lo hi bit =>
    some ⟨true, id, lo, hi + 1 - lo, fillPlane bit (hi + 1 - lo), 0⟩
  | .covHit _ | .saveSig _ | .saveSigW _ => none

/-- A table entry has its declared width and no bit past it. -/
structure Sim.EntryOk (s : Sim) (id : Nat) : Prop where
  width : (s.signalTable id).width = D.signalWidths id
  fits : (s.signalTable id).Fits

/-- What a store call relies on: its bits lie in the destination and it names it rightly. -/
def StoreOp.Ok : StoreOp → Prop
  | .store id v mask =>
    D.signalWidths id ≤ 64 ∧ mask = xmask (D.signalWidths id) ∧ Fits (D.signalWidths id) v
  | .storeXz id v x =>
    D.signalWidths id ≤ 64 ∧ Fits (D.signalWidths id) v ∧ Fits (D.signalWidths id) x
  | .rangeStoreXz id _ _ lo hi =>
    D.signalWidths id ≤ 64 ∧ (hi < lo ∨ hi < D.signalWidths id)
  | .wideRangeStore _ lo hi _ _ => hi + 1 - lo ≤ 64
  | .storeNbaVal id val => val.width = D.signalWidths id
  | .storeNba id v w => w = D.signalWidths id ∧ w ≤ 64 ∧ Fits w v
  | .storeNbaXz id v x w => w = D.signalWidths id ∧ 1 ≤ w ∧ w ≤ 64 ∧ Fits w v ∧ Fits w x
  | .rangeStoreNbaXz id _ hi _ _ => D.signalWidths id ≤ 64 ∧ hi < 64
  | .wideRangeStoreNbaXz _ lo hi _ _ => hi + 1 - lo ≤ 64
  | _ => True

variable {D} {s : Sim}

omit [ValueOps] in
/-- Replacing an entry by itself changes nothing. -/
@[simp] theorem Sim.setSignal_self (s : Sim) (id : Nat) : s.setSignal id (s.signalTable id) = s := by
  simp [Sim.setSignal]

omit [ValueOps] in
/-- Replacing an entry by planes it already has changes nothing. -/
theorem Sim.setSignal_planes_self (s : Sim) (id : Nat) {a x : Nat}
    (val : a = (s.signalTable id).val) (unk : x = (s.signalTable id).xz) :
    s.setSignal id { s.signalTable id with val := a, xz := x } = s := by
  subst val unk
  exact Sim.setSignal_self s id

variable [LawfulValueOps]

/-- Reading a narrow entry gives its planes. -/
theorem Sim.EntryOk.sigPlanes {id : Nat} (ok : s.EntryOk D id) (narrow : D.signalWidths id ≤ 64) :
    (s.sigPlanes id).1.toNat = (s.signalTable id).val ∧
      (s.sigPlanes id).2.toNat = (s.signalTable id).xz := by
  rw [Sim.sigPlanes, LawfulValueOps.rawBits_eq]
  exact Value.planes_toNat ok.fits (by rw [ok.width]; exact narrow)

/-- Writing a narrow value in place replaces both planes. -/
theorem writeInline_eq {id : Nat} {v : Value} (narrow : v.width ≤ 64) (a x : Word) :
    writeInline D id v a x = { v with val := a.toNat, xz := x.toNat } := by
  simp only [writeInline, LawfulValueOps.setInlineBits_narrow v a x narrow]

/-- A whole store of a known value is one masked update of the entry. -/
theorem tsStore_eq {id : Nat} (ok : s.EntryOk D id) (narrow : D.signalWidths id ≤ 64) {v : Word}
    (small : Fits (D.signalWidths id) v) :
    tsStore D s id v (xmask (D.signalWidths id)) =
      s.setSignal id ((s.signalTable id).write 0 (D.signalWidths id) v.toNat 0) := by
  have fits := ok.fits
  rw [← ok.width] at narrow small ⊢
  have planes := Value.planes_toNat fits narrow
  rw [Value.write_whole fits (toNat_lt_of_fits small) (Nat.two_pow_pos _)]
  simp only [tsStore, LawfulValueOps.rawBits_eq, LawfulValueOps.setInlineBits_narrow _ _ _ narrow]
  -- The comparison under the mask is one of the whole planes, as no bit stands past the width.
  have valFits : Fits (s.signalTable id).width (s.signalTable id).planes.1 :=
    fits_of_toNat_lt (by rw [planes.1]; exact fits.1)
  have unkFits : Fits (s.signalTable id).width (s.signalTable id).planes.2 :=
    fits_of_toNat_lt (by rw [planes.2]; exact fits.2)
  rw [and_xmask_of_fits valFits, and_xmask_of_fits unkFits]
  split
  · rfl
  · rename_i same
    simp only [not_or, not_not] at same
    refine (Sim.setSignal_planes_self s id ?_ ?_).symm
    · rw [same.1, planes.1]
    · rw [← planes.2, same.2]; rfl

/-- A whole store of both planes is one masked update of the entry. -/
theorem tsStoreXz_eq {id : Nat} (ok : s.EntryOk D id) (narrow : D.signalWidths id ≤ 64)
    {v x : Word} (val : Fits (D.signalWidths id) (tsScrubTwoState D id v x).1)
    (unk : Fits (D.signalWidths id) (tsScrubTwoState D id v x).2) :
    tsStoreXz D s id v x =
      s.setSignal id ((s.signalTable id).write 0 (D.signalWidths id)
        (tsScrubTwoState D id v x).1.toNat (tsScrubTwoState D id v x).2.toNat) := by
  -- An unchanged pair of planes is not stored, which leaves the entry as the write would.
  have fits := ok.fits
  rw [← ok.width] at narrow val unk ⊢
  have planes := Value.planes_toNat fits narrow
  rw [Value.write_whole fits (toNat_lt_of_fits val) (toNat_lt_of_fits unk)]
  simp only [tsStoreXz, LawfulValueOps.rawBits_eq, writeInline_eq narrow]
  split
  · rename_i same
    refine (Sim.setSignal_planes_self s id ?_ ?_).symm
    · rw [same.1, planes.1]
    · rw [same.2, planes.2]
  · rfl

omit [ValueOps] [LawfulValueOps] in
/-- Composing a range into a word splices the numbers. -/
theorem toNat_compose (baseV baseX srcV srcX : Word) (lo hi : Nat) (top : hi < lo ∨ hi < 64) :
    (composeInlineRangeBits baseV baseX srcV srcX lo hi).1.toNat =
        splice baseV.toNat lo (hi + 1 - lo) srcV.toNat ∧
      (composeInlineRangeBits baseV baseX srcV srcX lo hi).2.toNat =
        splice baseX.toNat lo (hi + 1 - lo) srcX.toNat := by
  by_cases crossed : hi < lo
  · simp [composeInlineRangeBits, crossed, show hi + 1 - lo = 0 by omega]
  · have ordered : lo ≤ hi := by omega
    -- Both planes are composed by the same mask, so one bit argument serves them.
    have plane : ∀ base src : Word,
        ((base &&& ~~~(shl (xmask (hi - lo + 1)) lo)) |||
          shl (src &&& xmask (hi - lo + 1)) lo).toNat =
          splice base.toNat lo (hi + 1 - lo) src.toNat := by
      intro base src
      refine plane_ext fun i => ?_
      simp only [testBit_toNat, BitVec.getLsbD_or, BitVec.getLsbD_and, BitVec.getLsbD_not,
        getLsbD_shl, getLsbD_xmask, testBit_splice, Nat.mod_eq_of_lt (show lo < 64 by omega)]
      by_cases below : lo ≤ i
      · by_cases above : i < lo + (hi + 1 - lo)
        · simp [below, above, show i < 64 by omega, show i - lo < hi - lo + 1 by omega,
            show i - lo < 64 by omega]
        · by_cases inside : i < 64
          · simp [below, above, inside, show ¬ i - lo < hi - lo + 1 by omega]
          · simp [below, above, inside, BitVec.getLsbD_of_ge base i (by omega)]
      · have inside : i < 64 := by omega
        simp [below, inside]
    simp only [composeInlineRangeBits, if_neg crossed]
    exact ⟨plane baseV srcV, plane baseX srcX⟩

/-- A store into a window of a narrow entry is one masked update of it. -/
theorem tsRangeStoreXz_eq {id : Nat} (ok : s.EntryOk D id) (narrow : D.signalWidths id ≤ 64)
    {lo hi : Nat} (top : hi < lo ∨ hi < D.signalWidths id) (v x : Word) :
    tsRangeStoreXz D s id v x lo hi =
      s.setSignal id ((s.signalTable id).write lo (hi + 1 - lo)
        (tsScrubTwoState D id v x).1.toNat (tsScrubTwoState D id v x).2.toNat) := by
  -- The composed word is the range spliced into the entry.
  have fits := ok.fits
  rw [← ok.width] at narrow top
  have planes := Value.planes_toNat fits narrow
  have composed := toNat_compose (s.signalTable id).planes.1 (s.signalTable id).planes.2
    (tsScrubTwoState D id v x).1 (tsScrubTwoState D id v x).2 lo hi (by omega)
  rw [planes.1, planes.2] at composed
  have reach : min (hi + 1 - lo) ((s.signalTable id).width - lo) = hi + 1 - lo := by omega
  simp only [tsRangeStoreXz, LawfulValueOps.rawBits_eq, writeInline_eq narrow, Value.write, reach,
    ← composed.1, ← composed.2]
  split
  · rename_i same
    refine (Sim.setSignal_planes_self s id ?_ ?_).symm
    · rw [same, planes.1]
    · rw [same, planes.2]
  · rfl

/-- A store into a window of a wide entry is one masked update of it. -/
theorem tsWideRangeStore_eq {id lo hi : Nat} (short : hi + 1 - lo ≤ 64) (v x : Word) :
    tsWideRangeStore D s id lo hi v x =
      s.setSignal id ((s.signalTable id).write lo (hi + 1 - lo)
        (tsScrubTwoState D id v x).1.toNat (tsScrubTwoState D id v x).2.toNat) := by
  simp only [tsWideRangeStore, LawfulValueOps.splice_planes _ _ _ _ _ short]
  split
  · rfl
  · rename_i same
    simp only [decide_eq_true_eq, ne_eq, not_not] at same
    rw [same, Sim.setSignal_self]

/-- The word-at-a-time fill is one masked update, and a fill that moved no bit kept the value. -/
theorem spliceFill_eq (fillV fillX : Nat → Word) {a b : Nat}
    (val : ∀ n, n ≤ 64 → ∀ i, i < n → (fillV n).getLsbD i = decide (a ≠ 0))
    (unk : ∀ n, n ≤ 64 → ∀ i, i < n → (fillX n).getLsbD i = decide (b ≠ 0)) (fuel : Nat) :
    ∀ (v : Value) (pos stop : Nat), stop - pos ≤ fuel →
      (spliceFill fillV fillX fuel v pos stop).1 =
          v.write pos (stop - pos) (fillPlane a (stop - pos)) (fillPlane b (stop - pos)) ∧
        ((spliceFill fillV fillX fuel v pos stop).2 = false →
          (spliceFill fillV fillX fuel v pos stop).1 = v) := by
  -- One turn writes a chunk, and the remaining turns the rest of the window.
  induction fuel with
  | zero =>
    intro v pos stop enough
    have nothing : stop - pos = 0 := by omega
    simp [spliceFill, nothing, Value.write]
  | succ fuel ih =>
    intro v pos stop enough
    by_cases more : pos < stop
    · have chunk : min (stop - pos) 64 ≤ 64 := by omega
      obtain ⟨written, kept⟩ := ih
        (v.write pos (min (stop - pos) 64) (fillV (min (stop - pos) 64)).toNat
          (fillX (min (stop - pos) 64)).toNat) (pos + min (stop - pos) 64) stop (by omega)
      have joined := v.write_fill_append pos (min (stop - pos) 64)
        (stop - (pos + min (stop - pos) 64)) a b
        (fun i inside => val _ chunk i inside) (fun i inside => unk _ chunk i inside)
      have total : min (stop - pos) 64 + (stop - (pos + min (stop - pos) 64)) = stop - pos := by
        omega
      rw [total] at joined
      simp only [spliceFill, if_pos more, LawfulValueOps.splice_planes _ _ _ _ _ chunk]
      refine ⟨by rw [written, joined], fun still => ?_⟩
      simp only [Bool.or_eq_false_iff, decide_eq_false_iff_not, ne_eq, not_not] at still
      rw [kept still.2, still.1]
    · have nothing : stop - pos = 0 := by omega
      simp [spliceFill, more, nothing, Value.write]

omit [ValueOps] [LawfulValueOps] in
/-- A fill word holds its bit at every position. -/
theorem getLsbD_fillWord (bit i : Nat) (inside : i < 64) :
    (fillWord bit).getLsbD i = decide (bit ≠ 0) := by
  unfold fillWord
  split
  · rename_i set
    rw [BitVec.getLsbD_allOnes]
    simp [inside, set]
  · rename_i clear
    simp [clear]

/-- A fill with a known bit is one masked update. -/
theorem tsWideRangeFill_eq (s : Sim) (id lo hi bit : Nat) :
    tsWideRangeFill s id lo hi bit =
      s.setSignal id ((s.signalTable id).write lo (hi + 1 - lo)
        (fillPlane bit (hi + 1 - lo)) 0) := by
  -- The fill splices one bit at every position of the range.
  have fill := spliceFill_eq (fun _ => fillWord bit) (fun _ => 0#64)
    (a := bit) (b := 0) (fun _ _ i _ => getLsbD_fillWord bit i (by omega))
    (fun _ _ i _ => by simp) (hi + 1) (s.signalTable id) lo (hi + 1) (by omega)
  have blank : fillPlane 0 (hi + 1 - lo) = 0 := by simp [fillPlane]
  rw [blank] at fill
  simp only [tsWideRangeFill]
  split
  · rw [fill.1]
  · rename_i still
    rw [← fill.1, fill.2 (by simpa using still), Sim.setSignal_self]

/-- A fill with x or z bits is one masked update, one with zeros for a two-state destination. -/
theorem tsWideRangeFillXz_eq (s : Sim) (id lo hi vbit : Nat) :
    tsWideRangeFillXz D s id lo hi vbit =
      s.setSignal id ((s.signalTable id).write lo (hi + 1 - lo)
        (if D.signalTwoState id = true then 0 else fillPlane vbit (hi + 1 - lo))
        (if D.signalTwoState id = true then 0 else ones (hi + 1 - lo))) := by
  -- A two-state signal takes zeros for the x bits.
  unfold tsWideRangeFillXz
  split
  · rw [tsWideRangeFill_eq]
    simp [fillPlane]
  · have fill := spliceFill_eq (fun n => fillWord vbit &&& xmask n) (fun n => xmask n)
      (a := vbit) (b := 1)
      (fun n _ i inside => by
        rw [BitVec.getLsbD_and, getLsbD_fillWord vbit i (by omega), getLsbD_xmask]
        simp [inside, show i < 64 by omega])
      (fun n _ i inside => by
        rw [getLsbD_xmask]
        simp [inside, show i < 64 by omega]) (hi + 1) (s.signalTable id) lo (hi + 1) (by omega)
    have full : fillPlane 1 (hi + 1 - lo) = ones (hi + 1 - lo) := by simp [fillPlane]
    rw [full] at fill
    simp only
    split
    · rw [fill.1]
    · rename_i still
      rw [← fill.1, fill.2 (by simpa using still), Sim.setSignal_self]

omit [ValueOps] [LawfulValueOps] in
/-- Scrubbing keeps both planes within the width they fit in. -/
theorem fits_scrub {id w : Nat} {v x : Word} (val : Fits w v) (unk : Fits w x) :
    Fits w (tsScrubTwoState D id v x).1 ∧ Fits w (tsScrubTwoState D id v x).2 := by
  unfold tsScrubTwoState
  split
  · exact ⟨val.and_left _, fits_zero w⟩
  · exact ⟨val, unk⟩

omit [ValueOps] [LawfulValueOps] in
/-- A known store has nothing to scrub. -/
@[simp] theorem tsScrubTwoState_known (id : Nat) (v : Word) :
    tsScrubTwoState D id v 0#64 = (v, 0#64) := by
  simp [tsScrubTwoState]

/-- A blocking store call is its update of the signal table, and touches nothing else. -/
theorem StoreOp.apply_blocking {op : StoreOp} {u : Update} (ok : op.Ok D)
    (entries : ∀ id, s.EntryOk D id) (made : op.update D = some u) (now : u.nba = false) :
    op.apply D s = s.setSignal u.id ((s.signalTable u.id).write u.lo u.len u.val u.xz) := by
  -- One case for each store; the queueing ones make no blocking update.
  cases op with
  | store id v mask =>
    obtain ⟨narrow, rfl, small⟩ := ok
    cases made
    exact tsStore_eq (entries id) narrow small
  | storeXz id v x =>
    obtain ⟨narrow, val, unk⟩ := ok
    cases made
    exact tsStoreXz_eq (entries id) narrow (fits_scrub val unk).1 (fits_scrub val unk).2
  | rangeStoreXz id v x lo hi =>
    obtain ⟨narrow, top⟩ := ok
    cases made
    exact tsRangeStoreXz_eq (entries id) narrow top v x
  | wideRangeStore id lo hi v x =>
    cases made
    exact tsWideRangeStore_eq ok v x
  | wideRangeFill id lo hi bit =>
    cases made
    exact tsWideRangeFill_eq s id lo hi bit
  | wideRangeFillXz id lo hi vbit =>
    simp only [StoreOp.apply, tsWideRangeFillXz_eq]
    simp only [StoreOp.update] at made
    split at made <;> cases made <;> simp [*]
  | storeNbaVal | storeNba | storeNbaXz | rangeStoreNbaXz | wideRangeStoreNbaXz
  | wideRangeFillNba => cases made; cases now
  | covHit | saveSig | saveSigW => cases made

/-- The updates a run made, in order. -/
def Cfg.updates {ρ : Type} (D : Design) (c : Cfg ρ) : List Update :=
  c.ops.filterMap (StoreOp.update D)

omit [LawfulValueOps] in
/-- A step adds its store call's update, if it makes one. -/
theorem Cfg.updates_after {ρ : Type} (c : Cfg ρ) (pc : Nat) (r : ρ) (op : Option StoreOp) :
    (c.after D pc r op).updates D = c.updates D ++ (op.bind (StoreOp.update D)).toList := by
  cases op with
  | none => simp [Cfg.updates, Cfg.after]
  | some op =>
    cases made : op.update D with
    | none => simp [Cfg.updates, Cfg.after, made]
    | some u => simp [Cfg.updates, Cfg.after, made]

end Laws

end Xezim
