import Xezim.TwoState.LoweredLaws
import Xezim.TwoState.PlaneCovers

/-! One step of the x-plane executor covers the two-state step on every completion. -/

namespace Xezim

open Splice KnownBits Function

/-- Every value covers itself. -/
theorem Value.Covers.refl (v : Value) : v.Covers v := ⟨rfl, fun _ _ clear => ⟨clear, rfl⟩⟩

/-- A completion is covered by what it completes. -/
theorem Value.Completes.covers {con abs : Value} (completes : con.Completes abs) :
    abs.Covers con := by
  obtain ⟨clean, width, known⟩ := completes
  refine ⟨width.symm, fun i inside clear => ⟨?_, known i inside clear⟩⟩
  rw [show con.xz = 0 from clean]
  exact Nat.zero_testBit i

/-- Between values that stay inside their widths, covering speaks of every bit. -/
theorem Value.Covers.bit {abs con : Value} (covers : abs.Covers con) (fitsAbs : abs.Fits)
    (fitsCon : con.Fits) {i : Nat} (known : abs.xz.testBit i = false) :
    con.xz.testBit i = false ∧ abs.val.testBit i = con.val.testBit i := by
  by_cases inside : i < abs.width
  · exact (covers.2 i inside known).imp_right Eq.symm
  · -- No value has a bit past its width.
    have width := covers.1
    rw [testBit_of_lt fitsAbs.1 (by omega), testBit_of_lt fitsCon.1 (by omega),
      testBit_of_lt fitsCon.2 (by omega)]
    exact ⟨rfl, rfl⟩

/-- Planes cover a pair of planes when every bit they know is known and equal there. -/
def CoversPair (p : Planes 64) (c : Word × Word) : Prop :=
  ∀ i, p.x.getLsbD i = false → c.2.getLsbD i = false ∧ p.v.getLsbD i = c.1.getLsbD i

/-- Covering a pair of planes covers its value plane. -/
theorem CoversPair.covers {p : Planes 64} {c : Word × Word} (pair : CoversPair p c) :
    Covers p c.1 := fun i known => (pair i known).2

/-- Planes without an unknown bit cover only themselves. -/
theorem CoversPair.eq_of_known {p : Planes 64} {c : Word × Word} (pair : CoversPair p c)
    (clear : p.x = 0#64) : c.2 = 0#64 ∧ p.v = c.1 := by
  refine ⟨BitVec.eq_of_getLsbD_eq fun i _ => ?_, pair.covers.eq_of_known clear⟩
  rw [(pair i (by simp [clear])).1, BitVec.getLsbD_zero]

/-- Masking both sides. -/
theorem CoversPair.and_mask {p : Planes 64} {c : Word × Word} (pair : CoversPair p c) (m : Word) :
    CoversPair ⟨p.v &&& m, p.x &&& m⟩ (c.1 &&& m, c.2 &&& m) := by
  intro i known
  simp only [BitVec.getLsbD_and, Bool.and_eq_false_iff] at known ⊢
  rcases known with known | outside
  · have bit := pair i known
    simp [bit.1, bit.2]
  · simp [outside]

/-- The low words of a covered value. -/
theorem Value.Covers.planes {abs con : Value} (covers : abs.Covers con) (fitsAbs : abs.Fits)
    (fitsCon : con.Fits) : CoversPair (pair abs.planes) con.planes := by
  intro i known
  simp only [Value.planes, pair, BitVec.getLsbD_ofNat] at known ⊢
  by_cases word : i < 64
  · have bit := covers.bit fitsAbs fitsCon (by simpa [word] using known)
    simp [bit.1, bit.2]
  · simp [word]

section Reads

variable [ValueOps] [LawfulValueOps] {D : Design} {s sc : Sim}

/-- Every signal of one simulator covers the other's. -/
def Sim.TableCovers (s sc : Sim) : Prop := ∀ id, (s.signalTable id).Covers (sc.signalTable id)

/-- A read signal covers what the completion reads. -/
theorem Sim.TableCovers.sigX (table : s.TableCovers sc) (entries : ∀ id, s.EntryOk D id)
    (entriesC : ∀ id, sc.EntryOk D id) (sig : Nat) :
    CoversPair (s.sigX sig) (sc.sigPlanes sig) := by
  rw [Sim.sigX, Sim.sigPlanes, Sim.sigPlanes, LawfulValueOps.rawBits_eq, LawfulValueOps.rawBits_eq]
  exact (table sig).planes (entries sig).fits (entriesC sig).fits

/-- A read slice covers what the completion reads. -/
theorem Value.Covers.rawBitsSlice {abs con : Value} (covers : abs.Covers con)
    (fitsAbs : abs.Fits) (fitsCon : con.Fits) (lo : Nat) {w : Nat} (word : w ≤ 64) :
    CoversPair (pair (Xezim.rawBitsSlice abs lo w)) (Xezim.rawBitsSlice con lo w) := by
  unfold Xezim.rawBitsSlice
  rw [← covers.1]
  split
  · -- A narrow value is shifted and masked as one word.
    rw [LawfulValueOps.rawBits_eq, LawfulValueOps.rawBits_eq]
    have whole := covers.planes fitsAbs fitsCon
    refine CoversPair.and_mask (p := ⟨shr abs.planes.1 lo, shr abs.planes.2 lo⟩)
      (c := (shr con.planes.1 lo, shr con.planes.2 lo)) (fun i known => ?_) (xmask w)
    simp only [getLsbD_shr] at known ⊢
    exact whole _ known
  · -- A wide one is read through its window.
    rw [LawfulValueOps.slice_planes _ _ _ word fitsAbs, LawfulValueOps.slice_planes _ _ _ word fitsCon]
    intro i known
    simp only [pair, BitVec.getLsbD_ofNat, testBit_window] at known ⊢
    by_cases inside : i < 64 ∧ i < w
    · have bit := covers.bit (i := lo + i) fitsAbs fitsCon (by simpa [inside] using known)
      simp [bit.1, bit.2]
    · simp only [not_and, not_lt] at inside
      by_cases word : i < 64
      · simp [show ¬ i < w by have := inside word; omega]
      · simp [word]

end Reads

/-- One update covers another: the same bits of the same signal, equal wherever it knows them. -/
def Update.Covers (abs con : Update) : Prop :=
  (abs.nba = con.nba ∧ abs.id = con.id ∧ abs.lo = con.lo ∧ abs.len = con.len) ∧
    ∀ i, i < abs.len → abs.xz.testBit i = false →
      con.xz.testBit i = false ∧ con.val.testBit i = abs.val.testBit i

/-- Every update covers itself. -/
theorem Update.Covers.refl (u : Update) : u.Covers u :=
  ⟨⟨rfl, rfl, rfl, rfl⟩, fun _ _ clear => ⟨clear, rfl⟩⟩

/-- Updates of the same bits by covering planes. -/
theorem Update.covers_of_pair {p : Planes 64} {c : Word × Word} (pair : CoversPair p c)
    (nba : Bool) (id lo len : Nat) :
    Update.Covers ⟨nba, id, lo, len, p.v.toNat, p.x.toNat⟩
      ⟨nba, id, lo, len, c.1.toNat, c.2.toNat⟩ :=
  ⟨⟨rfl, rfl, rfl, rfl⟩, fun i _ clear => (pair i clear).imp_right Eq.symm⟩

/-- Updates of the same bits by planes and a known word they cover. -/
theorem Update.covers_of_covers {p : Planes 64} {u : Word} (covers : KnownBits.Covers p u)
    (nba : Bool) (id lo len : Nat) :
    Update.Covers ⟨nba, id, lo, len, p.v.toNat, p.x.toNat⟩ ⟨nba, id, lo, len, u.toNat, 0⟩ :=
  ⟨⟨rfl, rfl, rfl, rfl⟩, fun i _ clear => ⟨Nat.zero_testBit i, (covers i clear).symm⟩⟩

/-- An all-x update covers every update of the same signal. -/
theorem Update.covers_new [ValueOps] [LawfulValueOps] {w : Nat} (some : 1 ≤ w) (id a x : Nat) :
    Update.Covers
      ⟨true, id, 0, (ValueOps.new (max w 1)).width, (ValueOps.new (max w 1)).val,
        (ValueOps.new (max w 1)).xz⟩ ⟨true, id, 0, w, a, x⟩ := by
  have whole : max w 1 = w := by omega
  obtain ⟨width, _, unknown⟩ := LawfulValueOps.new_planes w
  rw [whole, width, unknown]
  refine ⟨⟨rfl, rfl, rfl, rfl⟩, fun i inside clear => ?_⟩
  simp only [testBit_ones, decide_eq_false_iff_not] at clear
  exact absurd inside clear

/-- A blocking store drops an x or z bit, as its destination holds none. -/
def StoreOp.Scrubs (D : Design) : StoreOp → Prop
  | .storeXz id _ x | .rangeStoreXz id _ x _ _ | .wideRangeStore id _ _ _ x =>
    D.signalTwoState id = true ∧ x ≠ 0#64
  | _ => False

/-- A store of a literal, which does not depend on any operand. -/
def TsInsn.isLiteralStore : TsInsn → Bool
  | .constStoreX .. | .rangeStoreX _ | .rangeStoreXW _ | .rangeFillXW .. => true
  | _ => false

/-- What a store without anything to drop writes. -/
theorem tsScrubTwoState_kept {D : Design} {id : Nat} {v x : Word}
    (kept : ¬ (D.signalTwoState id = true ∧ x ≠ 0#64)) : tsScrubTwoState D id v x = (v, x) := by
  unfold tsScrubTwoState
  rw [if_neg fun both => kept ⟨both.2, both.1⟩]

section Step

variable [ValueOps] {D : Design} {s sc : Sim} {ws : RegWidths} {rx : XRegs} {r : Regs}

/-- A dynamic store knows its index. -/
def TsInsn.IndexKnown (s : Sim) (rx : XRegs) : TsInsn → Prop
  | .bitStoreDyn _ i .. | .bitStoreNbaDyn _ i .. | .rangeStoreDyn _ i .. | .rangeStoreNbaDyn _ i .. =>
    (rx i).x = 0#64
  | .elemStore op | .elemStoreNba op => (rx op.idx).x = 0#64
  | .elemStoreNbaFromSig f => (setX rx f.dl (s.sigX f.sig) f.op.idx).x = 0#64
  | _ => True

/-- The instruction stores no x or z bit it computed into a signal that drops it. -/
def TsInsn.KeepsUnknown (D : Design) (s : Sim) (rx : XRegs) (insn : TsInsn) : Prop :=
  insn.isLiteralStore = false → ∀ rx' op, xStep D s false rx insn = .next rx' (some op) →
    ¬ op.Scrubs D

/-- The x-plane executor's step covers a two-state step that does not stop. -/
def TsOutcome.CoveredBy (D : Design) : TsOutcome → XOutcome → Prop
  | .next r op, xout => ∃ rx opx, xout = .next rx opx ∧ (∀ d, Covers (rx d) (r d)) ∧
      Option.Rel Update.Covers (opx.bind (StoreOp.update D)) (op.bind (StoreOp.update D)) ∧
      ∀ o, opx = some o → o.Ok D
  | _, _ => True

omit [ValueOps] in
/-- Writing a covered word into covered registers. -/
theorem covers_setX (regs : ∀ d, Covers (rx d) (r d)) {p : Planes 64} {v : Word}
    (covers : Covers p v) (d : Nat) : ∀ d', Covers (setX rx d p d') (setReg r d v d') := by
  intro d'
  by_cases same : d' = d
  · subst same
    simpa [setX, setReg] using covers
  · simpa [setX, setReg, update_of_ne same] using regs d'

namespace TsOutcome

omit [ValueOps] in
/-- Writing a register on both sides. -/
theorem coveredBy_set (regs : ∀ d, Covers (rx d) (r d)) {d : Nat} {v : Word} {p : Planes 64}
    (covers : Covers p v) : (TsOutcome.set r d v).CoveredBy D (.set rx d p) :=
  ⟨_, none, rfl, covers_setX regs covers d, .none, by simp⟩

omit [ValueOps] in
/-- Making covering store calls on both sides. -/
theorem coveredBy_store (regs : ∀ d, Covers (rx d) (r d)) {op opx : StoreOp} {u ux : Update}
    (con : op.update D = some u) (abs : opx.update D = some ux) (covers : ux.Covers u)
    (legal : opx.Ok D) : (TsOutcome.next r (some op)).CoveredBy D (.next rx (some opx)) := by
  refine ⟨rx, some opx, rfl, regs, ?_, by rintro o ⟨⟩; exact legal⟩
  simp only [Option.bind_some, con, abs]
  exact .some covers

omit [ValueOps] in
/-- Storing a whole narrow signal on both sides. -/
theorem coveredBy_storeXz (regs : ∀ d, Covers (rx d) (r d)) {p : Planes 64} {u : Word}
    (covers : Covers p u) {id : Nat} {m : Word} (narrow : D.signalWidths id ≤ 64)
    (whole : m = xmask (D.signalWidths id))
    (kept : ¬ (StoreOp.storeXz id (p.v &&& m) (p.x &&& m)).Scrubs D) :
    (TsOutcome.next r (some (.store id (u &&& m) m))).CoveredBy D
      (.next rx (some (.storeXz id (p.v &&& m) (p.x &&& m)))) := by
  subst whole
  refine coveredBy_store regs rfl (by rw [StoreOp.update, tsScrubTwoState_kept kept])
    (Update.covers_of_covers (covers.and_mask _) false id 0 _) ⟨narrow, ?_, ?_⟩
  · exact (fits_xmask _).and_right _
  · exact (fits_xmask _).and_right _

omit [ValueOps] in
/-- Storing a window of a narrow signal on both sides. -/
theorem coveredBy_rangeStoreXz (regs : ∀ d, Covers (rx d) (r d)) {v x u : Word}
    (covers : Covers ⟨v, x⟩ u) {id lo hi : Nat}
    (legal : (StoreOp.rangeStoreXz id v x lo hi).Ok D)
    (kept : ¬ (StoreOp.rangeStoreXz id v x lo hi).Scrubs D) :
    (TsOutcome.next r (some (.rangeStoreXz id u 0#64 lo hi))).CoveredBy D
      (.next rx (some (.rangeStoreXz id v x lo hi))) :=
  coveredBy_store regs (by rw [StoreOp.update, tsScrubTwoState_known]; rfl)
    (by rw [StoreOp.update, tsScrubTwoState_kept kept])
    (Update.covers_of_covers covers false id lo _) legal

omit [ValueOps] in
/-- Storing a window of a wide signal on both sides. -/
theorem coveredBy_wideRangeStore (regs : ∀ d, Covers (rx d) (r d)) {v x u : Word}
    (covers : Covers ⟨v, x⟩ u) {id lo hi : Nat}
    (legal : (StoreOp.wideRangeStore id lo hi v x).Ok D)
    (kept : ¬ (StoreOp.wideRangeStore id lo hi v x).Scrubs D) :
    (TsOutcome.next r (some (.wideRangeStore id lo hi u 0#64))).CoveredBy D
      (.next rx (some (.wideRangeStore id lo hi v x))) :=
  coveredBy_store regs (by rw [StoreOp.update, tsScrubTwoState_known]; rfl)
    (by rw [StoreOp.update, tsScrubTwoState_kept kept])
    (Update.covers_of_covers covers false id lo _) legal

omit [ValueOps] in
/-- Storing a slice at a run-time offset on both sides. -/
theorem coveredBy_rangeStoreDyn (regs : ∀ d, Covers (rx d) (r d)) {v x u : Word}
    (covers : Covers ⟨v, x⟩ u) {nba : Bool} {sig w sw : Nat} {lo : Word}
    (legal : (rangeStoreDynOp nba sig lo v x w sw).Ok D)
    (kept : ¬ (rangeStoreDynOp nba sig lo v x w sw).Scrubs D) :
    (TsOutcome.next r (some (rangeStoreDynOp nba sig lo u 0#64 w sw))).CoveredBy D
      (.next rx (some (rangeStoreDynOp nba sig lo v x w sw))) := by
  -- The helper is picked by the signal's width and by when the write lands.
  unfold rangeStoreDynOp at legal kept ⊢
  cases nba <;> by_cases wide : sw > 64 <;> simp only [wide, decide_true, decide_false] at legal kept ⊢
  · exact coveredBy_wideRangeStore regs covers legal kept
  · exact coveredBy_rangeStoreXz regs covers legal kept
  · exact coveredBy_store regs rfl rfl (Update.covers_of_covers covers _ _ _ _) legal
  · exact coveredBy_store regs rfl rfl (Update.covers_of_covers covers _ _ _ _) legal

omit [ValueOps] in
/-- Storing a bit at a run-time position on both sides. -/
theorem coveredBy_bitStoreDyn (regs : ∀ d, Covers (rx d) (r d)) {v x u : Word}
    (covers : Covers ⟨v, x⟩ u) {nba : Bool} {sig w : Nat} {idx : Word}
    (legal : (bitStoreDynOp nba sig idx v x w).Ok D)
    (kept : ¬ (bitStoreDynOp nba sig idx v x w).Scrubs D) :
    (TsOutcome.next r (some (bitStoreDynOp nba sig idx u 0#64 w))).CoveredBy D
      (.next rx (some (bitStoreDynOp nba sig idx v x w))) := by
  unfold bitStoreDynOp at legal kept ⊢
  cases nba <;> by_cases wide : w > 64 <;> simp only [wide, decide_true, decide_false] at legal kept ⊢
  · exact coveredBy_wideRangeStore regs covers legal kept
  · exact coveredBy_rangeStoreXz regs covers legal kept
  · exact coveredBy_store regs rfl rfl (Update.covers_of_covers covers _ _ _ _) legal
  · exact coveredBy_store regs rfl rfl (Update.covers_of_covers covers _ _ _ _) legal

omit [ValueOps] in
/-- Making the same store call on both sides. -/
theorem coveredBy_same (regs : ∀ d, Covers (rx d) (r d)) (op : Option StoreOp)
    (legal : ∀ o, op = some o → o.Ok D) : (TsOutcome.next r op).CoveredBy D (.next rx op) := by
  refine ⟨rx, op, rfl, regs, ?_, legal⟩
  cases op.bind (StoreOp.update D) with
  | none => exact .none
  | some u => exact .some (.refl u)

omit [ValueOps] in
/-- A load goes on only with a known word. -/
theorem coveredBy_load {p : Word × Word} {k : Word → TsOutcome} {xout : XOutcome}
    (go : (k p.1).CoveredBy D xout) : (TsOutcome.load p k).CoveredBy D xout := by
  unfold TsOutcome.load
  split
  · trivial
  · exact go

end TsOutcome

variable [LawfulValueOps]

open TsOutcome (coveredBy_set coveredBy_store coveredBy_same coveredBy_load)

-- Both steps are unfolded at one instruction a time.
attribute [local simp] xStep in
/-- One instruction: what the two-state executor goes on with is covered by the x-plane step. -/
theorem xStep_coversTs {insn : TsInsn} (poll : Bool) (straight : insn.isCtrl = false)
    (checks : insn.Checks D ws) (holds : ws.Holds r) (regs : ∀ d, Covers (rx d) (r d))
    (table : s.TableCovers sc) (entries : ∀ id, s.EntryOk D id)
    (entriesC : ∀ id, sc.EntryOk D id) (index : insn.IndexKnown s rx)
    (keeps : insn.KeepsUnknown D s rx) :
    (tsStep sc poll r insn).CoveredBy D (xStep D s poll rx insn) := by
  -- What a signal read gives on both sides.
  have sigs : ∀ sig, Covers (s.sigX sig) (sc.sigPlanes sig).1 := fun sig =>
    (table.sigX entries entriesC sig).covers
  have slices : ∀ sig lo w, w ≤ 64 → Covers (pair (rawBitsSlice (s.signalTable sig) lo w))
      (rawBitsSlice (sc.signalTable sig) lo w).1 := fun sig lo w word =>
    ((table sig).rawBitsSlice (entries sig).fits (entriesC sig).fits lo word).covers
  have truths : ∀ d, Admits (t3 (rx d)) (r d != 0#64) := fun d => admits_t3 (regs d)
  cases insn <;> simp only [tsStep, xStep]
  case loadSig d sig => exact coveredBy_load (coveredBy_set regs (sigs sig))
  case const d v => exact coveredBy_set regs (covers_self v)
  case sigBit d sig bit => exact coveredBy_load (coveredBy_set regs (covers_sliceP (sigs sig) _ _))
  case sigRange d sig lo m => exact coveredBy_load (coveredBy_set regs (covers_sliceP (sigs sig) _ _))
  case sigBitW d sig bit => exact coveredBy_load (coveredBy_set regs (slices sig bit 1 (by decide)))
  case sigRangeW d sig lo w m =>
    exact coveredBy_load (coveredBy_set regs ((slices sig lo w checks).and_mask m))
  case bit d src bit => exact coveredBy_set regs (covers_sliceP (regs src) _ _)
  case range d src lo m => exact coveredBy_set regs (covers_sliceP (regs src) _ _)
  case xor d a b => exact coveredBy_set regs (covers_xorP (regs a) (regs b))
  case and d a b => exact coveredBy_set regs (covers_andP (regs a) (regs b))
  case or d a b => exact coveredBy_set regs (covers_orP (regs a) (regs b))
  case sel d c a b m =>
    obtain ⟨_, w, _, rfl, left, right⟩ := checks
    refine coveredBy_set regs ?_
    split
    · -- An unknown selector keeps what both arms agree on.
      split
      · exact covers_mergeP (regs a) (regs b) (.inl rfl) (holds.has left)
      · exact covers_mergeP (regs a) (regs b) (.inr rfl) (holds.has right)
    · rename_i clear
      rw [(regs c).eq_of_known (by simpa using clear)]
      split
      · exact regs a
      · exact regs b
  case not d src m => exact coveredBy_set regs (Covers.kleene_not (regs src) m)
  case xorC d src k => exact coveredBy_set regs (covers_xorConst (regs src) k)
  case maskEq d src m v =>
    exact coveredBy_set regs (covers_eqP (Covers.and_mask (regs src) m) (covers_self v))
  case eqC d src k => exact coveredBy_set regs (covers_eqP (regs src) (covers_self k))
  case add d a b m | sub d a b m | mul d a b m =>
    exact coveredBy_set regs (covers_strict2 (regs a) (regs b) (and_under_mask _ m))
  case addC d src k m =>
    refine coveredBy_set regs ?_
    split
    · exact covers_unknown_and m _
    · rename_i clear
      rw [(regs src).eq_of_known (by simpa using clear)]
      exact covers_self _
  case lt d a b | leq d a b | gt d a b | geq d a b | cmpS d a b kind sa sb =>
    exact coveredBy_set regs (covers_strict2 (regs a) (regs b) (ofBool_under_one _))
  case eq d a b => exact coveredBy_set regs (covers_eqP (regs a) (regs b))
  case neq d a b => exact coveredBy_set regs (covers_neP (regs a) (regs b))
  case shl d a b w m =>
    refine coveredBy_set regs ?_
    split
    · split
      · exact covers_unknown fun i _ => by simp
      · exact covers_unknown_and m _
    · rename_i clear
      rw [(regs b).eq_of_known (by simpa using clear)]
      split
      · exact covers_self _
      · exact Covers.and_mask (covers_shl (regs a) _) m
  case shr d a b w =>
    refine coveredBy_set regs ?_
    split
    · split
      · exact covers_unknownMask (fits_zero w)
      · exact covers_unknownMask (fits_shr (holds.has checks.2.1) _)
    · rename_i clear
      rw [(regs b).eq_of_known (by simpa using clear)]
      split
      · exact covers_self _
      · exact covers_shr (regs a) _
  case logNot d src =>
    have negated := admits_not3 (truths src)
    simp only [bne, Bool.not_not] at negated
    exact coveredBy_set regs (covers_fromT3 negated)
  case logAnd d a b =>
    exact coveredBy_set regs (covers_fromT3 (admits_and3 (truths a) (truths b)))
  case logOr d a b =>
    exact coveredBy_set regs (covers_fromT3 (admits_or3 (truths a) (truths b)))
  case redOr d src => exact coveredBy_set regs (covers_fromT3 (truths src))
  case redAnd d src m =>
    obtain ⟨w, _, rfl, has⟩ := checks
    exact coveredBy_set regs (covers_redAnd (regs src) (holds.has has))
  case concat d parts =>
    exact coveredBy_set regs
      (covers_concatPartsX regs checks.1 fun p member => holds.has (checks.2 p member))
  case concat2 d a wa b wb =>
    exact coveredBy_set regs (Covers.or (covers_shl (regs a) wb) (regs b))
  case concat3 d a wa b wb c wc =>
    exact coveredBy_set regs
      (Covers.or (covers_shl (Covers.or (covers_shl (regs a) wb) (regs b)) wc) (regs c))
  case mask d m => exact coveredBy_set regs (Covers.and_mask (regs d) m)
  case repl d src w count => exact coveredBy_set regs (covers_replicateNarrow (regs src) w count)
  case bitDyn d src i w =>
    split
    · trivial
    · rename_i inside
      refine coveredBy_set regs ?_
      split
      · exact covers_unknownBit (fits_and_one _)
      · rename_i clear
        rw [not_or, not_not] at clear
        rw [(regs i).eq_of_known clear.1]
        exact covers_sliceP (regs src) _ _
  case loadSigNot dl d sig =>
    have negated := admits_not3 (admits_t3 (sigs sig))
    simp only [bne, Bool.not_not] at negated
    exact coveredBy_load (coveredBy_set (covers_setX regs (sigs sig) dl) (covers_fromT3 negated))
  case sigRangeEqC dr d sig lo w k =>
    have read := covers_sliceP (sigs sig) lo (xmask w)
    exact coveredBy_load
      (coveredBy_set (covers_setX regs read dr) (covers_eqP read (covers_self k)))
  case loadSigLogAnd dl sig d a b =>
    have loaded := covers_setX regs (sigs sig) dl
    exact coveredBy_load (coveredBy_set loaded
      (covers_fromT3 (admits_and3 (admits_t3 (loaded a)) (admits_t3 (loaded b)))))
  case loadSigLogOr dl sig d a b =>
    have loaded := covers_setX regs (sigs sig) dl
    exact coveredBy_load (coveredBy_set loaded
      (covers_fromT3 (admits_or3 (admits_t3 (loaded a)) (admits_t3 (loaded b)))))
  case loadSigAnd dl sig d a b =>
    have loaded := covers_setX regs (sigs sig) dl
    exact coveredBy_load (coveredBy_set loaded (covers_andP (loaded a) (loaded b)))
  case logNotAnd dn src d a b =>
    have negated := admits_not3 (truths src)
    simp only [bne, Bool.not_not] at negated
    have written := covers_setX regs (covers_fromT3 negated) dn
    exact coveredBy_set written (covers_andP (written a) (written b))
  case logNotLogAnd dn src d a b =>
    have negated := admits_not3 (truths src)
    simp only [bne, Bool.not_not] at negated
    have written := covers_setX regs (covers_fromT3 negated) dn
    exact coveredBy_set written
      (covers_fromT3 (admits_and3 (admits_t3 (written a)) (admits_t3 (written b))))
  case sigBitNot db d sig bit =>
    have read := covers_sliceP (sigs sig) bit 1#64
    have negated := admits_not3 (admits_t3 read)
    simp only [bne, Bool.not_not] at negated
    exact coveredBy_load (coveredBy_set (covers_setX regs read db) (covers_fromT3 negated))
  case loadSig2 d1 sig1 d2 sig2 =>
    exact coveredBy_load (coveredBy_load
      (coveredBy_set (covers_setX regs (sigs sig1) d1) (sigs sig2)))
  case sigBit2 d1 sig1 bit1 d2 sig2 bit2 =>
    exact coveredBy_load (coveredBy_load (coveredBy_set
      (covers_setX regs (covers_sliceP (sigs sig1) bit1 1#64) d1)
      (covers_sliceP (sigs sig2) bit2 1#64)))
  case loadSigRepl dl sig d w count =>
    exact coveredBy_load (coveredBy_set (covers_setX regs (sigs sig) dl)
      (covers_replicateNarrow (sigs sig) w count))
  case loadSigSigRange dl sig d sig2 lo m =>
    exact coveredBy_load (coveredBy_load (coveredBy_set
      (covers_setX regs (sigs sig) dl) (covers_sliceP (sigs sig2) lo m)))
  case sigRangeAnd dr sig lo m d a b =>
    have read := covers_setX regs (covers_sliceP (sigs sig) lo m) dr
    exact coveredBy_load (coveredBy_set read (covers_andP (read a) (read b)))
  case sigRangeEq dr sig lo m d a b =>
    have read := covers_setX regs (covers_sliceP (sigs sig) lo m) dr
    exact coveredBy_load (coveredBy_set read (covers_eqP (read a) (read b)))
  case constEq dc v d a b =>
    have written := covers_setX regs (covers_self v) dc
    exact coveredBy_set written (covers_eqP (written a) (written b))
  case andOr d1 a1 b1 d a b =>
    have written := covers_setX regs (covers_andP (regs a1) (regs b1)) d1
    exact coveredBy_set written (covers_orP (written a) (written b))
  case sigRangeDyn d sig i w sw m =>
    cases tested : pastEnd (r i) w sw with
    | none => trivial
    | some past =>
      cases past with
      | true => trivial
      | false =>
        have read := (slices sig ((r i).toNat % 2 ^ 16) w checks.2).and_mask m
        refine coveredBy_load ?_
        by_cases clear : (rx i).x = 0#64
        · simp only [clear, (regs i).eq_of_known clear, tested, ne_eq, not_true_eq_false, if_false]
          exact coveredBy_set regs read
        · simp only [clear, ne_eq, not_false_eq_true, if_true]
          exact coveredBy_set regs (covers_unknown_and m _)
  case elemLoad op =>
    by_cases out : outside op.lo op.hi (r op.idx).toInt = true
    · simp only [out, if_true]
      trivial
    · simp only [out]
      by_cases clean : (sc.sigPlanes (elemId op.first op.lo (r op.idx).toInt)).2 = 0#64
      · simp only [clean]
        refine coveredBy_set regs ?_
        split
        · -- An unknown index gives an unknown element, and every element has this width.
          have bounds := of_outside_eq_false (by simpa using out)
          have width := checks.2 _ bounds.1 bounds.2
          refine covers_unknownMask ?_
          rw [← width]
          exact (entriesC _).fits_sigPlanes.1.mono (Nat.min_le_left _ _)
        · rename_i known
          rw [not_or, not_not] at known
          rw [(regs op.idx).eq_of_known known.1]
          exact sigs _
      · simp only [clean, ne_eq, not_false_eq_true, if_true]
        trivial
  -- A store of a known word against a store of planes that cover it.
  case logAndStore d a b sig m =>
    have result := covers_fromT3 (admits_and3 (truths a) (truths b))
    exact TsOutcome.coveredBy_storeXz (covers_setX regs result d) result checks.2.2.1 checks.2.2.2
      (keeps rfl _ _ rfl)
  case logOrStore d a b sig m =>
    have result := covers_fromT3 (admits_or3 (truths a) (truths b))
    exact TsOutcome.coveredBy_storeXz (covers_setX regs result d) result checks.2.2.1 checks.2.2.2
      (keeps rfl _ _ rfl)
  case andRangeStore d a b sig hi lo =>
    have result := covers_andP (regs a) (regs b)
    exact TsOutcome.coveredBy_rangeStoreXz (covers_setX regs result d) (result.and_mask _)
      ⟨checks.2.2.1, .inr checks.2.2.2⟩ (keeps rfl _ _ rfl)
  case orRangeStore d a b sig hi lo =>
    have result := covers_orP (regs a) (regs b)
    exact TsOutcome.coveredBy_rangeStoreXz (covers_setX regs result d) (result.and_mask _)
      ⟨checks.2.2.1, .inr checks.2.2.2⟩ (keeps rfl _ _ rfl)
  case store sig src m =>
    exact TsOutcome.coveredBy_storeXz regs (regs src) checks.2.1 checks.2.2 (keeps rfl _ _ rfl)
  case rangeStore sig hi lo src m =>
    exact TsOutcome.coveredBy_rangeStoreXz regs (Covers.and_mask (regs src) m)
      ⟨checks.2.1, .inr checks.2.2⟩ (keeps rfl _ _ rfl)
  case rangeStoreW sig hi lo src m =>
    have short : hi + 1 - lo ≤ 64 := checks.2.2
    exact TsOutcome.coveredBy_wideRangeStore regs (Covers.and_mask (regs src) m) short
      (keeps rfl _ _ rfl)
  case storeNba sig src w m =>
    obtain ⟨_, width, some, narrow, rfl⟩ := checks
    refine coveredBy_store regs rfl rfl
      (Update.covers_of_covers (Covers.and_mask (regs src) (xmask w)) true sig 0 w)
      ⟨width, some, narrow, ?_, ?_⟩
    · exact (fits_xmask w).and_right _
    · exact (fits_xmask w).and_right _
  case rangeStoreNba sig hi lo src m =>
    exact coveredBy_store regs rfl rfl
      (Update.covers_of_covers (Covers.and_mask (regs src) m) true sig lo _)
      ⟨checks.2.1, checks.2.2⟩
  case rangeStoreNbaW sig hi lo src m =>
    have short : hi + 1 - lo ≤ 64 := checks.2.2
    exact coveredBy_store regs rfl rfl
      (Update.covers_of_covers (Covers.and_mask (regs src) m) true sig lo _) short
  -- The same call on both sides.
  case constStoreNba sig v w | constStoreX sig v x =>
    exact coveredBy_same regs _ (by rintro o ⟨⟩; exact checks)
  case rangeStoreX p => exact coveredBy_same regs _ (by rintro o ⟨⟩; exact ⟨checks.1, .inr checks.2⟩)
  case rangeStoreXW p => exact coveredBy_same regs _ (by rintro o ⟨⟩; exact checks.2)
  case rangeFillW | rangeFillNbaW | rangeFillXW | covHit =>
    exact coveredBy_same regs _ (by rintro o ⟨⟩; trivial)
  case saveSig | saveSigW => exact ⟨rx, none, rfl, regs, .none, by simp⟩
  case loopPoll =>
    cases poll with
    | false => exact coveredBy_same regs none (by simp)
    | true => trivial
  -- A dynamic store with a known index goes to one place on both sides.
  case rangeStoreDyn sig i src w sw m | rangeStoreNbaDyn sig i src w sw m =>
    have clear : (rx i).x = 0#64 := index
    obtain ⟨_, _, some, short, width, small⟩ := checks
    have keeps := keeps rfl
    simp only [xStep] at keeps
    simp only [clear, (regs i).eq_of_known clear, ne_eq, not_true_eq_false, if_false] at keeps ⊢
    cases tested : pastEnd (r i) w sw with
    | none => trivial
    | some past =>
      cases past with
      | true => trivial
      | false =>
        simp only [tested] at keeps
        exact TsOutcome.coveredBy_rangeStoreDyn regs (Covers.and_mask (regs src) m)
          (rangeStoreDynOp_ok _ tested some short width small) (keeps _ _ rfl)
  case bitStoreDyn sig i src w =>
    have clear : (rx i).x = 0#64 := index
    have keeps := keeps rfl
    simp only [xStep] at keeps
    simp only [clear, (regs i).eq_of_known clear, true_and] at keeps ⊢
    by_cases inside : (r i).toNat < w
    · simp only [inside, if_true] at keeps ⊢
      exact TsOutcome.coveredBy_bitStoreDyn regs (Covers.and_mask (regs src) 1#64)
        (bitStoreDynOp_ok false inside checks.2.2.1 checks.2.2.2) (keeps _ _ rfl)
    · simp only [inside, if_false]
      exact coveredBy_same regs none (by simp)
  case bitStoreNbaDyn sig i src w =>
    have clear : (rx i).x = 0#64 := index
    -- The narrow width makes both executors compose within one word.
    have narrow : ¬ w > 64 := by have := checks.2.2.2; omega
    simp only [clear, (regs i).eq_of_known clear, true_and]
    by_cases inside : (r i).toNat < w
    · simp only [inside, if_true, bitStoreDynOp, narrow, decide_false]
      have width := checks.2.2.1
      have same : asU32 (r i) = (r i).toNat := Nat.mod_eq_of_lt (by omega)
      exact coveredBy_store regs rfl rfl
        (Update.covers_of_covers (Covers.and_mask (regs src) 1#64) true sig _ _)
        ⟨by omega, by omega⟩
    · simp only [inside, if_false]
      exact coveredBy_same regs none (by simp)
  case elemStore op =>
    have clear : (rx op.idx).x = 0#64 := index
    have keeps := keeps rfl
    simp only [xStep] at keeps
    simp only [clear, (regs op.idx).eq_of_known clear, true_and] at keeps ⊢
    by_cases out : outside op.lo op.hi (r op.idx).toInt = true
    · simp only [out, if_true]
      exact coveredBy_same regs none (by simp)
    · have inside : outside op.lo op.hi (r op.idx).toInt = false := by simpa using out
      have bounds := of_outside_eq_false inside
      obtain ⟨narrow, whole⟩ := checks.2.2 _ bounds.1 bounds.2
      simp only [inside, if_true] at keeps ⊢
      exact TsOutcome.coveredBy_storeXz regs (regs op.s) narrow whole (keeps _ _ rfl)
  case elemStoreNba op =>
    have clear : (rx op.idx).x = 0#64 := index
    simp only [clear, (regs op.idx).eq_of_known clear, true_and]
    by_cases out : outside op.lo op.hi (r op.idx).toInt = true
    · simp only [out, if_true]
      exact coveredBy_same regs none (by simp)
    · have inside : outside op.lo op.hi (r op.idx).toInt = false := by simpa using out
      have bounds := of_outside_eq_false inside
      obtain ⟨_, _, some, narrow, whole, width⟩ := checks
      rw [whole]
      simp only [inside]
      refine coveredBy_store regs rfl rfl
        (Update.covers_of_covers (Covers.and_mask (regs op.s) (xmask op.w)) true _ 0 op.w)
        ⟨width _ bounds.1 bounds.2, some, narrow, ?_, ?_⟩
      · exact (fits_xmask op.w).and_right _
      · exact (fits_xmask op.w).and_right _
  case elemStoreNbaFromSig f =>
    have loaded := covers_setX regs (sigs f.sig) f.dl
    have clear : (setX rx f.dl (s.sigX f.sig) f.op.idx).x = 0#64 := index
    simp only [clear, (loaded f.op.idx).eq_of_known clear, true_and]
    by_cases out : outside f.op.lo f.op.hi (setReg r f.dl (sc.sigPlanes f.sig).1 f.op.idx).toInt = true
    · simp only [out, if_true]
      exact coveredBy_same loaded none (by simp)
    · have inside : outside f.op.lo f.op.hi
          (setReg r f.dl (sc.sigPlanes f.sig).1 f.op.idx).toInt = false := by simpa using out
      have bounds := of_outside_eq_false inside
      obtain ⟨_, some, narrow, whole, width⟩ := checks
      rw [whole]
      simp only [inside]
      -- Both planes are passed on, on both sides.
      have read := (table.sigX entries entriesC f.sig).and_mask (xmask f.op.w)
      refine coveredBy_store loaded rfl rfl (Update.covers_of_pair read true _ 0 f.op.w)
        ⟨width _ bounds.1 bounds.2, some, narrow, ?_, ?_⟩
      · exact (fits_xmask f.op.w).and_right _
      · exact (fits_xmask f.op.w).and_right _
  case nbaFromElem op =>
    obtain ⟨width, some, narrow⟩ := checks
    have index := table.sigX entries entriesC op.idxSig
    have legal : (StoreOp.storeNbaVal op.dst
        { ValueOps.new (max op.w 1) with isSigned := false }).Ok D := by
      simp only [StoreOp.Ok, (LawfulValueOps.new_planes (max op.w 1)).1]
      omega
    by_cases clear : (s.sigX op.idxSig).x = 0#64
    · obtain ⟨clearC, same⟩ := index.eq_of_known clear
      simp only [clear, clearC, same, ne_eq, not_true_eq_false, if_false, false_or]
      split
      · trivial
      · split
        · trivial
        · have read := (sigs (elemId op.first op.lo (sc.sigPlanes op.idxSig).1.toInt)).and_mask
            (xmask op.w)
          refine coveredBy_store regs rfl rfl (Update.covers_of_covers read true op.dst 0 op.w)
            ⟨width, some, narrow, ?_, ?_⟩
          · exact (fits_xmask op.w).and_right _
          · exact (fits_xmask op.w).and_right _
    · -- An unknown index queues an unknown value, whatever the completion queues.
      simp only [clear, ne_eq, not_false_eq_true, true_or, if_true]
      split
      · exact coveredBy_same regs _ (by rintro o ⟨⟩; exact legal)
      · split
        · trivial
        · split
          · trivial
          · exact coveredBy_store regs rfl rfl (Update.covers_new some op.dst _ 0) legal
  case wNbaFromElem op =>
    obtain ⟨width, some, each⟩ := checks
    have index := table.sigX entries entriesC op.idxSig
    have legal : (StoreOp.storeNbaVal op.dst
        { ValueOps.new (max op.w 1) with isSigned := false }).Ok D := by
      simp only [StoreOp.Ok, (LawfulValueOps.new_planes (max op.w 1)).1]
      omega
    by_cases clear : (s.sigX op.idxSig).x = 0#64
    · obtain ⟨clearC, same⟩ := index.eq_of_known clear
      simp only [clear, clearC, same, ne_eq, not_true_eq_false, if_false, false_or]
      split
      · trivial
      · rename_i inside
        have bounds := of_outside_eq_false (by simpa using inside)
        have element := table (elemId op.first op.lo (sc.sigPlanes op.idxSig).1.toInt)
        refine coveredBy_store regs rfl rfl ⟨⟨rfl, rfl, rfl, element.1⟩, element.2⟩ ?_
        simp only [StoreOp.Ok, (entries _).width, each _ bounds.1 bounds.2, width]
    · simp only [clear, ne_eq, not_false_eq_true, true_or, if_true]
      split
      · exact coveredBy_same regs _ (by rintro o ⟨⟩; exact legal)
      · split
        · trivial
        · rename_i inside
          have bounds := of_outside_eq_false (by simpa using inside)
          have element := each _ bounds.1 bounds.2
          refine coveredBy_store regs rfl rfl ?_ legal
          simp only [(entriesC _).width, element]
          exact Update.covers_new some op.dst _ _
  case brSigFalse | brFalse | brNz | loadSigBrNz | brFalseLoadSig | eqBrFalse | eqCBrFalse | jmp
    | jmpPoll | caseJmp | caseMaskJmp => cases straight
  all_goals trivial

end Step

end Xezim
