import Xezim.TwoState.LoweredLaws
import Xezim.TwoState.ReadMasks

/-! What an instruction does depends on the recorded bits of its signals only, x and z bits aside. -/

namespace Xezim

open Splice

/-- Two simulators whose signals agree on every bit in a recorded chunk. -/
def Sim.AgreeOn (D : Design) (reads : List (Nat × Word)) (s s' : Sim) : Prop :=
  ∀ sig b, b < D.signalWidths sig →
    (readMask reads sig).getLsbD (b >>> sigChunkShift (D.signalWidths sig)) = true →
    (s.signalTable sig).val.testBit b = (s'.signalTable sig).val.testBit b ∧
      (s.signalTable sig).xz.testBit b = (s'.signalTable sig).xz.testBit b

/-- A constant read of a narrow signal stays inside it. -/
def NarrowRead (D : Design) (sig lo n : Nat) : Prop := D.signalWidths sig ≤ 64 ∧ lo + n ≤ D.signalWidths sig

/-- A constant read of any signal stays inside it, and its position in 16 bits. -/
def SliceRead (D : Design) (sig lo n : Nat) : Prop := lo + n ≤ D.signalWidths sig ∧ lo + n ≤ 2 ^ 16

/-- The constant reads of an instruction stay inside their signals, as the lowering checks. -/
def TsInsn.ReadsInside (D : Design) : TsInsn → Prop
  | .sigBit _ sig b | .sigBitNot _ _ sig b => NarrowRead D sig b 1
  | .sigBit2 _ sig1 b1 _ sig2 b2 => NarrowRead D sig1 b1 1 ∧ NarrowRead D sig2 b2 1
  | .sigRange _ sig lo m | .sigRangeAnd _ sig lo m .. | .sigRangeEq _ sig lo m ..
  | .loadSigSigRange _ _ _ sig lo m => NarrowRead D sig lo (nbits m)
  | .sigRangeEqC _ _ sig lo w _ => NarrowRead D sig lo w
  | .sigBitW _ sig b | .brSigFalse sig (some b) _ => SliceRead D sig b 1
  | .sigRangeW _ sig lo w _ => SliceRead D sig lo w
  | _ => True

/-- The narrow signals an instruction reads in part; their other bits are looked at for x and z only. -/
def TsInsn.partReads : TsInsn → List Nat
  | .sigBit _ sig _ | .sigBitNot _ _ sig _ | .sigRange _ sig .. | .sigRangeAnd _ sig .. | .sigRangeEq _ sig ..
  | .loadSigSigRange _ _ _ sig .. | .sigRangeEqC _ _ sig .. => [sig]
  | .sigBit2 _ sig1 _ _ sig2 _ => [sig1, sig2]
  | _ => []

section Reads

variable [ValueOps] [LawfulValueOps] {D : Design} {reads : List (Nat × Word)} {s s' : Sim} {sig lo n : Nat}

omit [ValueOps] [LawfulValueOps] in
/-- Signals agree on the bits of a recorded span. -/
theorem Sim.AgreeOn.span (agree : s.AgreeOn D reads s')
    (recorded : Covered (sigSpanMask (D.signalWidths sig) lo n) (readMask reads sig)) {b : Nat}
    (low : lo ≤ b) (high : b < lo + n) (inside : b < D.signalWidths sig) (small : b < 2 ^ 32) :
    (s.signalTable sig).val.testBit b = (s'.signalTable sig).val.testBit b ∧
      (s.signalTable sig).xz.testBit b = (s'.signalTable sig).xz.testBit b :=
  agree sig b inside (recorded _ (sigSpanMask_chunk low high inside small))

omit [ValueOps] [LawfulValueOps] in
/-- Signals recorded as a whole have the same planes. -/
theorem Sim.AgreeOn.whole (agree : s.AgreeOn D reads s') (entry : s.EntryOk D sig)
    (entry' : s'.EntryOk D sig) (recorded : Covered (BitVec.allOnes 64) (readMask reads sig)) :
    (s.signalTable sig).val = (s'.signalTable sig).val ∧ (s.signalTable sig).xz = (s'.signalTable sig).xz := by
  have fits := entry.fits
  have fits' := entry'.fits
  rw [Value.Fits, entry.width] at fits
  rw [Value.Fits, entry'.width] at fits'
  have bits : ∀ b, b < D.signalWidths sig → _ := fun b inside =>
    agree sig b inside (recorded _ (by rw [BitVec.getLsbD_allOnes]; exact decide_eq_true (shift_lt inside)))
  -- No plane has a bit past the width.
  refine ⟨plane_ext fun b => ?_, plane_ext fun b => ?_⟩
  · by_cases inside : b < D.signalWidths sig
    · exact (bits b inside).1
    · rw [testBit_of_lt fits.1 (by omega), testBit_of_lt fits'.1 (by omega)]
  · by_cases inside : b < D.signalWidths sig
    · exact (bits b inside).2
    · rw [testBit_of_lt fits.2 (by omega), testBit_of_lt fits'.2 (by omega)]

/-- A whole read gives the same word. -/
theorem Sim.AgreeOn.sigPlanes (agree : s.AgreeOn D reads s') (entry : s.EntryOk D sig)
    (entry' : s'.EntryOk D sig) (recorded : Covered (BitVec.allOnes 64) (readMask reads sig)) :
    s.sigPlanes sig = s'.sigPlanes sig := by
  obtain ⟨val, unk⟩ := agree.whole entry entry' recorded
  simp only [Sim.sigPlanes, LawfulValueOps.rawBits_eq, Value.planes, val, unk]

omit [ValueOps] [LawfulValueOps] in
/-- Words that agree on the bits of a part give the same part. -/
theorem part_eq {a a' : Nat} {m : Word} (low : ∀ i, m.getLsbD i = true → i < n) (inside : lo + n ≤ 64)
    (bits : ∀ i, i < n → a.testBit (lo + i) = a'.testBit (lo + i)) :
    shr (BitVec.ofNat 64 a) lo &&& m = shr (BitVec.ofNat 64 a') lo &&& m := by
  apply BitVec.eq_of_getLsbD_eq
  intro i small
  rw [BitVec.getLsbD_and, BitVec.getLsbD_and, getLsbD_shr, getLsbD_shr]
  cases kept : m.getLsbD i with
  | false => simp
  | true =>
    have below := low i kept
    rw [Nat.mod_eq_of_lt (by omega), BitVec.getLsbD_ofNat, BitVec.getLsbD_ofNat, bits i below]

omit [ValueOps] [LawfulValueOps] in
/-- A mask of `n` bits has no bit from there on. -/
theorem low_of_nbits {m : Word} {i : Nat} (kept : m.getLsbD i = true) : i < nbits m := by
  have small : m.toNat < 2 ^ nbits m := BitVec.toNat_lt_two_pow_sub_clz
  by_contra far
  rw [← testBit_toNat, testBit_of_lt small (by omega)] at kept
  cases kept

omit [ValueOps] [LawfulValueOps] in
/-- The mask of one bit keeps one bit. -/
theorem low_of_one {i : Nat} (kept : (1#64).getLsbD i = true) : i < 1 := low_of_nbits kept

omit [ValueOps] [LawfulValueOps] in
/-- A mask of ones keeps its width. -/
theorem low_of_xmask {i : Nat} (kept : (xmask n).getLsbD i = true) : i < n := by
  rw [getLsbD_xmask, decide_eq_true_eq] at kept
  exact kept.1

/-- A part-select of a narrow signal gives the same bits. -/
theorem Sim.AgreeOn.part (agree : s.AgreeOn D reads s') (read : NarrowRead D sig lo n)
    (recorded : Covered (sigSpanMask (D.signalWidths sig) lo n) (readMask reads sig)) {m : Word}
    (low : ∀ i, m.getLsbD i = true → i < n) :
    shr (s.sigPlanes sig).1 lo &&& m = shr (s'.sigPlanes sig).1 lo &&& m := by
  obtain ⟨narrow, inside⟩ := read
  simp only [Sim.sigPlanes, LawfulValueOps.rawBits_eq, Value.planes]
  exact part_eq low (by omega) fun i below =>
    (agree.span recorded (by omega) (by omega) (by omega) (by omega)).1

/-- A slice of any signal gives the same word. -/
theorem Sim.AgreeOn.slice (agree : s.AgreeOn D reads s') (entry : s.EntryOk D sig)
    (entry' : s'.EntryOk D sig) (read : SliceRead D sig lo n) (word : n ≤ 64)
    (recorded : Covered (sigSpanMask (D.signalWidths sig) lo n) (readMask reads sig)) :
    rawBitsSlice (s.signalTable sig) lo n = rawBitsSlice (s'.signalTable sig) lo n := by
  obtain ⟨inside, small⟩ := read
  have bits : ∀ i, i < n → _ := fun i below =>
    agree.span recorded (b := lo + i) (by omega) (by omega) (by omega) (by omega)
  unfold rawBitsSlice
  rw [entry.width, entry'.width]
  split
  · rename_i narrow
    simp only [LawfulValueOps.rawBits_eq, Value.planes]
    rw [part_eq (fun i => low_of_xmask) (by omega) fun i below => (bits i below).1,
      part_eq (fun i => low_of_xmask) (by omega) fun i below => (bits i below).2]
  · rw [LawfulValueOps.slice_planes _ _ _ word entry.fits, LawfulValueOps.slice_planes _ _ _ word entry'.fits]
    have val : window (s.signalTable sig).val lo n = window (s'.signalTable sig).val lo n :=
      plane_ext fun i => by
        by_cases below : i < n
        · simp [(bits i below).1]
        · simp [below]
    have unk : window (s.signalTable sig).xz lo n = window (s'.signalTable sig).xz lo n :=
      plane_ext fun i => by
        by_cases below : i < n
        · simp [(bits i below).2]
        · simp [below]
    rw [val, unk]

/-- A slice at a run-time offset of a whole signal gives the same word. -/
theorem Sim.AgreeOn.slice_whole (agree : s.AgreeOn D reads s') (entry : s.EntryOk D sig)
    (entry' : s'.EntryOk D sig) (word : n ≤ 64)
    (recorded : Covered (BitVec.allOnes 64) (readMask reads sig)) :
    rawBitsSlice (s.signalTable sig) lo n = rawBitsSlice (s'.signalTable sig) lo n := by
  obtain ⟨val, unk⟩ := agree.whole entry entry' recorded
  unfold rawBitsSlice
  simp only [entry.width, entry'.width, LawfulValueOps.rawBits_eq, Value.planes,
    LawfulValueOps.slice_planes _ _ _ word entry.fits, LawfulValueOps.slice_planes _ _ _ word entry'.fits,
    val, unk]

end Reads

section Steps

variable [ValueOps] {D : Design} {reads : List (Nat × Word)} {s s' : Sim}

/-- Two outcomes are the same, or one of them stops on an x or z bit of a listed signal, whose x and z
bits differ. -/
def OutcomesAlike (s s' : Sim) (partly : List Nat) (out out' : TsOutcome) : Prop :=
  out = out' ∨ (∃ sig ∈ partly, (s.sigPlanes sig).2 ≠ (s'.sigPlanes sig).2) ∧
    (out = .xbail ∨ out' = .xbail)

/-- A load of a listed signal whose value goes on alike. -/
theorem OutcomesAlike.load {partly : List Nat} {sig : Nat} (listed : sig ∈ partly) {k k' : Word → TsOutcome}
    (rest : OutcomesAlike s s' partly (k (s.sigPlanes sig).1) (k' (s'.sigPlanes sig).1)) :
    OutcomesAlike s s' partly (.load (s.sigPlanes sig) k) (.load (s'.sigPlanes sig) k') := by
  unfold TsOutcome.load
  by_cases clean : (s.sigPlanes sig).2 = 0#64
  · by_cases clean' : (s'.sigPlanes sig).2 = 0#64
    · simpa [clean, clean'] using rest
    · exact .inr ⟨⟨sig, listed, by rw [clean]; exact Ne.symm clean'⟩, .inr (by simp [clean'])⟩
  · by_cases clean' : (s'.sigPlanes sig).2 = 0#64
    · exact .inr ⟨⟨sig, listed, by rw [clean']; exact clean⟩, .inl (by simp [clean])⟩
    · exact .inl (by simp [clean, clean'])

/-- Two loads of the same planes that go on alike. -/
theorem OutcomesAlike.load_same {partly : List Nat} {p : Word × Word} {k k' : Word → TsOutcome}
    (rest : OutcomesAlike s s' partly (k p.1) (k' p.1)) :
    OutcomesAlike s s' partly (.load p k) (.load p k') := by
  unfold TsOutcome.load
  split
  · exact .inl rfl
  · exact rest

variable [LawfulValueOps]

/-- An instruction whose reads are recorded does the same on signals that agree on the recorded bits. -/
theorem outcomesAlike {insn : TsInsn} {spans : List (Nat × Word)} {ws : RegWidths} (p : Bool) (r : Regs)
    (agree : s.AgreeOn D reads s') (entries : ∀ id, s.EntryOk D id) (entries' : ∀ id, s'.EntryOk D id)
    (checks : insn.Checks D ws) (inside : insn.ReadsInside D)
    (told : insn.readSpans D.signalWidths = some spans)
    (recorded : ∀ sig m, (sig, m) ∈ spans → Covered m (readMask reads sig)) :
    OutcomesAlike s s' insn.partReads (tsStep s p r insn) (tsStep s' p r insn) := by
  have whole : ∀ sig, (sig, BitVec.allOnes 64) ∈ spans → s.sigPlanes sig = s'.sigPlanes sig :=
    fun _ member => agree.sigPlanes (entries _) (entries' _) (recorded _ _ member)
  have part : ∀ sig {lo n m}, (sig, sigSpanMask (D.signalWidths sig) lo n) ∈ spans →
      NarrowRead D sig lo n → (∀ i, m.getLsbD i = true → i < n) →
      shr (s.sigPlanes sig).1 lo &&& m = shr (s'.sigPlanes sig).1 lo &&& m :=
    fun _ _ _ _ member read low => agree.part read (recorded _ _ member) low
  have slice : ∀ {sig lo n}, (sig, sigSpanMask (D.signalWidths sig) lo n) ∈ spans →
      SliceRead D sig lo n → n ≤ 64 →
      rawBitsSlice (s.signalTable sig) lo n = rawBitsSlice (s'.signalTable sig) lo n :=
    fun member read word => agree.slice (entries _) (entries' _) read word (recorded _ _ member)
  cases insn
  case loadSig | loadSigNot | loadSigLogAnd | loadSigBrNz | brFalseLoadSig | loadSigLogOr | loadSigAnd
    | loadSigRepl =>
    cases told
    exact .inl (by simp only [tsStep, whole _ (List.mem_singleton.mpr rfl)])
  case sigRangeDyn d sig i w sw m =>
    cases told
    have same : ∀ lo, rawBitsSlice (s.signalTable sig) lo w = rawBitsSlice (s'.signalTable sig) lo w :=
      fun lo => agree.slice_whole (entries _) (entries' _) checks.2
        (recorded _ _ (List.mem_singleton.mpr rfl))
    exact .inl (by simp only [tsStep, same])
  case loadSig2 d1 sig1 d2 sig2 =>
    cases told
    have same1 := whole sig1 (by simp)
    have same2 := whole sig2 (by simp)
    exact .inl (by simp only [tsStep, same1, same2])
  case sigBit d sig b =>
    cases told
    simp only [tsStep, TsInsn.partReads]
    refine OutcomesAlike.load (List.mem_singleton.mpr rfl) (.inl ?_)
    rw [part _ (List.mem_singleton.mpr rfl) inside fun i => low_of_one]
  case sigBitNot db d sig b =>
    cases told
    simp only [tsStep, TsInsn.partReads]
    refine OutcomesAlike.load (List.mem_singleton.mpr rfl) (.inl ?_)
    rw [part _ (List.mem_singleton.mpr rfl) inside fun i => low_of_one]
  case sigBit2 d1 sig1 b1 d2 sig2 b2 =>
    cases told
    simp only [tsStep, TsInsn.partReads]
    refine OutcomesAlike.load (by simp) (OutcomesAlike.load (by simp) (.inl ?_))
    rw [part sig1 (by simp) inside.1 fun i => low_of_one,
      part sig2 (by simp) inside.2 fun i => low_of_one]
  case sigRange d sig lo m =>
    cases told
    simp only [tsStep, TsInsn.partReads]
    refine OutcomesAlike.load (List.mem_singleton.mpr rfl) (.inl ?_)
    rw [part _ (List.mem_singleton.mpr rfl) inside fun i => low_of_nbits]
  case sigRangeAnd dr sig lo m d a b | sigRangeEq dr sig lo m d a b =>
    cases told
    simp only [tsStep, TsInsn.partReads]
    refine OutcomesAlike.load (List.mem_singleton.mpr rfl) (.inl ?_)
    rw [part _ (List.mem_singleton.mpr rfl) inside fun i => low_of_nbits]
  case sigRangeEqC dr d sig lo w k =>
    cases told
    simp only [tsStep, TsInsn.partReads]
    refine OutcomesAlike.load (List.mem_singleton.mpr rfl) (.inl ?_)
    rw [part _ (List.mem_singleton.mpr rfl) inside fun i => low_of_xmask]
  case loadSigSigRange dl sig d sig2 lo m =>
    cases told
    have same := whole sig (by simp)
    simp only [tsStep, TsInsn.partReads, same]
    refine OutcomesAlike.load_same (OutcomesAlike.load (List.mem_singleton.mpr rfl) (.inl ?_))
    rw [part sig2 (by simp) inside fun i => low_of_nbits]
  case sigBitW d sig b =>
    cases told
    exact .inl (by simp only [tsStep, slice (List.mem_singleton.mpr rfl) inside (by decide)])
  case sigRangeW d sig lo w m =>
    cases told
    exact .inl (by simp only [tsStep, slice (List.mem_singleton.mpr rfl) inside checks])
  case brSigFalse sig bit t =>
    cases bit with
    | none =>
      cases told
      exact .inl (by simp only [tsStep, whole _ (List.mem_singleton.mpr rfl)])
    | some b =>
      cases told
      exact .inl (by simp only [tsStep, slice (List.mem_singleton.mpr rfl) inside (by decide)])
  -- Nothing else that is not refused reads a signal.
  all_goals first | exact .inl rfl | cases told

end Steps

end Xezim
