import Mathlib.Data.Nat.Size
import Xezim.TwoState.Insn

/-! Which bits of which signals a lowered stream reads, as masks of chunks. -/

namespace Xezim

/-- `sig_chunk_shift`: the smallest shift that fits a signal in 64 chunks. -/
def sigChunkShift (width : Nat) : Nat := if width ≤ 64 then 0 else ((width + 63) / 64 - 1).size

/-- `sig_span_mask`: the chunks that bits `lo .. lo + n` touch, every chunk of an empty span. -/
def sigSpanMask (width lo n : Nat) : Word :=
  if n = 0 then BitVec.allOnes 64
  else
    let sh := sigChunkShift width
    let first := min (lo >>> sh) 63
    -- The last bit saturates at 32 bits.
    let last := min (min (lo + (n - 1)) (2 ^ 32 - 1) >>> sh) 63
    (BitVec.allOnes 64 >>> (63 - last)) &&& (BitVec.allOnes 64 <<< first)

/-- `nbits`: the bit count of a low contiguous mask. -/
def nbits (mask : Word) : Nat := 64 - mask.clz.toNat

/-- The masks an instruction adds for the signals it reads, none where its reads are not a fixed set of
bits. -/
def TsInsn.readSpans (wid : Nat → Nat) : TsInsn → Option (List (Nat × Word))
  | .loadSig _ sig | .loadSigNot _ _ sig | .loadSigLogAnd _ sig .. | .loadSigBrNz _ sig _
  | .brFalseLoadSig _ _ _ sig | .loadSigLogOr _ sig .. | .loadSigAnd _ sig .. | .loadSigRepl _ sig ..
  | .wLoadSig _ sig | .sigRangeDyn _ sig .. => some [(sig, BitVec.allOnes 64)]
  | .loadSig2 _ sig1 _ sig2 => some [(sig1, BitVec.allOnes 64), (sig2, BitVec.allOnes 64)]
  | .sigBit _ sig b | .sigBitW _ sig b | .sigBitNot _ _ sig b =>
    some [(sig, sigSpanMask (wid sig) b 1)]
  | .sigBit2 _ sig1 bit1 _ sig2 bit2 =>
    some [(sig1, sigSpanMask (wid sig1) bit1 1), (sig2, sigSpanMask (wid sig2) bit2 1)]
  | .sigRange _ sig lo m | .sigRangeAnd _ sig lo m .. | .sigRangeEq _ sig lo m .. =>
    some [(sig, sigSpanMask (wid sig) lo (nbits m))]
  | .sigRangeW _ sig lo w _ | .wSigRange _ sig lo w | .sigRangeEqC _ _ sig lo w _ =>
    some [(sig, sigSpanMask (wid sig) lo w)]
  | .loadSigSigRange _ sig _ sig2 lo m =>
    some [(sig, BitVec.allOnes 64), (sig2, sigSpanMask (wid sig2) lo (nbits m))]
  | .brSigFalse sig none _ => some [(sig, BitVec.allOnes 64)]
  | .brSigFalse sig (some b) _ => some [(sig, sigSpanMask (wid sig) b 1)]
  | .elemLoad _ | .wElemLoad _ | .elemStoreNba _ | .elemStoreNbaFromSig _ | .elemStore _
  | .nbaFromElem _ | .wNbaFromElem _ | .fallback _ | .waitEdge .. | .waitDelayRaw .. | .covHit _ => none
  | _ => some []

/-- The signal an instruction stores. -/
def TsInsn.storedSig : TsInsn → Option Nat
  | .logAndStore _ _ _ sig _ | .andRangeStore _ _ _ sig .. | .logOrStore _ _ _ sig _
  | .orRangeStore _ _ _ sig .. | .bitStoreNbaDyn sig .. | .bitStoreDyn sig .. | .rangeStoreDyn sig ..
  | .rangeStoreNbaDyn sig .. | .rangeFillXW sig .. | .constStoreX sig .. | .store sig .. | .storeNba sig ..
  | .constStoreNba sig .. | .rangeStoreNba sig .. | .rangeStore sig .. | .rangeStoreW sig ..
  | .rangeStoreNbaW sig .. | .rangeFillW sig .. | .rangeFillNbaW sig .. | .wStore sig _
  | .wStoreNba sig .. | .wRangeStore sig .. | .wRangeStoreNba sig .. => some sig
  | .rangeStoreX p | .rangeStoreXW p => some p.sig
  | _ => none

/-- `add`: widen the mask of a signal. -/
def addRead (reads : List (Nat × Word)) (sig : Nat) (m : Word) : List (Nat × Word) :=
  match reads with
  | [] => [(sig, m)]
  | e :: rest => if e.1 = sig then (e.1, e.2 ||| m) :: rest else e :: addRead rest sig m

/-- The loop of `ts_read_masks` over the rest of a stream. -/
def tsReadMasksFrom (wid : Nat → Nat) (reads : List (Nat × Word)) (writes : List Nat) :
    List TsInsn → Option (List (Nat × Word) × List Nat)
  | [] => some (reads, writes)
  | insn :: rest =>
    match insn.readSpans wid with
    | none => none
    | some spans =>
      tsReadMasksFrom wid (spans.foldl (fun reads e => addRead reads e.1 e.2) reads)
        (writes ++ insn.storedSig.toList) rest

/-- `ts_read_masks`: the reads of a stream with their masks, and the signals it stores, once per store;
a signal that was not declared has width zero. -/
def tsReadMasks (wid : Nat → Nat) (insns : List TsInsn) : Option (List (Nat × Word) × List Nat) :=
  tsReadMasksFrom wid [] [] insns

/-- The mask recorded for a signal, zero for one that is not listed. -/
def readMask (reads : List (Nat × Word)) (sig : Nat) : Word :=
  match reads with
  | [] => 0#64
  | e :: rest => if e.1 = sig then e.2 else readMask rest sig

section Spans

/-- The chunks of a signal are 64 at most. -/
theorem shift_lt {width b : Nat} (inside : b < width) : b >>> sigChunkShift width < 64 := by
  unfold sigChunkShift
  split
  · simp only [Nat.shiftRight_zero]
    omega
  · -- The chunk size covers the words of the signal, 64 bits each.
    have size := Nat.lt_size_self ((width + 63) / 64 - 1)
    rw [Nat.shiftRight_eq_div_pow]
    apply Nat.div_lt_of_lt_mul
    omega

/-- A bit of a mask of ones cut off at both ends. -/
theorem getLsbD_cut {first last k : Nat} (low : first ≤ k) (high : k ≤ last) (small : last < 64) :
    ((BitVec.allOnes 64 >>> (63 - last)) &&& (BitVec.allOnes 64 <<< first)).getLsbD k = true := by
  have inside : k < 64 := by omega
  have shifted : 63 - last + k < 64 := by omega
  have above : ¬ k < first := by omega
  rw [BitVec.getLsbD_and, BitVec.getLsbD_ushiftRight, BitVec.getLsbD_shiftLeft, BitVec.getLsbD_allOnes,
    BitVec.getLsbD_allOnes]
  simp only [inside, shifted, above, decide_true, decide_false, Bool.not_false, Bool.and_true]
  exact decide_eq_true (by omega)

/-- The mask of a span has the chunk of each of its bits. -/
theorem sigSpanMask_chunk {width lo n b : Nat} (low : lo ≤ b) (high : b < lo + n) (inside : b < width)
    (small : b < 2 ^ 32) : (sigSpanMask width lo n).getLsbD (b >>> sigChunkShift width) = true := by
  -- The bit's chunk lies between those of the span's two ends.
  have chunk := shift_lt inside
  have nonempty : n ≠ 0 := by omega
  have first : lo >>> sigChunkShift width ≤ b >>> sigChunkShift width := by
    simp only [Nat.shiftRight_eq_div_pow]
    exact Nat.div_le_div_right low
  have last : b >>> sigChunkShift width ≤
      min (lo + (n - 1)) (2 ^ 32 - 1) >>> sigChunkShift width := by
    simp only [Nat.shiftRight_eq_div_pow]
    exact Nat.div_le_div_right (by omega)
  rw [sigSpanMask, if_neg nonempty]
  exact getLsbD_cut (by omega) (by omega) (by omega)

/-- A span without a bit count claims every chunk. -/
theorem sigSpanMask_zero (width lo : Nat) : sigSpanMask width lo 0 = BitVec.allOnes 64 := rfl

end Spans

section Masks

variable {reads : List (Nat × Word)} {sig id : Nat} {m : Word}

/-- A read widens the mask of its signal and no other. -/
theorem readMask_addRead : readMask (addRead reads sig m) id =
    if id = sig then readMask reads id ||| m else readMask reads id := by
  -- The entry of the signal is extended where it stands, or added at the end.
  induction reads with
  | nil =>
    by_cases same : id = sig
    · simp [addRead, readMask, same]
    · simp [addRead, readMask, same, Ne.symm same]
  | cons e rest ih =>
    unfold addRead
    by_cases here : e.1 = sig
    · rw [if_pos here]
      by_cases same : id = sig
      · simp [readMask, same, here]
      · simp [readMask, same, here, Ne.symm same]
    · rw [if_neg here]
      by_cases first : e.1 = id
      · have other : id ≠ sig := fun same => here (first.trans same)
        simp [readMask, first, other]
      · simp only [readMask, if_neg first, ih]

/-- Every bit of a mask is one of another. -/
def Covered (m m' : Word) : Prop := ∀ i, m.getLsbD i = true → m'.getLsbD i = true

/-- What was recorded stays recorded. -/
theorem covered_foldl (spans reads : List (Nat × Word)) (id : Nat) :
    Covered (readMask reads id)
      (readMask (spans.foldl (fun reads e => addRead reads e.1 e.2) reads) id) := by
  induction spans generalizing reads with
  | nil => exact fun _ set => set
  | cons e spans ih =>
    intro i set
    refine ih (addRead reads e.1 e.2) i ?_
    rw [readMask_addRead]
    split
    · simp [set]
    · exact set

/-- Every read of a list of reads is recorded. -/
theorem covered_of_mem (spans reads : List (Nat × Word)) (member : (sig, m) ∈ spans) :
    Covered m (readMask (spans.foldl (fun reads e => addRead reads e.1 e.2) reads) sig) := by
  induction spans generalizing reads with
  | nil => cases member
  | cons e spans ih =>
    rcases List.mem_cons.mp member with rfl | member
    · intro i set
      refine covered_foldl spans _ sig i ?_
      simp [readMask_addRead, set]
    · exact ih _ member

/-- The masks of a stream record every read of each of its instructions, and all they started with. -/
theorem tsReadMasksFrom_records {wid : Nat → Nat} {insns : List TsInsn} {start : List (Nat × Word)}
    {stored writes : List Nat} (masks : tsReadMasksFrom wid start stored insns = some (reads, writes)) :
    (∀ id, Covered (readMask start id) (readMask reads id)) ∧
      ∀ insn ∈ insns, ∃ spans, insn.readSpans wid = some spans ∧
        ∀ sig m, (sig, m) ∈ spans → Covered m (readMask reads sig) := by
  -- What is recorded is only added to by the instructions after it.
  induction insns generalizing start stored with
  | nil =>
    cases masks
    exact ⟨fun _ _ set => set, by simp⟩
  | cons insn rest ih =>
    rw [tsReadMasksFrom] at masks
    split at masks
    · cases masks
    · rename_i spans told
      obtain ⟨kept, later⟩ := ih masks
      refine ⟨fun id i set => kept id i (covered_foldl spans start id i set), ?_⟩
      refine List.forall_mem_cons.mpr ⟨⟨spans, told, fun sig m member i set => ?_⟩, later⟩
      exact kept sig i (covered_of_mem spans start member i set)

/-- The masks of a stream record every read of each of its instructions. -/
theorem tsReadMasks_records {wid : Nat → Nat} {insns : List TsInsn} {writes : List Nat}
    (masks : tsReadMasks wid insns = some (reads, writes)) :
    ∀ insn ∈ insns, ∃ spans, insn.readSpans wid = some spans ∧
      ∀ sig m, (sig, m) ∈ spans → Covered m (readMask reads sig) :=
  (tsReadMasksFrom_records masks).2

end Masks

end Xezim
