import Xezim.Vm.Nba
import Xezim.TwoState.QueueLaws

/-! Every nonblocking push of the interpreter and of native code is one masked update of a pending
value. -/

namespace Xezim

open Splice Function

/-- One bit of a value in both planes. -/
def Value.bit (v : Value) (i : Nat) : LogicBit := (v.val.testBit i, v.xz.testBit i)

/-- A queued value that an assignment stores bit by bit: neither a real nor an unsized fill. -/
def Value.Plain (v : Value) : Prop := v.isReal = false ∧ v.isFill = false

/-- A masked update changes no flag. -/
theorem Value.Plain.write {v : Value} (plain : v.Plain) (lo len a x : Nat) :
    (v.write lo len a x).Plain := plain

/-- A truth value as a number has itself as its first bit. -/
theorem testBit_boolToNat (b : Bool) : b.toNat.testBit 0 = b := by cases b <;> rfl

section Bits

variable [VmOps] [LawfulVmOps]

/-- Overwriting bits one by one is one masked update with the source's planes. -/
theorem setBits_eq (src : Value) (lo : Nat) :
    ∀ (hi : Nat) (v : Value), hi + 1 - lo ≤ src.width →
      setBits v src lo hi = v.write lo (hi + 1 - lo) src.val src.xz := by
  -- By induction on the number of positions, the last one written outermost.
  suffices run : ∀ (n : Nat) (v : Value), n ≤ src.width →
      (List.range' lo n).foldl
        (fun v pos => VmOps.setBit v pos (VmOps.getBit src (pos - lo))) v =
        v.write lo n src.val src.xz from fun hi v inside => run _ v inside
  intro n
  induction n with
  | zero => intro v _; simp [Value.write]
  | succ n ih =>
    intro v inside
    rw [List.range'_concat, List.foldl_append, ih v (by omega)]
    simp only [Nat.one_mul, List.foldl_cons, List.foldl_nil, LawfulVmOps.setBit_eq]
    have place : lo + n - lo = n := by omega
    rw [place, LawfulVmOps.getBit_eq src n (by omega)]
    -- The last bit adjoins the window the earlier ones filled.
    refine v.write_append lo n 1 (fun _ _ => ⟨rfl, rfl⟩) fun i only => ?_
    obtain rfl : i = 0 := by omega
    simp only [testBit_boolToNat, Nat.add_zero, and_self]

/-- A value that shows no differing bit already holds the window. -/
theorem shows_of_not_bitsDiffer {v src : Value} {lo hi : Nat} (inside : hi + 1 - lo ≤ src.width)
    (same : bitsDiffer v src lo hi = false) :
    v.Shows v.width v lo (hi + 1 - lo) src.val src.xz := by
  intro i below
  -- Inside the window the bits were compared, and outside nothing is asked.
  by_cases window : lo ≤ i ∧ i < lo + (hi + 1 - lo)
  · simp only [bitsDiffer, List.any_eq_false, List.mem_range'_1, decide_eq_true_eq, ne_eq,
      not_not] at same
    have bit := same i window
    rw [LawfulVmOps.getBit_eq v i below, LawfulVmOps.getBit_eq src (i - lo) (by omega)] at bit
    simp only [Prod.mk.injEq] at bit
    simpa [window] using bit
  · simp [window]

/-- The plane a list of words spells, its first word lowest. -/
def wordsPlane : List Word → Nat
  | [] => 0
  | a :: rest => a.toNat ||| wordsPlane rest <<< 64

omit [VmOps] [LawfulVmOps] in
/-- A plane of words shows its first word and then the plane of the others. -/
theorem testBit_wordsPlane_cons (a : Word) (rest : List Word) (i : Nat) :
    (wordsPlane (a :: rest)).testBit i =
      if i < 64 then a.toNat.testBit i else (wordsPlane rest).testBit (i - 64) := by
  simp only [wordsPlane, Nat.testBit_or, Nat.testBit_shiftLeft]
  split
  · rename_i low
    simp [show ¬ 64 ≤ i by omega]
  · rename_i high
    have above : 64 ≤ i := by omega
    simp [above, testBit_toNat]

/-- The word-at-a-time splice is one masked update, and one that moved no bit kept the value. -/
theorem spliceWords_eq (words : List Word) :
    ∀ (t : Value) (lo w : Nat), w ≤ 64 * words.length →
      (spliceWords t lo words w).1 = t.write lo w (wordsPlane words) 0 ∧
        ((spliceWords t lo words w).2 = false → (spliceWords t lo words w).1 = t) := by
  -- One turn writes the first word, and the remaining turns the rest of the window.
  induction words with
  | nil =>
    intro t lo w room
    obtain rfl : w = 0 := by simpa using room
    simp [spliceWords, Value.write]
  | cons a rest ih =>
    intro t lo w room
    by_cases nothing : w = 0
    · simp [spliceWords, nothing, Value.write]
    · simp only [List.length_cons] at room
      have chunk : min w 64 ≤ 64 := by omega
      obtain ⟨written, kept⟩ := ih (t.write lo (min w 64) a.toNat (0#64).toNat) (lo + 64) (w - 64)
        (by omega)
      simp only [spliceWords, if_neg nothing, LawfulValueOps.splice_planes _ _ _ _ _ chunk]
      refine ⟨?_, fun still => ?_⟩
      · rw [written]
        by_cases last : w ≤ 64
        · rw [show w - 64 = 0 by omega, show min w 64 = w by omega]
          have joined := t.write_append lo w 0 (a := a.toNat) (x := 0) (b := wordsPlane rest)
            (y := 0) (c := wordsPlane (a :: rest)) (z := 0)
            (fun i low => by simp [testBit_wordsPlane_cons, show i < 64 by omega])
            fun i low => by omega
          simpa [Value.write] using joined
        · rw [show min w 64 = 64 by omega]
          have joined := t.write_append lo 64 (w - 64) (a := a.toNat) (x := 0)
            (b := wordsPlane rest) (y := 0) (c := wordsPlane (a :: rest)) (z := 0)
            (fun i low => by simp [testBit_wordsPlane_cons, low])
            fun i _ => by simp [testBit_wordsPlane_cons]
          rw [show 64 + (w - 64) = w by omega] at joined
          exact joined
      · simp only [Bool.or_eq_false_iff, decide_eq_false_iff_not, ne_eq, not_not] at still
        rw [kept still.2, still.1]

omit [VmOps] [LawfulVmOps] in
/-- Splicing a word replaces a window of its bits. -/
theorem getLsbD_spliceBits (dst src : Word) {lo hi : Nat} (top : hi < 64) (i : Nat) (low : i < 64) :
    (spliceBits dst src lo hi).getLsbD i =
      if lo ≤ i ∧ i < lo + (hi + 1 - lo) then src.getLsbD (i - lo) else dst.getLsbD i := by
  unfold spliceBits
  by_cases crossed : lo > hi
  · rw [if_pos crossed, if_neg (by omega)]
  · have place : lo % 64 = lo := Nat.mod_eq_of_lt (by omega)
    -- The mask has exactly the window's bits, also where the window is the whole word.
    have mask : (if hi - lo + 1 ≥ 64 then BitVec.allOnes 64
        else shl (shl 1#64 (hi - lo + 1) - 1#64) lo).getLsbD i =
        decide (lo ≤ i ∧ i < lo + (hi + 1 - lo)) := by
      split
      · rw [BitVec.getLsbD_allOnes]
        simp [low, show lo ≤ i by omega, show i < lo + (hi + 1 - lo) by omega]
      · have short : (hi - lo + 1) % 64 = hi - lo + 1 := Nat.mod_eq_of_lt (by omega)
        have ones : shl 1#64 (hi - lo + 1) - 1#64 = xmask (hi - lo + 1) := by
          rw [xmask, if_neg (by omega), shl, short]
          congr 1
          apply BitVec.eq_of_toNat_eq
          simp [BitVec.toNat_shiftLeft, Nat.shiftLeft_eq]
        rw [ones, getLsbD_shl, getLsbD_xmask, place]
        simp only [low, true_and]
        by_cases above : lo ≤ i
        · simp [above, show i - lo < 64 by omega,
            show (i - lo < hi - lo + 1) = (i < lo + (hi + 1 - lo)) by
              simp only [eq_iff_iff]; omega]
        · simp [above]
    simp only [if_neg crossed, BitVec.getLsbD_or, BitVec.getLsbD_and, BitVec.getLsbD_not, mask,
      getLsbD_shl, place]
    by_cases window : lo ≤ i ∧ i < lo + (hi + 1 - lo)
    · simp [window, low]
    · simp [window, low]

end Bits

section Arms

variable {D : Design} {s : Sim}

/-- An update is known by the bits it puts below the signal's width. -/
theorem Sim.Queued.congr {s' : Sim} {id lo len a x a' x' : Nat}
    (queued : s.Queued D s' ⟨true, id, lo, len, a, x⟩)
    (same : ∀ i, lo + i < D.signalWidths id →
      a.testBit i = a'.testBit i ∧ x.testBit i = x'.testBit i) :
    s.Queued D s' ⟨true, id, lo, len, a', x'⟩ := by
  refine ⟨queued.table, queued.queue, queued.others, fun i inside => ?_⟩
  have shown := queued.shows i inside
  have below : i < D.signalWidths id := inside
  -- Only the bits inside the window matter.
  by_cases window : lo ≤ i ∧ i < lo + len
  · have bits := same (i - lo) (by omega)
    simp only [window, and_self, if_true] at shown ⊢
    rw [shown.1, shown.2, bits.1, bits.2]
    exact ⟨rfl, rfl⟩
  · simpa only [window, if_false] using shown

/-- A value of the signal's width shows the update of the whole signal by itself. -/
theorem Value.shows_whole {w : Nat} (v old : Value) : v.Shows w old 0 w v.val v.xz := by
  intro i inside
  simp [inside]

/-- Queueing a whole value, whatever was queued before. -/
theorem Sim.queued_whole (ok : s.QueueOk D) {id : Nat} {val : Value}
    (width : val.width = D.signalWidths id) :
    s.Queued D (s.pushNba id val) ⟨true, id, 0, D.signalWidths id, val.val, val.xz⟩ :=
  Sim.queued_push (u := ⟨true, id, 0, D.signalWidths id, val.val, val.xz⟩) ok width
    (Value.shows_whole _ _)

/-- Replacing a whole pending value by another. -/
theorem tsStoreNbaVal_whole (ok : s.QueueOk D) {id : Nat} {val : Value}
    (width : val.width = D.signalWidths id) :
    s.Queued D (tsStoreNbaVal s id val) ⟨true, id, 0, D.signalWidths id, val.val, val.xz⟩ := by
  have queued := tsStoreNbaVal_queued ok width (a := val.val) (x := val.xz) fun _ _ => ⟨rfl, rfl⟩
  rwa [width] at queued

variable [VmOps] [LawfulVmOps]

/-- A narrow range write with both planes of a value. -/
theorem tsRangeStoreNbaXz_planes (ok : s.QueueOk D) (entries : ∀ id, s.EntryOk D id)
    {id lo hi : Nat} (narrow : D.signalWidths id ≤ 64) (top : hi < 64) (val : Value) :
    s.Queued D
      (tsRangeStoreNbaXz D s id lo hi (ValueOps.rawBits val).1 (ValueOps.rawBits val).2)
      ⟨true, id, lo, hi + 1 - lo, val.val, val.xz⟩ := by
  refine (tsRangeStoreNbaXz_queued ok entries narrow top _ _).congr fun i inside => ?_
  -- The planes of a value are its low word, and the signal ends within one.
  have low : i < 64 := by omega
  simp only [LawfulValueOps.rawBits_eq, Value.planes, BitVec.toNat_ofNat, Nat.testBit_mod_two_pow,
    low, decide_true, Bool.true_and, and_self]

/-- A write of a window taken over from a value. -/
theorem copyNba_queued (ok : s.QueueOk D) {id low n : Nat} {val : Value} (inside : n ≤ val.width) :
    s.Queued D (copyNba s id low val n) ⟨true, id, low, n, val.val, val.xz⟩ := by
  have width := ok.width id
  unfold copyNba
  simp only [LawfulVmOps.copyBitsFrom_eq _ _ _ _ inside]
  -- An entry that is queued is edited in place.
  split
  · rename_i i indexed
    refine Sim.queued_modify (u := ⟨true, id, low, n, val.val, val.xz⟩) ok indexed width ?_
    rw [← width]
    exact Value.shows_write _ _ _ _ _
  · rename_i indexed
    -- Without one the value in the table is pending, and only a change is queued.
    rw [← Sim.pending_of_none indexed]
    split
    · refine Sim.queued_push (u := ⟨true, id, low, n, val.val, val.xz⟩) ok width ?_
      rw [← width]
      exact Value.shows_write (s.pending id) low n val.val val.xz
    · -- What is elided shows the bits already.
      rename_i same
      refine Sim.queued_elided ok ?_
      simp only [decide_eq_true_eq, ne_eq, not_not] at same
      have written := Value.shows_write (s.pending id) low n val.val val.xz
      rw [same, width] at written
      exact written

/-- A window of one bit already holds the bit it reads. -/
theorem Value.shows_bit (v : Value) {idx : Nat} {bit : LogicBit}
    (same : VmOps.getBit v idx = bit) : v.Shows v.width v idx 1 bit.1.toNat bit.2.toNat := by
  intro i inside
  by_cases here : idx ≤ i ∧ i < idx + 1
  · obtain rfl : i = idx := by omega
    rw [LawfulVmOps.getBit_eq v i inside] at same
    subst same
    simp only [here, if_true, Nat.sub_self, testBit_boolToNat, and_self]
  · simp only [if_neg here, and_self]

/-- A write of one bit. -/
theorem bitNba_queued (ok : s.QueueOk D) (id idx : Nat) (bit : LogicBit) :
    s.Queued D (bitNba s id idx bit) ⟨true, id, idx, 1, bit.1.toNat, bit.2.toNat⟩ := by
  have width := ok.width id
  have written := Value.shows_write (s.pending id) idx 1 bit.1.toNat bit.2.toNat
  rw [width] at written
  unfold bitNba
  simp only [LawfulVmOps.setBit_eq]
  -- An entry that is queued is edited in place.
  split
  · rename_i i indexed
    exact Sim.queued_modify (u := ⟨true, id, idx, 1, bit.1.toNat, bit.2.toNat⟩) ok indexed width written
  · rename_i indexed
    rw [← Sim.pending_of_none indexed]
    split
    · -- What is elided shows the bit already.
      rename_i same
      refine Sim.queued_elided ok ?_
      rw [← width]
      exact Value.shows_bit _ same
    · exact Sim.queued_push (u := ⟨true, id, idx, 1, bit.1.toNat, bit.2.toNat⟩) ok width written

/-- A window written bit by bit, elided where the table shows it. -/
theorem bitsNba_queued (ok : s.QueueOk D) {id low high : Nat} {val : Value}
    (inside : high + 1 - low ≤ val.width) :
    s.Queued D (bitsNba s id val low high) ⟨true, id, low, high + 1 - low, val.val, val.xz⟩ := by
  have width := ok.width id
  have written := Value.shows_write (s.pending id) low (high + 1 - low) val.val val.xz
  rw [width] at written
  unfold bitsNba
  simp only [setBits_eq val low high _ inside]
  -- An entry that is queued is edited in place.
  split
  · rename_i i indexed
    exact Sim.queued_modify (u := ⟨true, id, low, high + 1 - low, val.val, val.xz⟩) ok indexed width
      written
  · rename_i indexed
    rw [← Sim.pending_of_none indexed]
    split
    · exact Sim.queued_push (u := ⟨true, id, low, high + 1 - low, val.val, val.xz⟩) ok width written
    · -- What is elided shows the bits already.
      rename_i same
      refine Sim.queued_elided ok ?_
      rw [← width]
      exact shows_of_not_bitsDiffer inside (by simpa using same)

end Arms

section Flags

variable {D : Design} {s : Sim} {V : Nat → Prop}

/-- Every pending value of the given signals is plain. -/
def Sim.PlainOn (V : Nat → Prop) (s : Sim) : Prop := ∀ id, V id → (s.pending id).Plain

/-- Queueing a plain value leaves every pending value plain. -/
theorem Sim.PlainOn.push (plain : s.PlainOn V) (ok : s.QueueOk D) {id : Nat} {v : Value}
    (new : V id → v.Plain) : (s.pushNba id v).PlainOn V := by
  intro id' member
  by_cases same : id' = id
  · subst same
    simpa [Sim.pending, Sim.pushNba] using new member
  · simpa only [Sim.pending, Sim.pushNba, ok.indexed.live_push_of_ne same] using plain id' member

/-- Changing a live entry without its flags leaves every pending value plain. -/
theorem Sim.PlainOn.modify (plain : s.PlainOn V) (ok : s.QueueOk D) {id i : Nat}
    (indexed : s.nbaFast.index id = some i) {f : Value → Value}
    (changed : V id → (f (s.pending id)).Plain) : (s.modifyNba i f).PlainOn V := by
  intro id' member
  -- The edited entry is the live one of its signal.
  by_cases same : id' = id
  · subst same
    have live : (s.nbaFast.live id').isSome = true := by
      rw [ok.indexed.live_isSome, indexed]; rfl
    obtain ⟨v, there⟩ := Option.isSome_iff_exists.mp live
    have new := changed member
    simp only [Sim.pending, there, Option.getD_some] at new
    simpa only [Sim.pending, Sim.modifyNba, ok.indexed.live_modify indexed, there, Option.map_some,
      Option.getD_some] using new
  · simpa only [Sim.pending, Sim.modifyNba, ok.indexed.live_modify_of_ne indexed same] using
      plain id' member

/-- Queueing a plain value in one case of two leaves every pending value plain. -/
theorem Sim.PlainOn.pushIf (plain : s.PlainOn V) (ok : s.QueueOk D) {c : Prop} [Decidable c]
    {id : Nat} {v : Value} (new : V id → v.Plain) :
    (if c then s.pushNba id v else s).PlainOn V := by
  split
  · exact plain.push ok new
  · exact plain

/-- The shape of every push: change the live entry, or without one queue something or nothing. -/
theorem Sim.PlainOn.edit (plain : s.PlainOn V) (ok : s.QueueOk D) {id : Nat} {f : Value → Value}
    {fresh : Sim} (changed : V id → (f (s.pending id)).Plain) (other : fresh.PlainOn V) :
    (match s.nbaFast.index id with
      | some i => s.modifyNba i f
      | none => fresh).PlainOn V := by
  split
  · rename_i i indexed
    exact plain.modify ok indexed changed
  · exact other

/-- Replacing a whole pending value by a plain one. -/
theorem Sim.PlainOn.storeNbaVal (plain : s.PlainOn V) (ok : s.QueueOk D) {id : Nat} {val : Value}
    (new : V id → val.Plain) : (tsStoreNbaVal s id val).PlainOn V :=
  plain.edit ok new (plain.pushIf ok new)

variable [VmOps] [LawfulVmOps]

/-- A narrow range write builds plain values. -/
theorem Sim.PlainOn.rangeStoreNbaXz (plain : s.PlainOn V) (ok : s.QueueOk D) {id lo hi : Nat}
    (narrow : D.signalWidths id ≤ 64) (v x : Word) :
    (tsRangeStoreNbaXz D s id lo hi v x).PlainOn V := by
  refine plain.edit ok (fun member => ?_) ?_
  · -- A narrow entry keeps its kind when its bits are set.
    have short : (s.pending id).width ≤ 64 := by rw [ok.width]; exact narrow
    simp only [LawfulValueOps.setInlineBits_narrow _ _ _ short, Option.getD_some]
    exact plain id member
  · dsimp only
    split
    · exact plain
    · exact plain.push ok fun _ => LawfulVmOps.fromInline_bits _ _ _

/-- A wide range write keeps the flags of the value it changes. -/
theorem Sim.PlainOn.wideRangeStoreNbaXz (plain : s.PlainOn V)
    (table : ∀ id, V id → (s.signalTable id).Plain) (ok : s.QueueOk D) {id lo hi : Nat}
    (short : hi + 1 - lo ≤ 64) (v x : Word) :
    (tsWideRangeStoreNbaXz D s id lo hi v x).PlainOn V := by
  refine plain.edit ok (fun member => ?_) ?_
  · simp only [LawfulValueOps.splice_planes _ _ _ _ _ short]
    exact plain id member
  · refine plain.pushIf ok fun member => ?_
    simp only [LawfulValueOps.splice_planes _ _ _ _ _ short]
    exact table id member

/-- A fill of a window keeps the flags of the value it changes. -/
theorem Sim.PlainOn.wideRangeFillNba (plain : s.PlainOn V)
    (table : ∀ id, V id → (s.signalTable id).Plain) (ok : s.QueueOk D) (id lo hi bit : Nat) :
    (tsWideRangeFillNba D s id lo hi bit).PlainOn V := by
  have fill : ∀ v : Value, _ := fun v =>
    -- Filling writes bits and leaves the kind alone.
    (spliceFill_eq (fun _ => fillWord bit) (fun _ => 0#64) (a := bit) (b := 0)
      (fun _ _ i _ => getLsbD_fillWord bit i (by omega)) (fun _ _ i _ => by simp) (hi + 1) v lo
      (hi + 1) (by omega)).1
  refine plain.edit ok (fun member => ?_) ?_
  · simp only [fill]
    exact plain id member
  · refine plain.pushIf ok fun member => ?_
    simp only [fill]
    exact table id member

/-- A window taken over from a value keeps the flags of the value it changes. -/
theorem Sim.PlainOn.copyNba (plain : s.PlainOn V) (table : ∀ id, V id → (s.signalTable id).Plain)
    (ok : s.QueueOk D) {id low n : Nat} {val : Value} (inside : n ≤ val.width) :
    (copyNba s id low val n).PlainOn V := by
  refine plain.edit ok (fun member => ?_) ?_
  · simp only [LawfulVmOps.copyBitsFrom_eq _ _ _ _ inside]
    exact plain id member
  · refine plain.pushIf ok fun member => ?_
    simp only [LawfulVmOps.copyBitsFrom_eq _ _ _ _ inside]
    exact table id member

/-- A write of one bit keeps the flags of the value it changes. -/
theorem Sim.PlainOn.bitNba (plain : s.PlainOn V) (table : ∀ id, V id → (s.signalTable id).Plain)
    (ok : s.QueueOk D) (id idx : Nat) (bit : LogicBit) : (bitNba s id idx bit).PlainOn V := by
  -- Setting a bit leaves the kind alone.
  refine plain.edit ok (fun member => ?_) ?_
  · simp only [LawfulVmOps.setBit_eq]
    exact plain id member
  · split
    · exact plain
    · refine plain.push ok fun member => ?_
      simp only [LawfulVmOps.setBit_eq]
      exact table id member

/-- A window written bit by bit keeps the flags of the value it changes. -/
theorem Sim.PlainOn.bitsNba (plain : s.PlainOn V) (table : ∀ id, V id → (s.signalTable id).Plain)
    (ok : s.QueueOk D) {id low high : Nat} {val : Value} (inside : high + 1 - low ≤ val.width) :
    (bitsNba s id val low high).PlainOn V := by
  refine plain.edit ok (fun member => ?_) ?_
  · simp only [setBits_eq _ _ _ _ inside]
    exact plain id member
  · refine plain.pushIf ok fun member => ?_
    simp only [setBits_eq _ _ _ _ inside]
    exact table id member

end Flags

end Xezim
