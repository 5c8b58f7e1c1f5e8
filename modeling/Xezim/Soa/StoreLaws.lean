import Mathlib.Data.List.Induction
import Xezim.Soa.Signals

/-! The signal store shows what was last written, on every path. -/

namespace Xezim.Soa

open Splice

/-- The flags of a signal say how it is declared. -/
structure Declares (f : Byte) (d : SignalDecl) : Prop where
  signed : decide (f &&& flagSigned ≠ 0) = d.isSigned
  twoState : decide (f &&& flagTwoState ≠ 0) = d.twoState
  real : decide (f &&& flagReal ≠ 0) = d.isReal

/-- The flags of a value declare a four-state signal. -/
theorem declares_valueFlags (v : Value) : Declares (valueFlags v) ⟨v.width, v.isSigned, v.isReal, false⟩ := by
  unfold valueFlags
  cases v.isSigned <;> cases v.isReal <;> exact ⟨rfl, rfl, rfl⟩

/-- Adding the two-state flag declares the signal two-state. -/
theorem Declares.twoStateAdded {f : Byte} {d : SignalDecl} (declares : Declares f d) :
    Declares (f ||| flagTwoState) { d with twoState := true } := by
  -- Each flag is a bit of its own, so setting one leaves the others.
  have parts : ∀ a : Byte, (f ||| flagTwoState) &&& a = f &&& a ||| flagTwoState &&& a := by
    intro a
    refine BitVec.eq_of_getLsbD_eq fun i _ => ?_
    simp only [BitVec.getLsbD_and, BitVec.getLsbD_or, Bool.and_or_distrib_right]
  refine ⟨?_, ?_, ?_⟩
  · rw [← declares.signed, parts, show flagTwoState &&& flagSigned = 0#8 from rfl, BitVec.or_zero]
  · rw [decide_eq_true_eq]
    intro clear
    have bit := congrArg (BitVec.getLsbD · 1) clear
    simp only [parts, BitVec.getLsbD_or] at bit
    rw [show (flagTwoState &&& flagTwoState).getLsbD 1 = true from rfl, Bool.or_true] at bit
    exact absurd bit (by decide)
  · rw [← declares.real, parts, show flagTwoState &&& flagReal = 0#8 from rfl, BitVec.or_zero]

/-- The words of planes that fit. -/
def wordsOf (p : Planes) : Word × Word := (BitVec.ofNat 64 p.1, BitVec.ofNat 64 p.2)

/-- Planes of a narrow signal are determined by their words. -/
theorem wordsOf_inj {d : SignalDecl} (narrow : d.width ≤ 64) {p q : Planes} (fitsP : d.Fits p) (fitsQ : d.Fits q)
    (same : wordsOf p = wordsOf q) : p = q := by
  have first := congrArg (fun w => w.1.toNat) same
  have second := congrArg (fun w => w.2.toNat) same
  simp only [wordsOf] at first second
  rw [toNat_ofNat_of_lt fitsP.1 narrow, toNat_ofNat_of_lt fitsQ.1 narrow] at first
  rw [toNat_ofNat_of_lt fitsP.2 narrow, toNat_ofNat_of_lt fitsQ.2 narrow] at second
  exact Prod.ext first second

/-- What `write_bits` stores are the words of what the signal keeps. -/
theorem maskedWords (d : SignalDecl) (val xz : Word) :
    (if d.twoState then (val &&& ~~~xz &&& xmask d.width, 0) else (val &&& xmask d.width, xz &&& xmask d.width)) =
      wordsOf (d.held (val.toNat, xz.toNat)) := by
  have kept := d.testBit_held (val.toNat, xz.toNat)
  -- A word is determined by its 64 bits.
  have bits : ∀ (a : Word) (n : Nat), (∀ i, i < 64 → a.getLsbD i = n.testBit i) → a = BitVec.ofNat 64 n := by
    intro a n same
    refine BitVec.eq_of_getLsbD_eq fun i inside => ?_
    rw [BitVec.getLsbD_ofNat, decide_eq_true inside, Bool.true_and, same i inside]
  unfold wordsOf
  -- A two-state signal drops its unknown bits, and a four-state one keeps them.
  cases state : d.twoState
  · rw [if_neg (by decide)]
    refine Prod.ext (bits _ _ fun i inside => ?_) (bits _ _ fun i inside => ?_)
    · rw [(kept i).1, state]
      simp only [BitVec.getLsbD_and, getLsbD_xmask, inside, and_true, testBit_toNat, Bool.false_and, Bool.not_false,
        Bool.and_true]
      exact Bool.and_comm ..
    · rw [(kept i).2, state]
      simp only [BitVec.getLsbD_and, getLsbD_xmask, inside, and_true, testBit_toNat, Bool.not_false, Bool.and_true]
      exact Bool.and_comm ..
  · rw [if_pos rfl]
    refine Prod.ext (bits _ _ fun i inside => ?_) (bits _ _ fun i inside => ?_)
    · rw [(kept i).1, state]
      simp only [BitVec.getLsbD_and, BitVec.getLsbD_not, getLsbD_xmask, inside, and_true, decide_true, testBit_toNat,
        Bool.true_and, Bool.and_comm]
    · rw [(kept i).2, state]
      simp

/-- The codes of packed planes. -/
theorem codeAt_pack (d : SignalDecl) (p : Planes) (i : Nat) :
    codeAt (logicBitsToPacked (d.bits p)) i =
      if i < d.width then (p.1.testBit i, p.2.testBit i) else (false, false) := by
  rw [codeAt_logicBitsToPacked, d.bits_get]

/-- Packed planes that fit are determined by their bytes. -/
theorem pack_inj {d : SignalDecl} {p q : Planes} (fitsP : d.Fits p) (fitsQ : d.Fits q)
    (same : logicBitsToPacked (d.bits p) = logicBitsToPacked (d.bits q)) : p = q := by
  refine d.bits_inj fitsP fitsQ ?_
  refine List.map_congr_left fun i inside => ?_
  have code := congrArg (codeAt · i) same
  simpa only [codeAt_pack, if_pos (List.mem_range.mp inside)] using code

section Writes

variable [VmOps] [LawfulVmOps]

/-- What `write_wide_value` stores are the bytes of what the signal keeps. -/
theorem foldedBytes (d : SignalDecl) {v : Value} (width : v.width = d.width) :
    (if d.twoState then (logicBitsToPacked (PackedWideSignalArray.collectBits v d.width)).map foldByte
      else logicBitsToPacked (PackedWideSignalArray.collectBits v d.width)) =
      logicBitsToPacked (d.bits (d.held (v.val, v.xz))) := by
  -- The bits are collected one by one, up to the width.
  have collected : PackedWideSignalArray.collectBits v d.width = d.bits (v.val, v.xz) := by
    refine List.map_congr_left fun i inside => ?_
    exact LawfulVmOps.getBit_eq v i (by rw [width]; exact List.mem_range.mp inside)
  have size : ∀ p : Planes, (logicBitsToPacked (d.bits p)).length = (d.width + 3) / 4 := by
    intro p
    rw [length_logicBitsToPacked, SignalDecl.bits, List.length_map, List.length_range]
  rw [collected]
  -- Packing position by position is packing what is held.
  refine packed_ext ?_ fun i => ?_
  · split
    · rw [List.length_map, size, size]
    · rw [size, size]
  · -- Folding a code drops its unknown bit.
    have kept := d.testBit_held (v.val, v.xz) i
    rw [codeAt_pack, kept.1, kept.2]
    cases d.twoState
    · rw [if_neg (by decide), codeAt_pack]
      by_cases inside : i < d.width
      · simp [inside]
      · simp [inside]
    · rw [if_pos rfl, codeAt_fold, codeAt_pack]
      by_cases inside : i < d.width
      · simp [inside]
      · simp [inside]

/-- Setting the bits of a value from a position on. -/
theorem setBits (bits : List LogicBit) : ∀ (v : Value) (k : Nat), k + bits.length = v.width → v.Fits →
    ∃ val xz, (bits.zipIdx k).foldl (fun val entry => VmOps.setBit val entry.2 entry.1) v = { v with val, xz } ∧
      (val < 2 ^ v.width ∧ xz < 2 ^ v.width) ∧ ∀ i, i < v.width →
        (val.testBit i, xz.testBit i) =
          if i < k then (v.val.testBit i, v.xz.testBit i) else bits[i - k]?.getD (false, false) := by
  induction bits with
  | nil =>
    intro v k whole fits
    rw [List.length_nil] at whole
    refine ⟨v.val, v.xz, rfl, fits, fun i inside => ?_⟩
    rw [if_pos (by omega)]
  | cons bit bits ih =>
    intro v k whole fits
    rw [List.length_cons] at whole
    have set := LawfulVmOps.setBit_eq v k bit
    obtain ⟨val, xz, result, small, each⟩ := ih (v.write k 1 bit.1.toNat bit.2.toNat) (k + 1)
      (by rw [Value.write_width]; omega) (fits.write ..)
    rw [List.zipIdx_cons, List.foldl_cons, set, result]
    refine ⟨val, xz, rfl, small, fun i inside => ?_⟩
    -- Setting one bit leaves those before and after it.
    rw [each i inside, Value.testBit_write_val _ _ _ _ _ _ inside, Value.testBit_write_xz _ _ _ _ _ _ inside]
    rcases Nat.lt_trichotomy i k with before | here | after
    · rw [if_pos (by omega), if_neg (by omega), if_neg (by omega), if_pos before]
    · subst here
      rw [if_pos (by omega), if_pos (by omega), if_pos (by omega), if_neg (by omega)]
      obtain ⟨x, y⟩ := bit
      cases x <;> cases y <;> simp
    · rw [if_neg (by omega), if_neg (by omega), show i - k = i - (k + 1) + 1 by omega, List.getElem?_cons_succ]

/-- A value built bit by bit from packed planes. -/
theorem unpacked_value (d : SignalDecl) {p : Planes} (fits : d.Fits p) :
    (packedToLogicBits (logicBitsToPacked (d.bits p)) d.width).zipIdx.foldl
      (fun val entry => VmOps.setBit val entry.2 entry.1)
      { (ValueOps.new d.width : Value) with isSigned := d.isSigned, isReal := d.isReal } = d.value p := by
  -- The value starts with every bit unknown, and every one of them is set.
  obtain ⟨width, val, xz⟩ := LawfulValueOps.new_planes d.width
  have fill := (LawfulVmOps.new_bits d.width).2
  have blank : ({ (ValueOps.new d.width : Value) with isSigned := d.isSigned, isReal := d.isReal } : Value) =
      ⟨d.width, 0, ones d.width, d.isSigned, d.isReal, false⟩ := by
    rw [Value.mk.injEq]
    exact ⟨width, val, xz, rfl, rfl, fill⟩
  have size : (packedToLogicBits (logicBitsToPacked (d.bits p)) d.width).length = d.width := by
    rw [packedToLogicBits, List.length_map, List.length_range]
  have pos : 0 < 2 ^ d.width := Nat.two_pow_pos _
  have full : ones d.width < 2 ^ d.width := by
    unfold ones
    omega
  rw [blank]
  obtain ⟨val, xz, result, small, each⟩ :=
    setBits (packedToLogicBits (logicBitsToPacked (d.bits p)) d.width)
      ⟨d.width, 0, ones d.width, d.isSigned, d.isReal, false⟩ 0 (by rw [Nat.zero_add, size]) ⟨pos, full⟩
  -- A bit unpacked is the bit packed.
  have bit : ∀ i, i < d.width → (val.testBit i, xz.testBit i) = (p.1.testBit i, p.2.testBit i) := by
    intro i inside
    rw [each i inside, if_neg (by omega), packedToLogicBits_eq, Nat.sub_zero, List.getElem?_map,
      List.getElem?_range inside]
    rw [Option.map_some, Option.getD_some, codeAt_pack, if_pos inside]
  rw [result, SignalDecl.value, Value.mk.injEq]
  refine ⟨rfl, plane_ext fun i => ?_, plane_ext fun i => ?_, rfl, rfl, rfl⟩
  · -- Above the width both planes are clear.
    by_cases inside : i < d.width
    · exact congrArg Prod.fst (bit i inside)
    · rw [testBit_of_lt small.1 (Nat.le_of_not_lt inside), testBit_of_lt fits.1 (Nat.le_of_not_lt inside)]
  · by_cases inside : i < d.width
    · exact congrArg Prod.snd (bit i inside)
    · rw [testBit_of_lt small.2 (Nat.le_of_not_lt inside), testBit_of_lt fits.2 (Nat.le_of_not_lt inside)]

end Writes

/-- Where a store keeps the planes of a signal. -/
inductive Slot (s : SoaSignalStore) (id : Nat) (d : SignalDecl) (p : Planes) : Prop where
  | inline (narrow : d.width ≤ 64) (routed : s.route id = inlineSentinel) (f : Byte)
      (width : s.inline.widths[id]? = some d.width) (flags : s.inline.flags[id]? = some f) (declares : Declares f d)
      (val : s.inline.valBits[id]? = some (wordsOf p).1) (xz : s.inline.xzBits[id]? = some (wordsOf p).2)
  | wide (broad : 64 < d.width) (routed : s.route id ≠ inlineSentinel) (f : Byte)
      (inside : s.route id < s.wide.len) (width : s.wide.widths[s.route id]? = some d.width)
      (flags : s.wide.flags[s.route id]? = some f) (declares : Declares f d)
      (data : s.wide.data[s.route id]? = some (logicBitsToPacked (d.bits p)))

section Reads

variable [VmOps] [LawfulVmOps] {s : SoaSignalStore} {id : Nat} {d : SignalDecl} {p : Planes}

/-- A signal reads as the planes of its slot. -/
theorem Slot.read (slot : Slot s id d p) (fits : d.Fits p) : s.readTransientValue id = d.value p := by
  unfold SoaSignalStore.readTransientValue
  -- A narrow signal is read from its words, and a wide one is unpacked.
  cases slot with
  | inline narrow routed f width flags declares val xz =>
    obtain ⟨valPlane, xzPlane⟩ := LawfulValueOps.fromInline_planes (wordsOf p).1 (wordsOf p).2 d.width narrow
    rw [if_neg (by rw [routed]; exact not_not_intro rfl)]
    simp only [InlineSignalArray.toTransientValue, InlineSignalArray.getBits, InlineSignalArray.getWidth,
      InlineSignalArray.isSigned, InlineSignalArray.isReal, val, xz, width, flags, Option.getD_some,
      declares.signed, declares.real]
    rw [SignalDecl.value, Value.mk.injEq, valPlane, xzPlane]
    exact ⟨LawfulValueOps.fromInline_width .., toNat_ofNat_of_lt fits.1 narrow, toNat_ofNat_of_lt fits.2 narrow, rfl,
      rfl, (LawfulVmOps.fromInline_bits ..).2⟩
  | wide broad routed f inside width flags declares data =>
    rw [if_pos routed]
    simp only [PackedWideSignalArray.toTransientValue, width, flags, data, Option.getD_some, declares.signed,
      declares.real]
    exact unpacked_value d fits

omit [VmOps] [LawfulVmOps] in
/-- The inline bits of a signal are the low words of its planes. -/
theorem Slot.low (slot : Slot s id d p) : s.getInlineBits id = (d.value p).planes := by
  unfold SoaSignalStore.getInlineBits
  -- A narrow signal has its words at hand, and a wide one decodes the low ones.
  cases slot with
  | inline narrow routed f width flags declares val xz =>
    rw [if_neg (by rw [routed]; exact not_not_intro rfl)]
    simp only [InlineSignalArray.getBits, val, xz, Option.getD_some]
    rfl
  | wide broad routed f inside width flags declares data =>
    rw [if_pos routed]
    simp only [PackedWideSignalArray.getLowBits, if_neg (Nat.not_le.mpr inside), width, data, Option.getD_some]
    have bit := planesAt_decodePackedLowBits (logicBitsToPacked (d.bits p)) d.width
    have low : ∀ i, i < 64 → planesAt (decodePackedLowBits (logicBitsToPacked (d.bits p)) d.width) i =
        (p.1.testBit i, p.2.testBit i) := by
      intro i word
      rw [bit, if_pos (by omega), codeAt_pack, if_pos (by omega)]
    refine Prod.ext (BitVec.eq_of_getLsbD_eq fun i word => ?_) (BitVec.eq_of_getLsbD_eq fun i word => ?_)
    · rw [SignalDecl.value, Value.planes, BitVec.getLsbD_ofNat, decide_eq_true word, Bool.true_and]
      exact congrArg Prod.fst (low i word)
    · rw [SignalDecl.value, Value.planes, BitVec.getLsbD_ofNat, decide_eq_true word, Bool.true_and]
      exact congrArg Prod.snd (low i word)

omit [VmOps] [LawfulVmOps] in
/-- A signal has an unknown bit precisely when its unknown plane is not zero. -/
theorem Slot.unknown (slot : Slot s id d p) (fits : d.Fits p) : s.hasXz id = decide (p.2 ≠ 0) := by
  unfold SoaSignalStore.hasXz
  -- A narrow signal tests its word, and a wide one its packed codes.
  cases slot with
  | inline narrow routed f width flags declares val xz =>
    rw [if_neg (by rw [routed]; exact not_not_intro rfl)]
    simp only [InlineSignalArray.hasXz, xz, Option.getD_some, wordsOf]
    rw [decide_eq_decide, not_iff_not]
    constructor
    · intro zero
      rw [← toNat_ofNat_of_lt fits.2 narrow, zero]
      rfl
    · intro zero
      rw [zero]
      rfl
  | wide broad routed f inside width flags declares data =>
    rw [if_pos routed]
    simp only [PackedWideSignalArray.hasXz, data, Option.getD_some]
    rw [Bool.eq_iff_iff, any_unknown, decide_eq_true_eq]
    constructor
    · rintro ⟨i, set⟩ zero
      rw [codeAt_pack, zero] at set
      split at set <;> simp at set
    · -- A bit of the unknown plane is inside the width.
      intro nonzero
      obtain ⟨i, set⟩ := Nat.exists_testBit_of_ne_zero nonzero
      have here : i < d.width := by
        by_contra far
        rw [testBit_of_lt fits.2 (by omega)] at set
        exact absurd set (by decide)
      exact ⟨i, by rw [codeAt_pack, if_pos here]; exact set⟩

end Reads

end Xezim.Soa
