import Xezim.Vm.Ops

/-! Logical bits packed four to a byte. -/

namespace Xezim.Soa

/-- One byte of packed codes. -/
abbrev Byte := BitVec 8

/-- `to_packed`: zero, one, x and z. -/
def toPacked : LogicBit → Byte
  | (false, false) => 0b00
  | (true, false) => 0b01
  | (false, true) => 0b10
  | (true, true) => 0b11

/-- `from_packed`. -/
def fromPacked (packed : Byte) : LogicBit :=
  if packed &&& 0b11 = 0b00 then (false, false)
  else if packed &&& 0b11 = 0b01 then (true, false)
  else if packed &&& 0b11 = 0b10 then (false, true)
  else (true, true)

/-- One round of the loop of `logic_bits_to_packed`. -/
def packBit (packed : List Byte) (i : Nat) (bit : LogicBit) : List Byte :=
  packed.modify (i / 4) fun byte => byte ||| toPacked bit <<< (i % 4 * 2)

/-- `logic_bits_to_packed`. -/
def logicBitsToPacked (bits : List LogicBit) : List Byte :=
  bits.zipIdx.foldl (fun packed entry => packBit packed entry.2 entry.1) (List.replicate ((bits.length + 3) / 4) 0)

/-- `packed_to_logic_bits`. -/
def packedToLogicBits (packed : List Byte) (len : Nat) : List LogicBit :=
  (List.range len).map fun i => fromPacked (packed[i / 4]?.getD 0 >>> (i % 4 * 2) &&& 0b11)

/-- One round of the inner loop of `decode_packed_low_bits`: the planes with one code added. -/
def decodeCode (acc : Word × Word) (byte : Byte) (bIdx bitInByte : Nat) : Word × Word :=
  let code := byte >>> (bitInByte * 2) &&& 0b11
  (acc.1 ||| (code &&& 1).setWidth 64 <<< (bIdx * 4 + bitInByte),
    acc.2 ||| (code >>> 1 &&& 1).setWidth 64 <<< (bIdx * 4 + bitInByte))

/-- The inner loop of `decode_packed_low_bits`, which breaks at the last bit to read. -/
def decodeByte (bitsToRead : Nat) (acc : Word × Word) (byte : Byte) (bIdx : Nat) : Word × Word :=
  ((List.range 4).takeWhile fun r => bIdx * 4 + r < bitsToRead).foldl (fun acc r => decodeCode acc byte bIdx r) acc

/-- `decode_packed_low_bits`. -/
def decodePackedLowBits (data : List Byte) (width : Nat) : Word × Word :=
  let bitsToRead := min width 64
  (data.take ((bitsToRead + 3) / 4)).zipIdx.foldl
    (fun acc entry => decodeByte bitsToRead acc entry.1 entry.2) (0, 0)

/-- The two-state fold of `write_wide_value`: known ones stay. -/
def foldByte (byte : Byte) : Byte := byte &&& ~~~(byte >>> 1) &&& 0x55

section Codes

/-- The code a packed list holds at a position. -/
def codeAt (packed : List Byte) (i : Nat) : LogicBit :=
  ((packed[i / 4]?.getD 0).getLsbD (i % 4 * 2), (packed[i / 4]?.getD 0).getLsbD (i % 4 * 2 + 1))

/-- A packed code has its two planes as its low bits. -/
theorem getLsbD_toPacked (bit : LogicBit) (p : Nat) :
    (toPacked bit).getLsbD p = (decide (p = 0) && bit.1 || decide (p = 1) && bit.2) := by
  obtain ⟨val, xz⟩ := bit
  -- The two planes of a code are its low bits, and no bit is above them.
  match p with
  | 0 => cases val <;> cases xz <;> rfl
  | 1 => cases val <;> cases xz <;> rfl
  | p + 2 =>
    have far : (2 : Nat) ^ (p + 2) ≥ 4 := by
      have := Nat.pow_le_pow_right (n := 2) (by decide) (show 2 ≤ p + 2 by omega)
      simpa using this
    have small : (toPacked (val, xz)).toNat < 4 := by cases val <;> cases xz <;> decide
    have clear : (toPacked (val, xz)).getLsbD (p + 2) = false := Nat.testBit_lt_two_pow (by omega)
    simpa using clear

/-- A code is read from its two low bits. -/
theorem fromPacked_eq (packed : Byte) : fromPacked packed = (packed.getLsbD 0, packed.getLsbD 1) := by
  -- Only the two low bits are read, and there are four cases of them.
  have low : ∀ c : Fin 4, fromPacked (BitVec.ofNat 8 c.val) = (c.val.testBit 0, c.val.testBit 1) := by decide
  have masked : packed &&& 0b11 = BitVec.ofNat 8 (packed.toNat % 4) := by
    apply BitVec.eq_of_toNat_eq
    have mask := Nat.and_two_pow_sub_one_eq_mod packed.toNat 2
    simp only [BitVec.toNat_and, BitVec.toNat_ofNat]
    simp at mask ⊢
    omega
  have same : fromPacked packed = fromPacked (packed &&& 0b11) := by
    simp only [fromPacked, BitVec.and_assoc, BitVec.and_self]
  have code := low ⟨packed.toNat % 4, Nat.mod_lt _ (by decide)⟩
  rw [same, masked, code]
  refine Prod.ext ?_ ?_
  · change (packed.toNat % 2 ^ 2).testBit 0 = packed.toNat.testBit 0
    rw [Nat.testBit_mod_two_pow]
    simp
  · change (packed.toNat % 2 ^ 2).testBit 1 = packed.toNat.testBit 1
    rw [Nat.testBit_mod_two_pow]
    simp

/-- The unpacked bits are the codes. -/
theorem packedToLogicBits_eq (packed : List Byte) (len : Nat) :
    packedToLogicBits packed len = (List.range len).map (codeAt packed) := by
  unfold packedToLogicBits
  -- Position by position, the code shifted down is the code stored.
  refine List.map_congr_left fun i _ => ?_
  rw [fromPacked_eq, codeAt]
  simp only [BitVec.getLsbD_and, BitVec.getLsbD_ushiftRight]
  refine Prod.ext ?_ ?_
  · change (_ && true) = _
    rw [Bool.and_true, Nat.add_zero]
  · change (_ && true) = _
    rw [Bool.and_true]

/-- A round of packing adds one code. -/
theorem codeAt_packBit {packed : List Byte} {k : Nat} (room : k / 4 < packed.length) (bit : LogicBit) (i : Nat) :
    codeAt (packBit packed k bit) i =
      if i = k then ((codeAt packed k).1 || bit.1, (codeAt packed k).2 || bit.2) else codeAt packed i := by
  unfold codeAt packBit
  rw [List.getElem?_modify]
  by_cases byte : k / 4 = i / 4
  · have here : i / 4 < packed.length := by omega
    simp only [byte, if_true, List.getElem?_eq_getElem here, Option.map_eq_map, Option.map_some, Option.getD_some,
      BitVec.getLsbD_or, BitVec.getLsbD_shiftLeft, getLsbD_toPacked]
    by_cases same : i = k
    · subst same
      have inside : i % 4 * 2 < 8 ∧ i % 4 * 2 + 1 < 8 := by omega
      simp [inside.1, inside.2, show ¬ i % 4 * 2 + 1 < i % 4 * 2 by omega]
    · -- Another code of the byte has its bits below or above the added ones.
      rw [if_neg same]
      rcases Nat.lt_or_ge i k with before | after
      · have low : i % 4 * 2 < k % 4 * 2 ∧ i % 4 * 2 + 1 < k % 4 * 2 := by omega
        simp [low.1, low.2]
      · have high : i % 4 * 2 - k % 4 * 2 ≠ 0 ∧ i % 4 * 2 - k % 4 * 2 ≠ 1 ∧ i % 4 * 2 + 1 - k % 4 * 2 ≠ 0 ∧
            i % 4 * 2 + 1 - k % 4 * 2 ≠ 1 := by omega
        simp only [high, decide_false, Bool.false_and, Bool.or_false, Bool.and_false]
  · have other : i ≠ k := by
      rintro rfl
      exact byte rfl
    simp [byte, other]

/-- Packing makes no byte more. -/
@[simp] theorem length_packBit (packed : List Byte) (i : Nat) (bit : LogicBit) :
    (packBit packed i bit).length = packed.length := by
  simp [packBit]

/-- The loop of packing from a position on. -/
theorem packFrom (bits : List LogicBit) : ∀ (packed : List Byte) (k : Nat), k + bits.length ≤ 4 * packed.length →
    (∀ i, k ≤ i → codeAt packed i = (false, false)) →
    ((bits.zipIdx k).foldl (fun packed entry => packBit packed entry.2 entry.1) packed).length = packed.length ∧
      ∀ i, codeAt ((bits.zipIdx k).foldl (fun packed entry => packBit packed entry.2 entry.1) packed) i =
        if i < k then codeAt packed i else bits[i - k]?.getD (false, false) := by
  -- The codes are packed in order, each into positions that are still clear.
  induction bits with
  | nil =>
    intro packed k _ clear
    refine ⟨rfl, fun i => ?_⟩
    split
    · rfl
    · exact clear i (by omega)
  | cons bit bits ih =>
    intro packed k room clear
    rw [List.length_cons] at room
    have inside : k / 4 < packed.length := by omega
    have step := codeAt_packBit inside bit
    -- What is packed later leaves the positions before it.
    obtain ⟨length, codes⟩ := ih (packBit packed k bit) (k + 1) (by rw [length_packBit]; omega) (by
      intro i beyond
      rw [step, if_neg (by omega)]
      exact clear i (by omega))
    rw [List.zipIdx_cons, List.foldl_cons]
    refine ⟨length.trans (length_packBit ..), fun i => ?_⟩
    rw [codes i, step]
    rcases Nat.lt_trichotomy i k with before | here | after
    · rw [if_pos (by omega), if_neg (by omega), if_pos before]
    · subst here
      rw [if_pos (by omega), if_pos rfl, if_neg (by omega), clear i (Nat.le_refl i)]
      simp
    · rw [if_neg (by omega), if_neg (by omega), show i - k = i - (k + 1) + 1 by omega, List.getElem?_cons_succ]

/-- Packed bits take a byte for each four. -/
@[simp] theorem length_logicBitsToPacked (bits : List LogicBit) :
    (logicBitsToPacked bits).length = (bits.length + 3) / 4 := by
  have room : 0 + bits.length ≤ 4 * (List.replicate ((bits.length + 3) / 4) (0 : Byte)).length := by
    rw [List.length_replicate]
    omega
  rw [logicBitsToPacked, (packFrom bits _ 0 room ?_).1, List.length_replicate]
  intro i _
  simp only [codeAt, List.getElem?_replicate]
  split <;> simp

/-- Packed bits are read back, with zeros after them. -/
theorem codeAt_logicBitsToPacked (bits : List LogicBit) (i : Nat) :
    codeAt (logicBitsToPacked bits) i = bits[i]?.getD (false, false) := by
  have room : 0 + bits.length ≤ 4 * (List.replicate ((bits.length + 3) / 4) (0 : Byte)).length := by
    rw [List.length_replicate]
    omega
  rw [logicBitsToPacked, (packFrom bits _ 0 room ?_).2, if_neg (by omega), Nat.sub_zero]
  intro i _
  simp only [codeAt, List.getElem?_replicate]
  split <;> simp

/-- Lists of one length with the same codes are the same. -/
theorem packed_ext {p q : List Byte} (length : p.length = q.length) (codes : ∀ i, codeAt p i = codeAt q i) : p = q := by
  -- Every bit of every byte belongs to one code.
  refine List.ext_getElem length fun j inP inQ => ?_
  refine BitVec.eq_of_getLsbD_eq fun b inside => ?_
  have code := codes (4 * j + b / 2)
  have slot : (4 * j + b / 2) / 4 = j ∧ (4 * j + b / 2) % 4 = b / 2 := by omega
  simp only [codeAt, slot.1, slot.2, List.getElem?_eq_getElem inP, List.getElem?_eq_getElem inQ, Option.getD_some,
    Prod.mk.injEq] at code
  rcases Nat.mod_two_eq_zero_or_one b with even | odd
  · rw [show b = b / 2 * 2 by omega]
    exact code.1
  · rw [show b = b / 2 * 2 + 1 by omega]
    exact code.2

/-- The fold keeps the known ones of every code. -/
theorem codeAt_fold (packed : List Byte) (i : Nat) :
    codeAt (packed.map foldByte) i = ((codeAt packed i).1 && !(codeAt packed i).2, false) := by
  -- The mask keeps the value plane's positions.
  have ones : ∀ r < 4, (0x55 : Byte).getLsbD (r * 2) = true ∧ (0x55 : Byte).getLsbD (r * 2 + 1) = false := by decide
  obtain ⟨even, odd⟩ := ones (i % 4) (Nat.mod_lt _ (by decide))
  have inside : i % 4 * 2 < 8 := by omega
  simp only [codeAt, List.getElem?_map]
  cases packed[i / 4]? with
  | none => simp
  | some byte =>
    simp only [Option.map_some, Option.getD_some, foldByte, BitVec.getLsbD_and, BitVec.getLsbD_not,
      BitVec.getLsbD_ushiftRight, even, odd, inside, decide_true, Bool.true_and, Bool.and_true, Bool.and_false,
      Nat.add_comm 1]

/-- Some code is unknown precisely when a byte shows it. -/
theorem any_unknown (packed : List Byte) :
    (packed.any fun byte => byte &&& 0xAA ≠ 0) = true ↔ ∃ i, (codeAt packed i).2 = true := by
  -- A byte has an unknown code where it has a bit of the unknown plane.
  have unknowns : ∀ byte : Byte, byte &&& 0xAA ≠ 0 ↔ ∃ r, r < 4 ∧ byte.getLsbD (r * 2 + 1) = true := by
    intro byte
    have high : ∀ b, (0xAA : Byte).getLsbD b = true ↔ ∃ r, r < 4 ∧ b = r * 2 + 1 := by
      intro b
      by_cases inside : b < 8
      · have all : ∀ b < 8, (0xAA : Byte).getLsbD b = decide (b % 2 = 1) := by decide
        rw [all b inside, decide_eq_true_eq]
        refine ⟨fun odd => ⟨b / 2, by omega, by omega⟩, ?_⟩
        rintro ⟨r, _, rfl⟩
        omega
      · rw [BitVec.getLsbD_of_ge _ _ (by omega)]
        refine ⟨by simp, ?_⟩
        rintro ⟨r, small, rfl⟩
        omega
    constructor
    · intro some
      by_contra none
      refine some (BitVec.eq_of_getLsbD_eq fun b _ => ?_)
      rw [BitVec.getLsbD_and]
      cases mask : (0xAA : Byte).getLsbD b with
      | false => simp
      | true =>
        obtain ⟨r, small, rfl⟩ := (high b).mp mask
        have clear : byte.getLsbD (r * 2 + 1) = false := by
          by_contra set
          exact none ⟨r, small, by simpa using set⟩
        simp [clear]
    · rintro ⟨r, small, set⟩ zero
      have bit := congrArg (BitVec.getLsbD · (r * 2 + 1)) zero
      simp only [BitVec.getLsbD_and, set, (high _).mpr ⟨r, small, rfl⟩] at bit
      simp at bit
  rw [List.any_eq_true]
  -- A byte of the array holds four codes.
  constructor
  · rintro ⟨byte, found, set⟩
    obtain ⟨j, inside, rfl⟩ := List.mem_iff_getElem.mp found
    obtain ⟨r, small, bit⟩ := (unknowns _).mp (by simpa using set)
    refine ⟨4 * j + r, ?_⟩
    have slot : (4 * j + r) / 4 = j ∧ (4 * j + r) % 4 = r := by omega
    simp only [codeAt, slot.1, slot.2, List.getElem?_eq_getElem inside, Option.getD_some, bit]
  · rintro ⟨i, set⟩
    by_cases inside : i / 4 < packed.length
    · refine ⟨packed[i / 4], List.getElem_mem inside, ?_⟩
      simp only [codeAt, List.getElem?_eq_getElem inside, Option.getD_some] at set
      simpa using (unknowns packed[i / 4]).mpr ⟨i % 4, Nat.mod_lt _ (by decide), set⟩
    · rw [codeAt, List.getElem?_eq_none (by omega)] at set
      simp at set

/-- The planes of two words at a position. -/
def planesAt (acc : Word × Word) (i : Nat) : LogicBit := (acc.1.getLsbD i, acc.2.getLsbD i)

/-- A decoded code is added at its position. -/
theorem planesAt_decodeCode (acc : Word × Word) (byte : Byte) (b r i : Nat) :
    planesAt (decodeCode acc byte b r) i =
      if i = b * 4 + r ∧ i < 64 then
        ((planesAt acc i).1 || byte.getLsbD (r * 2), (planesAt acc i).2 || byte.getLsbD (r * 2 + 1))
      else planesAt acc i := by
  -- A single bit shifted up is that bit at its place.
  have single : ∀ (code : Byte) (s i : Nat), ((code &&& 1).setWidth 64 <<< s : Word).getLsbD i =
      (decide (i = s ∧ i < 64) && code.getLsbD 0) := by
    intro code s i
    simp only [BitVec.getLsbD_shiftLeft, BitVec.getLsbD_setWidth, BitVec.getLsbD_and]
    by_cases here : i = s
    · subst here
      by_cases inside : i < 64
      · simp only [inside, Nat.lt_irrefl, decide_true, decide_false, Nat.sub_self, and_self]
        rw [show (1 : Byte).getLsbD 0 = true from rfl]
        simp
      · simp [inside]
    · by_cases before : i < s
      · simp [before, here]
      · have off : i - s ≠ 0 := by omega
        simp [here, off]
  unfold planesAt decodeCode
  dsimp only
  simp only [BitVec.getLsbD_or, single]
  -- The code at hand adds its planes at its own position.
  by_cases here : i = b * 4 + r ∧ i < 64
  · rw [if_pos here, decide_eq_true here]
    simp only [Bool.true_and, BitVec.getLsbD_and, BitVec.getLsbD_ushiftRight]
    refine Prod.ext ?_ ?_
    · change (_ || (_ && true)) = _
      rw [Bool.and_true, Nat.add_zero]
    · change (_ || (_ && true)) = _
      rw [Bool.and_true, Nat.add_zero]
  · rw [if_neg here, decide_eq_false here]
    simp

/-- The codes of a byte up to the last bit to read. -/
theorem takeWhile_range_four (b n : Nat) :
    ((List.range 4).takeWhile fun r => b * 4 + r < n) = List.range (min 4 (n - b * 4)) := by
  have all : List.range 4 = [0, 1, 2, 3] := rfl
  -- The loop over a byte stops at the first position beyond the width.
  rw [all]
  rcases Nat.lt_or_ge (b * 4 + 0) n with first | none
  · rcases Nat.lt_or_ge (b * 4 + 1) n with second | one
    · rcases Nat.lt_or_ge (b * 4 + 2) n with third | two
      · rcases Nat.lt_or_ge (b * 4 + 3) n with fourth | three
        · rw [show min 4 (n - b * 4) = 4 by omega]
          simp only [List.takeWhile, first, second, third, fourth, decide_true]
          rfl
        · rw [show min 4 (n - b * 4) = 3 by omega]
          simp only [List.takeWhile, first, second, third, Nat.not_lt.mpr three, decide_true, decide_false]
          rfl
      · rw [show min 4 (n - b * 4) = 2 by omega]
        simp only [List.takeWhile, first, second, Nat.not_lt.mpr two, decide_true, decide_false]
        rfl
    · rw [show min 4 (n - b * 4) = 1 by omega]
      simp only [List.takeWhile, first, Nat.not_lt.mpr one, decide_true, decide_false]
      rfl
  · rw [show min 4 (n - b * 4) = 0 by omega]
    simp only [List.takeWhile, Nat.not_lt.mpr none, decide_false]
    rfl

/-- A decoded byte adds its codes up to the last bit to read. -/
theorem planesAt_decodeByte {n : Nat} (word : n ≤ 64) (acc : Word × Word) (byte : Byte) (b i : Nat) :
    planesAt (decodeByte n acc byte b) i =
      if b * 4 ≤ i ∧ i < b * 4 + 4 ∧ i < n then
        ((planesAt acc i).1 || byte.getLsbD (i % 4 * 2), (planesAt acc i).2 || byte.getLsbD (i % 4 * 2 + 1))
      else planesAt acc i := by
  -- After the first m codes, the positions of those codes are added.
  have some : ∀ m, m ≤ 4 → b * 4 + m ≤ n ∨ m = 0 →
      planesAt ((List.range m).foldl (fun acc r => decodeCode acc byte b r) acc) i =
        if b * 4 ≤ i ∧ i < b * 4 + m then
          ((planesAt acc i).1 || byte.getLsbD (i % 4 * 2), (planesAt acc i).2 || byte.getLsbD (i % 4 * 2 + 1))
        else planesAt acc i := by
    intro m
    induction m with
    | zero =>
      intro _ _
      rw [if_neg (by omega)]
      rfl
    | succ m ih =>
      intro small inside
      rw [List.range_succ, List.foldl_append, List.foldl_cons, List.foldl_nil, planesAt_decodeCode,
        ih (by omega) (by omega)]
      by_cases here : i = b * 4 + m
      · rw [if_pos (by omega), if_neg (by omega), if_pos (by omega), show i % 4 = m by omega]
      · rw [if_neg (by omega)]
        by_cases earlier : b * 4 ≤ i ∧ i < b * 4 + m
        · rw [if_pos earlier, if_pos (by omega)]
        · rw [if_neg earlier, if_neg (by omega)]
  unfold decodeByte
  rw [takeWhile_range_four, some _ (by omega) (by omega)]
  by_cases here : b * 4 ≤ i ∧ i < b * 4 + 4 ∧ i < n
  · rw [if_pos here, if_pos (by omega)]
  · rw [if_neg here, if_neg (by omega)]

/-- The loop of decoding from a byte on. -/
theorem decodeFrom {n : Nat} (word : n ≤ 64) (bytes : List Byte) : ∀ (acc : Word × Word) (k i : Nat),
    (∀ i, k * 4 ≤ i → planesAt acc i = (false, false)) →
    planesAt ((bytes.zipIdx k).foldl (fun acc entry => decodeByte n acc entry.1 entry.2) acc) i =
      if i < k * 4 then planesAt acc i else if i < n then codeAt bytes (i - k * 4) else (false, false) := by
  -- Byte after byte, the positions before a byte are decided by the bytes before it.
  induction bytes with
  | nil =>
    intro acc k i clear
    rw [List.zipIdx_nil, List.foldl_nil]
    split
    · rfl
    · rw [clear i (by omega)]
      split <;> simp [codeAt]
  | cons byte bytes ih =>
    intro acc k i clear
    have step := planesAt_decodeByte word acc byte k
    rw [List.zipIdx_cons, List.foldl_cons, ih _ (k + 1) i]
    · -- A position lies before this byte, in it or after it.
      rcases Nat.lt_or_ge i (k * 4) with before | after
      · rw [if_pos (by omega), step, if_neg (by omega), if_pos before]
      · rw [if_neg (show ¬ i < k * 4 by omega)]
        by_cases here : i < (k + 1) * 4
        · rw [if_pos here, step, clear i after]
          by_cases inside : i < n
          · rw [if_pos (by omega), if_pos inside]
            have slot : (i - k * 4) / 4 = 0 ∧ (i - k * 4) % 4 = i % 4 := by omega
            simp [codeAt, slot.1, slot.2]
          · rw [if_neg (by omega), if_neg inside]
        · rw [if_neg here]
          have slot : (i - k * 4) / 4 = (i - (k + 1) * 4) / 4 + 1 ∧ (i - k * 4) % 4 = (i - (k + 1) * 4) % 4 := by
            omega
          simp only [codeAt, slot.1, slot.2, List.getElem?_cons_succ]
    · intro j beyond
      rw [step, if_neg (by omega)]
      exact clear j (by omega)

/-- The decoded words hold the low codes. -/
theorem planesAt_decodePackedLowBits (data : List Byte) (w i : Nat) :
    planesAt (decodePackedLowBits data w) i = if i < min w 64 then codeAt data i else (false, false) := by
  -- The loop starts from no bits at all.
  have blank : ∀ i, planesAt (0, 0) i = (false, false) := by simp [planesAt]
  unfold decodePackedLowBits
  dsimp only
  rw [decodeFrom (Nat.min_le_right ..) _ _ _ _ fun i _ => blank i, if_neg (by omega), Nat.zero_mul, Nat.sub_zero]
  split
  · have kept : i / 4 < (min w 64 + 3) / 4 := by omega
    simp only [codeAt, List.getElem?_take, if_pos kept]
  · rfl

end Codes

end Xezim.Soa
