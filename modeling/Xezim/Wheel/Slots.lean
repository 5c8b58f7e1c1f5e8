import Xezim.Wheel.TimingWheel

/-! The bitmap scan finds the occupied slot that is reached first from the clock. -/

namespace Xezim

open Function

/-- A nonzero word has its trailing zeros below its first set bit. -/
theorem trailingZeros_spec {w : Word} (nonzero : w ≠ 0#64) :
    trailingZeros w < 64 ∧ w.getLsbD (trailingZeros w) = true ∧
      ∀ i < trailingZeros w, w.getLsbD i = false := by
  cases found : (List.range 64).find? w.getLsbD with
  | none =>
    refine absurd (BitVec.eq_of_getLsbD_eq fun i bound => ?_) nonzero
    rw [BitVec.getLsbD_zero]
    simpa using List.find?_eq_none.mp found i (List.mem_range.mpr bound)
  | some i =>
    have here : trailingZeros w = i := by rw [trailingZeros, found, Option.getD_some]
    obtain ⟨set, bound, lower⟩ := List.find?_range_eq_some.mp found
    rw [here]
    exact ⟨List.mem_range.mp bound, set, fun j below => by simpa using lower j below⟩

/-- A slot has its bit set in the bitmap. -/
def slotSet (bitmap : Nat → Word) (slot : Nat) : Bool := (bitmap (slot / 64)).getLsbD (slot % 64)

/-- The word of a set slot is not zero. -/
theorem word_ne_of_slotSet {bitmap : Nat → Word} {slot : Nat} (set : slotSet bitmap slot = true) :
    bitmap (slot / 64) ≠ 0#64 := by
  intro zero
  rw [slotSet, zero, BitVec.getLsbD_zero] at set
  cases set

/-- A bit of a word without its bits below a position. -/
theorem getLsbD_maskFrom (w : Word) (bit i : Nat) :
    (w &&& (BitVec.allOnes 64 <<< bit)).getLsbD i = (w.getLsbD i && decide (bit ≤ i)) := by
  by_cases bound : i < 64
  · rw [BitVec.getLsbD_and, BitVec.getLsbD_shiftLeft, BitVec.getLsbD_allOnes]
    by_cases above : bit ≤ i
    · simp [bound, above, show ¬ i < bit by omega, show i - bit < 64 by omega]
    · simp [above, show i < bit by omega]
  · simp [BitVec.getLsbD_of_ge _ i (Nat.le_of_not_lt bound)]

/-- A bit of a word without its bits from a position on. -/
theorem getLsbD_maskBelow (w : Word) (bit i : Nat) :
    (w &&& ~~~(BitVec.allOnes 64 <<< bit)).getLsbD i = (w.getLsbD i && decide (i < bit)) := by
  by_cases bound : i < 64
  · rw [BitVec.getLsbD_and, BitVec.getLsbD_not, BitVec.getLsbD_shiftLeft, BitVec.getLsbD_allOnes]
    by_cases above : bit ≤ i
    · simp [bound, show ¬ i < bit by omega, show i - bit < 64 by omega]
    · simp [bound, show i < bit by omega]
  · simp [BitVec.getLsbD_of_ge _ i (Nat.le_of_not_lt bound)]

/-- The slot of a bit of a word. -/
theorem slotSet_word (bitmap : Nat → Word) {word bit : Nat} (bound : bit < 64) :
    slotSet bitmap (word * 64 + bit) = (bitmap word).getLsbD bit := by
  rw [slotSet, show (word * 64 + bit) / 64 = word by omega,
    show (word * 64 + bit) % 64 = bit by omega]

/-- A slot is the first occupied one that is reached from a start slot. -/
structure FirstFrom (bitmap : Nat → Word) (start slot : Nat) : Prop where
  bound : slot < wheelSize
  set : slotSet bitmap slot = true
  first : ∀ other < wheelSize, slotSet bitmap other = true →
    slotsAhead start slot ≤ slotsAhead start other

/-- A word whose low bits are masked off has its first bit at or behind the start. -/
theorem firstFrom_startWord {bitmap : Nat → Word} {start : Nat} (bound : start < wheelSize)
    (nonzero : bitmap (start / 64) &&& (BitVec.allOnes 64 <<< (start % 64)) ≠ 0#64) :
    FirstFrom bitmap start (start / 64 * 64 +
      trailingZeros (bitmap (start / 64) &&& (BitVec.allOnes 64 <<< (start % 64)))) := by
  obtain ⟨inside, set, lower⟩ := trailingZeros_spec nonzero
  generalize trailingZeros (bitmap (start / 64) &&& (BitVec.allOnes 64 <<< (start % 64))) = z at *
  rw [getLsbD_maskFrom, Bool.and_eq_true, decide_eq_true_eq] at set
  simp only [wheelSize] at *
  refine ⟨by simp only [wheelSize]; omega, by rw [slotSet_word _ inside]; exact set.1,
    fun other here set' => ?_⟩
  -- Another slot of the start word behind the start is not lower than the first one.
  have sameWord : other / 64 = start / 64 → start % 64 ≤ other % 64 → z ≤ other % 64 := by
    intro same behind
    by_contra below
    have clear := lower (other % 64) (by omega)
    rw [getLsbD_maskFrom, ← same] at clear
    rw [slotSet] at set'
    simp [set', behind] at clear
  simp only [slotsAhead, wheelSize] at here ⊢
  by_cases same : other / 64 = start / 64
  · by_cases behind : start % 64 ≤ other % 64
    · have := sameWord same behind
      split <;> split <;> omega
    · split <;> split <;> omega
  · split <;> split <;> omega

/-- Where no slot of the start word stands at or behind the start, the first word with a slot going
round holds the first one. -/
theorem firstFrom_nextWord {bitmap : Nat → Word} {start ahead : Nat} (bound : start < wheelSize)
    (startClear : bitmap (start / 64) &&& (BitVec.allOnes 64 <<< (start % 64)) = 0#64)
    (range : 1 ≤ ahead ∧ ahead < bitmapWords)
    (nonzero : bitmap ((start / 64 + ahead) % bitmapWords) ≠ 0#64)
    (skipped : ∀ w, 1 ≤ w → w < ahead → bitmap ((start / 64 + w) % bitmapWords) = 0#64) :
    FirstFrom bitmap start ((start / 64 + ahead) % bitmapWords * 64 +
      trailingZeros (bitmap ((start / 64 + ahead) % bitmapWords))) := by
  obtain ⟨inside, set, lower⟩ := trailingZeros_spec nonzero
  generalize trailingZeros (bitmap ((start / 64 + ahead) % bitmapWords)) = z at *
  simp only [wheelSize, bitmapWords] at *
  refine ⟨by simp only [wheelSize]; omega, by rw [slotSet_word _ inside]; exact set,
    fun other here set' => ?_⟩
  simp only [wheelSize] at here
  have occupied := word_ne_of_slotSet set'
  -- The word of another slot, counted from the start word.
  obtain ⟨w, small, there⟩ : ∃ w, w < 64 ∧ other / 64 = (start / 64 + w) % 64 :=
    ⟨(other / 64 + 64 - start / 64) % 64, by omega, by omega⟩
  have startWord : w = 0 → other % 64 < start % 64 := by
    intro zero
    by_contra behind
    have clear := congrArg (fun v => v.getLsbD (other % 64)) startClear
    simp only [getLsbD_maskFrom, BitVec.getLsbD_zero] at clear
    rw [slotSet, there, zero, show (start / 64 + 0) % 64 = start / 64 by omega] at set'
    simp [set', Nat.le_of_not_lt behind] at clear
  have notSkipped : 1 ≤ w → ahead ≤ w := by
    intro positive
    by_contra below
    exact occupied (there ▸ skipped w positive (by omega))
  have sameWord : w = ahead → z ≤ other % 64 := by
    intro same
    by_contra below
    have clear := lower (other % 64) (by omega)
    rw [← same, ← there] at clear
    rw [slotSet, clear] at set'
    cases set'
  simp only [slotsAhead, wheelSize]
  split <;> split <;> omega

/-- Where no other slot is set, the first low bit of the start word is reached last. -/
theorem firstFrom_lastWord {bitmap : Nat → Word} {start : Nat} (bound : start < wheelSize)
    (startClear : bitmap (start / 64) &&& (BitVec.allOnes 64 <<< (start % 64)) = 0#64)
    (skipped : ∀ w, 1 ≤ w → w < bitmapWords → bitmap ((start / 64 + w) % bitmapWords) = 0#64)
    (nonzero : bitmap (start / 64) &&& ~~~(BitVec.allOnes 64 <<< (start % 64)) ≠ 0#64) :
    FirstFrom bitmap start (start / 64 * 64 +
      trailingZeros (bitmap (start / 64) &&& ~~~(BitVec.allOnes 64 <<< (start % 64)))) := by
  obtain ⟨inside, set, lower⟩ := trailingZeros_spec nonzero
  generalize trailingZeros (bitmap (start / 64) &&& ~~~(BitVec.allOnes 64 <<< (start % 64))) = z at *
  rw [getLsbD_maskBelow, Bool.and_eq_true, decide_eq_true_eq] at set
  simp only [wheelSize, bitmapWords] at *
  refine ⟨by simp only [wheelSize]; omega, by rw [slotSet_word _ inside]; exact set.1,
    fun other here set' => ?_⟩
  simp only [wheelSize] at here
  have occupied := word_ne_of_slotSet set'
  have startWord : other / 64 = start / 64 := by
    by_contra elsewhere
    refine occupied ?_
    have there : other / 64 = (start / 64 + (other / 64 + 64 - start / 64) % 64) % 64 := by omega
    rw [there]
    exact skipped _ (by omega) (by omega)
  rw [slotSet, startWord] at set'
  have before : other % 64 < start % 64 := by
    by_contra behind
    have clear := congrArg (fun v => v.getLsbD (other % 64)) startClear
    simp only [getLsbD_maskFrom, BitVec.getLsbD_zero] at clear
    simp [set', Nat.le_of_not_lt behind] at clear
  have first : z ≤ other % 64 := by
    by_contra below
    have clear := lower (other % 64) (by omega)
    rw [getLsbD_maskBelow] at clear
    simp [set', before] at clear
  simp only [slotsAhead, wheelSize]
  split <;> split <;> omega

/-- The scan finds the first occupied slot, if there is one. -/
theorem firstSlot_spec (bitmap : Nat → Word) {start : Nat} (bound : start < wheelSize) :
    match firstSlot bitmap start with
    | some slot => FirstFrom bitmap start slot
    | none => ∀ slot < wheelSize, slotSet bitmap slot = false := by
  unfold firstSlot
  dsimp only
  by_cases startWord :
      bitmap (start / 64) &&& (BitVec.allOnes 64 <<< (start % 64)) = 0#64
  · rw [if_neg (not_not.mpr startWord)]
    cases next : (List.range' 1 (bitmapWords - 1)).find? fun w =>
        bitmap ((start / 64 + w) % bitmapWords) ≠ 0#64 with
    | some ahead =>
      obtain ⟨occupied, range, lower⟩ := List.find?_range'_eq_some.mp next
      rw [List.mem_range'_1] at range
      simp only [bitmapWords] at range
      refine firstFrom_nextWord bound startWord ?_ (by simpa using occupied) fun w above below => ?_
      · simp only [bitmapWords]
        omega
      · simpa using lower w above below
    | none =>
      have skipped : ∀ w, 1 ≤ w → w < bitmapWords →
          bitmap ((start / 64 + w) % bitmapWords) = 0#64 := by
        intro w above below
        have range : w ∈ List.range' 1 (bitmapWords - 1) := by
          rw [List.mem_range'_1]
          omega
        simpa using List.find?_eq_none.mp next w range
      by_cases lastWord : start % 64 ≠ 0 ∧
          bitmap (start / 64) &&& ~~~(BitVec.allOnes 64 <<< (start % 64)) ≠ 0#64
      · rw [if_pos lastWord]
        exact firstFrom_lastWord bound startWord skipped lastWord.2
      · rw [if_neg lastWord]
        -- A set slot would make one of the three scanned words nonzero.
        intro slot inside
        by_contra set
        rw [Bool.not_eq_false] at set
        have occupied := word_ne_of_slotSet set
        simp only [wheelSize, bitmapWords] at *
        have there : slot / 64 = start / 64 := by
          by_contra elsewhere
          refine occupied ?_
          have round : slot / 64 = (start / 64 + (slot / 64 + 64 - start / 64) % 64) % 64 := by
            omega
          rw [round]
          exact skipped _ (by omega) (by omega)
        rw [slotSet, there] at set
        have clear := congrArg (fun v => v.getLsbD (slot % 64)) startWord
        simp only [getLsbD_maskFrom, BitVec.getLsbD_zero, set, Bool.true_and,
          decide_eq_false_iff_not] at clear
        refine lastWord ⟨by omega, fun zero => ?_⟩
        have low := congrArg (fun v => v.getLsbD (slot % 64)) zero
        simp only [getLsbD_maskBelow, BitVec.getLsbD_zero, set, Bool.true_and,
          decide_eq_false_iff_not] at low
        omega
  · rw [if_pos startWord]
    exact firstFrom_startWord bound startWord

end Xezim
