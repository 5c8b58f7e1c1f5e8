import Xezim.Wheel.Slots
import Mathlib.Data.Finset.Card
import Mathlib.Data.Finset.Range

/-! Where the wheel keeps each time's events. -/

namespace Xezim

open Function

variable {γ : Type}

/-- The calendar a wheel stands for: an ordered map from times to queues. -/
abbrev Calendar (γ : Type) := Buckets Nat (Event γ)

/-- The words of a bitmap with a set bit. -/
def setWords (bitmap : Nat → Word) : Finset Nat :=
  (Finset.range bitmapWords).filter fun i => bitmap i ≠ 0#64

/-- The bitmap tells the occupied slots, and the counter its nonzero words. -/
structure BitmapOk (ring : Nat → List (Event γ)) (bitmap : Nat → Word) (words : Nat) : Prop where
  bits : ∀ slot < wheelSize, slotSet bitmap slot = !(ring slot).isEmpty
  words : words = (setWords bitmap).card

/-- From a time on the ring and the overflow together hold a calendar, and nothing is earlier. -/
structure Stores (ring : Nat → List (Event γ)) (overflow m : Calendar γ) (time : Nat) : Prop where
  near : ∀ t, time ≤ t → t < time + wheelSize → ring (slotOf t) ++ overflow.get t = m.get t
  far : ∀ t, time + wheelSize ≤ t → overflow.get t = m.get t
  past : ∀ t < time, m.get t = [] ∧ overflow.get t = []

/-- A wheel at a time holds a calendar: everything the ring reaches stands in it. -/
structure Laid (ring : Nat → List (Event γ)) (bitmap : Nat → Word) (words : Nat)
    (overflow m : Calendar γ) (time : Nat) : Prop where
  stores : Stores ring overflow m time
  drained : ∀ t < time + wheelSize, overflow.get t = []
  bitmap : BitmapOk ring bitmap words

/-- A wheel holds a calendar. -/
abbrev TimingWheel.Laid (w : TimingWheel γ) (m : Calendar γ) : Prop :=
  Xezim.Laid w.wheel w.bitmap w.occupiedWords w.overflow m w.currentTime

/-- A slot is one of the ring. -/
theorem slotOf_lt (t : Nat) : slotOf t < wheelSize := Nat.mod_lt _ (by decide)

/-- Two times the ring reaches at once share a slot only where they are equal. -/
theorem slotOf_inj {w t t' : Nat} (near : w ≤ t ∧ t < w + wheelSize)
    (near' : w ≤ t' ∧ t' < w + wheelSize) (same : slotOf t = slotOf t') : t = t' := by
  simp only [slotOf, wheelSize] at *
  omega

/-- The distance to a slot, computed round the ring. -/
theorem slotsAhead_eq {start slot : Nat} (first : start < wheelSize) (second : slot < wheelSize) :
    slotsAhead start slot = (slot + wheelSize - start) % wheelSize := by
  unfold slotsAhead
  by_cases behind : slot ≥ start
  · rw [if_pos behind]
    simp only [wheelSize] at *
    omega
  · rw [if_neg behind]
    simp only [wheelSize] at *
    omega

/-- A time the ring reaches is as far ahead of the clock as its slot. -/
theorem slotsAhead_slotOf {time t : Nat} (near : time ≤ t ∧ t < time + wheelSize) :
    slotsAhead (slotOf time) (slotOf t) = t - time := by
  rw [slotsAhead_eq (slotOf_lt _) (slotOf_lt _)]
  simp only [slotOf, wheelSize] at *
  omega

/-- Every slot is that of a time the ring reaches. -/
theorem exists_slotOf (time : Nat) {slot : Nat} (bound : slot < wheelSize) :
    ∃ t, time ≤ t ∧ t < time + wheelSize ∧ slotOf t = slot := by
  refine ⟨time + (slot + wheelSize - slotOf time) % wheelSize, ?_⟩
  simp only [slotOf, wheelSize] at *
  omega

section Bitmap

variable {ring : Nat → List (Event γ)} {bitmap : Nat → Word} {words : Nat}

/-- A changed bit is another slot's only where word and bit agree. -/
theorem slotSet_update (bitmap : Nat → Word) (slot other : Nat) (w : Word) :
    slotSet (update bitmap (slot / 64) w) other =
      if other / 64 = slot / 64 then w.getLsbD (other % 64) else slotSet bitmap other := by
  unfold slotSet
  split
  · rename_i same
    rw [same, update_self]
  · rw [update_of_ne ‹_›]

/-- A slot apart from another one differs from it in word or bit. -/
theorem slot_ext {slot other : Nat} (word : other / 64 = slot / 64)
    (bit : other % 64 = slot % 64) : other = slot := by
  rw [← Nat.div_add_mod other 64, ← Nat.div_add_mod slot 64, word, bit]

/-- A bit of a single-bit word. -/
theorem getLsbD_oneBit {bit i : Nat} (bound : i < 64) :
    (1#64 <<< bit).getLsbD i = decide (i = bit) := by
  rw [BitVec.getLsbD_shiftLeft, BitVec.getLsbD_one]
  rcases Nat.lt_trichotomy i bit with below | same | above
  · simp [below, below.ne]
  · simp [same, show bit < 64 by omega]
  · simp [bound, show ¬ i < bit by omega, above.ne', show i - bit ≠ 0 by omega]

/-- A word with one bit set more is not zero. -/
theorem or_oneBit_ne (w : Word) (bit : Nat) (bound : bit < 64) : w ||| (1#64 <<< bit) ≠ 0#64 := by
  intro zero
  have clear := congrArg (fun v => v.getLsbD bit) zero
  simp [getLsbD_oneBit bound] at clear

/-- The nonzero words after one word became nonzero. -/
theorem setWords_insert {word : Nat} (inside : word < bitmapWords) {w : Word} (nonzero : w ≠ 0#64) :
    setWords (update bitmap word w) = insert word (setWords bitmap) := by
  ext i
  simp only [setWords, Finset.mem_filter, Finset.mem_range, Finset.mem_insert]
  by_cases here : i = word
  · subst here
    simp [inside, nonzero]
  · simp [here]

/-- The nonzero words after one word became zero. -/
theorem setWords_erase {word : Nat} : setWords (update bitmap word 0#64) = (setWords bitmap).erase word := by
  ext i
  simp only [setWords, Finset.mem_filter, Finset.mem_range, Finset.mem_erase]
  by_cases here : i = word
  · subst here
    simp
  · simp [here]

/-- The nonzero words after a nonzero word stayed so. -/
theorem setWords_keep {word : Nat} {w : Word} (same : w = 0#64 ↔ bitmap word = 0#64) :
    setWords (update bitmap word w) = setWords bitmap := by
  ext i
  simp only [setWords, Finset.mem_filter]
  by_cases here : i = word
  · subst here
    simp [same]
  · simp [here]

/-- Filling a slot and setting its bit keeps the bitmap right. -/
theorem BitmapOk.set (ok : BitmapOk ring bitmap words) {slot : Nat} (bound : slot < wheelSize)
    {q : List (Event γ)} (nonempty : q ≠ []) :
    BitmapOk (update ring slot q)
      (update bitmap (slot / 64) (bitmap (slot / 64) ||| (1#64 <<< (slot % 64))))
      (if bitmap (slot / 64) = 0#64 then words + 1 else words) where
  bits other inside := by
    -- Only the slot's own bit is set; another bit of the same word keeps its value.
    have old := ok.bits other inside
    rw [slotSet_update, BitVec.getLsbD_or, getLsbD_oneBit (Nat.mod_lt _ (by decide))]
    by_cases here : other = slot
    · subst here
      simp [nonempty]
    · rw [update_of_ne here, ← old]
      split
      · rename_i word
        have bit : other % 64 ≠ slot % 64 := fun bit => here (slot_ext word bit)
        rw [slotSet, word]
        simp [bit]
      · rfl
  words := by
    have inside : slot / 64 < bitmapWords := by
      simp only [wheelSize, bitmapWords] at *
      omega
    have filled := or_oneBit_ne (bitmap (slot / 64)) (slot % 64) (Nat.mod_lt _ (by decide))
    -- A word that was zero joins the set ones.
    split
    · rename_i zero
      rw [setWords_insert inside filled, Finset.card_insert_of_notMem (by simp [setWords, zero]),
        ok.words]
    · rename_i nonzero
      rw [setWords_keep (iff_of_false filled nonzero), ok.words]

/-- Emptying a slot and clearing its bit keeps the bitmap right. -/
theorem BitmapOk.clear (ok : BitmapOk ring bitmap words) {slot : Nat} (bound : slot < wheelSize) :
    BitmapOk (update ring slot [])
      (if bitmap (slot / 64) ≠ 0#64 then
        update bitmap (slot / 64) (bitmap (slot / 64) &&& ~~~(1#64 <<< (slot % 64))) else bitmap)
      (if bitmap (slot / 64) ≠ 0#64 ∧ bitmap (slot / 64) &&& ~~~(1#64 <<< (slot % 64)) = 0#64 then
        words - 1 else words) where
  bits other inside := by
    -- Only the slot's own bit is cleared.
    have old := ok.bits other inside
    have small : other % 64 < 64 := Nat.mod_lt _ (by decide)
    by_cases here : other = slot
    · subst here
      split
      · rw [slotSet_update, if_pos rfl, BitVec.getLsbD_and, BitVec.getLsbD_not,
          getLsbD_oneBit small]
        simp
      · rename_i zero
        rw [slotSet, not_not.mp zero]
        simp
    · rw [update_of_ne here, ← old]
      split
      · rw [slotSet_update]
        split
        · rename_i word
          have bit : other % 64 ≠ slot % 64 := fun bit => here (slot_ext word bit)
          rw [BitVec.getLsbD_and, BitVec.getLsbD_not, getLsbD_oneBit small, slotSet, word]
          simp [bit, small]
        · rfl
      · rfl
  words := by
    -- A word leaves the set ones when its last bit goes.
    by_cases zero : bitmap (slot / 64) = 0#64
    · rw [if_neg (by simp [zero]), if_neg (by simp [zero]), ok.words]
    · rw [if_pos zero]
      by_cases cleared : bitmap (slot / 64) &&& ~~~(1#64 <<< (slot % 64)) = 0#64
      · have member : slot / 64 ∈ setWords bitmap := by
          simp only [setWords, Finset.mem_filter, Finset.mem_range]
          refine ⟨?_, zero⟩
          simp only [wheelSize, bitmapWords] at *
          omega
        rw [if_pos ⟨zero, cleared⟩, cleared, setWords_erase, Finset.card_erase_of_mem member,
          ok.words]
      · rw [if_neg fun h => cleared h.2, setWords_keep (iff_of_false cleared zero), ok.words]

/-- Changing a filled slot for another filled queue needs no change of the bitmap. -/
theorem BitmapOk.keep (ok : BitmapOk ring bitmap words) {slot : Nat} {q : List (Event γ)}
    (same : q = [] ↔ ring slot = []) : BitmapOk (update ring slot q) bitmap words where
  bits other inside := by
    rw [ok.bits other inside]
    by_cases here : other = slot
    · subst here
      rw [update_self]
      cases q <;> cases queue : ring other <;> simp_all
    · rw [update_of_ne here]
  words := ok.words

end Bitmap

section Stores

variable {ring : Nat → List (Event γ)} {overflow m : Calendar γ} {time : Nat}

/-- Changing the queue of a near time in the ring changes it in the calendar. -/
theorem Stores.setNear (ok : Stores ring overflow m time) {t : Nat}
    (near : time ≤ t ∧ t < time + wheelSize) (empty : overflow.get t = []) (q : List (Event γ)) :
    Stores (update ring (slotOf t) q) overflow (m.set t q) time where
  near t' low high := by
    -- Two times within the window share a slot only when they are the same.
    rw [Buckets.get_set]
    by_cases here : t' = t
    · subst here
      rw [update_self, empty, List.append_nil, if_pos rfl]
    · have apart : slotOf t' ≠ slotOf t := fun same => here (slotOf_inj ⟨low, high⟩ near same)
      rw [update_of_ne apart, if_neg here, ok.near t' low high]
  far t' far := by
    rw [Buckets.get_set_of_ne m (by omega), ok.far t' far]
  past t' early := by
    rw [Buckets.get_set_of_ne m (by omega)]
    exact ok.past t' early

/-- Changing the queue of a far time in the overflow changes it in the calendar. -/
theorem Stores.setFar (ok : Stores ring overflow m time) {t : Nat} (far : time + wheelSize ≤ t)
    (q : List (Event γ)) : Stores ring (overflow.set t q) (m.set t q) time where
  near t' low high := by
    rw [Buckets.get_set_of_ne m (by omega), Buckets.get_set_of_ne overflow (by omega),
      ok.near t' low high]
  far t' far' := by
    rw [Buckets.get_set, Buckets.get_set, ok.far t' far']
  past t' early := by
    rw [Buckets.get_set_of_ne m (by omega), Buckets.get_set_of_ne overflow (by omega)]
    exact ok.past t' early

/-- Moving a near time from the overflow into its slot changes nothing in the calendar. -/
theorem Stores.move (ok : Stores ring overflow m time) {t : Nat}
    (near : time ≤ t ∧ t < time + wheelSize) :
    Stores (update ring (slotOf t) (ring (slotOf t) ++ overflow.get t)) (overflow.set t []) m
      time where
  near t' low high := by
    rw [Buckets.get_set]
    by_cases here : t' = t
    · subst here
      rw [update_self, if_pos rfl, List.append_nil, ok.near t' low high]
    · have apart : slotOf t' ≠ slotOf t := fun same => here (slotOf_inj ⟨low, high⟩ near same)
      rw [update_of_ne apart, if_neg here, ok.near t' low high]
  far t' far := by
    rw [Buckets.get_set_of_ne overflow (by omega), ok.far t' far]
  past t' early := by
    rw [Buckets.get_set_of_ne overflow (by omega)]
    exact ok.past t' early

/-- The clock can go on to any time before which nothing is queued. -/
theorem Laid.advance {bitmap : Nat → Word} {words : Nat}
    (ok : Laid ring bitmap words overflow m time) {t : Nat} (later : time ≤ t)
    (before : ∀ t' < t, m.get t' = []) : Stores ring overflow m t where
  near t' low high := by
    by_cases reached : t' < time + wheelSize
    · exact ok.stores.near t' (by omega) reached
    · -- The slot of a time the ring did not reach belonged to one that is past now.
      have far := ok.stores.far t' (by omega)
      obtain ⟨old, low', high', same⟩ := exists_slotOf time (slotOf_lt t')
      have early : old < t := by
        by_contra notEarly
        have := slotOf_inj (w := t) ⟨by omega, by omega⟩ ⟨low, high⟩ same
        omega
      have empty := ok.stores.near old low' high'
      rw [before old early, List.append_eq_nil_iff, same] at empty
      rw [empty.1, far, List.nil_append]
  far t' far := ok.stores.far t' (by omega)
  past t' early := by
    refine ⟨before t' early, ?_⟩
    by_cases reached : t' < time + wheelSize
    · exact ok.drained t' reached
    · rw [ok.stores.far t' (by omega), before t' early]

end Stores

end Xezim
