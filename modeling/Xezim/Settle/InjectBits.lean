import Xezim.Wheel.Layout

/-! The bitset of entries injected into a pass, with its summary of the words that are not empty. -/

namespace Xezim.Settle

open Function

/-- `inject_bits` and `inject_sum`, each with its length. -/
structure InjectBits where
  bits : Nat → Word
  words : Nat
  sum : Nat → Word
  sumWords : Nat

namespace InjectBits

/-- Nothing is allocated yet. -/
def empty : InjectBits := ⟨fun _ => 0#64, 0, fun _ => 0#64, 0⟩

variable (b : InjectBits)

/-- An entry is injected. -/
def has (i : Nat) : Bool := slotSet b.bits i

/-- Room for every entry, new words zero. -/
def resize (numEntries : Nat) : InjectBits :=
  let words := max ((numEntries + 63) / 64) 1
  let sumWords := max ((words + 63) / 64) 1
  { b with words := max b.words words, sumWords := max b.sumWords sumWords }

/-- Inject an entry. -/
def insert (i : Nat) : InjectBits :=
  { b with
    bits := update b.bits (i / 64) (b.bits (i / 64) ||| 1#64 <<< (i % 64))
    sum := update b.sum (i / 4096) (b.sum (i / 4096) ||| 1#64 <<< (i / 64 % 64)) }

/-- Take an entry out, and the mark of its word once that is empty. -/
def remove (i : Nat) : InjectBits :=
  let word := b.bits (i / 64) &&& ~~~(1#64 <<< (i % 64))
  { b with
    bits := update b.bits (i / 64) word
    sum :=
      if word = 0#64 then update b.sum (i / 4096) (b.sum (i / 4096) &&& ~~~(1#64 <<< (i / 64 % 64)))
      else b.sum }

/-- The summary words from one on, the first one without some low bits. -/
def scanSum : Nat → Nat → Word → Option Nat
  | rest, sw, sword =>
    if sword ≠ 0#64 then
      let nw := sw * 64 + trailingZeros sword
      if b.words ≤ nw then none else some (nw * 64 + trailingZeros (b.bits nw))
    else
      match rest with
      | 0 => none
      | rest + 1 => scanSum rest (sw + 1) (b.sum (sw + 1))

/-- `next_set_bit`, none for `usize::MAX`. -/
def nextSetBit (start : Nat) : Option Nat :=
  let w := start / 64
  if b.words ≤ w then none
  else
    let word := b.bits w &&& (BitVec.allOnes 64 <<< (start % 64))
    if word ≠ 0#64 then some (w * 64 + trailingZeros word)
    else
      let sw := (w + 1) / 64
      if b.sumWords ≤ sw then none
      else b.scanSum (b.sumWords - 1 - sw) sw (b.sum sw &&& (BitVec.allOnes 64 <<< ((w + 1) % 64)))

/-- The summary marks exactly the words that are not empty, and reaches all of them. -/
structure Summed : Prop where
  marks : ∀ w, slotSet b.sum w = true ↔ b.bits w ≠ 0#64
  beyond : ∀ w, b.words ≤ w → b.bits w = 0#64
  covered : b.words ≤ b.sumWords * 64

end InjectBits

/-- The least index from a start on that satisfies a test, none where there is no such index. -/
def LeastFrom (p : Nat → Bool) (start : Nat) : Option Nat → Prop
  | some i => start ≤ i ∧ p i = true ∧ ∀ j, start ≤ j → j < i → p j = false
  | none => ∀ j, start ≤ j → p j = false

/-- The least index is the same from any start up to it. -/
theorem LeastFrom.start_le {p : Nat → Bool} {start later : Nat} {found : Option Nat} (least : LeastFrom p later found)
    (order : start ≤ later) (clear : ∀ j, start ≤ j → j < later → p j = false) : LeastFrom p start found := by
  cases found with
  | none =>
    intro j above
    by_cases reach : later ≤ j
    · exact least j reach
    · exact clear j above (by omega)
  | some i =>
    obtain ⟨low, here, lower⟩ := least
    refine ⟨order.trans low, here, fun j above below => ?_⟩
    by_cases reach : later ≤ j
    · exact lower j reach below
    · exact clear j above (by omega)

namespace InjectBits

variable {b : InjectBits}

/-- An entry of a word. -/
theorem has_word (b : InjectBits) {w i : Nat} (inside : i < 64) : b.has (w * 64 + i) = (b.bits w).getLsbD i :=
  slotSet_word b.bits inside

/-- An empty word holds no entry. -/
theorem has_of_zero {j : Nat} (zero : b.bits (j / 64) = 0#64) : b.has j = false := by
  rw [has, slotSet, zero, BitVec.getLsbD_zero]

/-- The first bit of a word that is not empty, where the entries before the word are clear. -/
theorem least_of_word {start w : Nat} (nonzero : b.bits w ≠ 0#64) (low : start ≤ w * 64)
    (clear : ∀ j, start ≤ j → j < w * 64 → b.has j = false) :
    LeastFrom b.has start (some (w * 64 + trailingZeros (b.bits w))) := by
  obtain ⟨inside, set, lower⟩ := trailingZeros_spec nonzero
  refine ⟨by omega, by rw [has_word b inside]; exact set, fun j above below => ?_⟩
  by_cases before : j < w * 64
  · exact clear j above before
  · have split : j = w * 64 + (j - w * 64) := by omega
    rw [split, has_word b (by omega)]
    exact lower _ (by omega)

/-- Scanning the summary finds the first word from one on that is not empty. -/
theorem scanSum_spec (summed : b.Summed) {start : Nat} : ∀ (rest sw : Nat) (sword : Word),
    (∀ i < 64, sword.getLsbD i = true ↔ start ≤ sw * 64 + i ∧ b.bits (sw * 64 + i) ≠ 0#64) →
    (∀ v, start ≤ v → v < sw * 64 → b.bits v = 0#64) → start ≤ sw * 64 + 64 → b.sumWords = sw + rest + 1 →
    LeastFrom b.has (start * 64) (b.scanSum rest sw sword)
  | rest, sw, sword, marked, clear, early, count => by
    unfold scanSum
    by_cases nonzero : sword ≠ 0#64
    · rw [if_pos nonzero]
      obtain ⟨inside, set, lower⟩ := trailingZeros_spec nonzero
      generalize trailingZeros sword = z at *
      obtain ⟨low, nonempty⟩ := (marked z inside).mp set
      have within : ¬ b.words ≤ sw * 64 + z := fun beyond => nonempty (summed.beyond _ beyond)
      simp only [if_neg within]
      refine least_of_word nonempty (by omega) fun j above below => has_of_zero ?_
      -- An earlier word is one that was skipped, or one whose mark is clear.
      by_cases before : j / 64 < sw * 64
      · exact clear _ (by omega) before
      · by_contra full
        have split : j / 64 = sw * 64 + (j / 64 - sw * 64) := by omega
        have mark := (marked (j / 64 - sw * 64) (by omega)).mpr ⟨by omega, by rwa [← split]⟩
        rw [lower _ (by omega)] at mark
        cases mark
    · have zero : sword = 0#64 := by simpa using nonzero
      subst zero
      rw [if_neg nonzero]
      have skipped : ∀ v, start ≤ v → v < (sw + 1) * 64 → b.bits v = 0#64 := by
        intro v above below
        by_cases before : v < sw * 64
        · exact clear v above before
        · by_contra full
          have split : v = sw * 64 + (v - sw * 64) := by omega
          have mark := (marked (v - sw * 64) (by omega)).mpr ⟨by omega, by rwa [← split]⟩
          simp at mark
      match rest, count with
      | 0, count =>
        intro j above
        refine has_of_zero ?_
        by_cases reach : j / 64 < (sw + 1) * 64
        · exact skipped _ (by omega) reach
        · refine summed.beyond _ ?_
          have covered := summed.covered
          omega
      | rest + 1, count =>
        refine scanSum_spec summed rest (sw + 1) (b.sum (sw + 1)) (fun i inside => ?_) skipped (by omega) (by omega)
        rw [← slotSet_word b.sum inside, summed.marks]
        exact ⟨fun full => ⟨by omega, full⟩, And.right⟩

/-- `next_set_bit` finds the least injected entry at or above its argument, whatever the number of words. -/
theorem nextSetBit_spec (summed : b.Summed) (start : Nat) : LeastFrom b.has start (b.nextSetBit start) := by
  unfold nextSetBit
  by_cases reach : b.words ≤ start / 64
  · simp only [if_pos reach]
    exact fun j above => has_of_zero (summed.beyond _ (by omega))
  · simp only [if_neg reach]
    by_cases here : b.bits (start / 64) &&& (BitVec.allOnes 64 <<< (start % 64)) ≠ 0#64
    · rw [if_pos here]
      obtain ⟨inside, set, lower⟩ := trailingZeros_spec here
      generalize trailingZeros (b.bits (start / 64) &&& (BitVec.allOnes 64 <<< (start % 64))) = z at *
      rw [getLsbD_maskFrom, Bool.and_eq_true, decide_eq_true_eq] at set
      refine ⟨by omega, by rw [has_word b inside]; exact set.1, fun j above below => ?_⟩
      have split : j = start / 64 * 64 + j % 64 := by omega
      have clear := lower (j % 64) (by omega)
      rw [getLsbD_maskFrom] at clear
      rw [split, has_word b (by omega)]
      simpa [show start % 64 ≤ j % 64 by omega] using clear
    · rw [if_neg here]
      -- The rest of the word is clear, so the search goes on with the next word.
      have clear : ∀ j, start ≤ j → j < (start / 64 + 1) * 64 → b.has j = false := by
        intro j above below
        have zero := congrArg (fun v => v.getLsbD (j % 64)) (not_not.mp here)
        simp only [getLsbD_maskFrom, BitVec.getLsbD_zero] at zero
        have split : j = start / 64 * 64 + j % 64 := by omega
        rw [split, has_word b (by omega)]
        simpa [show start % 64 ≤ j % 64 by omega] using zero
      refine LeastFrom.start_le ?_ (by omega : start ≤ (start / 64 + 1) * 64) clear
      have covered := summed.covered
      by_cases last : b.sumWords ≤ (start / 64 + 1) / 64
      · rw [if_pos last]
        exact fun j above => has_of_zero (summed.beyond _ (by omega))
      · rw [if_neg last]
        refine scanSum_spec summed _ _ _ (fun i inside => ?_) (fun v above below => by omega) (by omega) (by omega)
        rw [getLsbD_maskFrom, Bool.and_eq_true, decide_eq_true_eq, ← slotSet_word b.sum inside, summed.marks]
        exact ⟨fun both => ⟨by omega, both.1⟩, fun both => ⟨both.2, by omega⟩⟩

end InjectBits

/-- The slots of a bitmap once one was set. -/
theorem slotSet_or (bitmap : Nat → Word) (slot other : Nat) :
    slotSet (update bitmap (slot / 64) (bitmap (slot / 64) ||| 1#64 <<< (slot % 64))) other =
      (slotSet bitmap other || decide (other = slot)) := by
  rw [slotSet_update]
  by_cases word : other / 64 = slot / 64
  · rw [if_pos word, BitVec.getLsbD_or, getLsbD_oneBit (by omega), slotSet, word]
    have same : other % 64 = slot % 64 ↔ other = slot := by omega
    simp only [same]
  · rw [if_neg word]
    have apart : other ≠ slot := fun same => word (by rw [same])
    simp [apart]

/-- The slots of a bitmap once one was cleared. -/
theorem slotSet_andNot (bitmap : Nat → Word) (slot other : Nat) :
    slotSet (update bitmap (slot / 64) (bitmap (slot / 64) &&& ~~~(1#64 <<< (slot % 64)))) other =
      (slotSet bitmap other && decide (other ≠ slot)) := by
  rw [slotSet_update]
  by_cases word : other / 64 = slot / 64
  · have bound : other % 64 < 64 := by omega
    rw [if_pos word, BitVec.getLsbD_and, BitVec.getLsbD_not, getLsbD_oneBit bound, slotSet, word]
    have same : other % 64 = slot % 64 ↔ other = slot := by omega
    simp [same, bound]
  · rw [if_neg word]
    have apart : other ≠ slot := fun same => word (by rw [same])
    simp [apart]

/-- A word is empty when all its slots are clear. -/
theorem word_eq_zero_iff (bitmap : Nat → Word) (w : Nat) :
    bitmap w = 0#64 ↔ ∀ i < 64, slotSet bitmap (w * 64 + i) = false := by
  constructor
  · intro zero i inside
    rw [slotSet_word bitmap inside, zero, BitVec.getLsbD_zero]
  · intro clear
    refine BitVec.eq_of_getLsbD_eq fun i inside => ?_
    rw [← slotSet_word bitmap inside, clear i inside, BitVec.getLsbD_zero]

namespace InjectBits

variable {b : InjectBits}

/-- The entries once one was injected. -/
@[simp] theorem has_insert (b : InjectBits) (i j : Nat) : (b.insert i).has j = (b.has j || decide (j = i)) :=
  slotSet_or b.bits i j

/-- The entries once one was taken out. -/
@[simp] theorem has_remove (b : InjectBits) (i j : Nat) : (b.remove i).has j = (b.has j && decide (j ≠ i)) :=
  slotSet_andNot b.bits i j

/-- Making room injects nothing. -/
@[simp] theorem has_resize (b : InjectBits) (n i : Nat) : (b.resize n).has i = b.has i := rfl

/-- No entry is injected into nothing. -/
@[simp] theorem has_empty (i : Nat) : empty.has i = false := BitVec.getLsbD_zero

/-- Nothing is marked where nothing is allocated. -/
theorem summed_empty : empty.Summed where
  marks w := by simp [empty, slotSet]
  beyond _ _ := rfl
  covered := Nat.zero_le _

/-- Making room keeps the summary. -/
theorem Summed.resize (summed : b.Summed) (n : Nat) : (b.resize n).Summed where
  marks := summed.marks
  beyond w above := summed.beyond w ((Nat.le_max_left _ _).trans above)
  covered := by
    have covered := summed.covered
    simp only [InjectBits.resize]
    omega

/-- Room for every entry. -/
theorem resize_room (b : InjectBits) {n i : Nat} (inside : i < n) : i / 64 < (b.resize n).words := by
  simp only [InjectBits.resize]
  omega

/-- Injecting an entry marks its word. -/
theorem Summed.insert (summed : b.Summed) {i : Nat} (room : i / 64 < b.words) : (b.insert i).Summed where
  marks w := by
    have mark := slotSet_or b.sum (i / 64) w
    rw [Nat.div_div_eq_div_mul] at mark
    show slotSet (update b.sum (i / 4096) (b.sum (i / 4096) ||| 1#64 <<< (i / 64 % 64))) w = true ↔ _
    rw [mark, Bool.or_eq_true, summed.marks, decide_eq_true_iff]
    show _ ↔ update b.bits (i / 64) _ w ≠ 0#64
    by_cases here : w = i / 64
    · subst here
      rw [update_self]
      exact iff_of_true (Or.inr rfl) (or_oneBit_ne _ _ (by omega))
    · rw [update_of_ne here]
      simp [here]
  beyond w above := by
    have apart : w ≠ i / 64 := by
      have bound : b.words ≤ w := above
      omega
    show update b.bits (i / 64) _ w = 0#64
    rw [update_of_ne apart]
    exact summed.beyond w above
  covered := summed.covered

/-- Taking an entry out unmarks its word once that is empty. -/
theorem Summed.remove (summed : b.Summed) (i : Nat) : (b.remove i).Summed where
  marks w := by
    unfold InjectBits.remove
    dsimp only
    generalize word : b.bits (i / 64) &&& ~~~(1#64 <<< (i % 64)) = left
    by_cases empty : left = 0#64
    · rw [if_pos empty]
      have mark := slotSet_andNot b.sum (i / 64) w
      rw [Nat.div_div_eq_div_mul] at mark
      rw [mark, Bool.and_eq_true, summed.marks, decide_eq_true_iff]
      by_cases here : w = i / 64
      · subst here
        simp [empty]
      · simp [here]
    · rw [if_neg empty, summed.marks]
      by_cases here : w = i / 64
      · subst here
        -- What is left of the word was there before.
        have before : b.bits (i / 64) ≠ 0#64 := by
          intro zero
          rw [zero, BitVec.zero_and] at word
          exact empty word.symm
        simp [empty, before]
      · simp [here]
  beyond w above := by
    show update b.bits (i / 64) (b.bits (i / 64) &&& _) w = 0#64
    by_cases here : w = i / 64
    · subst here
      rw [update_self, summed.beyond _ above, BitVec.zero_and]
    · rw [update_of_ne here]
      exact summed.beyond w above
  covered := summed.covered

end InjectBits

end Xezim.Settle
