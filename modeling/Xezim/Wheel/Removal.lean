import Xezim.Wheel.Refinement

/-! Taking every event of a process off the wheel. -/

namespace Xezim

open Function

variable {γ : Type}

/-- The earliest event of the process among those of one slot, given the best one of earlier slots. -/
def captureEarliest (pid time : Nat) (found : Option (Nat × γ)) (e : Event γ) : Option (Nat × γ) :=
  if e.1 = pid then
    match found with
    | none => some (time, e.2)
    | some best => if time < best.1 then some (time, e.2) else some best
  else found

namespace TimingWheel

/-- One slot of the ring in the scan of `remove_pid`. -/
def removeFromSlot (pid : Nat) (acc : TimingWheel γ × Option (Nat × γ)) (s : Nat) :
    TimingWheel γ × Option (Nat × γ) :=
  let (w, found) := acc
  let v := w.wheel s
  if v.isEmpty then (w, found)
  else
    let time := addU64 w.currentTime ((s + wheelSize - slotOf w.currentTime) % wheelSize)
    let found := v.foldl (captureEarliest pid time) found
    let kept := v.filter fun e => e.1 != pid
    let w := { w with wheel := update w.wheel s kept }
    (if kept.isEmpty then w.bitmapClear s else w, found)

/-- The scan of the ring, slot by slot. -/
def scanRing (w : TimingWheel γ) (pid : Nat) : TimingWheel γ × Option (Nat × γ) :=
  (List.range wheelSize).foldl (removeFromSlot pid) ({ w with nextCache := none }, none)

/-- The scan of the overflow where the ring had no event of the process: it stops at the first one. -/
def removeFirstFar (pid : Nat) (w : TimingWheel γ) : List Nat → TimingWheel γ × Option (Nat × γ)
  | [] => (w, none)
  | t :: times =>
    let v := w.overflow.get t
    match v.find? fun e => e.1 == pid with
    | some e =>
      ({ w with overflow := w.overflow.set t (v.eraseP fun e => e.1 == pid) }, some (t, e.2))
    | none => removeFirstFar pid w times

/-- `remove_pid`. -/
def removePid (w : TimingWheel γ) (pid : Nat) : TimingWheel γ × Option (Nat × γ) :=
  if (w.pidCounts pid).isNone then (w, none)
  else
    let ring := w.scanRing pid
    let done := match ring.2 with
      | none => removeFirstFar pid ring.1 (ring.1.overflow.entries.map Prod.fst)
      | some _ => ({ ring.1 with overflow := ring.1.overflow.filter fun e => e.1 != pid }, ring.2)
    ({ done.1 with pidCounts := update done.1.pidCounts pid none }, done.2)

/-- The ring holds an event of a process, or the overflow at most one. -/
def FewFar (w : TimingWheel γ) (pid : Nat) : Prop :=
  (∃ s < wheelSize, ∃ e ∈ w.wheel s, e.1 = pid) ∨ w.overflow.count (fun e => e.1 == pid) ≤ 1

end TimingWheel

/-- The calendar without the events of a process. -/
def Calendar.without (m : Calendar γ) (pid : Nat) : Calendar γ := m.filter fun e => e.1 != pid

/-- The earliest event of a process with its time. -/
def Calendar.firstOf (m : Calendar γ) (pid : Nat) : Option (Nat × γ) :=
  (m.findFirst fun e => e.1 == pid).map fun r => (r.1, r.2.2)

section Ring

variable {w : TimingWheel γ} {m : Calendar γ}

/-- The times the ring reaches whose slots are below a bound and that have an event of a process. -/
def scannedTimes (m : Calendar γ) (start pid bound : Nat) : Set Nat :=
  {t | start ≤ t ∧ t < start + wheelSize ∧ slotOf t < bound ∧ ∃ e ∈ m.get t, e.1 = pid}

/-- What the scan of the ring has found below a bound. -/
structure Captured (m : Calendar γ) (start pid bound : Nat) (found : Option (Nat × γ)) : Prop where
  unfound : found = none → scannedTimes m start pid bound = ∅
  best : ∀ r, found = some r → IsLeast (scannedTimes m start pid bound) r.1 ∧
    ((m.get r.1).find? fun e => e.1 == pid) = some (pid, r.2)

/-- One slot's events of the process: the first one is the earliest of them. -/
theorem capture_fold (pid time : Nat) (v : List (Event γ)) (found : Option (Nat × γ)) :
    v.foldl (captureEarliest pid time) found =
      match v.find? fun e => e.1 == pid with
      | none => found
      | some e =>
        match found with
        | none => some (time, e.2)
        | some best => if time < best.1 then some (time, e.2) else some best := by
  induction v generalizing found with
  | nil => rfl
  | cons e v ih =>
    rw [List.foldl_cons, ih, List.find?_cons]
    by_cases here : e.1 = pid
    · simp only [captureEarliest, here, beq_self_eq_true, if_true]
      -- Later events of the slot are not earlier than the captured one.
      cases v.find? fun e => e.1 == pid with
      | none => rfl
      | some later =>
        cases found with
        | none =>
          dsimp only
          rw [if_neg (lt_irrefl _)]
        | some best => by_cases earlier : time < best.1 <;> simp [earlier]
    · have other : (e.1 == pid) = false := by simpa using here
      simp only [captureEarliest, here, other, if_false]

/-- The times scanned below the next bound. -/
theorem scannedTimes_succ {start pid t : Nat} (near : start ≤ t ∧ t < start + wheelSize) (x : Nat) :
    x ∈ scannedTimes m start pid (slotOf t + 1) ↔
      x ∈ scannedTimes m start pid (slotOf t) ∨ (x = t ∧ ∃ e ∈ m.get t, e.1 = pid) := by
  -- Times of one revolution with one slot are equal, so the slot adds this time alone.
  constructor
  · rintro ⟨low, high, below, here⟩
    by_cases same : slotOf x = slotOf t
    · obtain rfl := slotOf_inj ⟨low, high⟩ near same
      exact .inr ⟨rfl, here⟩
    · exact .inl ⟨low, high, by omega, here⟩
  · rintro (⟨low, high, below, here⟩ | ⟨rfl, here⟩)
    · exact ⟨low, high, by omega, here⟩
    · exact ⟨near.1, near.2, Nat.lt_succ_self _, here⟩

/-- The scan goes on to the next slot. -/
theorem Captured.next {start pid t : Nat} {found : Option (Nat × γ)}
    (here : Captured m start pid (slotOf t) found) (near : start ≤ t ∧ t < start + wheelSize) :
    Captured m start pid (slotOf t + 1) ((m.get t).foldl (captureEarliest pid t) found) := by
  rw [capture_fold]
  cases first : (m.get t).find? fun e => e.1 == pid with
  | none =>
    -- A slot without the process adds no time.
    have absent : ¬ ∃ e ∈ m.get t, e.1 = pid := by
      rintro ⟨e, member, same⟩
      exact List.find?_eq_none.mp first e member (by simpa using same)
    have same : scannedTimes m start pid (slotOf t + 1) = scannedTimes m start pid (slotOf t) :=
      Set.ext fun x => by rw [scannedTimes_succ near, or_iff_left fun h => absent h.2]
    exact ⟨fun unseen => same ▸ here.unfound unseen, fun r seen => same ▸ here.best r seen⟩
  | some e =>
    have member := List.mem_of_find?_eq_some first
    have process : e.1 = pid := by simpa using List.find?_some first
    have added : t ∈ scannedTimes m start pid (slotOf t + 1) :=
      (scannedTimes_succ near t).mpr (.inr ⟨rfl, e, member, process⟩)
    have firstHere : (m.get t).find? (fun e => e.1 == pid) = some (pid, e.2) := by
      rw [first, ← process]
    cases found with
    | none =>
      refine ⟨nofun, ?_⟩
      rintro _ ⟨⟩
      refine ⟨⟨added, fun x inside => ?_⟩, firstHere⟩
      rcases (scannedTimes_succ near x).mp inside with old | ⟨rfl, -⟩
      · rw [here.unfound rfl] at old
        exact absurd old (Set.notMem_empty x)
      · exact le_refl _
    | some best =>
      obtain ⟨least, firstBest⟩ := here.best best rfl
      refine ⟨fun impossible => ?_, fun r seen => ?_⟩
      · dsimp only at impossible
        split at impossible <;> cases impossible
      · dsimp only at seen
        split at seen
        · rename_i earlier
          cases seen
          refine ⟨⟨added, fun x inside => ?_⟩, firstHere⟩
          rcases (scannedTimes_succ near x).mp inside with old | ⟨rfl, -⟩
          · exact earlier.le.trans (least.2 old)
          · exact le_refl _
        · rename_i notEarlier
          cases seen
          refine ⟨⟨(scannedTimes_succ near _).mpr (.inl least.1), fun x inside => ?_⟩, firstBest⟩
          rcases (scannedTimes_succ near x).mp inside with old | ⟨rfl, -⟩
          · exact least.2 old
          · exact not_lt.mp notEarlier

/-- The state of the scan of the ring below a bound. -/
structure Scanned (w : TimingWheel γ) (m : Calendar γ) (pid bound : Nat)
    (acc : TimingWheel γ × Option (Nat × γ)) : Prop where
  laid : ∃ n : Calendar γ, acc.1.Laid n ∧ ∀ t, n.get t =
    if w.currentTime ≤ t ∧ t < w.currentTime + wheelSize ∧ slotOf t < bound then
      (m.get t).filter fun e => e.1 != pid
    else m.get t
  time : acc.1.currentTime = w.currentTime
  overflow : acc.1.overflow = w.overflow
  counts : acc.1.pidCounts = w.pidCounts
  cache : acc.1.nextCache = none
  found : Captured m w.currentTime pid bound acc.2

/-- Scanning one more slot. -/
theorem Scanned.next {pid t : Nat} {acc : TimingWheel γ × Option (Nat × γ)}
    (here : Scanned w m pid (slotOf t) acc) (window : w.currentTime + wheelSize < 2 ^ 64)
    (near : w.currentTime ≤ t ∧ t < w.currentTime + wheelSize) :
    Scanned w m pid (slotOf t + 1) (TimingWheel.removeFromSlot pid acc (slotOf t)) := by
  obtain ⟨v, found⟩ := acc
  obtain ⟨⟨n, laid, queues⟩, time, overflow, counts, cache, captured⟩ := here
  dsimp only at laid time overflow counts cache captured
  have near' : v.currentTime ≤ t ∧ t < v.currentTime + wheelSize := by rwa [time]
  have queue : v.wheel (slotOf t) = m.get t := by
    rw [TimingWheel.Laid.near laid near', queues, if_neg (by omega)]
  have sum : addU64 v.currentTime ((slotOf t + wheelSize - slotOf v.currentTime) % wheelSize) = t := by
    rw [← slotsAhead_eq (slotOf_lt _) (slotOf_lt _), slotsAhead_slotOf near', addU64,
      Nat.add_sub_cancel' near'.1]
    exact Nat.mod_eq_of_lt (by omega)
  -- Replacing the queue of this time gives the queues of the next bound.
  have next (x : Nat) : (n.set t ((m.get t).filter fun e => e.1 != pid)).get x =
      if w.currentTime ≤ x ∧ x < w.currentTime + wheelSize ∧ slotOf x < slotOf t + 1 then
        (m.get x).filter fun e => e.1 != pid
      else m.get x := by
    rw [Buckets.get_set]
    split
    · rename_i same
      rw [same, if_pos ⟨near.1, near.2, Nat.lt_succ_self _⟩]
    · rename_i other
      have apart (inside : w.currentTime ≤ x ∧ x < w.currentTime + wheelSize) : slotOf x ≠ slotOf t :=
        fun same => other (slotOf_inj inside near same)
      rw [queues]
      by_cases inside : w.currentTime ≤ x ∧ x < w.currentTime + wheelSize ∧ slotOf x < slotOf t
      · rw [if_pos inside, if_pos ⟨inside.1, inside.2.1, by omega⟩]
      · rw [if_neg inside, if_neg fun h => inside ⟨h.1, h.2.1, by have := apart ⟨h.1, h.2.1⟩; omega⟩]
  have captured' := captured.next near
  unfold TimingWheel.removeFromSlot
  dsimp only
  rw [queue, sum]
  split
  · rename_i empty
    have emptied := List.isEmpty_iff.mp empty
    rw [emptied] at captured' next
    refine ⟨⟨n, laid, fun x => ?_⟩, time, overflow, counts, cache, captured'⟩
    rw [← next x, List.filter_nil, Buckets.set_nil]
    rw [queues, if_neg (by omega), emptied]
  · rename_i occupied
    have stores := laid.stores.setNear near' (laid.drained _ near'.2)
      ((m.get t).filter fun e => e.1 != pid)
    split
    · rename_i empty
      rw [List.isEmpty_iff.mp empty] at stores next ⊢
      exact ⟨⟨_, ⟨stores, laid.drained, laid.bitmap.clear (slotOf_lt t)⟩, next⟩, time, overflow, counts,
        rfl, captured'⟩
    · rename_i filled
      refine ⟨⟨_, ⟨stores, laid.drained, laid.bitmap.keep ?_⟩, next⟩, time, overflow, counts, cache,
        captured'⟩
      rw [queue]
      exact iff_of_false (by simpa using filled) (by simpa using occupied)

/-- The scan of the whole ring. -/
theorem scanned_ring (ok : w.Refines m) (pid : Nat) :
    Scanned w m pid wheelSize (w.scanRing pid) := by
  -- Slot by slot, the scan keeps the earliest hit of those behind it.
  have upTo (k : Nat) (bound : k ≤ wheelSize) : Scanned w m pid k
      ((List.range k).foldl (TimingWheel.removeFromSlot pid) ({ w with nextCache := none }, none)) := by
    induction k with
    | zero =>
      refine ⟨⟨m, ok.laid, fun x => ?_⟩, rfl, rfl, rfl, rfl, ⟨fun _ => ?_, nofun⟩⟩
      · rw [if_neg fun h => absurd h.2.2 (Nat.not_lt_zero _)]
      · exact Set.eq_empty_of_forall_notMem fun x inside => absurd inside.2.2.1 (Nat.not_lt_zero _)
    | succ k ih =>
      obtain ⟨t, low, high, rfl⟩ := exists_slotOf w.currentTime (show k < wheelSize by omega)
      rw [List.range_succ, List.foldl_append]
      exact (ih (by omega)).next ok.window ⟨low, high⟩
  exact upTo wheelSize (le_refl _)

end Ring

section Overflow

/-- The scan of the overflow takes the first event of the process off the first queue with one. -/
theorem removeFirstFar_spec (w : TimingWheel γ) (pid : Nat) :
    w.removeFirstFar pid (w.overflow.entries.map Prod.fst) =
      match w.overflow.findFirst fun e => e.1 == pid with
      | none => (w, none)
      | some r =>
        ({ w with overflow := w.overflow.set r.1 ((w.overflow.get r.1).eraseP fun e => e.1 == pid) },
          some (r.1, r.2.2)) := by
  -- Entry by entry, the first queue with a match is the one changed.
  have scan (entries : List (Nat × List (Event γ)))
      (stored : ∀ e ∈ entries, w.overflow.get e.1 = e.2) :
      w.removeFirstFar pid (entries.map Prod.fst) =
        match entries.findSome? fun e => (e.2.find? fun a => a.1 == pid).map fun a => (e.1, a) with
        | none => (w, none)
        | some r =>
          ({ w with overflow := w.overflow.set r.1 ((w.overflow.get r.1).eraseP fun e => e.1 == pid) },
            some (r.1, r.2.2)) := by
    induction entries with
    | nil => rfl
    | cons e entries ih =>
      have here := stored e List.mem_cons_self
      rw [List.map_cons, TimingWheel.removeFirstFar, List.findSome?_cons, here]
      cases e.2.find? fun a => a.1 == pid with
      | none => exact ih fun d member => stored d (List.mem_cons_of_mem e member)
      | some a =>
        dsimp only [Option.map_some]
        rw [here]
  exact scan _ fun e member => Buckets.get_of_mem member

/-- Erasing the first match erases all of them where there is at most one. -/
theorem eraseP_eq_filter {α : Type} {p : α → Bool} {l : List α} (one : l.countP p ≤ 1) :
    l.eraseP p = l.filter fun a => !p a := by
  induction l with
  | nil => rfl
  -- With at most one match, erasing the first leaves what filtering leaves.
  | cons a l ih =>
    rw [List.countP_cons] at one
    cases here : p a with
    | true =>
      have uncounted : l.countP p = 0 := by
        rw [here, if_pos rfl] at one
        omega
      rw [List.eraseP_cons_of_pos here, List.filter_cons_of_neg (by simp [here])]
      refine (List.filter_eq_self.mpr fun b member => ?_).symm
      simpa using List.countP_eq_zero.mp uncounted b member
    | false =>
      rw [List.eraseP_cons_of_neg (by simp [here]), List.filter_cons_of_pos (by simp [here]),
        ih (by omega)]

/-- Erasing the first match leaves the others. -/
theorem countP_eraseP {α : Type} (p : α → Bool) (l : List α) :
    l.countP p ≤ (l.eraseP p).countP p + 1 := by
  -- At most one match is erased.
  induction l with
  | nil => exact Nat.zero_le _
  | cons a l ih =>
    cases here : p a with
    | true => rw [List.eraseP_cons_of_pos here, List.countP_cons_of_pos here]
    | false =>
      rw [List.eraseP_cons_of_neg (by simp [here]), List.countP_cons_of_neg (by simp [here]),
        List.countP_cons_of_neg (by simp [here])]
      exact ih

/-- Erasing the first match of a queue erases every match of the map where there is at most one. -/
theorem set_eraseP_eq_filter {m : Calendar γ} {pid t : Nat} (one : m.count (fun e => e.1 == pid) ≤ 1)
    (here : ∃ e ∈ m.get t, e.1 = pid) :
    m.set t ((m.get t).eraseP fun e => e.1 == pid) = m.without pid := by
  have traded := m.count_set t [] fun e => e.1 == pid
  have counted : 0 < (m.get t).countP fun e => e.1 == pid := by
    obtain ⟨e, member, same⟩ := here
    exact List.countP_pos_iff.mpr ⟨e, member, by simpa using same⟩
  rw [List.countP_nil] at traded
  refine Buckets.ext_get fun x => ?_
  rw [Calendar.without, Buckets.get_filter, Buckets.get_set]
  split
  · rename_i same
    rw [same]
    exact eraseP_eq_filter (by omega)
  · rename_i other
    -- The only event of the process is in the other queue.
    have absent : ¬ 0 < (m.set t []).count fun e => e.1 == pid := by omega
    refine (List.filter_eq_self.mpr fun e member => ?_).symm
    by_contra process
    refine absent (Buckets.count_pos_iff.mpr ⟨x, e, ?_, by simpa using process⟩)
    rwa [Buckets.get_set_of_ne m other]

end Overflow

section Exact

variable {w : TimingWheel γ} {m : Calendar γ} {pid : Nat}

/-- A call of `remove_pid` takes every event of the process and no other, answers with the earliest one,
and leaves the queries exact for what remains. -/
structure RemovesExactly (w : TimingWheel γ) (m : Calendar γ) (pid : Nat) : Prop where
  /-- Every queue keeps the other processes' events in order. -/
  queues : (w.removePid pid).1.Refines (m.without pid)
  earliest : match (w.removePid pid).2 with
    | none => ∀ t, ∀ e ∈ m.get t, e.1 ≠ pid
    | some r => IsLeast {t | ∃ e ∈ m.get t, e.1 = pid} r.1 ∧
      ((m.get r.1).find? fun e => e.1 == pid) = some (pid, r.2)
  gone : (w.removePid pid).1.hasPid pid = false
  empty : (w.removePid pid).1.isEmpty = true ↔ ∀ t, (m.without pid).get t = []
  next : Earliest {t | (m.without pid).get t ≠ []} (w.removePid pid).1.nextTime.2
  counts : ∀ q, Counted ((w.removePid pid).1.pidCounts q) (Calendar.pidCount (m.without pid) q)

/-- The process is not counted once its events are gone. -/
theorem pidCount_without (m : Calendar γ) (pid q : Nat) :
    Calendar.pidCount (m.without pid) q = if q = pid then 0 else Calendar.pidCount m q := by
  -- The filter leaves out all events of the process and no other.
  rw [Calendar.pidCount, Calendar.without, Buckets.count_filter]
  split
  · rename_i same
    subst same
    rw [← Nat.le_zero, ← not_lt, Buckets.count_pos_iff]
    rintro ⟨t, e, -, holds⟩
    simp at holds
  · rename_i other
    -- Counting the events of another process does not notice the filter.
    refine congrArg m.count (funext fun e => ?_)
    by_cases here : e.1 = q
    · simp [here, other]
    · simp [here]

/-- `is_empty` says whether nothing is queued. -/
theorem TimingWheel.Refines.isEmpty (ok : w.Refines m) : w.isEmpty = true ↔ ∀ t, m.get t = [] := by
  have words := ok.laid.bitmap.words
  have bits := ok.laid.bitmap.bits
  rw [TimingWheel.isEmpty, Bool.and_eq_true, beq_iff_eq, List.isEmpty_iff, words, Finset.card_eq_zero]
  constructor
  · rintro ⟨noWords, far⟩ t
    have overflow : w.overflow.get t = [] := by
      rw [Buckets.get, far]
      rfl
    by_cases past : t < w.currentTime
    · exact (ok.laid.stores.past t past).1
    · by_cases beyond : w.currentTime + wheelSize ≤ t
      · rw [← ok.laid.stores.far t beyond, overflow]
      · -- The word of the slot has no bit set.
        have zero : w.bitmap (slotOf t / 64) = 0#64 := by
          by_contra nonzero
          have member : slotOf t / 64 ∈ setWords w.bitmap := by
            have := slotOf_lt t
            simp only [setWords, Finset.mem_filter, Finset.mem_range]
            refine ⟨?_, nonzero⟩
            simp only [wheelSize, bitmapWords] at *
            omega
          rw [noWords] at member
          exact absurd member (Finset.notMem_empty _)
        have slot := bits _ (slotOf_lt t)
        rw [slotSet, zero, TimingWheel.Laid.near ok.laid ⟨by omega, by omega⟩] at slot
        simpa using slot
  · intro allEmpty
    constructor
    · refine Finset.eq_empty_of_forall_notMem fun word member => ?_
      obtain ⟨inside, nonzero⟩ := Finset.mem_filter.mp member
      -- A set bit is an occupied slot.
      refine nonzero (BitVec.eq_of_getLsbD_eq fun i bound => ?_)
      have bound' : word * 64 + i < wheelSize := by
        have := Finset.mem_range.mp inside
        simp only [wheelSize, bitmapWords] at *
        omega
      obtain ⟨t, low, high, same⟩ := exists_slotOf w.currentTime bound'
      have slot := bits _ bound'
      rw [slotSet_word w.bitmap bound, ← same, TimingWheel.Laid.near ok.laid ⟨low, high⟩, allEmpty] at slot
      simpa using slot
    · refine List.eq_nil_iff_forall_not_mem.mpr fun e member => ?_
      have empty : w.overflow.get e.1 = [] := by
        by_cases beyond : w.currentTime + wheelSize ≤ e.1
        · rw [ok.laid.stores.far _ beyond, allEmpty]
        · exact ok.laid.drained _ (by omega)
      exact w.overflow.filled e member (by rw [← Buckets.get_of_mem member, empty])

/-- Where the calendar is what remains, the queries are exact. -/
theorem RemovesExactly.of_refines (queues : (w.removePid pid).1.Refines (m.without pid))
    (earliest : (w.removePid pid).2 = m.firstOf pid) : RemovesExactly w m pid where
  queues := queues
  earliest := by
    -- The returned event is the earliest of the process, and the first of its time.
    rw [earliest, Calendar.firstOf]
    cases found : m.findFirst fun e => e.1 == pid with
    | none =>
      intro t e member same
      have := Buckets.findFirst_eq_none.mp found t e member
      simp [same] at this
    | some r =>
      obtain ⟨least, first⟩ := Buckets.findFirst_spec found
      have process : r.2.1 = pid := by simpa using List.find?_some first
      simp only [beq_iff_eq] at least
      exact ⟨least, by rw [first, ← process]⟩
  gone := by
    rw [queues.hasPid, pidCount_without, if_pos rfl]
    rfl
  empty := queues.isEmpty
  next := by
    rw [queues.nextTime.2]
    exact earliest_firstKey _
  counts := queues.pids

/-- A calendar without the process keeps everything. -/
theorem without_of_absent (absent : ∀ t, ∀ e ∈ m.get t, e.1 ≠ pid) : m.without pid = m :=
  Buckets.filter_eq_self fun t e member => by simpa using absent t e member

/-- The counts once the process is dropped. -/
theorem dropped_counts (ok : w.Refines m) (pid q : Nat) :
    Counted (update w.pidCounts pid none q) (Calendar.pidCount (m.without pid) q) := by
  rw [pidCount_without]
  by_cases same : q = pid
  · subst same
    rw [update_self, if_pos rfl]
    exact ⟨by decide, rfl⟩
  · rw [update_of_ne same, if_neg same]
    exact ok.pids q

/-- The calendar left in the ring holds the other processes' events, the overflow being as before. -/
theorem Scanned.stores {acc : TimingWheel γ × Option (Nat × γ)} (ok : w.Refines m)
    (here : Scanned w m pid wheelSize acc) {overflow : Calendar γ}
    (kept : ∀ t, overflow.get t = (w.overflow.get t).filter fun e => e.1 != pid) :
    -- What is left in the ring and in the overflow is what was there without the process.
    Laid acc.1.wheel acc.1.bitmap acc.1.occupiedWords overflow (m.without pid) acc.1.currentTime := by
  obtain ⟨n, laid, queues⟩ := here.laid
  have drained (t : Nat) (near : t < w.currentTime + wheelSize) : overflow.get t = [] := by
    rw [kept, ok.laid.drained t near]
    rfl
  unfold TimingWheel.Laid at laid
  rw [here.time] at laid ⊢
  -- A time is near, far or past, and each is kept in its own place.
  refine ⟨⟨fun t low high => ?_, fun t far => ?_, fun t past => ?_⟩, drained, laid.bitmap⟩
  · have near := laid.stores.near t low high
    rw [queues, if_pos ⟨low, high, slotOf_lt t⟩, laid.drained t high, List.append_nil] at near
    rw [near, drained t high, List.append_nil, Calendar.without, Buckets.get_filter]
  · rw [kept, ok.laid.stores.far t far, Calendar.without, Buckets.get_filter]
  · obtain ⟨gone, far⟩ := ok.laid.stores.past t past
    rw [kept, far, Calendar.without, Buckets.get_filter, gone]
    exact ⟨rfl, rfl⟩

/-- An event of the process stands in the ring, or it is far. -/
theorem near_or_far (ok : w.Refines m) {t : Nat} (here : ∃ e ∈ m.get t, e.1 = pid) :
    t ∈ scannedTimes m w.currentTime pid wheelSize ∨
      w.currentTime + wheelSize ≤ t ∧ w.overflow.get t = m.get t := by
  by_cases far : w.currentTime + wheelSize ≤ t
  · exact .inr ⟨far, ok.laid.stores.far t far⟩
  · refine .inl ⟨?_, by omega, slotOf_lt t, here⟩
    by_contra past
    obtain ⟨e, member, -⟩ := here
    rw [(ok.laid.stores.past t (by omega)).1] at member
    cases member

/-- A process with an event in the ring, whatever the overflow holds of it. -/
theorem removes_near (ok : w.Refines m) (counted : (w.pidCounts pid).isNone = false)
    {r : Nat × γ} (found : (w.scanRing pid).2 = some r) : RemovesExactly w m pid := by
  have scanned := scanned_ring ok pid
  obtain ⟨acc, ring⟩ : ∃ acc, w.scanRing pid = acc := ⟨_, rfl⟩
  rw [ring] at scanned found
  have unfolded : w.removePid pid = ({ acc.1 with
      overflow := acc.1.overflow.filter fun e => e.1 != pid
      pidCounts := update acc.1.pidCounts pid none }, some r) := by
    rw [TimingWheel.removePid, counted]
    simp only [Bool.false_eq_true, if_false, ring, found]
  obtain ⟨least, first⟩ := scanned.found.best r found
  apply RemovesExactly.of_refines
  · rw [unfolded]
    refine ⟨?_, ?_, fun c known => ?_, fun q => ?_⟩
    · show acc.1.currentTime + wheelSize < 2 ^ 64
      rw [scanned.time]
      exact ok.window
    · exact scanned.stores ok fun t => by rw [Buckets.get_filter, scanned.overflow]
    · exact absurd (scanned.cache.symm.trans known) nofun
    · show Counted (update acc.1.pidCounts pid none q) _
      rw [scanned.counts]
      exact dropped_counts ok pid q
  · rw [unfolded, Calendar.firstOf]
    have earliest : IsLeast {t | ∃ e ∈ m.get t, (e.1 == pid) = true} r.1 := by
      simp only [beq_iff_eq]
      refine ⟨least.1.2.2.2, fun t here => ?_⟩
      rcases near_or_far ok here with near | far
      · exact least.2 near
      · -- The ring's times are earlier than every far one.
        exact (least.1.2.1.trans_le far.1).le
    rw [Buckets.findFirst_of_least earliest first]
    rfl

/-- A process without an event in the ring is found in the overflow. -/
theorem findFirst_far (ok : w.Refines m) (empty : scannedTimes m w.currentTime pid wheelSize = ∅) :
    (w.overflow.findFirst fun e => e.1 == pid) = m.findFirst fun e => e.1 == pid := by
  -- With no hit in the ring all events of the process are in the overflow.
  have same (t : Nat) (e : Event γ) (process : e.1 = pid) : e ∈ w.overflow.get t ↔ e ∈ m.get t := by
    constructor
    · intro member
      have far : w.currentTime + wheelSize ≤ t := by
        by_contra near
        rw [ok.laid.drained t (by omega)] at member
        cases member
      rwa [← ok.laid.stores.far t far]
    · intro member
      rcases near_or_far ok ⟨e, member, process⟩ with near | far
      · exact absurd (empty ▸ near) (Set.notMem_empty t)
      · rwa [far.2]
  cases found : m.findFirst fun e => e.1 == pid with
  | none =>
    refine Buckets.findFirst_eq_none.mpr fun t e member => ?_
    by_contra process
    have process : e.1 = pid := by simpa using process
    have := Buckets.findFirst_eq_none.mp found t e ((same t e process).mp member)
    simp [process] at this
  | some r =>
    -- The earliest of them is therefore the earliest of all.
    obtain ⟨least, first⟩ := Buckets.findFirst_spec found
    have times : {t | ∃ e ∈ w.overflow.get t, (e.1 == pid) = true} =
        {t | ∃ e ∈ m.get t, (e.1 == pid) = true} := by
      ext t
      simp only [beq_iff_eq]
      exact exists_congr fun e => and_congr_left (same t e)
    refine Buckets.findFirst_of_least (times ▸ least) ?_
    have here : ∃ e ∈ m.get r.1, e.1 = pid := by simpa using least.1
    rcases near_or_far ok here with near | far
    · exact absurd (empty ▸ near) (Set.notMem_empty _)
    · rwa [far.2]

/-- What `remove_pid` does where the ring has no event of the process. -/
theorem removePid_far (ok : w.Refines m) (counted : (w.pidCounts pid).isNone = false)
    (found : (w.scanRing pid).2 = none) : ∃ acc : TimingWheel γ × Option (Nat × γ),
      Scanned w m pid wheelSize acc ∧ acc.2 = none ∧
        w.removePid pid = match m.findFirst fun e => e.1 == pid with
          | none => ({ acc.1 with pidCounts := update acc.1.pidCounts pid none }, none)
          | some r =>
            ({ acc.1 with
                overflow :=
                  acc.1.overflow.set r.1 ((acc.1.overflow.get r.1).eraseP fun e => e.1 == pid)
                pidCounts := update acc.1.pidCounts pid none },
              some (r.1, r.2.2)) := by
  -- The ring was scanned in vain, so the overflow is searched.
  have scanned := scanned_ring ok pid
  obtain ⟨acc, ring⟩ : ∃ acc, w.scanRing pid = acc := ⟨_, rfl⟩
  rw [ring] at scanned found
  refine ⟨acc, scanned, found, ?_⟩
  have first : acc.1.overflow.findFirst (fun e => e.1 == pid) = m.findFirst fun e => e.1 == pid := by
    rw [scanned.overflow]
    exact findFirst_far ok (scanned.found.unfound found)
  rw [TimingWheel.removePid, counted]
  simp only [Bool.false_eq_true, if_false, ring, found]
  rw [removeFirstFar_spec, first]
  cases m.findFirst fun e => e.1 == pid <;> rfl

/-- With no event in the ring the removal is exact where the overflow has at most one. -/
theorem removes_far_iff (ok : w.Refines m) (counted : (w.pidCounts pid).isNone = false)
    (found : (w.scanRing pid).2 = none) :
    RemovesExactly w m pid ↔ w.overflow.count (fun e => e.1 == pid) ≤ 1 := by
  obtain ⟨acc, scanned, unseen, unfolded⟩ := removePid_far ok counted found
  have first := findFirst_far ok (scanned.found.unfound unseen)
  cases earliest : m.findFirst fun e => e.1 == pid with
  | none =>
    rw [earliest] at first unfolded
    have absent := Buckets.findFirst_eq_none.mp first
    refine iff_of_true ?_ ?_
    · apply RemovesExactly.of_refines
      · rw [unfolded]
        refine ⟨?_, ?_, fun c known => ?_, fun q => ?_⟩
        · show acc.1.currentTime + wheelSize < 2 ^ 64
          rw [scanned.time]
          exact ok.window
        · refine scanned.stores ok fun t => ?_
          rw [scanned.overflow, List.filter_eq_self.mpr]
          intro e member
          simpa [bne] using absent t e member
        · exact absurd (scanned.cache.symm.trans known) nofun
        · show Counted (update acc.1.pidCounts pid none q) _
          rw [scanned.counts]
          exact dropped_counts ok pid q
      · rw [unfolded, Calendar.firstOf, earliest]
        rfl
    · by_contra many
      obtain ⟨t, e, member, holds⟩ := Buckets.count_pos_iff.mp
        (show 0 < w.overflow.count fun e => e.1 == pid by omega)
      rw [absent t e member] at holds
      cases holds
  | some r =>
    rw [earliest] at first unfolded
    dsimp only at unfolded
    rw [scanned.overflow] at unfolded
    obtain ⟨least, here⟩ := Buckets.findFirst_spec first
    have inside : ∃ e ∈ w.overflow.get r.1, e.1 = pid := by simpa using least.1
    constructor
    · intro removes
      by_contra many
      -- One event is erased, so another one is left.
      have left : 0 < (w.overflow.set r.1
          ((w.overflow.get r.1).eraseP fun e => e.1 == pid)).count fun e => e.1 == pid := by
        have traded := w.overflow.count_set r.1
          ((w.overflow.get r.1).eraseP fun e => e.1 == pid) fun e => e.1 == pid
        have erased := countP_eraseP (fun e => e.1 == pid) (w.overflow.get r.1)
        omega
      obtain ⟨t, e, member, holds⟩ := Buckets.count_pos_iff.mp left
      have queues := removes.queues
      rw [unfolded] at queues
      have laid := queues.laid
      by_cases near : t < w.currentTime + wheelSize
      · have drained := laid.drained t (by show t < acc.1.currentTime + wheelSize; rwa [scanned.time])
        dsimp only at drained
        rw [drained] at member
        cases member
      · have far := laid.stores.far t (by
          show acc.1.currentTime + wheelSize ≤ t
          rw [scanned.time]
          omega)
        dsimp only at far
        rw [far, Calendar.without, Buckets.get_filter] at member
        have other := (List.mem_filter.mp member).2
        rw [bne, holds] at other
        cases other
    · intro one
      apply RemovesExactly.of_refines
      · rw [unfolded]
        refine ⟨?_, ?_, fun c known => ?_, fun q => ?_⟩
        · show acc.1.currentTime + wheelSize < 2 ^ 64
          rw [scanned.time]
          exact ok.window
        · refine scanned.stores ok fun t => ?_
          rw [set_eraseP_eq_filter one inside, Calendar.without, Buckets.get_filter]
        · exact absurd (scanned.cache.symm.trans known) nofun
        · show Counted (update acc.1.pidCounts pid none q) _
          rw [scanned.counts]
          exact dropped_counts ok pid q
      · rw [unfolded, Calendar.firstOf, earliest]
        rfl

/-- The scan of the ring finds an event where a slot has one. -/
theorem scanRing_some_iff (ok : w.Refines m) :
    (w.scanRing pid).2 = none ↔ ¬ ∃ s < wheelSize, ∃ e ∈ w.wheel s, e.1 = pid := by
  have scanned := scanned_ring ok pid
  -- A slot of the ring holds the events of one time of the revolution.
  constructor
  · rintro unseen ⟨s, bound, here⟩
    obtain ⟨t, low, high, rfl⟩ := exists_slotOf w.currentTime bound
    rw [TimingWheel.Laid.near ok.laid ⟨low, high⟩] at here
    have inside : t ∈ scannedTimes m w.currentTime pid wheelSize := ⟨low, high, bound, here⟩
    rw [scanned.found.unfound unseen] at inside
    exact Set.notMem_empty t inside
  · intro absent
    by_contra sighted
    obtain ⟨r, found⟩ := Option.ne_none_iff_exists'.mp sighted
    obtain ⟨low, high, bound, here⟩ := (scanned.found.best r found).1.1
    refine absent ⟨_, bound, ?_⟩
    rwa [TimingWheel.Laid.near ok.laid ⟨low, high⟩]

/-- `remove_pid` is exact where the process has an event in the ring or at most one beyond it. -/
theorem removesExactly_iff (ok : w.Refines m) : RemovesExactly w m pid ↔ w.FewFar pid := by
  by_cases counted : (w.pidCounts pid).isNone = true
  · -- An uncounted process has no event anywhere.
    have uncounted : Calendar.pidCount m pid = 0 := by
      obtain ⟨-, stored⟩ := ok.pids pid
      by_contra nonzero
      rw [stored, if_neg nonzero] at counted
      cases counted
    have absent : ∀ t, ∀ e ∈ m.get t, e.1 ≠ pid := by
      intro t e member same
      have counted : 0 < m.count fun e => e.1 == pid :=
        Buckets.count_pos_iff.mpr ⟨t, e, member, by simpa using same⟩
      exact absurd uncounted counted.ne'
    have unfolded : w.removePid pid = (w, none) := by rw [TimingWheel.removePid, if_pos counted]
    refine iff_of_true (RemovesExactly.of_refines ?_ ?_) (.inr ?_)
    · rw [unfolded, without_of_absent absent]
      exact ok
    · rw [unfolded, Calendar.firstOf, Buckets.findFirst_eq_none.mpr fun t e member => by
        simpa using absent t e member]
      rfl
    · by_contra many
      obtain ⟨t, e, member, holds⟩ := Buckets.count_pos_iff.mp
        (show 0 < w.overflow.count fun e => e.1 == pid by omega)
      by_cases near : t < w.currentTime + wheelSize
      · rw [ok.laid.drained t near] at member
        cases member
      · rw [ok.laid.stores.far t (by omega)] at member
        exact absent t e member (by simpa using holds)
  · have counted : (w.pidCounts pid).isNone = false := Bool.eq_false_iff.mpr counted
    cases found : (w.scanRing pid).2 with
    | none =>
      rw [removes_far_iff ok counted found, TimingWheel.FewFar,
        or_iff_right ((scanRing_some_iff ok).mp found)]
    | some r =>
      refine iff_of_true (removes_near ok counted found) (.inl ?_)
      by_contra absent
      rw [(scanRing_some_iff ok).mpr absent] at found
      cases found

end Exact

section Runs

/-- One call of the wheel's interface, `remove_pid` among them. -/
inductive WheelCall (γ : Type) where
  | op (o : WheelOp γ)
  | removePid (pid : Nat)

/-- Carry out a call on the wheel. -/
def WheelCall.onWheel (w : TimingWheel γ) :
    WheelCall γ → TimingWheel γ × (WheelReply γ ⊕ Option (Nat × γ))
  | .op o => ((o.onWheel w).1, .inl (o.onWheel w).2)
  | .removePid pid => ((w.removePid pid).1, .inr (w.removePid pid).2)

/-- What the call does to a calendar. -/
def WheelCall.onCalendar (m : Calendar γ) :
    WheelCall γ → Calendar γ × (WheelReply γ ⊕ Option (Nat × γ))
  | .op o => ((o.onCalendar m).1, .inl (o.onCalendar m).2)
  | .removePid pid => (m.without pid, .inr (m.firstOf pid))

/-- The state after a run of calls. -/
def afterCalls {σ β : Type} (step : σ → WheelCall γ → σ × β) : σ → List (WheelCall γ) → σ :=
  List.foldl fun s call => (step s call).1

/-- A call within the wheel's discipline whose sums fit, or a removal that has at most one event to take
from beyond the ring. -/
def WheelCall.Meets (w : TimingWheel γ) : WheelCall γ → Prop
  | .op o => o.Disciplined w ∧ o.Fits w
  | .removePid pid => w.FewFar pid

/-- Every call of a run meets that in the state it is made in. -/
def CallsMeet : TimingWheel γ → List (WheelCall γ) → Prop
  | _, [] => True
  | w, call :: rest => call.Meets w ∧ CallsMeet (call.onWheel w).1 rest

/-- A call leaves the wheel standing for the calendar the same call leaves. -/
theorem WheelCall.step_refines {w : TimingWheel γ} {m : Calendar γ} (ok : w.Refines m)
    {call : WheelCall γ} (meets : call.Meets w) : (call.onWheel w).1.Refines (call.onCalendar m).1 := by
  cases call with
  | op o => exact (WheelOp.step_refines ok meets.1 meets.2).1
  | removePid pid => exact ((removesExactly_iff ok).mpr meets).queues

/-- A run of calls leaves the wheel standing for the calendar the same run leaves. -/
theorem calls_refine {calls : List (WheelCall γ)} {w : TimingWheel γ} {m : Calendar γ}
    (ok : w.Refines m) (meets : CallsMeet w calls) :
    (afterCalls WheelCall.onWheel w calls).Refines (afterCalls WheelCall.onCalendar m calls) := by
  induction calls generalizing w m with
  | nil => exact ok
  | cons call rest ih => exact ih (WheelCall.step_refines ok meets.1) meets.2

/-- In the state reached by any run whose calls meet the condition, a removal is exact where it meets the
condition and nowhere else. -/
theorem removePid_exact_iff {calls : List (WheelCall γ)} (meets : CallsMeet TimingWheel.new calls)
    (pid : Nat) :
    RemovesExactly (afterCalls WheelCall.onWheel TimingWheel.new calls)
        (afterCalls WheelCall.onCalendar (Buckets.empty : Calendar γ) calls) pid ↔
      (afterCalls WheelCall.onWheel TimingWheel.new calls).FewFar pid :=
  removesExactly_iff (calls_refine TimingWheel.refines_new meets)

/-- A near and a far event of one process, and one of another. -/
def mixedCalls : List (WheelCall Unit) :=
  [.op (.schedule 10 1 ()), .op (.schedule 9000 1 ()), .op (.schedule 10 2 ())]

/-- Both events of the process are taken. -/
theorem removePid_exact_mixed :
    RemovesExactly (afterCalls WheelCall.onWheel TimingWheel.new mixedCalls)
      (afterCalls WheelCall.onCalendar (Buckets.empty : Calendar Unit) mixedCalls) 1 := by
  refine (removePid_exact_iff ?_ 1).mpr (.inl ⟨10, by decide, (1, ()), ?_, rfl⟩)
  · exact ⟨⟨by decide +kernel, by decide +kernel⟩, ⟨by decide +kernel, by decide +kernel⟩,
      ⟨by decide +kernel, by decide +kernel⟩, trivial⟩
  · decide +kernel

/-- Two far events of one process. -/
def farCalls : List (WheelOp Unit) := [.schedule 5000 1 (), .schedule 6000 1 ()]

/-- The second far event stays behind as a wakeup of a process that counts as gone. -/
theorem removePid_leaves_far :
    ¬ ∀ ops : List (WheelOp Unit), RunMeets WheelOp.Disciplined TimingWheel.new ops →
      RunMeets WheelOp.Fits TimingWheel.new ops → ∀ pid,
        RemovesExactly (runCallsOn (fun w op => op.onWheel w) TimingWheel.new ops).1
          (runCallsOn (fun m op => op.onCalendar m) (Buckets.empty : Calendar Unit) ops).1 pid := by
  intro claim
  have disciplined : RunMeets WheelOp.Disciplined TimingWheel.new farCalls := by decide +kernel
  have fits : RunMeets WheelOp.Fits TimingWheel.new farCalls := by decide +kernel
  have refines := (run_refines TimingWheel.refines_new disciplined fits).1
  -- The ring is empty and the overflow holds two events.
  rcases (removesExactly_iff refines).mp (claim farCalls disciplined fits 1) with near | few
  · obtain ⟨s, -, e, member, -⟩ := near
    exact absurd (show e ∈ ([] : List (Event Unit)) from member) List.not_mem_nil
  · exact absurd few (by decide +kernel)

end Runs

end Xezim
