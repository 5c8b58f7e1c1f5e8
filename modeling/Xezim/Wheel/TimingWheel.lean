import Mathlib.Logic.Function.Basic
import Xezim.Lib.Buckets
import Xezim.Value

/-! The timing wheel: events of the near future in a ring of slots, later ones in an ordered map. -/

namespace Xezim

open Function

/-- A process and the continuation it runs. -/
abbrev Event (γ : Type) := Nat × γ

/-- `TimingWheel`. -/
structure TimingWheel (γ : Type) where
  /-- The slots of the ring. -/
  wheel : Nat → List (Event γ)
  /-- The occupancy bitmap, a bit a slot. -/
  bitmap : Nat → Word
  /-- Events further ahead than the ring reaches, by time. -/
  overflow : Buckets Nat (Event γ)
  /-- The number of bitmap words with a set bit. -/
  occupiedWords : Nat
  /-- The memoised next time, where it is known. -/
  nextCache : Option (Option Nat)
  /-- The time the wheel stands at. -/
  currentTime : Nat
  /-- How often each process is queued. -/
  pidCounts : Nat → Option Nat
  /-- The time whose slot has entries put in front. -/
  frontTime : Nat
  /-- How many of them are not yet popped. -/
  frontPending : Nat
  /-- The latest pop returned one of them. -/
  lastPopFront : Bool

/-- `WHEEL_SIZE`. -/
def wheelSize : Nat := 4096

/-- `BITMAP_WORDS`. -/
def bitmapWords : Nat := 64

/-- The slot of a time. -/
def slotOf (time : Nat) : Nat := time % wheelSize

/-- A sum of two 64-bit numbers. -/
def addU64 (a b : Nat) : Nat := (a + b) % 2 ^ 64

/-- `u64::trailing_zeros`. -/
def trailingZeros (w : Word) : Nat := ((List.range 64).find? w.getLsbD).getD 64

/-- The first occupied slot at or after a start slot, going round the ring. -/
def firstSlot (bitmap : Nat → Word) (start : Nat) : Option Nat :=
  let word := start / 64
  let bit := start % 64
  let firstMasked := bitmap word &&& (BitVec.allOnes 64 <<< bit)
  if firstMasked ≠ 0#64 then some (word * 64 + trailingZeros firstMasked)
  else
    match (List.range' 1 (bitmapWords - 1)).find? fun w =>
        bitmap ((word + w) % bitmapWords) ≠ 0#64 with
    | some w =>
      let idx := (word + w) % bitmapWords
      some (idx * 64 + trailingZeros (bitmap idx))
    | none =>
      -- The low bits of the start word are the slots furthest ahead.
      let lastMasked := bitmap word &&& ~~~(BitVec.allOnes 64 <<< bit)
      if bit ≠ 0 ∧ lastMasked ≠ 0#64 then some (word * 64 + trailingZeros lastMasked) else none

/-- How many slots ahead of a start slot another one stands. -/
def slotsAhead (start slot : Nat) : Nat :=
  if slot ≥ start then slot - start else slot + wheelSize - start

/-- The smaller of a time and the best one so far. -/
def bestTime (best : Option Nat) (t : Nat) : Option Nat := some (best.elim t fun b => min b t)

namespace TimingWheel

variable {γ : Type}

/-- `TimingWheel::new`. -/
def new : TimingWheel γ where
  wheel _ := []
  bitmap _ := 0#64
  overflow := Buckets.empty
  occupiedWords := 0
  nextCache := none
  currentTime := 0
  pidCounts _ := none
  frontTime := 0
  frontPending := 0
  lastPopFront := false

variable (w : TimingWheel γ)

/-- `bitmap_set`. -/
def bitmapSet (slot : Nat) : TimingWheel γ :=
  let old := w.bitmap (slot / 64)
  { w with
    bitmap := update w.bitmap (slot / 64) (old ||| (1#64 <<< (slot % 64)))
    occupiedWords := if old = 0#64 then w.occupiedWords + 1 else w.occupiedWords }

/-- `bitmap_clear`. -/
def bitmapClear (slot : Nat) : TimingWheel γ :=
  let old := w.bitmap (slot / 64)
  let cleared := old &&& ~~~(1#64 <<< (slot % 64))
  { w with
    bitmap := if old ≠ 0#64 then update w.bitmap (slot / 64) cleared else w.bitmap
    occupiedWords :=
      if old ≠ 0#64 ∧ cleared = 0#64 then w.occupiedWords - 1 else w.occupiedWords
    nextCache := none }

/-- `narrow_next_cache`: a new event can only move the next time earlier. -/
def narrowNextCache (time : Nat) : TimingWheel γ :=
  { w with nextCache := w.nextCache.map fun c => some (c.elim time fun t => min t time) }

/-- Count a process once more, in 32 bits. -/
def countPid (pid : Nat) : TimingWheel γ :=
  { w with pidCounts := update w.pidCounts pid (some (((w.pidCounts pid).getD 0 + 1) % 2 ^ 32)) }

/-- `decrement_pid_count`. -/
def decrementPidCount (pid : Nat) : TimingWheel γ :=
  match w.pidCounts pid with
  | some c => { w with pidCounts := update w.pidCounts pid (if c - 1 = 0 then none else some (c - 1)) }
  | none => w

/-- Change the queue of a time, in the ring or beyond it. -/
def place (time : Nat) (put : List (Event γ) → List (Event γ)) : TimingWheel γ :=
  if time < addU64 w.currentTime wheelSize then
    { w with wheel := update w.wheel (slotOf time) (put (w.wheel (slotOf time))) }.bitmapSet
      (slotOf time)
  else { w with overflow := w.overflow.set time (put (w.overflow.get time)) }

/-- `schedule`. -/
def schedule (time pid : Nat) (stmts : γ) : TimingWheel γ :=
  ((w.countPid pid).narrowNextCache time).place time (· ++ [(pid, stmts)])

/-- `schedule_front`. -/
def scheduleFront (time pid : Nat) (stmts : γ) : TimingWheel γ :=
  let counted := w.countPid pid
  let fronted := { counted with
    frontTime := time
    frontPending :=
      ((if counted.frontTime ≠ time then 0 else counted.frontPending) + 1) % 2 ^ 32 }
  (fronted.narrowNextCache time).place time ((pid, stmts) :: ·)

/-- `requeue_front`: the last of the batch goes to the front first. -/
def requeueFront (time : Nat) (rest : List (Event γ)) : TimingWheel γ :=
  rest.reverse.foldl (fun w e => (w.countPid e.1).place time (e :: ·)) (w.narrowNextCache time)

/-- `is_empty`. -/
def isEmpty : Bool := w.occupiedWords == 0 && w.overflow.entries.isEmpty

/-- `next_time_scan`. -/
def nextTimeScan : Option Nat :=
  match firstSlot w.bitmap (slotOf w.currentTime) with
  | some slot => some (addU64 w.currentTime (slotsAhead (slotOf w.currentTime) slot))
  | none => w.overflow.firstKey

/-- `next_time`: the memoised time unless it fell behind the clock, else a scan that is memoised. -/
def nextTime : TimingWheel γ × Option Nat :=
  let scan := ({ w with nextCache := some w.nextTimeScan }, w.nextTimeScan)
  match w.nextCache with
  | some none => (w, none)
  | some (some t) => if w.currentTime ≤ t then (w, some t) else scan
  | none => scan

/-- `next_time_after`. -/
def nextTimeAfter (after : Nat) : Option Nat :=
  let best := (List.range wheelSize).foldl (fun best slot =>
    if (w.bitmap (slot / 64)).getLsbD (slot % 64) then
      let t := addU64 w.currentTime ((slot + wheelSize - slotOf w.currentTime) % wheelSize)
      if t > after then bestTime best t else best
    else best) none
  -- The range starts at `after + 1`, computed in 64 bits.
  let far := if after + 1 < 2 ^ 64 then w.overflow.firstAbove after else w.overflow.firstKey
  match far with
  | some t => bestTime best t
  | none => best

/-- Move one time of the overflow into its slot of the ring. -/
def moveOne (time : Nat) : TimingWheel γ :=
  { w with
    overflow := w.overflow.set time []
    wheel := update w.wheel (slotOf time) (w.wheel (slotOf time) ++ w.overflow.get time) }.bitmapSet
      (slotOf time)

/-- `move_overflow_into_wheel`: drain the times the ring reaches from a new time on. -/
def moveOverflowIntoWheel (time : Nat) : TimingWheel γ :=
  (w.overflow.keysBelow (addU64 time wheelSize)).foldl moveOne w

/-- Bring the clock to a time, with every event the ring now reaches in it. -/
def advance (time : Nat) : TimingWheel γ :=
  { w with currentTime := time }.moveOverflowIntoWheel time

/-- `pop_front`: the next event at a time, first in first out. -/
def popFront (time : Nat) : TimingWheel γ × Option (Event γ) :=
  let w := w.advance time
  let s := slotOf time
  let event := (w.wheel s).head?
  let w := { w with wheel := update w.wheel s (w.wheel s).tail }
  let w := if (w.wheel s).isEmpty then w.bitmapClear s else w
  let w := { w with lastPopFront := false }
  match event with
  | none => (w, none)
  | some e =>
    let w := w.decrementPidCount e.1
    (if 0 < w.frontPending ∧ w.frontTime = time then
      { w with frontPending := w.frontPending - 1, lastPopFront := true }
    else w, some e)

/-- `remove`: every event at a time. -/
def remove (time : Nat) : TimingWheel γ × List (Event γ) :=
  let w := { w with frontPending := if w.frontTime = time then 0 else w.frontPending }.advance time
  let s := slotOf time
  let events := w.wheel s
  let w := { w with wheel := update w.wheel s [] }
  (if events.isEmpty then w
    else events.foldl (fun w e => w.decrementPidCount e.1) (w.bitmapClear s), events)

/-- `has_pid`. -/
def hasPid (pid : Nat) : Bool := (w.pidCounts pid).isSome

end TimingWheel

end Xezim
