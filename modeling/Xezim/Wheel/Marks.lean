import Xezim.Wheel.Refinement

/-! The wheel never looks at what its events carry, so events can carry a mark of how they were inserted. -/

namespace Xezim

open Function

variable {γ δ : Type}

/-- Change what an event carries. -/
def Event.map (f : γ → δ) (e : Event γ) : Event δ := (e.1, f e.2)

/-- Change what every event of a wheel carries. -/
def TimingWheel.map (f : γ → δ) (w : TimingWheel γ) : TimingWheel δ where
  wheel slot := (w.wheel slot).map (Event.map f)
  bitmap := w.bitmap
  overflow := w.overflow.map (Event.map f)
  occupiedWords := w.occupiedWords
  nextCache := w.nextCache
  currentTime := w.currentTime
  pidCounts := w.pidCounts
  frontTime := w.frontTime
  frontPending := w.frontPending
  lastPopFront := w.lastPopFront

/-- Change what the events of a call carry. -/
def WheelOp.map (f : γ → δ) : WheelOp γ → WheelOp δ
  | schedule t pid stmts => .schedule t pid (f stmts)
  | scheduleFront t pid stmts => .scheduleFront t pid (f stmts)
  | requeueFront t rest => .requeueFront t (rest.map (Event.map f))
  | popFront t => .popFront t
  | remove t => .remove t
  | nextTime => .nextTime
  | nextTimeAfter after => .nextTimeAfter after
  | hasPid pid => .hasPid pid

/-- Change what the events of an answer carry. -/
def WheelReply.map (f : γ → δ) : WheelReply γ → WheelReply δ
  | done => .done
  | event e => .event (e.map (Event.map f))
  | events es => .events (es.map (Event.map f))
  | time t => .time t
  | flag b => .flag b

namespace TimingWheel

variable (f : γ → δ) (w : TimingWheel γ)

/-- A ring with one slot changed, seen through a change of its events. -/
theorem map_update (ring : Nat → List (Event γ)) (slot : Nat) (q : List (Event γ)) :
    (fun s => (update ring slot q s).map (Event.map f)) =
      update (fun s => (ring s).map (Event.map f)) slot (q.map (Event.map f)) := by
  funext s
  by_cases here : s = slot
  · subst here
    simp
  · simp [here]

/-- Placing commutes with a change of the events. -/
theorem map_place (t : Nat) {put : List (Event γ) → List (Event γ)} {put' : List (Event δ) → List (Event δ)}
    (natural : ∀ q, (put q).map (Event.map f) = put' (q.map (Event.map f))) :
    (w.place t put).map f = (w.map f).place t put' := by
  unfold place
  by_cases near : t < addU64 w.currentTime wheelSize
  · rw [if_pos near, if_pos (show t < addU64 (w.map f).currentTime wheelSize from near)]
    simp only [TimingWheel.map, bitmapSet, map_update, natural]
    rfl
  · rw [if_neg near, if_neg (show ¬ t < addU64 (w.map f).currentTime wheelSize from near)]
    simp only [TimingWheel.map, Buckets.map_set, natural, Buckets.get_map]

/-- `schedule` commutes with a change of the events. -/
theorem map_schedule (t pid : Nat) (stmts : γ) :
    (w.schedule t pid stmts).map f = (w.map f).schedule t pid (f stmts) := by
  unfold schedule
  exact map_place f _ t fun q => by simp [Event.map]

/-- `schedule_front` commutes with a change of the events. -/
theorem map_scheduleFront (t pid : Nat) (stmts : γ) :
    (w.scheduleFront t pid stmts).map f = (w.map f).scheduleFront t pid (f stmts) := by
  unfold scheduleFront
  exact map_place f _ t fun q => by simp [Event.map]

/-- Putting a batch in front, last event first, commutes with a change of the events. -/
theorem map_requeue (t : Nat) (batch : List (Event γ)) :
    (batch.foldl (fun w e => (w.countPid e.1).place t (e :: ·)) w).map f =
      (batch.map (Event.map f)).foldl (fun w e => (w.countPid e.1).place t (e :: ·)) (w.map f) := by
  induction batch generalizing w with
  | nil => rfl
  | cons e rest ih =>
    have placed : ((w.countPid e.1).place t (e :: ·)).map f = ((w.countPid e.1).map f).place t (Event.map f e :: ·) :=
      map_place f (w.countPid e.1) t fun q => rfl
    have counted : (w.countPid e.1).map f = (w.map f).countPid (Event.map f e).1 := rfl
    rw [List.foldl_cons, ih, placed, List.map_cons, List.foldl_cons, counted]

/-- `requeue_front` commutes with a change of the events. -/
theorem map_requeueFront (t : Nat) (rest : List (Event γ)) :
    (w.requeueFront t rest).map f = (w.map f).requeueFront t (rest.map (Event.map f)) := by
  have narrowed : (w.map f).narrowNextCache t = (w.narrowNextCache t).map f := rfl
  unfold requeueFront
  rw [← List.map_reverse, narrowed, map_requeue]

/-- Bringing the clock forward commutes with a change of the events. -/
theorem map_advance (t : Nat) : (w.advance t).map f = (w.map f).advance t := by
  -- The same keys are moved, in the same order.
  unfold advance moveOverflowIntoWheel
  have keys : (w.map f).overflow.keysBelow (addU64 t wheelSize) = w.overflow.keysBelow (addU64 t wheelSize) :=
    Buckets.keysBelow_map _ _ _
  show _ = ((w.map f).overflow.keysBelow (addU64 t wheelSize)).foldl moveOne { w.map f with currentTime := t }
  rw [keys]
  suffices ∀ (times : List Nat) (w : TimingWheel γ),
      (times.foldl moveOne w).map f = times.foldl moveOne (w.map f) from this _ { w with currentTime := t }
  intro times
  induction times with
  | nil => exact fun _ => rfl
  | cons first rest ih =>
    intro w
    have moved : (w.moveOne first).map f = (w.map f).moveOne first := by
      simp only [moveOne, TimingWheel.map, bitmapSet, map_update, Buckets.map_set, Buckets.get_map, List.map_append,
        List.map_nil]
      rfl
    rw [List.foldl_cons, List.foldl_cons, ih, moved]

/-- Clearing a bit commutes with a change of the events. -/
theorem map_bitmapClear (slot : Nat) : (w.bitmapClear slot).map f = (w.map f).bitmapClear slot := rfl

/-- Uncounting a process commutes with a change of the events. -/
theorem map_decrementPidCount (pid : Nat) : (w.decrementPidCount pid).map f = (w.map f).decrementPidCount pid := by
  unfold decrementPidCount
  rw [show (w.map f).pidCounts = w.pidCounts from rfl]
  cases w.pidCounts pid <;> rfl

/-- A queue shortened, and its bit cleared once it is empty. -/
def shorten (slot : Nat) (q : List (Event γ)) : TimingWheel γ :=
  let taken := { w with wheel := update w.wheel slot q }
  if q.isEmpty then taken.bitmapClear slot else taken

/-- A pop at a time counts as one of an entry put in front while some are pending there. -/
def noteFront (time : Nat) : TimingWheel γ :=
  if 0 < w.frontPending ∧ w.frontTime = time then
    { w with frontPending := w.frontPending - 1, lastPopFront := true }
  else w

/-- What a pop notes of the event it returns. -/
def notePop (time : Nat) : Option (Event γ) → TimingWheel γ
  | none => { w with lastPopFront := false }
  | some e => ({ w with lastPopFront := false }.decrementPidCount e.1).noteFront time

/-- `pop_front` shortens the queue of its time and notes the event it took. -/
theorem popFront_eq (t : Nat) :
    w.popFront t =
      let queue := (w.advance t).wheel (slotOf t)
      (((w.advance t).shorten (slotOf t) queue.tail).notePop t queue.head?, queue.head?) := by
  unfold popFront shorten
  simp only [update_self]
  cases ((w.advance t).wheel (slotOf t)).head? <;> rfl

/-- `remove` empties the queue of its time and uncounts its events. -/
theorem remove_eq (t : Nat) :
    w.remove t =
      let counted : TimingWheel γ := { w with frontPending := if w.frontTime = t then 0 else w.frontPending }.advance t
      let events := counted.wheel (slotOf t)
      (if events.isEmpty then { counted with wheel := update counted.wheel (slotOf t) [] }
        else events.foldl (fun w e => w.decrementPidCount e.1) (counted.shorten (slotOf t) []), events) := rfl

/-- Shortening a queue commutes with a change of the events. -/
theorem map_shorten (slot : Nat) (q : List (Event γ)) :
    (w.shorten slot q).map f = (w.map f).shorten slot (q.map (Event.map f)) := by
  have taken : TimingWheel.map f { w with wheel := update w.wheel slot q } =
      { w.map f with wheel := update (w.map f).wheel slot (q.map (Event.map f)) } := by
    simp only [TimingWheel.map, map_update]
  unfold shorten
  simp only [List.isEmpty_map, ← taken]
  split <;> rfl

/-- Noting a pop commutes with a change of the events. -/
theorem map_notePop (t : Nat) (e : Option (Event γ)) :
    (w.notePop t e).map f = (w.map f).notePop t (e.map (Event.map f)) := by
  have noted (w : TimingWheel γ) : (w.noteFront t).map f = (w.map f).noteFront t := by
    unfold noteFront
    show _ = if 0 < w.frontPending ∧ w.frontTime = t then _ else _
    split <;> rfl
  cases e with
  | none => rfl
  | some e =>
    simp only [notePop, Option.map_some, noted, map_decrementPidCount]
    rfl

/-- `pop_front` commutes with a change of the events. -/
theorem map_popFront (t : Nat) :
    (w.popFront t).1.map f = ((w.map f).popFront t).1 ∧
      (w.popFront t).2.map (Event.map f) = ((w.map f).popFront t).2 := by
  have queue : ((w.map f).advance t).wheel (slotOf t) =
      ((w.advance t).wheel (slotOf t)).map (Event.map f) := by
    rw [← map_advance]
    rfl
  simp only [popFront_eq, queue, map_notePop, map_shorten, map_advance, List.map_tail, List.head?_map, and_self]

/-- Uncounting every event of a list commutes with a change of the events. -/
theorem map_decrements (events : List (Event γ)) :
    (events.foldl (fun w e => w.decrementPidCount e.1) w).map f =
      (events.map (Event.map f)).foldl (fun w e => w.decrementPidCount e.1) (w.map f) := by
  induction events generalizing w with
  | nil => rfl
  | cons e rest ih =>
    rw [List.foldl_cons, ih, map_decrementPidCount]
    rfl

/-- `remove` commutes with a change of the events. -/
theorem map_remove (t : Nat) :
    (w.remove t).1.map f = ((w.map f).remove t).1 ∧
      (w.remove t).2.map (Event.map f) = ((w.map f).remove t).2 := by
  -- Clearing the front count commutes with the marks, and so does advancing.
  have start : (TimingWheel.map f { w with frontPending := if w.frontTime = t then 0 else w.frontPending }) =
      { w.map f with frontPending := if (w.map f).frontTime = t then 0 else (w.map f).frontPending } := rfl
  simp only [remove_eq, ← start, ← map_advance]
  generalize TimingWheel.advance _ t = counted
  have queue : (counted.map f).wheel (slotOf t) = (counted.wheel (slotOf t)).map (Event.map f) := rfl
  rw [queue, List.isEmpty_map]
  refine ⟨?_, rfl⟩
  split
  · simp only [TimingWheel.map, map_update, List.map_nil]
  · rw [map_decrements, map_shorten, List.map_nil]

/-- `next_time` reads no event. -/
theorem map_nextTime : w.nextTime.1.map f = (w.map f).nextTime.1 ∧ (w.map f).nextTime.2 = w.nextTime.2 := by
  -- The scan reads occupancy and the clock, neither of which the marks change.
  have scan : (w.map f).nextTimeScan = w.nextTimeScan := by
    unfold nextTimeScan
    simp only [TimingWheel.map, Buckets.firstKey_map]
  have cache : (w.map f).nextCache = w.nextCache := rfl
  have clock : (w.map f).currentTime = w.currentTime := rfl
  unfold nextTime
  rw [scan, cache]
  rcases w.nextCache with _ | _ | t
  · exact ⟨rfl, rfl⟩
  · exact ⟨rfl, rfl⟩
  · simp only [clock]
    split <;> exact ⟨rfl, rfl⟩

/-- `next_time_after` reads no event. -/
theorem map_nextTimeAfter (after : Nat) : (w.map f).nextTimeAfter after = w.nextTimeAfter after := by
  unfold nextTimeAfter
  simp only [TimingWheel.map, Buckets.firstKey_map, Buckets.firstAbove_map]
  rfl

end TimingWheel

/-- A call on a wheel with changed events answers with the changed events. -/
theorem WheelOp.map_onWheel (f : γ → δ) (w : TimingWheel γ) (op : WheelOp γ) :
    (op.map f).onWheel (w.map f) = ((op.onWheel w).1.map f, (op.onWheel w).2.map f) := by
  -- One operation at a time, each by its own lemma.
  cases op with
  | schedule t pid stmts => simp only [WheelOp.map, WheelOp.onWheel, TimingWheel.map_schedule, WheelReply.map]
  | scheduleFront t pid stmts =>
    simp only [WheelOp.map, WheelOp.onWheel, TimingWheel.map_scheduleFront, WheelReply.map]
  | requeueFront t rest => simp only [WheelOp.map, WheelOp.onWheel, TimingWheel.map_requeueFront, WheelReply.map]
  | popFront t =>
    exact Prod.ext (w.map_popFront f t).1.symm (congrArg WheelReply.event (w.map_popFront f t).2.symm)
  | remove t => exact Prod.ext (w.map_remove f t).1.symm (congrArg WheelReply.events (w.map_remove f t).2.symm)
  | nextTime => exact Prod.ext (w.map_nextTime f).1.symm (congrArg WheelReply.time (w.map_nextTime f).2)
  | nextTimeAfter after => exact congrArg (fun t => (w.map f, WheelReply.time t)) (w.map_nextTimeAfter f after)
  | hasPid pid => rfl

end Xezim
