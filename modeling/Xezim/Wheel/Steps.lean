import Xezim.Wheel.Layout

/-! Every operation of the wheel does to its calendar what it is named for. -/

namespace Xezim

open Function

variable {γ : Type}

/-- How often a process is queued in a calendar. -/
def Calendar.pidCount (m : Calendar γ) (pid : Nat) : Nat := m.count fun e => e.1 == pid

/-- A count in 32 bits, absent at zero. -/
def Counted (stored : Option Nat) (n : Nat) : Prop :=
  n < 2 ^ 32 ∧ stored = if n = 0 then none else some n

/-- A count that grew by one is still stored. -/
theorem Counted.succ {stored : Option Nat} {n : Nat} (ok : Counted stored n)
    (fits : stored.getD 0 + 1 < 2 ^ 32) :
    Counted (some ((stored.getD 0 + 1) % 2 ^ 32)) (n + 1) := by
  obtain ⟨-, rfl⟩ := ok
  have same : (if n = 0 then none else some n).getD 0 = n := by
    split <;> simp_all
  rw [same] at fits ⊢
  exact ⟨fits, by rw [Nat.mod_eq_of_lt fits, if_neg (Nat.succ_ne_zero n)]⟩

/-- A stored count is the number it stands for. -/
theorem Counted.getD {stored : Option Nat} {n : Nat} (ok : Counted stored n) :
    stored.getD 0 = n := by
  obtain ⟨-, rfl⟩ := ok
  split <;> simp_all

/-- A positive count that shrank by one is stored, or absent once it is zero. -/
theorem Counted.pred {stored : Option Nat} {n : Nat} (ok : Counted stored (n + 1)) :
    ∃ c, stored = some c ∧ Counted (if c - 1 = 0 then none else some (c - 1)) n := by
  obtain ⟨small, rfl⟩ := ok
  exact ⟨n + 1, if_neg (Nat.succ_ne_zero n), by omega, rfl⟩

/-- A wheel stands for a calendar. -/
structure TimingWheel.Refines (w : TimingWheel γ) (m : Calendar γ) : Prop where
  window : w.currentTime + wheelSize < 2 ^ 64
  laid : w.Laid m
  cache : ∀ c, w.nextCache = some c → c = m.firstKey
  pids : ∀ pid, Counted (w.pidCounts pid) (Calendar.pidCount m pid)

/-- How often a process is queued after one queue was replaced. -/
theorem Calendar.pidCount_set (m : Calendar γ) (t : Nat) (q : List (Event γ)) (pid : Nat) :
    Calendar.pidCount (m.set t q) pid + (m.get t).countP (fun e => e.1 == pid) =
      Calendar.pidCount m pid + q.countP fun e => e.1 == pid :=
  m.count_set t q _

namespace TimingWheel

variable {w : TimingWheel γ} {m : Calendar γ}

/-- Placing an event moves no clock. -/
@[simp] theorem place_currentTime (w : TimingWheel γ) (t : Nat) (put) :
    (w.place t put).currentTime = w.currentTime := by
  unfold place
  split <;> rfl

/-- Placing an event leaves the memoised time alone. -/
@[simp] theorem place_nextCache (w : TimingWheel γ) (t : Nat) (put) :
    (w.place t put).nextCache = w.nextCache := by
  unfold place
  split <;> rfl

/-- Placing an event counts no process. -/
@[simp] theorem place_pidCounts (w : TimingWheel γ) (t : Nat) (put) :
    (w.place t put).pidCounts = w.pidCounts := by
  unfold place
  split <;> rfl

/-- In the window no sum with the ring's length overflows. -/
theorem addU64_wheelSize {t : Nat} (window : t + wheelSize < 2 ^ 64) :
    addU64 t wheelSize = t + wheelSize := Nat.mod_eq_of_lt window

/-- The ring holds the queue of a time it reaches. -/
theorem Laid.near (laid : w.Laid m) {t : Nat}
    (near : w.currentTime ≤ t ∧ t < w.currentTime + wheelSize) :
    w.wheel (slotOf t) = m.get t := by
  have both := laid.stores.near t near.1 near.2
  rwa [laid.drained t near.2, List.append_nil] at both

/-- Placing an event changes one queue of the calendar. -/
theorem Laid.place (put : List (Event γ) → List (Event γ)) (laid : w.Laid m)
    (window : w.currentTime + wheelSize < 2 ^ 64) {t : Nat} (later : w.currentTime ≤ t)
    (nonempty : put (m.get t) ≠ []) : (w.place t put).Laid (m.set t (put (m.get t))) := by
  unfold TimingWheel.place
  rw [addU64_wheelSize window]
  -- A time within a revolution goes to the ring, a later one to the overflow.
  by_cases near : t < w.currentTime + wheelSize
  · rw [if_pos near, Laid.near laid ⟨later, near⟩]
    exact ⟨laid.stores.setNear ⟨later, near⟩ (laid.drained t near) _, laid.drained,
      laid.bitmap.set (slotOf_lt t) nonempty⟩
  · rw [if_neg near, laid.stores.far t (by omega)]
    -- The overflow keeps only times from a revolution on.
    refine ⟨laid.stores.setFar (by omega) _, fun t' near' => ?_, laid.bitmap⟩
    show (w.overflow.set t _).get t' = []
    change t' < w.currentTime + wheelSize at near'
    rw [Buckets.get_set_of_ne _ (by omega)]
    exact laid.drained t' near'

/-- Counting a process once more keeps the counts of a calendar that queues it once more. -/
theorem countPid_counted (pids : ∀ pid, Counted (w.pidCounts pid) (Calendar.pidCount m pid))
    {m' : Calendar γ} {e : Event γ}
    (grown : ∀ pid, Calendar.pidCount m' pid =
      Calendar.pidCount m pid + if e.1 = pid then 1 else 0)
    (fits : (w.pidCounts e.1).getD 0 + 1 < 2 ^ 32) (pid : Nat) :
    Counted ((w.countPid e.1).pidCounts pid) (Calendar.pidCount m' pid) := by
  rw [grown]
  -- Only the count of the event's own process grows.
  by_cases here : pid = e.1
  · subst here
    simp only [countPid, update_self, if_true]
    exact (pids e.1).succ fits
  · rw [if_neg (Ne.symm here)]
    simp only [countPid, update_of_ne here]
    exact pids pid

/-- A queue that an event joins counts it. -/
theorem pidCount_set_insert {t : Nat} {q : List (Event γ)} {e : Event γ}
    (joined : q.Perm (e :: m.get t)) (pid : Nat) :
    Calendar.pidCount (m.set t q) pid = Calendar.pidCount m pid + if e.1 = pid then 1 else 0 := by
  have traded := Calendar.pidCount_set m t q pid
  rw [joined.countP_eq, List.countP_cons] at traded
  by_cases here : e.1 = pid
  · simp only [here, beq_self_eq_true, if_true] at traded ⊢
    omega
  · simp only [beq_iff_eq, here, if_false] at traded ⊢
    omega

/-- Scheduling an event at either end of a queue. -/
theorem Refines.insert (ok : w.Refines m) {t : Nat} (later : w.currentTime ≤ t) (e : Event γ)
    (put : List (Event γ) → List (Event γ)) (joined : (put (m.get t)).Perm (e :: m.get t))
    (fits : (w.pidCounts e.1).getD 0 + 1 < 2 ^ 32) :
    (((w.countPid e.1).narrowNextCache t).place t put).Refines (m.set t (put (m.get t))) where
  window := by rw [place_currentTime]; exact ok.window
  laid :=
    -- The queue has the new event, so it is not empty and its slot is occupied.
    Laid.place (w := (w.countPid e.1).narrowNextCache t) put ok.laid ok.window later fun empty => by
      rw [empty] at joined
      exact absurd joined.symm.eq_nil (List.cons_ne_nil _ _)
  cache c known := by
    rw [place_nextCache] at known
    simp only [narrowNextCache, countPid, Option.map_eq_some_iff] at known
    obtain ⟨old, before, rfl⟩ := known
    -- The cached time is the earlier of the old one and the new event's.
    rw [ok.cache old before, Buckets.firstKey_set fun empty => ?_]
    rw [empty] at joined
    exact absurd joined.symm.eq_nil (List.cons_ne_nil _ _)
  pids pid := by
    rw [place_pidCounts]
    -- The rearranged queue has one more event of the process.
    exact countPid_counted ok.pids (pidCount_set_insert joined) fits pid

/-- `schedule` appends an event to the queue of its time. -/
theorem Refines.schedule (ok : w.Refines m) {t : Nat} (later : w.currentTime ≤ t) (pid : Nat)
    (stmts : γ) (fits : (w.pidCounts pid).getD 0 + 1 < 2 ^ 32) :
    (w.schedule t pid stmts).Refines (m.set t (m.get t ++ [(pid, stmts)])) :=
  ok.insert later (pid, stmts) (· ++ [(pid, stmts)]) List.perm_append_comm fits

/-- `schedule_front` puts an event in front of the queue of its time. -/
theorem Refines.scheduleFront (ok : w.Refines m) {t : Nat} (later : w.currentTime ≤ t) (pid : Nat)
    (stmts : γ) (fits : (w.pidCounts pid).getD 0 + 1 < 2 ^ 32) :
    (w.scheduleFront t pid stmts).Refines (m.set t ((pid, stmts) :: m.get t)) := by
  -- The entries put in front are counted for their own sake and read by no other operation.
  have fronted : TimingWheel.Refines { w with
      frontTime := t
      frontPending := ((if w.frontTime ≠ t then 0 else w.frontPending) + 1) % 2 ^ 32 } m :=
    ⟨ok.window, ok.laid, ok.cache, ok.pids⟩
  exact fronted.insert later (pid, stmts) ((pid, stmts) :: ·) (List.Perm.refl _) fits

/-- Putting a batch in front, last event first, changes everything as it should but the memoised
time, which it leaves alone. -/
theorem requeue_fold {t : Nat} (batch : List (Event γ)) (laid : w.Laid m)
    (window : w.currentTime + wheelSize < 2 ^ 64) (later : w.currentTime ≤ t)
    (pids : ∀ pid, Counted (w.pidCounts pid) (Calendar.pidCount m pid))
    (fits : ∀ pid, (w.pidCounts pid).getD 0 + batch.countP (fun e => e.1 == pid) < 2 ^ 32) :
    let w' := batch.foldl (fun w e => (w.countPid e.1).place t (e :: ·)) w
    let m' := m.set t (batch.reverse ++ m.get t)
    w'.Laid m' ∧ w'.currentTime = w.currentTime ∧ w'.nextCache = w.nextCache ∧
      ∀ pid, Counted (w'.pidCounts pid) (Calendar.pidCount m' pid) := by
  -- The batch is put back in order, and each event goes in front of the ones before it.
  induction batch generalizing w m with
  | nil =>
    simp only [List.foldl_nil, List.reverse_nil, List.nil_append, Buckets.set_get]
    exact ⟨laid, trivial, trivial, pids⟩
  | cons e rest ih =>
    have fitsHere : (w.pidCounts e.1).getD 0 + 1 < 2 ^ 32 := by
      have total := fits e.1
      rw [List.countP_cons_of_pos (by simp)] at total
      omega
    have grown := pidCount_set_insert (m := m) (t := t) (List.Perm.refl (e :: m.get t))
    have counted := countPid_counted pids grown fitsHere
    have placed := Laid.place (w := w.countPid e.1) (e :: ·) laid window later
      (List.cons_ne_nil _ _)
    -- What the rest of the batch adds still fits beside what is counted now.
    have fitsRest : ∀ pid, (((w.countPid e.1).pidCounts pid).getD 0) +
        rest.countP (fun e => e.1 == pid) < 2 ^ 32 := by
      intro pid
      have total := fits pid
      rw [(pids pid).getD, List.countP_cons] at total
      rw [(counted pid).getD, grown pid]
      simp only [beq_iff_eq] at total
      omega
    have run := ih placed (by rwa [place_currentTime]) (by rwa [place_currentTime])
      (by rwa [place_pidCounts]) (by rwa [place_pidCounts])
    simp only [Buckets.set_set, Buckets.get_set_self, place_currentTime, place_nextCache] at run
    simp only [List.foldl_cons, List.reverse_cons, List.append_assoc, List.singleton_append]
    exact run

/-- `requeue_front` puts a batch in front of the queue of its time. -/
theorem Refines.requeueFront (ok : w.Refines m) {t : Nat} (later : w.currentTime ≤ t)
    {rest : List (Event γ)} (nonempty : rest ≠ [])
    (fits : ∀ pid, (w.pidCounts pid).getD 0 + rest.countP (fun e => e.1 == pid) < 2 ^ 32) :
    (w.requeueFront t rest).Refines (m.set t (rest ++ m.get t)) := by
  -- The code puts the batch back from its last event, which keeps its order.
  obtain ⟨laid, time, cache, pids⟩ := requeue_fold (w := w.narrowNextCache t) rest.reverse ok.laid
    ok.window later ok.pids fun pid => by
      rw [(List.reverse_perm rest).countP_eq]
      exact fits pid
  rw [List.reverse_reverse] at laid pids
  refine ⟨?_, laid, fun c known => ?_, pids⟩
  · rw [TimingWheel.requeueFront, time]
    exact ok.window
  · -- The cache is narrowed once, before any event goes in.
    rw [TimingWheel.requeueFront, cache] at known
    obtain ⟨old, before, rfl⟩ := Option.map_eq_some_iff.mp known
    rw [ok.cache old before, Buckets.firstKey_set (List.append_ne_nil_of_left_ne_nil nonempty _)]

/-- Draining some far times into the ring keeps what the wheel stores. -/
theorem drain_fold {t : Nat} (times : List Nat) (stores : Stores w.wheel w.overflow m t)
    (bitmap : BitmapOk w.wheel w.bitmap w.occupiedWords) (distinct : times.Nodup)
    (near : ∀ k ∈ times, t ≤ k ∧ k < t + wheelSize) (queued : ∀ k ∈ times, w.overflow.get k ≠ []) :
    let w' := times.foldl moveOne w
    Stores w'.wheel w'.overflow m t ∧ BitmapOk w'.wheel w'.bitmap w'.occupiedWords ∧
      (∀ k, w'.overflow.get k = if k ∈ times then [] else w.overflow.get k) ∧
      w'.currentTime = w.currentTime ∧ w'.nextCache = w.nextCache ∧
      w'.pidCounts = w.pidCounts := by
  -- The times are moved one after the other, and each is moved once.
  induction times generalizing w with
  | nil => exact ⟨stores, bitmap, fun k => (if_neg List.not_mem_nil).symm, rfl, rfl, rfl⟩
  | cons first rest ih =>
    obtain ⟨fresh, distinct'⟩ := List.nodup_cons.mp distinct
    -- A later time's queue is not touched by moving the first.
    have queuedRest : ∀ k ∈ rest, (w.moveOne first).overflow.get k ≠ [] := by
      intro k member
      have other : k ≠ first := fun same => fresh (same ▸ member)
      show (w.overflow.set first []).get k ≠ []
      rw [Buckets.get_set_of_ne _ other]
      exact queued k (List.mem_cons_of_mem _ member)
    obtain ⟨stores', bitmap', drained, time, cache, pids⟩ := ih (w := w.moveOne first)
      (stores.move (near first List.mem_cons_self))
      (bitmap.set (slotOf_lt first)
        (List.append_ne_nil_of_right_ne_nil _ (queued first List.mem_cons_self)))
      distinct' (fun k member => near k (List.mem_cons_of_mem _ member)) queuedRest
    refine ⟨stores', bitmap', fun k => ?_, time, cache, pids⟩
    rw [List.foldl_cons, drained k]
    -- What is drained now is found empty later.
    show (if k ∈ rest then [] else (w.overflow.set first []).get k) = _
    by_cases here : k = first
    · subst here
      simp
    · rw [Buckets.get_set_of_ne _ here]
      simp [here]

/-- Bringing the clock to a time before which nothing is queued leaves the calendar alone. -/
theorem Refines.advance (ok : w.Refines m) {t : Nat} (later : w.currentTime ≤ t)
    (window : t + wheelSize < 2 ^ 64) (before : ∀ t' < t, m.get t' = []) :
    (w.advance t).Refines m ∧ (w.advance t).currentTime = t := by
  have stores := ok.laid.advance later before
  have run := drain_fold (w := { w with currentTime := t }) (m := m) (t := t)
    (w.overflow.keysBelow (t + wheelSize)) stores ok.laid.bitmap (Buckets.nodup_keysBelow _ _)
    (fun k member => ?_) fun k member => (Buckets.mem_keysBelow.mp member).1
  · obtain ⟨stores', bitmap', drained, time, cache, pids⟩ := run
    have same : w.advance t =
        (w.overflow.keysBelow (t + wheelSize)).foldl moveOne { w with currentTime := t } := by
      unfold TimingWheel.advance moveOverflowIntoWheel
      rw [addU64_wheelSize window]
    rw [same]
    refine ⟨⟨by rw [time]; exact window, ⟨by rw [time]; exact stores', fun t' near => ?_, bitmap'⟩,
      fun c known => ok.cache c (by rwa [cache] at known), fun pid => ?_⟩, time⟩
    · rw [time] at near
      rw [drained t']
      split
      · rfl
      · rename_i absent
        by_contra queued
        exact absent (Buckets.mem_keysBelow.mpr ⟨queued, near⟩)
    · rw [pids]
      exact ok.pids pid
  · -- A drained time is queued, so it is not past.
    obtain ⟨queued, below⟩ := Buckets.mem_keysBelow.mp member
    refine ⟨?_, below⟩
    by_contra early
    exact queued (stores.past k (Nat.lt_of_not_le early)).2

/-- Uncounting a process keeps the counts of a calendar that queues it once less. -/
theorem decrementPidCount_counted
    (pids : ∀ pid, Counted (w.pidCounts pid) (Calendar.pidCount m pid)) {m' : Calendar γ}
    {e : Event γ}
    (shrunk : ∀ pid, Calendar.pidCount m pid =
      Calendar.pidCount m' pid + if e.1 = pid then 1 else 0) (pid : Nat) :
    Counted ((w.decrementPidCount e.1).pidCounts pid) (Calendar.pidCount m' pid) := by
  -- The counts had the event among them.
  have here := pids e.1
  rw [shrunk, if_pos rfl] at here
  obtain ⟨c, stored, less⟩ := here.pred
  unfold decrementPidCount
  rw [stored]
  by_cases same : pid = e.1
  · subst same
    simpa using less
  · -- The counts of the other processes stay.
    have other := pids pid
    rw [shrunk, if_neg (Ne.symm same)] at other
    simpa [update_of_ne same] using other

/-- How often a process is queued after the first event of a queue went. -/
theorem pidCount_set_tail {t : Nat} {e : Event γ} {rest : List (Event γ)}
    (queue : m.get t = e :: rest) (pid : Nat) :
    Calendar.pidCount m pid = Calendar.pidCount (m.set t rest) pid + if e.1 = pid then 1 else 0 := by
  have traded := Calendar.pidCount_set m t rest pid
  rw [queue, List.countP_cons] at traded
  simp only [beq_iff_eq] at traded
  omega

/-- Uncounting a process changes nothing but the counts. -/
theorem decrementPidCount_frame (w : TimingWheel γ) (pid : Nat) :
    w.decrementPidCount pid = { w with pidCounts := (w.decrementPidCount pid).pidCounts } := by
  unfold decrementPidCount
  split <;> rfl

/-- Uncounting every event of a queue keeps the counts of the calendar without it. -/
theorem decrement_fold {t : Nat} (events : List (Event γ)) (queue : m.get t = events)
    (pids : ∀ pid, Counted (w.pidCounts pid) (Calendar.pidCount m pid)) :
    let w' := events.foldl (fun w e => w.decrementPidCount e.1) w
    w' = { w with pidCounts := w'.pidCounts } ∧
      ∀ pid, Counted (w'.pidCounts pid) (Calendar.pidCount (m.set t []) pid) := by
  -- Each event that leaves takes one off its own process.
  induction events generalizing w m with
  | nil =>
    rw [Buckets.set_nil queue]
    exact ⟨rfl, pids⟩
  | cons e rest ih =>
    have counted := decrementPidCount_counted pids (pidCount_set_tail queue)
    obtain ⟨frame, counted'⟩ := ih (m := m.set t rest) (Buckets.get_set_self m t rest) counted
    rw [Buckets.set_set] at counted'
    refine ⟨?_, counted'⟩
    rw [List.foldl_cons, frame, decrementPidCount_frame]

/-- Taking events off the queue the clock stands at, and clearing its bit once it is empty. -/
theorem Refines.shrink (ok : w.Refines m) {q : List (Event γ)}
    (less : m.get w.currentTime = [] → q = []) :
    let s := slotOf w.currentTime
    let taken : TimingWheel γ := { w with wheel := update w.wheel s q }
    let w' := if q.isEmpty then taken.bitmapClear s else taken
    w'.Laid (m.set w.currentTime q) ∧ w'.currentTime = w.currentTime ∧
      w'.pidCounts = w.pidCounts ∧
      ∀ c, w'.nextCache = some c → c = (m.set w.currentTime q).firstKey := by
  intro s taken w'
  -- The wheel stands at the slot of the current time.
  have reached : w.currentTime ≤ w.currentTime ∧ w.currentTime < w.currentTime + wheelSize :=
    ⟨le_refl _, Nat.lt_add_of_pos_right (by decide)⟩
  have queue := Laid.near ok.laid reached
  have stores := ok.laid.stores.setNear reached (ok.laid.drained _ reached.2) q
  -- An emptied slot loses its mark and the cache is dropped.
  by_cases empty : q = []
  · subst empty
    exact ⟨⟨stores, ok.laid.drained, ok.laid.bitmap.clear (slotOf_lt _)⟩, rfl, rfl,
      fun c known => by cases known⟩
  · have same : w' = taken := if_neg (by simpa using empty)
    rw [same]
    -- A slot that keeps events had events before.
    have queued : m.get w.currentTime ≠ [] := fun drained => empty (less drained)
    refine ⟨⟨stores, ok.laid.drained, ok.laid.bitmap.keep ?_⟩, rfl, rfl, fun c known => ?_⟩
    · rw [queue]
      exact iff_of_false empty queued
    · rw [ok.cache c known]
      -- The first time is the same, since the same queues are empty.
      refine Buckets.firstKey_congr fun k => ?_
      rw [Buckets.get_set]
      split
      · rename_i here
        rw [here]
        exact iff_of_false queued empty
      · exact Iff.rfl

/-- What is counted of the entries put in front plays no part in the calendar. -/
theorem Refines.fronted (ok : w.Refines m) (time pending : Nat) (last : Bool) :
    TimingWheel.Refines
      { w with frontTime := time, frontPending := pending, lastPopFront := last } m :=
  ⟨ok.window, ok.laid, ok.cache, ok.pids⟩

/-- `pop_front` takes the first event of the queue of its time. -/
theorem Refines.popFront (ok : w.Refines m) {t : Nat} (later : w.currentTime ≤ t)
    (window : t + wheelSize < 2 ^ 64) (before : ∀ t' < t, m.get t' = []) :
    (w.popFront t).1.Refines (m.set t (m.get t).tail) ∧ (w.popFront t).2 = (m.get t).head? := by
  -- The wheel advances first, and the popped event is the first at its time.
  obtain ⟨ok', here⟩ := ok.advance later window before
  unfold TimingWheel.popFront
  generalize w.advance t = w at *
  subst here
  have reached : w.currentTime ≤ w.currentTime ∧ w.currentTime < w.currentTime + wheelSize :=
    ⟨le_refl _, Nat.lt_add_of_pos_right (by decide)⟩
  obtain ⟨laid, time, pids, cache⟩ := ok'.shrink (q := (m.get w.currentTime).tail)
    fun empty => by rw [empty]; rfl
  simp only [Laid.near ok'.laid reached, update_self]
  -- From here on only the slot and the counts matter.
  generalize (if (m.get w.currentTime).tail.isEmpty then _ else _ : TimingWheel γ) = taken at *
  have window' : taken.currentTime + wheelSize < 2 ^ 64 := by rwa [time]
  cases queue : m.get w.currentTime with
  | nil =>
    -- Nothing is there to pop, and nothing changes.
    rw [queue] at laid cache
    refine ⟨⟨window', laid, cache, fun pid => ?_⟩, rfl⟩
    show Counted (taken.pidCounts pid) _
    rw [pids, List.tail_nil, Buckets.set_nil queue]
    exact ok'.pids pid
  | cons e rest =>
    rw [queue] at laid cache
    -- One event leaves, and its process loses one count.
    have counted := decrementPidCount_counted (w := { taken with lastPopFront := false })
      (by rw [pids]; exact ok'.pids) (pidCount_set_tail queue)
    have popped : ({ taken with lastPopFront := false }.decrementPidCount e.1).Refines
        (m.set w.currentTime rest) := by
      rw [decrementPidCount_frame]
      exact ⟨window', laid, cache, counted⟩
    refine ⟨?_, rfl⟩
    simp only [List.head?_cons, List.tail_cons]
    split
    · exact popped.fronted _ _ _
    · exact popped

/-- `remove` takes the whole queue of its time. -/
theorem Refines.remove (ok : w.Refines m) {t : Nat} (later : w.currentTime ≤ t)
    (window : t + wheelSize < 2 ^ 64) (before : ∀ t' < t, m.get t' = []) :
    (w.remove t).1.Refines (m.set t []) ∧ (w.remove t).2 = m.get t := by
  have ok₀ := ok.fronted w.frontTime (if w.frontTime = t then 0 else w.frontPending) w.lastPopFront
  -- Removing at a time drops the mark of a front entry there.
  obtain ⟨ok', here⟩ := ok₀.advance later window before
  unfold TimingWheel.remove
  dsimp only at ok' here ⊢
  generalize TimingWheel.advance _ t = w at *
  subst here
  have reached : w.currentTime ≤ w.currentTime ∧ w.currentTime < w.currentTime + wheelSize :=
    ⟨le_refl _, Nat.lt_add_of_pos_right (by decide)⟩
  have queue := Laid.near ok'.laid reached
  refine ⟨?_, queue⟩
  rw [queue]
  -- Nothing is queued at the time, or all of it leaves.
  by_cases empty : m.get w.currentTime = []
  · rw [empty, Buckets.set_nil empty, ← empty, ← queue, update_eq_self]
    simp only [queue, empty, List.isEmpty_nil, if_true]
    exact ok'
  · rw [if_neg (by simpa using empty)]
    obtain ⟨laid, time, pids, cache⟩ := ok'.shrink (q := []) fun _ => rfl
    simp only [List.isEmpty_nil, if_true] at laid time pids cache
    generalize bitmapClear _ _ = taken at *
    obtain ⟨frame, counted⟩ := decrement_fold (w := taken) _ rfl (by rw [pids]; exact ok'.pids)
    rw [frame]
    exact ⟨by rw [time]; exact ok'.window, laid, cache, counted⟩

/-- The scan finds the least time with a queue. -/
theorem Refines.nextTimeScan (ok : w.Refines m) : w.nextTimeScan = m.firstKey := by
  have scanned := firstSlot_spec w.bitmap (slotOf_lt w.currentTime)
  have window := ok.window
  unfold TimingWheel.nextTimeScan
  cases found : firstSlot w.bitmap (slotOf w.currentTime) with
  | some slot =>
    rw [found] at scanned
    obtain ⟨bound, set, first⟩ := scanned
    obtain ⟨t, low, high, rfl⟩ := exists_slotOf w.currentTime bound
    have sum : addU64 w.currentTime (slotsAhead (slotOf w.currentTime) (slotOf t)) = t := by
      rw [slotsAhead_slotOf ⟨low, high⟩, addU64, Nat.add_sub_cancel' low]
      exact Nat.mod_eq_of_lt (by omega)
    have queued {k : Nat} (near : w.currentTime ≤ k ∧ k < w.currentTime + wheelSize) :
        slotSet w.bitmap (slotOf k) = true ↔ m.get k ≠ [] := by
      rw [ok.laid.bitmap.bits _ (slotOf_lt k), Laid.near ok.laid near]
      simp
    simp only [sum]
    refine (Buckets.firstKey_of_isLeast ⟨(queued ⟨low, high⟩).mp set, fun t' here => ?_⟩).symm
    by_contra below
    -- An earlier queued time is in the ring too, so its slot would be reached before.
    have notPast : w.currentTime ≤ t' := by
      by_contra past
      exact here (ok.laid.stores.past t' (Nat.lt_of_not_le past)).1
    have near : w.currentTime ≤ t' ∧ t' < w.currentTime + wheelSize := ⟨notPast, by omega⟩
    have order := first _ (slotOf_lt t') ((queued near).mpr here)
    rw [slotsAhead_slotOf ⟨low, high⟩, slotsAhead_slotOf near] at order
    omega
  | none =>
    rw [found] at scanned
    -- Nothing stands in the ring, so the calendar is the overflow.
    have same : w.overflow = m := by
      refine Buckets.ext_get fun t => ?_
      by_cases far : w.currentTime + wheelSize ≤ t
      · exact ok.laid.stores.far t far
      · by_cases past : t < w.currentTime
        · rw [(ok.laid.stores.past t past).1, (ok.laid.stores.past t past).2]
        · have near : w.currentTime ≤ t ∧ t < w.currentTime + wheelSize := ⟨by omega, by omega⟩
          have empty := ok.laid.bitmap.bits _ (slotOf_lt t)
          rw [scanned _ (slotOf_lt t), Laid.near ok.laid near] at empty
          have empty : m.get t = [] := by simpa using empty
          rw [empty, ok.laid.drained t near.2]
    simp only [same]

/-- `next_time` is the least time with a queue. -/
theorem Refines.nextTime (ok : w.Refines m) :
    w.nextTime.1.Refines m ∧ w.nextTime.2 = m.firstKey := by
  -- A cached time is trusted unless it lies behind the current one.
  have scan := ok.nextTimeScan
  have memo : TimingWheel.Refines { w with nextCache := some w.nextTimeScan } m :=
    ⟨ok.window, ok.laid, fun c known => by rw [← Option.some.inj known, scan], ok.pids⟩
  unfold TimingWheel.nextTime
  cases cached : w.nextCache with
  | none => exact ⟨memo, scan⟩
  | some c =>
    have right := ok.cache c cached
    cases c with
    | none => exact ⟨ok, right⟩
    | some t =>
      simp only
      split
      · exact ⟨ok, right⟩
      · exact ⟨memo, scan⟩

end TimingWheel

end Xezim
