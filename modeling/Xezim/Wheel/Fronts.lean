import Mathlib.Algebra.BigOperators.Group.Finset.Basic
import Xezim.Wheel.Marks

/-! The count of the entries put in front, and the flag of the pop that returned one. -/

namespace Xezim

open Function

variable {γ : Type}

/-- What an event carries, with the time `schedule_front` inserted it for, none for any other event. -/
abbrev Marked (γ : Type) := Option Nat × γ

/-- A call whose events are marked: only those of `schedule_front` count as put in front. -/
def WheelOp.mark : WheelOp γ → WheelOp (Marked γ)
  | schedule t pid stmts => .schedule t pid (none, stmts)
  | scheduleFront t pid stmts => .scheduleFront t pid (some t, stmts)
  | requeueFront t rest => .requeueFront t (rest.map (Event.map (none, ·)))
  | popFront t => .popFront t
  | remove t => .remove t
  | nextTime => .nextTime
  | nextTimeAfter after => .nextTimeAfter after
  | hasPid pid => .hasPid pid

/-- How many queued events satisfy a test. -/
def TimingWheel.queued (w : TimingWheel γ) (p : Event γ → Bool) : Nat :=
  (Finset.range wheelSize).sum (fun s => (w.wheel s).countP p) + w.overflow.count p

/-- `front_pending` is the number of events put in front of `front_time` that are still queued. -/
def FrontCounted (w : TimingWheel (Marked γ)) : Prop :=
  w.frontPending = w.queued fun e => e.2.1 == some w.frontTime

/-- After a pop `last_pop_front` says whether the event it returned was put in front. -/
def WheelOp.PopTold (w : TimingWheel (Marked γ)) : WheelOp γ → Prop
  | popFront t => (w.popFront t).1.lastPopFront = true ↔ ∃ e, (w.popFront t).2 = some e ∧ e.2.1 ≠ none
  | _ => True

/-- In every state of a run the entries put in front are counted, and every pop tells them. -/
def FrontsExact : TimingWheel (Marked γ) → List (WheelOp γ) → Prop
  | w, [] => FrontCounted w
  | w, op :: rest => FrontCounted w ∧ op.PopTold w ∧ FrontsExact (op.mark.onWheel w).1 rest

/-- A call that leaves the counted entries in front and forgets none of them: the remembered time changes only while
none is pending, and nothing is put back ahead of one that is. -/
def WheelOp.FrontKept (w : TimingWheel γ) : WheelOp γ → Prop
  | scheduleFront t _ _ => (w.frontTime = t ∨ w.frontPending = 0) ∧ w.frontPending + 1 < 2 ^ 32
  | requeueFront t _ => w.frontTime = t → w.frontPending = 0
  | _ => True

instance (w : TimingWheel γ) : (op : WheelOp γ) → Decidable (op.FrontKept w)
  | .scheduleFront _ _ _ => inferInstanceAs (Decidable (_ ∧ _))
  | .requeueFront _ _ => inferInstanceAs (Decidable (_ → _))
  | .schedule _ _ _ | .popFront _ | .remove _ | .nextTime | .nextTimeAfter _ | .hasPid _ =>
    inferInstanceAs (Decidable True)

/-- Calls as the scheduler makes them, without overflow, that keep the counted entries in front. -/
def WheelOp.FrontStep (w : TimingWheel γ) (op : WheelOp γ) : Prop :=
  op.Disciplined w ∧ op.Fits w ∧ op.FrontKept w

instance (w : TimingWheel γ) (op : WheelOp γ) : Decidable (op.FrontStep w) :=
  inferInstanceAs (Decidable (_ ∧ _ ∧ _))

/-- A queue of a time whose first events are the ones put in front. -/
def Headed (t n : Nat) (q : List (Event (Marked γ))) : Prop :=
  ∃ fronts rest, q = fronts ++ rest ∧ fronts.length = n ∧ (∀ e ∈ fronts, e.2.1 = some t) ∧ ∀ e ∈ rest, e.2.1 = none

/-- A wheel stands for a calendar in which the entries it counts are those put in front. -/
structure Fronted (w : TimingWheel (Marked γ)) (m : Calendar (Marked γ)) : Prop where
  refines : w.Refines m
  heads : ∀ t, Headed t (if t = w.frontTime then w.frontPending else 0) (m.get t)

section Headed

variable {t n : Nat} {q : List (Event (Marked γ))} {e : Event (Marked γ)}

/-- A queue counts the events put in front of it. -/
theorem Headed.count (headed : Headed t n q) : q.countP (fun e => e.2.1 == some t) = n := by
  obtain ⟨fronts, rest, rfl, rfl, marked, plain⟩ := headed
  have first : fronts.countP (fun e => e.2.1 == some t) = fronts.length :=
    List.countP_eq_length.mpr fun e member => by simp [marked e member]
  have second : rest.countP (fun e => e.2.1 == some t) = 0 :=
    List.countP_eq_zero.mpr fun e member => by simp [plain e member]
  rw [List.countP_append, first, second, Nat.add_zero]

/-- A queue counts no event put in front of another time. -/
theorem Headed.count_other (headed : Headed t n q) {t' : Nat} (other : t' ≠ t) :
    q.countP (fun e => e.2.1 == some t') = 0 := by
  obtain ⟨fronts, rest, rfl, rfl, marked, plain⟩ := headed
  refine List.countP_eq_zero.mpr fun e member => ?_
  rcases List.mem_append.mp member with first | second
  · simp [marked e first, Ne.symm other]
  · simp [plain e second]

/-- An ordinary event joins behind. -/
theorem Headed.snoc (headed : Headed t n q) (plain : e.2.1 = none) : Headed t n (q ++ [e]) := by
  obtain ⟨fronts, rest, rfl, len, marked, ordinary⟩ := headed
  refine ⟨fronts, rest ++ [e], by simp, len, marked, ?_⟩
  intro e' member
  rcases List.mem_append.mp member with old | new
  · exact ordinary e' old
  · rw [List.mem_singleton.mp new, plain]

/-- An event is put in front. -/
theorem Headed.cons (headed : Headed t n q) (marked : e.2.1 = some t) : Headed t (n + 1) (e :: q) := by
  obtain ⟨fronts, rest, rfl, len, old, ordinary⟩ := headed
  refine ⟨e :: fronts, rest, rfl, by simp [len], ?_, ordinary⟩
  intro e' member
  rcases List.mem_cons.mp member with rfl | later
  · exact marked
  · exact old e' later

/-- A queue without entries put in front takes ordinary events ahead. -/
theorem Headed.prepend (headed : Headed t 0 q) {batch : List (Event (Marked γ))}
    (plain : ∀ e ∈ batch, e.2.1 = none) : Headed t 0 (batch ++ q) := by
  obtain ⟨fronts, rest, rfl, len, _, ordinary⟩ := headed
  obtain rfl := List.length_eq_zero_iff.mp len
  refine ⟨[], batch ++ rest, rfl, rfl, by simp, ?_⟩
  intro e member
  rcases List.mem_append.mp member with new | old
  · exact plain e new
  · exact ordinary e old

/-- The first event is one put in front exactly where some are counted, and the rest has one less. -/
theorem Headed.tail (headed : Headed t n (e :: q)) : (e.2.1 ≠ none ↔ 0 < n) ∧ Headed t (n - 1) q := by
  obtain ⟨fronts, rest, split, rfl, marked, plain⟩ := headed
  -- Either no front event is pending or the first event is one of them.
  cases fronts with
  | nil =>
    obtain rfl : e :: q = rest := split
    exact ⟨by simp [plain e List.mem_cons_self],
      [], q, rfl, rfl, by simp, fun e' member => plain e' (List.mem_cons_of_mem _ member)⟩
  | cons first fronts =>
    obtain ⟨rfl, rfl⟩ := List.cons.inj split
    exact ⟨by simp [marked e List.mem_cons_self],
      fronts, rest, rfl, rfl, fun e' member => marked e' (List.mem_cons_of_mem _ member), plain⟩

/-- Nothing is put in front of an empty queue. -/
theorem headed_nil : Headed t n ([] : List (Event (Marked γ))) ↔ n = 0 := by
  constructor
  · rintro ⟨fronts, rest, split, rfl, _⟩
    rw [(List.append_eq_nil_iff.mp split.symm).1, List.length_nil]
  · rintro rfl
    exact ⟨[], [], rfl, rfl, by simp, by simp⟩

end Headed

namespace TimingWheel

/-- What is remembered of the entries put in front. -/
def fronts (w : TimingWheel γ) : Nat × Nat := (w.frontTime, w.frontPending)

variable (w : TimingWheel γ)

/-- Placing an event leaves what is remembered of the front. -/
@[simp] theorem place_fronts (t : Nat) (put) : (w.place t put).fronts = w.fronts := by
  unfold place
  split <;> rfl

/-- Uncounting a process leaves what is remembered of the front. -/
@[simp] theorem decrementPidCount_fronts (pid : Nat) : (w.decrementPidCount pid).fronts = w.fronts := by
  rw [decrementPidCount_frame]
  rfl

/-- Bringing the clock forward leaves what is remembered of the front. -/
@[simp] theorem advance_fronts (t : Nat) : (w.advance t).fronts = w.fronts := by
  have moved (times : List Nat) (w : TimingWheel γ) : (times.foldl moveOne w).fronts = w.fronts := by
    induction times generalizing w with
    | nil => rfl
    | cons first rest ih => exact ih (w.moveOne first)
  exact moved _ { w with currentTime := t }

/-- Shortening a queue leaves what is remembered of the front. -/
@[simp] theorem shorten_fronts (slot : Nat) (q : List (Event γ)) : (w.shorten slot q).fronts = w.fronts := by
  unfold shorten
  dsimp only
  split <;> rfl

/-- Putting events back leaves what is remembered of the front. -/
@[simp] theorem requeueFront_fronts (t : Nat) (rest : List (Event γ)) : (w.requeueFront t rest).fronts = w.fronts := by
  -- Putting events back goes past the mark.
  have placed (batch : List (Event γ)) (w : TimingWheel γ) :
      (batch.foldl (fun w e => (w.countPid e.1).place t (e :: ·)) w).fronts = w.fronts := by
    induction batch generalizing w with
    | nil => rfl
    | cons e rest ih =>
      rw [List.foldl_cons, ih, place_fronts]
      rfl
  exact placed _ (w.narrowNextCache t)

/-- `next_time` leaves what is remembered of the front. -/
@[simp] theorem nextTime_fronts : w.nextTime.1.fronts = w.fronts := by
  unfold nextTime
  dsimp only
  split
  · rfl
  · split <;> rfl
  · rfl

/-- `remove` at the remembered time forgets the entries put in front of it. -/
theorem remove_fronts (t : Nat) :
    (w.remove t).1.fronts = (w.frontTime, if w.frontTime = t then 0 else w.frontPending) := by
  -- Taking off the counts goes past the mark.
  have uncounted (events : List (Event γ)) (w : TimingWheel γ) :
      (events.foldl (fun w e => w.decrementPidCount e.1) w).fronts = w.fronts := by
    induction events generalizing w with
    | nil => rfl
    | cons e rest ih => rw [List.foldl_cons, ih, decrementPidCount_fronts]
  rw [remove_eq]
  dsimp only
  generalize (if w.frontTime = t then 0 else w.frontPending) = pending
  have start := advance_fronts { w with frontPending := pending } t
  split
  · exact start
  · rw [uncounted, shorten_fronts]
    exact start

/-- A pop of no event leaves what is remembered of the front, and tells none. -/
theorem notePop_none (t : Nat) : (w.notePop t none).fronts = w.fronts ∧ (w.notePop t none).lastPopFront = false :=
  ⟨rfl, rfl⟩

/-- Noting a pop tells an entry put in front exactly while some are pending at its time. -/
theorem noteFront_told (t : Nat) (quiet : w.lastPopFront = false) :
    ((w.noteFront t).lastPopFront = true ↔ t = w.frontTime ∧ 0 < w.frontPending) ∧
      (w.noteFront t).fronts = (w.frontTime, if t = w.frontTime then w.frontPending - 1 else w.frontPending) := by
  unfold noteFront
  -- The pop is told as a front event where one is pending at this time.
  by_cases here : 0 < w.frontPending ∧ w.frontTime = t
  · rw [if_pos here, if_pos here.2.symm]
    exact ⟨iff_of_true rfl ⟨here.2.symm, here.1⟩, rfl⟩
  · rw [if_neg here]
    refine ⟨iff_of_false (by simp [quiet]) fun both => here ⟨both.2, both.1.symm⟩, ?_⟩
    split
    · rename_i same
      -- Elsewhere nothing is pending or the mark is at another time.
      have noFronts : w.frontPending = 0 := Nat.eq_zero_of_not_pos fun pending => here ⟨pending, same.symm⟩
      simp [fronts, noFronts]
    · rfl

/-- A pop of an event counts as one of an entry put in front exactly while some are pending at its time. -/
theorem notePop_some (t : Nat) (e : Event γ) :
    ((w.notePop t (some e)).lastPopFront = true ↔ t = w.frontTime ∧ 0 < w.frontPending) ∧
      (w.notePop t (some e)).fronts =
        (w.frontTime, if t = w.frontTime then w.frontPending - 1 else w.frontPending) := by
  have kept := decrementPidCount_fronts { w with lastPopFront := false } e.1
  have quiet : ({ w with lastPopFront := false }.decrementPidCount e.1).lastPopFront = false := by
    rw [decrementPidCount_frame]
  obtain ⟨time, pending⟩ := Prod.mk.inj kept
  have told := noteFront_told _ t quiet
  rw [time, pending] at told
  exact told

end TimingWheel

/-- Forgetting the marks of a marked call gives the call. -/
theorem WheelOp.map_mark (op : WheelOp γ) : op.mark.map Prod.snd = op := by
  cases op with
  | requeueFront t rest => simp [WheelOp.mark, WheelOp.map, Event.map, Function.comp_def]
  | _ => rfl

/-- Forgetting the marks of a marked run gives the run, with its answers. -/
theorem erase_marks (ops : List (WheelOp γ)) (w : TimingWheel (Marked γ)) :
    let marked := runCallsOn (fun w op => op.onWheel w) w (ops.map WheelOp.mark)
    let run := runCallsOn (fun w op => op.onWheel w) (w.map Prod.snd) ops
    marked.1.map Prod.snd = run.1 ∧ marked.2.map (WheelReply.map Prod.snd) = run.2 := by
  -- Each call does the same with the marks and without them.
  induction ops generalizing w with
  | nil => exact ⟨rfl, rfl⟩
  | cons op rest ih =>
    have step := op.mark.map_onWheel Prod.snd w
    rw [op.map_mark] at step
    obtain ⟨last, replies⟩ := ih (op.mark.onWheel w).1
    simp only [List.map_cons, runCallsOn, step]
    exact ⟨last, by rw [replies]⟩

section Steps

variable {w : TimingWheel (Marked γ)} {m : Calendar (Marked γ)}

/-- The wheel counts what the calendar it stands for has in front. -/
theorem Fronted.counted (fronted : Fronted w m) : FrontCounted w := by
  obtain ⟨⟨near, far, past⟩, drained, _⟩ := fronted.refines.laid
  have here (t : Nat) : (m.get t).countP (fun e => e.2.1 == some w.frontTime) =
      if t = w.frontTime then w.frontPending else 0 := by
    have headed := fronted.heads t
    split at headed
    · rename_i same
      rw [if_pos same, ← same]
      exact headed.count
    · rename_i other
      rw [if_neg other]
      exact headed.count_other (Ne.symm other)
  -- A slot of the ring counts what is put in front of the time it stands for.
  have slot {t : Nat} (low : w.currentTime ≤ t) (high : t < w.currentTime + wheelSize) :
      (w.wheel (slotOf t)).countP (fun e => e.2.1 == some w.frontTime) =
        if t = w.frontTime then w.frontPending else 0 := by
    have queue := near t low high
    rw [drained t high, List.append_nil] at queue
    rw [queue, here]
  have beyond (t : Nat) : (w.overflow.get t).countP (fun e => e.2.1 == some w.frontTime) =
      if t = w.frontTime ∧ w.currentTime + wheelSize ≤ t then w.frontPending else 0 := by
    by_cases reach : w.currentTime + wheelSize ≤ t
    · rw [far t reach, here]
      simp [reach]
    · rw [drained t (by omega)]
      simp [reach]
  -- The overflow without the queue of the remembered time counts nothing.
  have rest : (w.overflow.set w.frontTime []).count (fun e => e.2.1 == some w.frontTime) = 0 := by
    refine Nat.eq_zero_of_not_pos fun positive => ?_
    obtain ⟨t, e, member, marked⟩ := Buckets.count_pos_iff.mp positive
    rw [Buckets.get_set] at member
    split at member
    · exact absurd member List.not_mem_nil
    · rename_i other
      have unmarked := beyond t
      rw [if_neg fun both => other both.1] at unmarked
      exact List.countP_eq_zero.mp unmarked e member marked
  have parked := w.overflow.count_set w.frontTime [] fun e => e.2.1 == some w.frontTime
  rw [rest, beyond, List.countP_nil] at parked
  unfold FrontCounted TimingWheel.queued
  by_cases reach : w.currentTime ≤ w.frontTime ∧ w.frontTime < w.currentTime + wheelSize
  · rw [Finset.sum_eq_single_of_mem (slotOf w.frontTime) (Finset.mem_range.mpr (slotOf_lt _)),
      slot reach.1 reach.2, if_pos rfl]
    · have closer : ¬ (w.frontTime = w.frontTime ∧ w.currentTime + wheelSize ≤ w.frontTime) := by omega
      rw [if_neg closer] at parked
      omega
    · intro s inside other
      obtain ⟨t, low, high, rfl⟩ := exists_slotOf w.currentTime (Finset.mem_range.mp inside)
      rw [slot low high, if_neg]
      rintro rfl
      exact other rfl
  · rw [Finset.sum_eq_zero]
    · split at parked
      · omega
      · -- A time that is past has nothing queued, so nothing is pending.
        rename_i notFar
        have early : w.frontTime < w.currentTime := by omega
        have empty := here w.frontTime
        rw [(past _ early).1, if_pos rfl] at empty
        rw [List.countP_nil] at empty
        omega
    · intro s inside
      obtain ⟨t, low, high, rfl⟩ := exists_slotOf w.currentTime (Finset.mem_range.mp inside)
      rw [slot low high, if_neg]
      rintro rfl
      exact reach ⟨low, high⟩

/-- A call leaves its entries in front where every queue but one is left and the one stays headed. -/
theorem Fronted.of_set {w' : TimingWheel (Marked γ)} {t : Nat} {q : List (Event (Marked γ))}
    (fronted : Fronted w m) (refines : w'.Refines (m.set t q))
    (others : ∀ t' ≠ t, (if t' = w'.frontTime then w'.frontPending else 0) =
      if t' = w.frontTime then w.frontPending else 0)
    (here : Headed t (if t = w'.frontTime then w'.frontPending else 0) q) : Fronted w' (m.set t q) where
  refines := refines
  heads t' := by
    by_cases same : t' = t
    · subst same
      rw [Buckets.get_set_self]
      exact here
    · rw [Buckets.get_set_of_ne _ same, others t' same]
      exact fronted.heads t'

/-- A pop keeps the entries in front, and tells whether it took one of them. -/
theorem Fronted.popFront (fronted : Fronted w m) {t : Nat}
    (popped : (w.popFront t).1.Refines (m.set t (m.get t).tail) ∧ (w.popFront t).2 = (m.get t).head?) :
    Fronted (w.popFront t).1 (m.set t (m.get t).tail) ∧ (WheelOp.popFront t : WheelOp γ).PopTold w := by
  obtain ⟨refines, event⟩ := popped
  have headed := fronted.heads t
  have taken := event
  rw [w.popFront_eq t] at taken
  -- What is remembered of the front is the same up to the note that the pop makes.
  have before := (w.advance t).shorten_fronts (slotOf t) ((w.advance t).wheel (slotOf t)).tail
  rw [TimingWheel.advance_fronts] at before
  obtain ⟨time, pending⟩ := Prod.mk.inj before
  have after : (w.popFront t).1 =
      ((w.advance t).shorten (slotOf t) ((w.advance t).wheel (slotOf t)).tail).notePop t (m.get t).head? := by
    rw [← taken, w.popFront_eq t]
  unfold WheelOp.PopTold
  dsimp only
  rw [event]
  generalize TimingWheel.shorten _ _ _ = shortened at after time pending
  cases queue : m.get t with
  | nil =>
    rw [queue] at headed after refines
    obtain ⟨kept, quiet⟩ := shortened.notePop_none t
    obtain ⟨time', pending'⟩ := Prod.mk.inj kept
    rw [List.head?_nil] at after
    rw [← after] at time' pending' quiet
    refine ⟨fronted.of_set refines (fun t' _ => by rw [time', pending', time, pending]) ?_, ?_⟩
    · rw [time', pending', time, pending]
      exact headed
    · simp [quiet]
  | cons e rest =>
    rw [queue] at headed after refines
    obtain ⟨first, later⟩ := headed.tail
    obtain ⟨told, kept⟩ := shortened.notePop_some t e
    rw [List.head?_cons] at after
    rw [← after] at told kept
    obtain ⟨time', pending'⟩ := Prod.mk.inj kept
    rw [time, pending] at told pending'
    rw [time] at time'
    refine ⟨fronted.of_set refines ?_ ?_, ?_⟩
    · intro t' other
      rw [time', pending']
      by_cases same : t' = w.frontTime
      · rw [if_pos same, if_pos same, if_neg fun here => other (same.trans here.symm)]
      · rw [if_neg same, if_neg same]
    · rw [time', pending']
      by_cases same : t = w.frontTime
      · simpa [same] using later
      · simpa [same] using later
    · rw [told]
      simp only [List.head?_cons, Option.some.injEq, exists_eq_left']
      rw [first]
      by_cases same : t = w.frontTime
      · simp [same]
      · simp [same]

/-- A call that keeps the entries in front of its wheel keeps them in the calendar, and a pop tells them. -/
theorem Fronted.step (fronted : Fronted w m) {op : WheelOp γ} (disciplined : op.mark.Disciplined w)
    (fits : op.mark.Fits w) (kept : op.mark.FrontKept w) :
    Fronted (op.mark.onWheel w).1 (op.mark.onCalendar m).1 ∧ op.PopTold w := by
  obtain ⟨refines, reply⟩ := WheelOp.step_refines fronted.refines disciplined fits
  cases op with
  | schedule t pid stmts =>
    obtain ⟨time, pending⟩ := Prod.mk.inj (show (w.schedule t pid (none, stmts)).fronts = w.fronts from
      TimingWheel.place_fronts _ _ _)
    refine ⟨fronted.of_set refines (fun t' _ => by simp only [WheelOp.mark, WheelOp.onWheel, time, pending]) ?_,
      trivial⟩
    simp only [WheelOp.mark, WheelOp.onWheel, time, pending]
    exact (fronted.heads t).snoc rfl
  | scheduleFront t pid stmts =>
    obtain ⟨same, fits'⟩ := kept
    obtain ⟨time, pending⟩ := Prod.mk.inj (show (w.scheduleFront t pid (some t, stmts)).fronts =
      (t, ((if w.frontTime ≠ t then 0 else w.frontPending) + 1) % 2 ^ 32) from TimingWheel.place_fronts _ _ _)
    -- The count goes on from the entries pending at the same time, or starts anew while none is pending.
    have started : (if w.frontTime ≠ t then 0 else w.frontPending) = w.frontPending := by
      rcases same with here | unpending
      · rw [if_neg (not_not.mpr here)]
      · rw [unpending, ite_self]
    rw [started, Nat.mod_eq_of_lt fits'] at pending
    have before : (if t = w.frontTime then w.frontPending else 0) = w.frontPending := by
      rcases same with here | unpending
      · rw [if_pos here.symm]
      · rw [unpending, ite_self]
    refine ⟨fronted.of_set refines ?_ ?_, trivial⟩
    · intro t' other
      simp only [WheelOp.mark, WheelOp.onWheel, time]
      rw [if_neg other]
      rcases same with here | unpending
      · rw [here, if_neg other]
      · rw [unpending, ite_self]
    · simp only [WheelOp.mark, WheelOp.onWheel, time, pending, if_true]
      have headed := fronted.heads t
      rw [before] at headed
      exact headed.cons rfl
  | requeueFront t rest =>
    obtain ⟨time, pending⟩ := Prod.mk.inj (w.requeueFront_fronts t (rest.map (Event.map (none, ·))))
    refine ⟨fronted.of_set refines (fun t' _ => by simp only [WheelOp.mark, WheelOp.onWheel, time, pending]) ?_,
      trivial⟩
    simp only [WheelOp.mark, WheelOp.onWheel, time, pending]
    have headed := fronted.heads t
    have unpending : (if t = w.frontTime then w.frontPending else 0) = 0 := by
      split
      · rename_i here
        exact kept here.symm
      · rfl
    rw [unpending] at headed ⊢
    refine headed.prepend fun e member => ?_
    obtain ⟨old, _, rfl⟩ := List.mem_map.mp member
    rfl
  | popFront t => exact fronted.popFront ⟨refines, WheelReply.event.inj reply⟩
  | remove t =>
    obtain ⟨time, pending⟩ := Prod.mk.inj (w.remove_fronts t)
    refine ⟨fronted.of_set refines ?_ ?_, trivial⟩
    · intro t' other
      simp only [WheelOp.mark, WheelOp.onWheel, time, pending]
      by_cases here : t' = w.frontTime
      · rw [if_pos here, if_pos here, if_neg fun same => other (here.trans same)]
      · rw [if_neg here, if_neg here]
    · simp only [WheelOp.mark, WheelOp.onWheel, time, pending]
      rw [headed_nil]
      split
      · rename_i here
        rw [if_pos here.symm]
      · rfl
  | nextTime =>
    obtain ⟨time, pending⟩ := Prod.mk.inj w.nextTime_fronts
    refine ⟨⟨refines, fun t => ?_⟩, trivial⟩
    simp only [WheelOp.mark, WheelOp.onWheel, WheelOp.onCalendar, time, pending]
    exact fronted.heads t
  | nextTimeAfter after => exact ⟨fronted, trivial⟩
  | hasPid pid => exact ⟨fronted, trivial⟩

/-- A marked call is made as the call is, in the wheel without its marks. -/
theorem WheelOp.mark_frontStep {op : WheelOp γ} (step : op.FrontStep (w.map Prod.snd)) :
    op.mark.Disciplined w ∧ op.mark.Fits w ∧ op.mark.FrontKept w := by
  obtain ⟨disciplined, fits, kept⟩ := step
  have next := (w.map_nextTime Prod.snd).2
  -- The marks do not take part in the discipline, in the counts or in the condition.
  cases op with
  | requeueFront t rest =>
    refine ⟨disciplined, ⟨by simpa using fits.1, ?_⟩, kept⟩
    intro e member
    obtain ⟨old, here, rfl⟩ := List.mem_map.mp member
    rw [List.countP_map]
    exact fits.2 old here
  | popFront t =>
    obtain ⟨later, small, bound⟩ := disciplined
    rw [next] at bound
    exact ⟨⟨later, small, bound⟩, fits, kept⟩
  | remove t =>
    obtain ⟨later, small, bound⟩ := disciplined
    rw [next] at bound
    exact ⟨⟨later, small, bound⟩, fits, kept⟩
  | _ => exact ⟨disciplined, fits, kept⟩

/-- Every run of calls that keep the entries in front counts them, and every pop tells them. -/
theorem Fronted.run {ops : List (WheelOp γ)} (fronted : Fronted w m)
    (meets : RunMeets (fun w op => op.FrontStep w) (w.map Prod.snd) ops) : FrontsExact w ops := by
  -- One call keeps the invariant, and the rest of the run meets its own conditions.
  induction ops generalizing w m with
  | nil => exact fronted.counted
  | cons op rest ih =>
    obtain ⟨disciplined, fits, kept⟩ := WheelOp.mark_frontStep meets.1
    obtain ⟨fronted', told⟩ := fronted.step disciplined fits kept
    have step := op.mark.map_onWheel Prod.snd w
    rw [op.map_mark] at step
    have later := meets.2
    rw [step] at later
    exact ⟨fronted.counted, told, ih fronted' later⟩

end Steps

/-- In every run of calls that keep the entries in front, each pop tells whether it returned one of them and the
count is
that of those still queued; forgetting the marks gives the run of the wheel itself. -/
theorem fronts_exact {ops : List (WheelOp γ)}
    (meets : RunMeets (fun w op => op.FrontStep w) (TimingWheel.new : TimingWheel γ) ops) :
    FrontsExact TimingWheel.new ops ∧
      let marked := runCallsOn (fun w op => op.onWheel w) TimingWheel.new (ops.map WheelOp.mark)
      let run := runCallsOn (fun w op => op.onWheel w) TimingWheel.new ops
      marked.1.map Prod.snd = run.1 ∧ marked.2.map (WheelReply.map Prod.snd) = run.2 := by
  have start : (TimingWheel.new : TimingWheel (Marked γ)).map Prod.snd = TimingWheel.new := rfl
  -- The empty wheel has no front events.
  have fronted : Fronted (TimingWheel.new : TimingWheel (Marked γ)) Buckets.empty := by
    refine ⟨TimingWheel.refines_new, fun t => ?_⟩
    rw [Buckets.get_empty, headed_nil]
    exact ite_self _
  have erased := erase_marks ops (TimingWheel.new : TimingWheel (Marked γ))
  rw [start] at erased
  exact ⟨fronted.run (by rwa [start]), erased⟩

/-- A run that forks children, pops them and puts a batch back behind the clock's next event. -/
def forkRun : List (WheelOp Unit) :=
  [.schedule 10 1 (), .scheduleFront 10 3 (), .scheduleFront 10 2 (), .popFront 10, .popFront 10, .remove 10,
    .requeueFront 10 [(1, ())], .popFront 10]

/-- That run counts its children. -/
theorem fronts_exact_forkRun :
    FrontsExact TimingWheel.new forkRun ∧
      let marked := runCallsOn (fun w op => op.onWheel w) TimingWheel.new (forkRun.map WheelOp.mark)
      let run := runCallsOn (fun w op => op.onWheel w) TimingWheel.new forkRun
      marked.1.map Prod.snd = run.1 ∧ marked.2.map (WheelReply.map Prod.snd) = run.2 :=
  fronts_exact (by decide +kernel)

/-- In an exact run the last call is made in the state the calls before it leave. -/
theorem FrontsExact.last {op : WheelOp γ} : ∀ {ops : List (WheelOp γ)} {w : TimingWheel (Marked γ)},
    FrontsExact w (ops ++ [op]) →
      op.PopTold (runCallsOn (fun w op => op.onWheel w) w (ops.map WheelOp.mark)).1
  | [], _, fronts => fronts.2.1
  | _ :: rest, _, fronts => by
    have later : FrontsExact _ (rest ++ [op]) := fronts.2.2
    exact later.last

/-- A process of a batch forks a child, and the rest of the batch is put back ahead of it. -/
def requeueRun : List (WheelOp Unit) :=
  [.schedule 10 1 (), .schedule 10 2 (), .remove 10, .scheduleFront 10 3 (), .requeueFront 10 [(2, ())]]

/-- The pop then returns the process put back, and tells it as one put in front. -/
theorem requeued_told_front : ¬ FrontsExact TimingWheel.new (requeueRun ++ [.popFront 10]) := by
  intro fronts
  let requeued := (runCallsOn (fun w op => op.onWheel w) TimingWheel.new (requeueRun.map WheelOp.mark)).1
  -- The last pop would be told as a front event.
  have told : (WheelOp.popFront 10 : WheelOp Unit).PopTold requeued := fronts.last
  have front : (requeued.popFront 10).1.lastPopFront = true := by decide +kernel
  have event : (requeued.popFront 10).2 = some (2, (none, ())) := by decide +kernel
  obtain ⟨e, same, marked⟩ := told.mp front
  rw [event] at same
  obtain rfl := Option.some.inj same
  -- The event popped is the one that was put back, and it has no mark.
  exact marked rfl

end Xezim
