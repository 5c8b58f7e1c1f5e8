import Xezim.Wheel.Steps

/-! The timing wheel answers every call as an ordered map from times to queues does. -/

namespace Xezim

open Function

/-- An optional time is the least one of a set, absent where the set is empty. -/
structure Earliest (times : Set Nat) (best : Option Nat) : Prop where
  least : ∀ t, best = some t → IsLeast times t
  empty : best = none → times = ∅

/-- A least time is the earliest one. -/
theorem Earliest.of_least {S : Set Nat} {t : Nat} (least : IsLeast S t) : Earliest S (some t) :=
  ⟨fun _ same => Option.some.inj same ▸ least, fun impossible => nomatch impossible⟩

/-- A set without times has no earliest one. -/
theorem Earliest.of_empty {S : Set Nat} (empty : ∀ t, t ∉ S) : Earliest S none :=
  ⟨fun _ impossible => (nomatch impossible), fun _ => Set.eq_empty_of_forall_notMem empty⟩

/-- The better of two least times is the least one of both sets. -/
theorem Earliest.best {S T : Set Nat} {best : Option Nat} {t : Nat} (first : Earliest S best)
    (second : IsLeast T t) : Earliest (S ∪ T) (bestTime best t) := by
  cases best with
  | none =>
    rw [first.empty rfl, Set.empty_union]
    exact .of_least second
  | some b => exact .of_least ((first.least b rfl).union second)

/-- Nothing joins a set without times. -/
theorem Earliest.same {S T : Set Nat} {best : Option Nat} (first : Earliest S best)
    (empty : ∀ t, t ∉ T) : Earliest (S ∪ T) best := by
  rwa [Set.eq_empty_of_forall_notMem empty, Set.union_empty]

/-- Two answers that are both the earliest time of a set are the same. -/
theorem Earliest.unique {S : Set Nat} {a b : Option Nat} (first : Earliest S a)
    (second : Earliest S b) : a = b := by
  cases a with
  | none =>
    cases b with
    | none => rfl
    | some t => exact absurd (first.empty rfl ▸ (second.least t rfl).1) (Set.notMem_empty t)
  | some t =>
    cases b with
    | none => exact absurd (second.empty rfl ▸ (first.least t rfl).1) (Set.notMem_empty t)
    | some t' => rw [(first.least t rfl).unique (second.least t' rfl)]

/-- The first key of a calendar is its earliest time. -/
theorem earliest_firstKey {γ : Type} (m : Calendar γ) :
    Earliest {t | m.get t ≠ []} m.firstKey := by
  cases first : m.firstKey with
  | some t => exact .of_least (Buckets.isLeast_firstKey first)
  | none => exact .of_empty fun t queued => queued (Buckets.get_of_firstKey_none first t)

/-- The first key above a bound is the earliest such time. -/
theorem earliest_firstAbove {γ : Type} (m : Calendar γ) (after : Nat) :
    Earliest {t | after < t ∧ m.get t ≠ []} (m.firstAbove after) := by
  cases first : m.firstAbove after with
  | some t => exact .of_least (Buckets.isLeast_firstAbove first)
  | none => exact .of_empty fun t queued => queued.2 (Buckets.get_of_firstAbove_none first queued.1)

/-- One call of the wheel's interface. -/
inductive WheelOp (γ : Type) where
  | schedule (time pid : Nat) (stmts : γ)
  | scheduleFront (time pid : Nat) (stmts : γ)
  | requeueFront (time : Nat) (rest : List (Event γ))
  | popFront (time : Nat)
  | remove (time : Nat)
  | nextTime
  | nextTimeAfter (after : Nat)
  | hasPid (pid : Nat)

/-- What a call answers. -/
inductive WheelReply (γ : Type) where
  | done
  | event (e : Option (Event γ))
  | events (es : List (Event γ))
  | time (t : Option Nat)
  | flag (b : Bool)
  deriving DecidableEq

section Calls

variable {γ : Type}

/-- Carry out a call on the wheel. -/
def WheelOp.onWheel (w : TimingWheel γ) : WheelOp γ → TimingWheel γ × WheelReply γ
  | .schedule t pid stmts => (w.schedule t pid stmts, .done)
  | .scheduleFront t pid stmts => (w.scheduleFront t pid stmts, .done)
  | .requeueFront t rest => (w.requeueFront t rest, .done)
  | .popFront t => ((w.popFront t).1, .event (w.popFront t).2)
  | .remove t => ((w.remove t).1, .events (w.remove t).2)
  | .nextTime => (w.nextTime.1, .time w.nextTime.2)
  | .nextTimeAfter after => (w, .time (w.nextTimeAfter after))
  | .hasPid pid => (w, .flag (w.hasPid pid))

/-- What the call does to an ordered map from times to queues. -/
def WheelOp.onCalendar (m : Calendar γ) : WheelOp γ → Calendar γ × WheelReply γ
  | .schedule t pid stmts => (m.set t (m.get t ++ [(pid, stmts)]), .done)
  | .scheduleFront t pid stmts => (m.set t ((pid, stmts) :: m.get t), .done)
  | .requeueFront t rest => (m.set t (rest ++ m.get t), .done)
  | .popFront t => (m.set t (m.get t).tail, .event (m.get t).head?)
  | .remove t => (m.set t [], .events (m.get t))
  | .nextTime => (m, .time m.firstKey)
  | .nextTimeAfter after => (m, .time (m.firstAbove after))
  | .hasPid pid => (m, .flag (decide (0 < Calendar.pidCount m pid)))

/-- Carry out calls in order, and collect what they answer. -/
def runCallsOn {σ : Type} (step : σ → WheelOp γ → σ × WheelReply γ) :
    σ → List (WheelOp γ) → σ × List (WheelReply γ)
  | s, [] => (s, [])
  | s, op :: rest =>
    let next := step s op
    let run := runCallsOn step next.1 rest
    (run.1, next.2 :: run.2)

/-- A call as the scheduler makes it: nothing is scheduled in the past, and events are taken at the
next time or an earlier one that is not past. -/
def WheelOp.Disciplined (w : TimingWheel γ) : WheelOp γ → Prop
  | .schedule t _ _ | .scheduleFront t _ _ | .requeueFront t _ => w.currentTime ≤ t ∧ t < 2 ^ 64
  | .popFront t | .remove t =>
    w.currentTime ≤ t ∧ t < 2 ^ 64 ∧ ∀ next ∈ w.nextTime.2, t ≤ next
  | .nextTimeAfter after => after < 2 ^ 64
  | .nextTime | .hasPid _ => True

/-- A call in which no sum overflows its machine number, and that puts something back if it puts
back a batch. -/
def WheelOp.Fits (w : TimingWheel γ) : WheelOp γ → Prop
  | .schedule _ pid _ | .scheduleFront _ pid _ => (w.pidCounts pid).getD 0 + 1 < 2 ^ 32
  | .requeueFront _ rest =>
    rest ≠ [] ∧
      ∀ e ∈ rest, (w.pidCounts e.1).getD 0 + rest.countP (fun e' => e'.1 == e.1) < 2 ^ 32
  | .popFront t | .remove t => t + wheelSize < 2 ^ 64
  | .nextTimeAfter after => after + 1 < 2 ^ 64
  | .nextTime | .hasPid _ => True

instance (w : TimingWheel γ) : (op : WheelOp γ) → Decidable (op.Disciplined w)
  | .schedule .. | .scheduleFront .. | .requeueFront .. | .popFront .. | .remove .. =>
    inferInstanceAs (Decidable (_ ∧ _))
  | .nextTimeAfter _ => inferInstanceAs (Decidable (_ < _))
  | .nextTime | .hasPid _ => inferInstanceAs (Decidable True)

instance (w : TimingWheel γ) : (op : WheelOp γ) → Decidable (op.Fits w)
  | .schedule .. | .scheduleFront .. | .popFront .. | .remove .. | .nextTimeAfter _ =>
    inferInstanceAs (Decidable (_ < _))
  | .requeueFront _ rest =>
    have : Decidable (rest ≠ []) := decidable_of_iff (rest.isEmpty = false) (by simp)
    inferInstanceAs (Decidable (_ ∧ _))
  | .nextTime | .hasPid _ => inferInstanceAs (Decidable True)

/-- Every call of a run satisfies a condition in the state it is made in. -/
def RunMeets (cond : TimingWheel γ → WheelOp γ → Prop) : TimingWheel γ → List (WheelOp γ) → Prop
  | _, [] => True
  | w, op :: rest => cond w op ∧ RunMeets cond (op.onWheel w).1 rest

instance decideRunMeets (cond : TimingWheel γ → WheelOp γ → Prop)
    [decides : ∀ w op, Decidable (cond w op)] :
    (w : TimingWheel γ) → (ops : List (WheelOp γ)) → Decidable (RunMeets cond w ops)
  | _, [] => inferInstanceAs (Decidable True)
  | w, op :: rest =>
    have := decides w op
    have := decideRunMeets cond (op.onWheel w).1 rest
    inferInstanceAs (Decidable (_ ∧ _))

end Calls

section Refinement

variable {γ : Type} {w : TimingWheel γ} {m : Calendar γ}

/-- A fold over slots finds the earliest occupied one's time above a bound. -/
theorem earliest_slots (bit : Nat → Bool) (time : Nat → Nat) (after : Nat) (slots : List Nat)
    {S : Set Nat} {best : Option Nat} (first : Earliest S best) :
    Earliest (S ∪ {t | ∃ s ∈ slots, bit s = true ∧ after < time s ∧ t = time s})
      (slots.foldl (fun best s =>
        if bit s then (if time s > after then bestTime best (time s) else best) else best) best) := by
  induction slots generalizing S best with
  | nil => exact first.same fun t ⟨_, listed, _⟩ => nomatch listed
  | cons s rest ih =>
    -- The head slot adds its time, or nothing.
    have head : Earliest (S ∪ {t | bit s = true ∧ after < time s ∧ t = time s})
        (if bit s then (if time s > after then bestTime best (time s) else best) else best) := by
      split
      · rename_i set
        split
        · rename_i above
          exact first.best ⟨⟨set, above, rfl⟩, fun t here => here.2.2.ge⟩
        · rename_i below
          exact first.same fun t here => below here.2.1
      · rename_i clear
        exact first.same fun t here => clear here.1
    have both := ih head
    rw [Set.union_assoc] at both
    have same : ({t | bit s = true ∧ after < time s ∧ t = time s} : Set Nat) ∪
        {t | ∃ s' ∈ rest, bit s' = true ∧ after < time s' ∧ t = time s'} =
        {t | ∃ s' ∈ s :: rest, bit s' = true ∧ after < time s' ∧ t = time s'} := by
      ext t
      constructor
      · rintro (here | ⟨s', later, here⟩)
        · exact ⟨s, List.mem_cons_self, here⟩
        · exact ⟨s', List.mem_cons_of_mem _ later, here⟩
      · rintro ⟨s', member, here⟩
        rcases List.mem_cons.mp member with rfl | later
        · exact Or.inl here
        · exact Or.inr ⟨s', later, here⟩
    rwa [same] at both

/-- `next_time_after` is the least time above a bound with a queue. -/
theorem TimingWheel.Refines.nextTimeAfter (ok : w.Refines m) {after : Nat}
    (fits : after + 1 < 2 ^ 64) : Earliest {t | after < t ∧ m.get t ≠ []} (w.nextTimeAfter after) := by
  have window := ok.window
  -- The time of a slot, as the loop computes it.
  have time {t : Nat} (near : w.currentTime ≤ t ∧ t < w.currentTime + wheelSize) :
      addU64 w.currentTime ((slotOf t + wheelSize - slotOf w.currentTime) % wheelSize) = t := by
    rw [← slotsAhead_eq (slotOf_lt _) (slotOf_lt _), slotsAhead_slotOf near, addU64,
      Nat.add_sub_cancel' near.1]
    exact Nat.mod_eq_of_lt (by omega)
  have queued {t : Nat} (near : w.currentTime ≤ t ∧ t < w.currentTime + wheelSize) :
      slotSet w.bitmap (slotOf t) = true ↔ m.get t ≠ [] := by
    rw [ok.laid.bitmap.bits _ (slotOf_lt t), Laid.near ok.laid near]
    simp
  have start : Earliest ∅ none := .of_empty Set.notMem_empty
  have ring := earliest_slots (slotSet w.bitmap)
    (fun s => addU64 w.currentTime ((s + wheelSize - slotOf w.currentTime) % wheelSize)) after
    (List.range wheelSize) start
  have whole : {t | after < t ∧ m.get t ≠ []} =
      (∅ ∪ {t | ∃ s ∈ List.range wheelSize, slotSet w.bitmap s = true ∧
        after < addU64 w.currentTime ((s + wheelSize - slotOf w.currentTime) % wheelSize) ∧
        t = addU64 w.currentTime ((s + wheelSize - slotOf w.currentTime) % wheelSize)}) ∪
      {t | after < t ∧ w.overflow.get t ≠ []} := by
    ext t
    constructor
    · rintro ⟨above, queuedAt⟩
      by_cases far : w.currentTime + wheelSize ≤ t
      · exact Or.inr ⟨above, by rwa [ok.laid.stores.far t far]⟩
      · have notPast : w.currentTime ≤ t := by
          by_contra past
          exact queuedAt (ok.laid.stores.past t (Nat.lt_of_not_le past)).1
        have near : w.currentTime ≤ t ∧ t < w.currentTime + wheelSize := ⟨notPast, by omega⟩
        refine Or.inl (Or.inr ⟨slotOf t, List.mem_range.mpr (slotOf_lt t), (queued near).mpr queuedAt, ?_⟩)
        rw [time near]
        exact ⟨above, rfl⟩
    · rintro ((unlisted | ⟨s, inside, set, above, rfl⟩) | ⟨above, queuedAt⟩)
      · exact absurd unlisted (Set.notMem_empty t)
      · obtain ⟨t, low, high, rfl⟩ := exists_slotOf w.currentTime (List.mem_range.mp inside)
        rw [time ⟨low, high⟩] at above ⊢
        exact ⟨above, (queued ⟨low, high⟩).mp set⟩
      · refine ⟨above, ?_⟩
        have far : w.currentTime + wheelSize ≤ t := by
          by_contra near
          exact queuedAt (ok.laid.drained t (Nat.lt_of_not_le near))
        rwa [← ok.laid.stores.far t far]
  rw [whole]
  simp only [TimingWheel.nextTimeAfter, if_pos fits]
  simp only [slotSet] at ring ⊢
  have overflow := earliest_firstAbove w.overflow after
  cases far : w.overflow.firstAbove after with
  | some t =>
    rw [far] at overflow
    exact ring.best (overflow.least t rfl)
  | none =>
    rw [far] at overflow
    exact ring.same fun t => overflow.empty rfl ▸ Set.notMem_empty t

/-- `has_pid` says whether some queued event belongs to a process. -/
theorem TimingWheel.Refines.hasPid (ok : w.Refines m) (pid : Nat) :
    w.hasPid pid = decide (0 < Calendar.pidCount m pid) := by
  obtain ⟨-, stored⟩ := ok.pids pid
  rw [TimingWheel.hasPid, stored]
  by_cases uncounted : Calendar.pidCount m pid = 0
  · simp [uncounted]
  · simp [uncounted, Nat.pos_of_ne_zero uncounted]

/-- A new wheel stands for the empty calendar. -/
theorem TimingWheel.refines_new : (TimingWheel.new : TimingWheel γ).Refines Buckets.empty where
  window := show 0 + 4096 < 2 ^ 64 by decide
  laid :=
    { stores := ⟨fun _ _ _ => rfl, fun _ _ => rfl, fun _ _ => ⟨rfl, rfl⟩⟩
      drained := fun _ _ => rfl
      bitmap :=
        { bits := fun slot _ => by simp [TimingWheel.new, slotSet]
          words := by simp [TimingWheel.new, setWords] } }
  cache _ known := by cases known
  pids _ := ⟨show 0 < 2 ^ 32 by decide, rfl⟩

/-- Nothing is queued before a time that is not behind the next one. -/
theorem none_before (ok : w.Refines m) {t : Nat}
    (bound : ∀ next ∈ w.nextTime.2, t ≤ next) : ∀ t' < t, m.get t' = [] := by
  intro t' early
  by_contra queued
  have least := earliest_firstKey m
  rw [ok.nextTime.2] at bound
  cases first : m.firstKey with
  | none => exact queued (Buckets.get_of_firstKey_none first t')
  | some next =>
    rw [first] at least
    exact absurd ((least.least next rfl).2 queued) (Nat.not_le.mpr (early.trans_le (bound next first)))

/-- A call leaves the wheel standing for the calendar the same call leaves, and answers the same. -/
theorem WheelOp.step_refines (ok : w.Refines m) {op : WheelOp γ} (disciplined : op.Disciplined w)
    (fits : op.Fits w) :
    (op.onWheel w).1.Refines (op.onCalendar m).1 ∧ (op.onWheel w).2 = (op.onCalendar m).2 := by
  cases op with
  | schedule t pid stmts =>
    simp only [WheelOp.onWheel, WheelOp.onCalendar, and_true]
    exact ok.schedule disciplined.1 pid stmts fits
  | scheduleFront t pid stmts =>
    simp only [WheelOp.onWheel, WheelOp.onCalendar, and_true]
    exact ok.scheduleFront disciplined.1 pid stmts fits
  | requeueFront t rest =>
    refine ⟨ok.requeueFront disciplined.1 fits.1 fun pid => ?_, rfl⟩
    by_cases back : ∃ e ∈ rest, e.1 = pid
    · obtain ⟨e, member, rfl⟩ := back
      exact fits.2 e member
    · -- A process that does not come back is counted as before.
      have uncounted : rest.countP (fun e => e.1 == pid) = 0 :=
        List.countP_eq_zero.mpr fun e member same => back ⟨e, member, beq_iff_eq.mp same⟩
      rw [uncounted, (ok.pids pid).getD]
      exact (ok.pids pid).1
  | popFront t =>
    obtain ⟨later, -, bound⟩ := disciplined
    obtain ⟨popped, event⟩ := ok.popFront later fits (none_before ok bound)
    exact ⟨popped, congrArg WheelReply.event event⟩
  | remove t =>
    obtain ⟨later, -, bound⟩ := disciplined
    obtain ⟨removed, events⟩ := ok.remove later fits (none_before ok bound)
    exact ⟨removed, congrArg WheelReply.events events⟩
  | nextTime => exact ⟨ok.nextTime.1, congrArg WheelReply.time ok.nextTime.2⟩
  | nextTimeAfter after =>
    have same := (ok.nextTimeAfter fits).unique (earliest_firstAbove m after)
    exact ⟨ok, congrArg WheelReply.time same⟩
  | hasPid pid => exact ⟨ok, congrArg WheelReply.flag (ok.hasPid pid)⟩

/-- A run of calls leaves the wheel standing for the calendar the same run leaves, and answers the
same all along. -/
theorem run_refines {ops : List (WheelOp γ)} (ok : w.Refines m)
    (disciplined : RunMeets WheelOp.Disciplined w ops) (fits : RunMeets WheelOp.Fits w ops) :
    (runCallsOn (fun w op => op.onWheel w) w ops).1.Refines
        (runCallsOn (fun m op => op.onCalendar m) m ops).1 ∧
      (runCallsOn (fun w op => op.onWheel w) w ops).2 =
        (runCallsOn (fun m op => op.onCalendar m) m ops).2 := by
  induction ops generalizing w m with
  | nil => exact ⟨ok, rfl⟩
  | cons op rest ih =>
    obtain ⟨ok', reply⟩ := WheelOp.step_refines ok disciplined.1 fits.1
    obtain ⟨last, replies⟩ := ih ok' disciplined.2 fits.2
    refine ⟨last, ?_⟩
    simp only [runCallsOn]
    rw [reply, replies]

/-- In every run without overflow the wheel answers as the calendar does, and in the state it
reaches the next time, the next time above a bound and the processes are those of the calendar. -/
theorem timingWheel_refines_calendar {ops : List (WheelOp γ)}
    (disciplined : RunMeets WheelOp.Disciplined TimingWheel.new ops)
    (fits : RunMeets WheelOp.Fits TimingWheel.new ops) :
    let wheel := runCallsOn (fun w op => op.onWheel w) TimingWheel.new ops
    let calendar := runCallsOn (fun m op => op.onCalendar m) (Buckets.empty : Calendar γ) ops
    wheel.2 = calendar.2 ∧
      Earliest {t | calendar.1.get t ≠ []} wheel.1.nextTime.2 ∧
      (∀ after, after + 1 < 2 ^ 64 →
        Earliest {t | after < t ∧ calendar.1.get t ≠ []} (wheel.1.nextTimeAfter after)) ∧
      ∀ pid, wheel.1.hasPid pid = true ↔ ∃ t, ∃ e ∈ calendar.1.get t, e.1 = pid := by
  obtain ⟨ok, replies⟩ := run_refines TimingWheel.refines_new disciplined fits
  refine ⟨replies, ?_, fun after bound => ok.nextTimeAfter bound, fun pid => ?_⟩
  · rw [ok.nextTime.2]
    exact earliest_firstKey _
  · rw [ok.hasPid, decide_eq_true_eq, Calendar.pidCount, Buckets.count_pos_iff]
    simp only [beq_iff_eq]

/-- Two events at one time, a far one that is parked and drained, and one put in front. -/
def shortRun : List (WheelOp Unit) :=
  [.schedule 10 1 (), .schedule 9000 2 (), .scheduleFront 10 3 (), .nextTime, .popFront 10,
    .requeueFront 10 [(4, ()), (5, ())], .remove 10, .nextTime, .popFront 9000, .hasPid 2]

/-- The answers of that run. -/
theorem timingWheel_refines_calendar_shortRun :
    let wheel := runCallsOn (fun w op => op.onWheel w) TimingWheel.new shortRun
    let calendar := runCallsOn (fun m op => op.onCalendar m) (Buckets.empty : Calendar Unit) shortRun
    wheel.2 = calendar.2 ∧
      Earliest {t | calendar.1.get t ≠ []} wheel.1.nextTime.2 ∧
      (∀ after, after + 1 < 2 ^ 64 →
        Earliest {t | after < t ∧ calendar.1.get t ≠ []} (wheel.1.nextTimeAfter after)) ∧
      ∀ pid, wheel.1.hasPid pid = true ↔ ∃ t, ∃ e ∈ calendar.1.get t, e.1 = pid := by
  exact timingWheel_refines_calendar (by decide +kernel) (by decide +kernel)

/-- An event in the last window of the 64-bit times is never returned. -/
theorem timingWheel_loses_last_window :
    ¬ ∀ ops : List (WheelOp Unit), RunMeets WheelOp.Disciplined TimingWheel.new ops →
      (runCallsOn (fun w op => op.onWheel w) TimingWheel.new ops).2 =
        (runCallsOn (fun m op => op.onCalendar m) (Buckets.empty : Calendar Unit) ops).2 := by
  intro claim
  have run := claim [.schedule (2 ^ 64 - 10) 1 (), .popFront (2 ^ 64 - 10)] (by decide +kernel)
  exact absurd run (by decide +kernel)

end Refinement

end Xezim
