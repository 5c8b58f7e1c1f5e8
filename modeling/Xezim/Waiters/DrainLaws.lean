import Mathlib.Data.List.Induction
import Mathlib.Data.List.TakeWhile
import Xezim.Waiters.Drain

/-! What one drain does with every parked waiter, and the order it wakes them in. -/

namespace Xezim.Waiters

/-- What a drain makes of a waiter. -/
inductive Fate (E : Type) where
  /-- It is moved whole to the guarded list, with the guard to be judged later. -/
  | held (guard : E)
  /-- Its continuation is taken, with the rank of the term that fired. -/
  | woken (rank : Nat)
  /-- It stays, with one event less to wait for when a term fired. -/
  | parked (fired : Bool)

namespace State

variable {E K : Type} (st : State E)

/-- A term of a waiter fires: its signal moved, its guard holds and its value changed. -/
def fires (w : EventWaiter E K) (t : Term E) : Bool := st.termFires t && (st.guardOk w t && st.valueOk w t)

/-- The fate of a waiter, read off its first firing term. -/
def fate (w : EventWaiter E K) : Fate E :=
  match w.terms.find? (st.fires w) with
  | none => .parked false
  | some t =>
    match t.sid.iff.filter fun _ => w.isClocking with
    | some g => .held g
    | none => if w.remainingEvents ≤ 1 then .woken t.sid.wakeRank else .parked true

/-- The waiter as it is parked again. -/
def rearmed (w : EventWaiter E K) : EventWaiter E K :=
  let (moved, counted) := st.scanTerms w false w.terms
  let w := if counted.isSome then { w with remainingEvents := w.remainingEvents - 1 } else w
  let w := { w with terms := w.terms.map st.refresh }
  if moved && w.valueCtx.isSome then st.rebaseValueTerms w else w

/-- The waiters that stay, as they are parked again. -/
def stay (w : EventWaiter E K) : Option (EventWaiter E K) :=
  match st.fate w with
  | .parked _ => some (st.rearmed w)
  | _ => none

/-- The waiters of a clocking event whose guard is judged later. -/
def hold (w : EventWaiter E K) : Option (EventWaiter E K × E) :=
  match st.fate w with
  | .held g => some (w, g)
  | _ => none

/-- The continuations of clocking events taken. -/
def wakeClocking (w : EventWaiter E K) : Option (Nat × K) :=
  match st.fate w with
  | .woken _ => if w.isClocking then some (w.pid, w.continuation) else none
  | _ => none

/-- The other continuations taken, each with its rank. -/
def wake (w : EventWaiter E K) : Option (Nat × (Nat × K)) :=
  match st.fate w with
  | .woken rank => if w.isClocking then none else some (rank, (w.pid, w.continuation))
  | _ => none

/-- The scan stops at the first firing term. -/
theorem scanTerms_counted (w : EventWaiter E K) (moved : Bool) (terms : List (Term E)) :
    (st.scanTerms w moved terms).2 = terms.find? (st.fires w) := by
  induction terms generalizing moved with
  | nil => rfl
  | cons t terms ih =>
    rw [scanTerms, List.find?_cons]
    cases signal : st.termFires t <;> cases qualified : st.guardOk w t && st.valueOk w t <;>
      simp [fires, signal, qualified, ih]

end State

variable {E K : Type}

/-- The ranks pushed so far: none while every wakeup has rank zero, one a continuation afterwards. -/
def RanksAligned (ranks : List Nat) (fired : List (Nat × (Nat × K))) : Prop :=
  ranks = [] ∧ (∀ p ∈ fired, p.1 = 0) ∨ ranks = fired.map Prod.fst

/-- The ranks one short of a continuation are filled up with zeros. -/
theorem resize_aligned {ranks : List Nat} {fired : List (Nat × (Nat × K))} (aligned : RanksAligned ranks fired) :
    resize ranks fired.length = fired.map Prod.fst := by
  rcases aligned with ⟨rfl, zero⟩ | rfl
  · -- No rank was kept yet, so every continuation so far has rank zero.
    have same : fired.map Prod.fst = List.replicate fired.length 0 := by
      refine List.eq_replicate_iff.mpr ⟨List.length_map _, ?_⟩
      intro rank listed
      obtain ⟨p, inFired, rfl⟩ := List.mem_map.mp listed
      exact zero p inFired
    simp [resize, same]
  · rw [resize, List.take_of_length_le (by simp)]
    simp

/-- The alignment survives one more continuation. -/
theorem RanksAligned.push {ranks : List Nat} {fired : List (Nat × (Nat × K))} (aligned : RanksAligned ranks fired)
    (rank : Nat) (c : Nat × K) :
    RanksAligned (if rank ≠ 0 ∨ ranks ≠ [] then resize ranks fired.length ++ [rank] else ranks)
      (fired ++ [(rank, c)]) := by
  by_cases kept : rank ≠ 0 ∨ ranks ≠ []
  · -- From the first nonzero rank on, each continuation has its own.
    rw [if_pos kept, resize_aligned aligned]
    exact .inr (by simp)
  · -- Until then there is nothing but zeros.
    obtain ⟨rfl, rfl⟩ : rank = 0 ∧ ranks = [] := by simpa using kept
    refine .inl ⟨by simp, ?_⟩
    have zero : ∀ p ∈ fired, p.1 = 0 := by
      rcases aligned with ⟨_, zero⟩ | none
      · exact zero
      · intro p inFired
        have empty : fired = [] := by simpa using none
        simp [empty] at inFired
    intro p listed
    rcases List.mem_append.mp listed with before | last
    · exact zero p before
    · simp_all

/-- The drain has gone through `ws`, from the two lists kept for later as they were. -/
structure Drained (st : State E) (clocking : List (Nat × K)) (guarded : List (EventWaiter E K × E))
    (ws : List (EventWaiter E K)) (d : Drain E K) : Prop where
  stay : d.eventWaiters = ws.filterMap st.stay
  woken : d.triggeredConts = (ws.filterMap st.wake).map Prod.snd
  clocking : d.deferredClockingConts = clocking ++ ws.filterMap st.wakeClocking
  guarded : d.deferredClockingGuarded = guarded ++ ws.filterMap st.hold
  ranks : RanksAligned d.ranks (ws.filterMap st.wake)

/-- One waiter more. -/
theorem Drained.step {st : State E} {clocking : List (Nat × K)} {guarded : List (EventWaiter E K × E)}
    {ws : List (EventWaiter E K)} {d : Drain E K} (drained : Drained st clocking guarded ws d)
    (w : EventWaiter E K) : Drained st clocking guarded (ws ++ [w]) (st.drainOne d w) := by
  have scan := st.scanTerms_counted w false w.terms
  -- The cases are those of the fate of the waiter.
  rcases found : w.terms.find? (st.fires w) with _ | t
  · -- No term fired.
    have fate : st.fate w = .parked false := by simp [State.fate, found]
    have one : st.drainOne d w = { d with eventWaiters := d.eventWaiters ++ [st.rearmed w] } := by
      simp [State.drainOne, State.rearmed, scan, found]
    rw [one]
    constructor <;>
      simp [State.stay, State.wake, State.wakeClocking, State.hold, fate, drained.stay, drained.woken,
        drained.clocking, drained.guarded, drained.ranks]
  · rcases held : t.sid.iff.filter fun _ => w.isClocking with _ | g
    · by_cases last : w.remainingEvents ≤ 1
      · have fate : st.fate w = .woken t.sid.wakeRank := by simp [State.fate, found, held, last]
        cases clocked : w.isClocking with
        | true =>
          -- A clocking event is kept for the Reactive region.
          have one : st.drainOne d w =
              { d with deferredClockingConts := d.deferredClockingConts ++ [(w.pid, w.continuation)] } := by
            rw [clocked] at held
            simp [State.drainOne, scan, found, held, last, clocked]
          rw [one]
          constructor <;>
            simp [State.stay, State.wake, State.wakeClocking, State.hold, fate, clocked, drained.stay,
              drained.woken, drained.clocking, drained.guarded, drained.ranks]
        | false =>
          -- Any other joins the wakeups, and its rank the ranks.
          have count : d.triggeredConts.length = (ws.filterMap st.wake).length := by rw [drained.woken, List.length_map]
          have one : st.drainOne d w =
              { d with
                ranks := if t.sid.wakeRank ≠ 0 ∨ d.ranks ≠ [] then
                  resize d.ranks (ws.filterMap st.wake).length ++ [t.sid.wakeRank] else d.ranks
                triggeredConts := d.triggeredConts ++ [(w.pid, w.continuation)] } := by
            simp [State.drainOne, scan, found, last, clocked, count]
          rw [one]
          have aligned := drained.ranks.push t.sid.wakeRank (w.pid, w.continuation)
          constructor <;>
            simp [State.stay, State.wake, State.wakeClocking, State.hold, fate, clocked, drained.stay,
              drained.woken, drained.clocking, drained.guarded]
          simpa using aligned
      · -- It waits for more events.
        have fate : st.fate w = .parked true := by simp [State.fate, found, held, last]
        have one : st.drainOne d w = { d with eventWaiters := d.eventWaiters ++ [st.rearmed w] } := by
          simp [State.drainOne, State.rearmed, scan, found, held, last]
        rw [one]
        constructor <;>
          simp [State.stay, State.wake, State.wakeClocking, State.hold, fate, drained.stay, drained.woken,
            drained.clocking, drained.guarded, drained.ranks]
    · -- The guard of a clocking event is held, whatever the count.
      have fate : st.fate w = .held g := by simp [State.fate, found, held]
      have one : st.drainOne d w =
          { d with deferredClockingGuarded := d.deferredClockingGuarded ++ [(w, g)] } := by
        simp [State.drainOne, scan, found, held]
      rw [one]
      constructor <;>
        simp [State.stay, State.wake, State.wakeClocking, State.hold, fate, drained.stay, drained.woken,
          drained.clocking, drained.guarded, drained.ranks]

/-- The whole pass. -/
theorem drained_foldl (st : State E) (clocking : List (Nat × K)) (guarded : List (EventWaiter E K × E))
    (ws : List (EventWaiter E K)) :
    Drained st clocking guarded ws (ws.foldl st.drainOne ⟨[], [], [], clocking, guarded⟩) := by
  induction ws using List.reverseRecOn with
  | nil => exact ⟨rfl, rfl, by simp, by simp, .inr rfl⟩
  | append_singleton ws w ih =>
    rw [List.foldl_append]
    exact ih.step w

/-- Sorting by a key leaves the entries of one key in their order. -/
theorem filter_insertionSort {α : Type} (key : α → Nat) (l : List α) (k : Nat) :
    (l.insertionSort fun a b => key a ≤ key b).filter (fun a => key a = k) = l.filter fun a => key a = k := by
  have : Std.Total fun a b : α => key a ≤ key b := ⟨fun a b => Nat.le_total (key a) (key b)⟩
  have : IsTrans α fun a b => key a ≤ key b := ⟨fun _ _ _ => Nat.le_trans⟩
  -- The entries of one key are in order already, so they are a sublist of the sorted list.
  have inOrder : (l.filter fun a => key a = k).Pairwise fun a b => key a ≤ key b := by
    refine List.pairwise_of_forall_mem_list ?_
    intro a inA b inB
    have atA : key a = k := by simpa using (List.mem_filter.mp inA).2
    have atB : key b = k := by simpa using (List.mem_filter.mp inB).2
    omega
  have within := (List.sublist_insertionSort inOrder List.filter_sublist).filter fun a => key a = k
  -- Both filters keep as many.
  have count := ((List.perm_insertionSort (fun a b => key a ≤ key b) l).filter fun a => key a = k).length_eq
  rw [List.filter_filter] at within
  simp only [Bool.and_self] at within
  exact (within.eq_of_length count.symm).symm

/-- A list of wakeups is ordered as a drain orders it: by rank, and within one rank the last armed first. -/
structure WakeOrder (fired ordered : List (Nat × (Nat × K))) : Prop where
  perm : ordered.Perm fired
  byRank : ordered.Pairwise fun p q => p.1 ≤ q.1
  lastFirst : ∀ rank, ordered.filter (fun p => p.1 = rank) = (fired.filter fun p => p.1 = rank).reverse

/-- Wakeups of one rank are in order once they are reversed. -/
theorem WakeOrder.reverse {fired : List (Nat × (Nat × K))} {rank : Nat} (same : ∀ p ∈ fired, p.1 = rank) :
    WakeOrder fired fired.reverse where
  perm := fired.reverse_perm
  byRank := by
    refine List.pairwise_of_forall_mem_list ?_
    intro p inP q inQ
    have atP := same p (List.mem_reverse.mp inP)
    have atQ := same q (List.mem_reverse.mp inQ)
    omega
  lastFirst rank := by rw [List.filter_reverse]

/-- The reversed wakeups sorted by rank. -/
theorem WakeOrder.sort (fired : List (Nat × (Nat × K))) :
    WakeOrder fired (fired.reverse.insertionSort fun p q => p.1 ≤ q.1) where
  perm := (List.perm_insertionSort _ _).trans fired.reverse_perm
  byRank := by
    have : Std.Total fun p q : Nat × (Nat × K) => p.1 ≤ q.1 := ⟨fun p q => Nat.le_total p.1 q.1⟩
    have : IsTrans (Nat × (Nat × K)) fun p q => p.1 ≤ q.1 := ⟨fun _ _ _ => Nat.le_trans⟩
    exact List.pairwise_insertionSort _ _
  lastFirst rank := by rw [filter_insertionSort Prod.fst, List.filter_reverse]

/-- The ranks of the continuations, beside them, are the wakeups. -/
theorem zip_map_fst_snd (fired : List (Nat × (Nat × K))) : (fired.map Prod.fst).zip (fired.map Prod.snd) = fired := by
  induction fired with
  | nil => rfl
  | cons p fired ih => simp [ih]

/-- Ranks that are all equal to the first. -/
theorem ranks_same {fired : List (Nat × (Nat × K))}
    (same : ¬ (1 < (fired.map Prod.fst).length ∧
      (fired.map Prod.fst).any fun r => r ≠ (fired.map Prod.fst).headD 0)) :
    ∀ p ∈ fired, p.1 = (fired.map Prod.fst).headD 0 := by
  intro p inFired
  by_cases many : 1 < (fired.map Prod.fst).length
  · -- More than one: the test found no different rank.
    by_contra differs
    exact same ⟨many, List.any_eq_true.mpr ⟨p.1, List.mem_map_of_mem inFired, by simpa using differs⟩⟩
  · -- At most one, which is the first.
    match fired with
    | [] => simp at inFired
    | [q] =>
      obtain rfl : p = q := by simpa using inFired
      rfl
    | _ :: _ :: _ => simp at many

/-- The order in which aligned ranks put the reversed continuations. -/
theorem wakeOrder_ordered {fired : List (Nat × (Nat × K))} {ranks : List Nat} (aligned : RanksAligned ranks fired) :
    ∃ ordered, WakeOrder fired ordered ∧
      (if ranks = [] then (fired.map Prod.snd).reverse else orderWakeupsByRank (fired.map Prod.snd).reverse ranks) =
        ordered.map Prod.snd := by
  rcases aligned with ⟨rfl, zero⟩ | rfl
  · -- Every rank is zero and was never kept.
    exact ⟨fired.reverse, .reverse zero, by simp⟩
  · by_cases differ : 1 < (fired.map Prod.fst).length ∧
        (fired.map Prod.fst).any fun r => r ≠ (fired.map Prod.fst).headD 0
    · -- Two different ranks: the wakeups are sorted.
      refine ⟨_, .sort fired, ?_⟩
      have some : ¬ fired.map Prod.fst = [] := by
        intro none
        rw [none] at differ
        simp at differ
      have paired : (fired.map Prod.fst).reverse.zip (fired.map Prod.snd).reverse = fired.reverse := by
        rw [← List.map_reverse, ← List.map_reverse, zip_map_fst_snd]
      rw [if_neg some, orderWakeupsByRank, if_pos differ, paired]
    · -- One rank throughout: the reversed order is the one asked for.
      refine ⟨fired.reverse, .reverse (ranks_same differ), ?_⟩
      rw [orderWakeupsByRank, if_neg differ]
      simp

namespace State

variable (st : State E)

/-- Cells are only added after the other terms. -/
theorem addCells_eq_append (src : SensitivityId E) (e : E) (terms : List (SensitivityId E)) (cells : List Nat) :
    ∃ added, st.addCells src e terms cells = terms ++ added := by
  induction cells generalizing terms with
  | nil => exact ⟨[], by simp [addCells]⟩
  | cons id cells ih =>
    rw [addCells, List.foldl_cons, ← addCells]
    split
    · exact ih terms
    · obtain ⟨added, eq⟩ := ih (terms ++ [⟨id, src.edge, src.iff, some e, src.wakeRank, true⟩])
      exact ⟨_, by rw [eq, List.append_assoc]⟩

/-- The terms that are no cells come first and in their order. -/
theorem resolveCellTerms_eq_append (hint : Option String) (terms : List (SensitivityId E)) :
    ∃ added, st.resolveCellTerms hint terms = (terms.filter fun t => !t.cell) ++ added := by
  rw [resolveCellTerms]
  generalize (terms.filter fun t => !t.cell) = fixed
  induction st.cellSources [] terms generalizing fixed with
  | nil => exact ⟨[], by simp⟩
  | cons src sources ih =>
    rw [List.foldl_cons]
    split
    · exact ih fixed
    · rename_i e _
      obtain ⟨first, eq⟩ := st.addCells_eq_append src e fixed (st.collectSelectedCells hint e)
      obtain ⟨others, eq'⟩ := ih (fixed ++ first)
      exact ⟨first ++ others, by rw [eq, eq', List.append_assoc]⟩

/-- A term compares its signal with the value it has now. -/
def Current (t : Term E) : Prop :=
  t.capturedPrev = st.termRawBits t.sid.signalId ∧
    ∀ v, st.termWideValue t.sid.signalId = some v → t.capturedPrevWide = some v

theorem refresh_current (t : Term E) : st.Current (st.refresh t) := by
  refine ⟨rfl, ?_⟩
  intro v wide
  have wide' : st.termWideValue (st.refresh t).sid.signalId = some v := wide
  simp only [refresh] at wide' ⊢
  rw [wide', Option.some_or]

theorem arm_current (sid : SensitivityId E) : st.Current (st.arm sid) := ⟨rfl, fun _ wide => wide⟩

/-- The leading terms that are no cells are kept by the lookup of the cells. -/
theorem take_resolveCellTerms (hint : Option String) (terms : List (Term E)) :
    (st.resolveCellTerms hint (terms.map Term.sid)).take (terms.takeWhile fun t => !t.sid.cell).length =
      (terms.takeWhile fun t => !t.sid.cell).map Term.sid := by
  obtain ⟨added, eq⟩ := st.resolveCellTerms_eq_append hint (terms.map Term.sid)
  -- None of the leading terms is filtered out.
  have lead : (terms.map Term.sid).filter (fun t => !t.cell) =
      (terms.takeWhile fun t => !t.sid.cell).map Term.sid ++
        ((terms.dropWhile fun t => !t.sid.cell).map Term.sid).filter fun t => !t.cell := by
    conv_lhs => rw [← List.takeWhile_append_dropWhile (p := fun t => !t.sid.cell) (l := terms)]
    rw [List.map_append, List.filter_append]
    congr 1
    refine List.filter_eq_self.mpr ?_
    intro sid listed
    obtain ⟨t, inLead, rfl⟩ := List.mem_map.mp listed
    exact List.mem_takeWhile_imp (p := fun t : Term E => !t.sid.cell) inLead
  rw [eq, lead, List.append_assoc, List.take_left' (by simp)]

/-- Cells looked up again start from the current values, and the others keep theirs. -/
theorem rebaseCells_current (hint : Option String) {terms : List (Term E)} (current : ∀ t ∈ terms, st.Current t) :
    ∀ t ∈ st.rebaseCells hint terms, st.Current t := by
  intro t listed
  rw [rebaseCells] at listed
  rcases List.mem_append.mp listed with kept | added
  · rw [take_resolveCellTerms] at kept
    have prefix_eq : terms.take (terms.takeWhile fun t => !t.sid.cell).length =
        terms.takeWhile fun t => !t.sid.cell := by
      conv_lhs => rw [← List.takeWhile_append_dropWhile (p := fun t => !t.sid.cell) (l := terms)]
      rw [List.take_left' (by simp)]
    rw [prefix_eq] at kept
    -- The term of the same position is the same term.
    have same : List.zipWith (fun (t : Term E) sid => { t with sid }) (terms.takeWhile fun t => !t.sid.cell)
        ((terms.takeWhile fun t => !t.sid.cell).map Term.sid) = terms.takeWhile fun t => !t.sid.cell := by
      rw [List.zipWith_map_right, List.zipWith_self]
      exact List.map_id _
    rw [same] at kept
    exact current t (List.takeWhile_subset _ kept)
  · obtain ⟨sid, _, rfl⟩ := List.mem_map.mp added
    exact st.arm_current sid

/-- The values of the expressions leave the rest of the terms alone. -/
theorem rebaseValues_current (hint : Option String) (last : Option (Nat × Value)) {terms : List (Term E)}
    (current : ∀ t ∈ terms, st.Current t) : ∀ t ∈ st.rebaseValues hint last terms, st.Current t := by
  induction terms generalizing last with
  | nil => simp [rebaseValues]
  | cons t terms ih =>
    have here : st.Current t := current t List.mem_cons_self
    have others : ∀ last, ∀ s ∈ st.rebaseValues hint last terms, st.Current s :=
      fun last => ih last fun s inTerms => current s (List.mem_cons_of_mem t inTerms)
    intro s listed
    rw [rebaseValues] at listed
    -- In each case the head is the term but for the value, and the tail is by induction.
    split at listed
    · rcases List.mem_cons.mp listed with rfl | listed
      · exact here
      · exact others _ s listed
    · split at listed
      · split at listed
        · rcases List.mem_cons.mp listed with rfl | listed
          · exact here
          · exact others _ s listed
        · rcases List.mem_cons.mp listed with rfl | listed
          · exact here
          · exact others _ s listed
      · rcases List.mem_cons.mp listed with rfl | listed
        · exact here
        · exact others _ s listed

/-- A waiter parked again is the same one, one event nearer when a term fired, with the current values. -/
structure Rearmed (w w' : EventWaiter E K) : Prop where
  pid : w'.pid = w.pid
  parkedTime : w'.parkedTime = w.parkedTime
  continuation : w'.continuation = w.continuation
  isClocking : w'.isClocking = w.isClocking
  valueCtx : w'.valueCtx = w.valueCtx
  remainingEvents : w'.remainingEvents =
    if (w.terms.find? (st.fires w)).isSome then w.remainingEvents - 1 else w.remainingEvents
  current : ∀ t ∈ w'.terms, st.Current t

theorem rearmed_spec (w : EventWaiter E K) : st.Rearmed w (st.rearmed w) := by
  have refreshed : ∀ t ∈ w.terms.map st.refresh, st.Current t := by
    intro t listed
    obtain ⟨s, _, rfl⟩ := List.mem_map.mp listed
    exact st.refresh_current s
  -- The waiter before the values of the expressions are taken.
  obtain ⟨counted, isCounted⟩ : ∃ counted : EventWaiter E K, counted =
      if (st.scanTerms w false w.terms).2.isSome then { w with remainingEvents := w.remainingEvents - 1 } else w :=
    ⟨_, rfl⟩
  obtain ⟨base, isBase⟩ : ∃ base : EventWaiter E K, base =
      { counted with terms := counted.terms.map st.refresh } := ⟨_, rfl⟩
  have eq : st.rearmed w =
      if (st.scanTerms w false w.terms).1 && base.valueCtx.isSome then st.rebaseValueTerms base else base := by
    subst isBase isCounted
    rfl
  have ofBase : st.Rearmed w base := by
    rw [st.scanTerms_counted] at isCounted
    subst isBase isCounted
    split <;> rename_i fired <;> refine ⟨rfl, rfl, rfl, rfl, rfl, ?_, refreshed⟩ <;> simp [fired]
  rw [eq]
  split
  · -- The expressions are evaluated again.
    refine ⟨ofBase.pid, ofBase.parkedTime, ofBase.continuation, ofBase.isClocking, ofBase.valueCtx,
      ofBase.remainingEvents, ?_⟩
    refine st.rebaseValues_current (st.hint base) none ?_
    split
    · exact st.rebaseCells_current (st.hint base) ofBase.current
    · exact ofBase.current
  · exact ofBase

end State

/-- A drain sends every waiter to exactly one place, the parked ones armed from the current values and in
their order, and wakes the others by rank, the last armed first within one. -/
theorem drain_partitions (st : State E) (ws : List (EventWaiter E K)) (clocking : List (Nat × K))
    (guarded : List (EventWaiter E K × E)) :
    (drainTriggeredEventWaiters st ws clocking guarded).2.eventWaiters = ws.filterMap st.stay ∧
    (∀ w ∈ ws, st.Rearmed w (st.rearmed w)) ∧
    (drainTriggeredEventWaiters st ws clocking guarded).2.deferredClockingConts =
      clocking ++ ws.filterMap st.wakeClocking ∧
    (drainTriggeredEventWaiters st ws clocking guarded).2.deferredClockingGuarded =
      guarded ++ ws.filterMap st.hold ∧
    ∃ ordered, WakeOrder (ws.filterMap st.wake) ordered ∧
      (drainTriggeredEventWaiters st ws clocking guarded).1 = ordered.map Prod.snd := by
  have drained := drained_foldl st clocking guarded ws
  obtain ⟨ordered, order, eq⟩ := wakeOrder_ordered drained.ranks
  refine ⟨drained.stay, fun w _ => st.rearmed_spec w, drained.clocking, drained.guarded, ordered, order, ?_⟩
  rw [← eq, ← drained.woken]
  rfl

/-- A clock that has just risen, signal 0 of one bit; its guard evaluates to zero. -/
def risenClock : State Unit where
  isPackedId _ := false
  packedRaw _ := (0, 0)
  signalTable _ := ⟨1, 1, 0, false, false, false⟩
  signalWidth _ := 1
  nameResolveHint := none
  parkedContext _ := false
  processContextIsDefault := true
  evalExpr _ _ := ⟨1, 0, 0, false, false, false⟩
  isTrue v := lsbOne v.planes
  evalWaiterCondition _ _ _ := false
  span _ := 0
  exprSelectsArrayCell _ := false
  collectSelectedCells _ _ := []

/-- A process that waits for two events of a clocking block under a guard. -/
def twoGuardedEvents : EventWaiter Unit Nat where
  pid := 7
  parkedTime := 0
  terms := [⟨⟨0, .posedge, some (), none, 0, false⟩, (0, 0), none, (0, 0), none⟩]
  continuation := 3
  remainingEvents := 2
  isClocking := true
  valueCtx := none

/-- It does not stay parked after the first event, although it waits for a second. -/
theorem twoGuardedEvents_not_parked :
    ¬ ∀ w ∈ [twoGuardedEvents], ¬ (w.terms.any (risenClock.fires w) ∧ w.remainingEvents ≤ 1) →
      ∃ w' ∈ (drainTriggeredEventWaiters risenClock [twoGuardedEvents] [] []).2.eventWaiters, w'.pid = w.pid := by
  intro claim
  have waits : ¬ (twoGuardedEvents.terms.any (risenClock.fires twoGuardedEvents) ∧
      twoGuardedEvents.remainingEvents ≤ 1) := by decide
  obtain ⟨w', parked, _⟩ := claim twoGuardedEvents List.mem_cons_self waits
  have none : (drainTriggeredEventWaiters risenClock [twoGuardedEvents] [] []).2.eventWaiters = [] := by rfl
  rw [none] at parked
  exact List.not_mem_nil parked

end Xezim.Waiters
