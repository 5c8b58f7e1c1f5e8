import Xezim.Waiters.InstanceEvents

/-! The indexed waiters answer every call as a list of waiters in parking order does. -/

namespace Xezim.Waiters

open Function Postings

variable {γ : Type}

namespace InstanceEventWaiters

/-- The indexes list the live entries, apart from those of some events and processes that are no longer listed. -/
structure IndexesBut (keys : EventKey → Prop) (pids : Nat → Prop) (c : InstanceEventWaiters γ) : Prop where
  fresh : ∀ seq, c.next ≤ seq → c.entries seq = none
  byKey : ∀ key, ¬ keys key → ∀ seq, seq ∈ under c.byKey key ↔ ∃ w, c.entries seq = some w ∧ key ∈ w.keysOf
  byPid : ∀ pid, ¬ pids pid → ∀ seq, seq ∈ (c.byPid pid).getD [] ↔ ∃ w, c.entries seq = some w ∧ w.pid = pid
  keysFilled : Filled c.byKey
  pidsFilled : ∀ pid, c.byPid pid ≠ some []
  pidsOnce : ∀ pid, ((c.byPid pid).getD []).Nodup
  keysGone : ∀ key, keys key → c.byKey key = none
  pidsGone : ∀ pid, pids pid → c.byPid pid = none

variable {c : InstanceEventWaiters γ} {keys : EventKey → Prop} {pids : Nat → Prop}

/-- The entries without some of them. -/
def dropping (entries : Nat → Option (InstanceEventWaiter γ)) (seqs : List Nat) :
    Nat → Option (InstanceEventWaiter γ) := fun seq => if seq ∈ seqs then none else entries seq

/-- Dropping one entry after the other. -/
theorem dropping_cons (entries : Nat → Option (InstanceEventWaiter γ)) (seq : Nat) (rest : List Nat) :
    dropping (update entries seq none) rest = dropping entries (seq :: rest) := by
  funext s
  unfold dropping
  by_cases here : s = seq
  · subst here
    simp
  · simp [here]

/-- An entry among those that one was removed from. -/
theorem removed_iff {entries : Nat → Option (InstanceEventWaiter γ)} {seq s : Nat} {P : InstanceEventWaiter γ → Prop} :
    (∃ w, update entries seq none s = some w ∧ P w) ↔ s ≠ seq ∧ ∃ w, entries s = some w ∧ P w := by
  by_cases here : s = seq
  · subst here
    simp
  · simp [here]

/-- The numbers under each event once an entry was removed and withdrawn from all its events. -/
theorem IndexesBut.withdrawn (ok : IndexesBut keys pids c) {seq : Nat} {w : InstanceEventWaiter γ}
    (here : c.entries seq = some w) {key : EventKey} (listed : ¬ keys key) (s : Nat) :
    s ∈ under (w.keysOf.foldl (withdraw seq) c.byKey) key ↔
      ∃ w', update c.entries seq none s = some w' ∧ key ∈ w'.keysOf := by
  rw [under_withdraws, removed_iff, ← ok.byKey key listed]
  -- Only under the entry's own events does the withdrawal take anything out.
  by_cases own : key ∈ w.keysOf
  · rw [if_pos own, Finset.mem_erase]
  · rw [if_neg own]
    refine ⟨fun member => ⟨?_, member⟩, And.right⟩
    -- Under any other event the removed number was not listed in the first place.
    rintro rfl
    obtain ⟨w', same, awaited⟩ := (ok.byKey key listed s).mp member
    rw [here] at same
    exact own (Option.some.inj same ▸ awaited)

/-- An absent event stays absent when entries are withdrawn. -/
theorem IndexesBut.withdrawn_gone (ok : IndexesBut keys pids c) (seq : Nat) (ks : List EventKey) {key : EventKey}
    (gone : keys key) : ks.foldl (withdraw seq) c.byKey key = none :=
  foldl_keeps (P := fun m => m key = none) (fun _ _ => withdraw_none) ks (ok.keysGone key gone)

/-- Removing an entry of a process that is no longer listed keeps the indexes. -/
theorem IndexesBut.dropSeq (ok : IndexesBut keys pids c) {seq : Nat} {w : InstanceEventWaiter γ}
    (here : c.entries seq = some w) (gone : pids w.pid) : IndexesBut keys pids (c.dropSeq seq) := by
  -- The entry is live, so this is the branch that withdraws it.
  have dropped : c.dropSeq seq =
      { c with entries := update c.entries seq none, byKey := w.keysOf.foldl (withdraw seq) c.byKey } := by
    rw [InstanceEventWaiters.dropSeq, here]
  rw [dropped]
  refine ⟨fun s above => ?_, fun key listed s => ok.withdrawn here listed s, fun pid listed s => ?_,
    foldl_keeps (fun _ _ => Filled.withdraw) _ ok.keysFilled, ok.pidsFilled, ok.pidsOnce,
    fun key gone => ok.withdrawn_gone seq _ gone, ok.pidsGone⟩
  · by_cases same : s = seq
    · simp [same]
    · simpa [same] using ok.fresh s above
  · show s ∈ (c.byPid pid).getD [] ↔ ∃ w', update c.entries seq none s = some w' ∧ w'.pid = pid
    -- The process list keeps the number, but no listed process owned it.
    rw [removed_iff, ← ok.byPid pid listed]
    refine ⟨fun member => ⟨?_, member⟩, And.right⟩
    rintro rfl
    obtain ⟨w', same, owned⟩ := (ok.byPid pid listed s).mp member
    rw [here] at same
    obtain rfl := Option.some.inj same
    exact listed (owned ▸ gone)

/-- The numbers listed for each process once one was unlinked. -/
theorem unlink_byPid (c : InstanceEventWaiters γ) (seq : Nat) (w : InstanceEventWaiter γ) (pid : Nat) :
    ((c.unlink seq w).byPid pid).getD [] =
      if pid = w.pid then ((c.byPid pid).getD []).filter (· ≠ seq) else (c.byPid pid).getD [] := by
  unfold InstanceEventWaiters.unlink
  by_cases here : pid = w.pid
  · subst here
    cases found : c.byPid w.pid with
    | none => simp [found]
    | some seqs =>
      simp only [update_self, if_true, Option.getD_some]
      -- Once nothing is left, the process is listed no longer.
      generalize seqs.filter (· ≠ seq) = kept
      cases kept <;> rfl
  · cases found : c.byPid w.pid with
    | none => simp [here]
    | some seqs => simp [here]

/-- Unlinking lists no process without an entry. -/
theorem unlink_pidsFilled (filled : ∀ pid, c.byPid pid ≠ some []) (seq : Nat) (w : InstanceEventWaiter γ) (pid : Nat) :
    (c.unlink seq w).byPid pid ≠ some [] := by
  unfold InstanceEventWaiters.unlink
  cases found : c.byPid w.pid with
  | none => simpa [found] using filled pid
  | some seqs =>
    by_cases here : pid = w.pid
    · subst here
      simp only [update_self]
      -- Whatever stays of the list, it is written back only where it is not empty.
      generalize seqs.filter (· ≠ seq) = kept
      cases kept <;> simp
    · simpa [here] using filled pid

/-- Removing an entry and unlinking it keeps the indexes. -/
theorem IndexesBut.unlink (ok : IndexesBut keys pids c) {seq : Nat} {w : InstanceEventWaiter γ}
    (here : c.entries seq = some w) :
    IndexesBut keys pids ({ c with entries := update c.entries seq none }.unlink seq w) := by
  refine ⟨fun s above => ?_, fun key listed s => ok.withdrawn here listed s, fun pid listed s => ?_,
    foldl_keeps (fun _ _ => Filled.withdraw) _ ok.keysFilled, unlink_pidsFilled ok.pidsFilled seq w, fun pid => ?_,
    fun key gone => ok.withdrawn_gone seq _ gone, fun pid gone => ?_⟩
  · show update c.entries seq none s = none
    -- The removed number is dead now, and every other number past the next one was dead before.
    by_cases same : s = seq
    · simp [same]
    · simpa [same] using ok.fresh s above
  · rw [unlink_byPid]
    show _ ↔ ∃ w', update c.entries seq none s = some w' ∧ w'.pid = pid
    rw [removed_iff, ← ok.byPid pid listed]
    -- Only the list of the entry's own process changes.
    by_cases own : pid = w.pid
    · rw [if_pos own, List.mem_filter, and_comm, decide_eq_true_iff]
    · rw [if_neg own]
      refine ⟨fun member => ⟨?_, member⟩, And.right⟩
      rintro rfl
      obtain ⟨w', same, owned⟩ := (ok.byPid pid listed s).mp member
      rw [here] at same
      obtain rfl := Option.some.inj same
      exact own owned.symm
  · rw [unlink_byPid]
    -- Filtering a list without repetitions repeats nothing.
    split
    · exact (ok.pidsOnce pid).filter _
    · exact ok.pidsOnce pid
  · have gone := ok.pidsGone pid gone
    unfold InstanceEventWaiters.unlink
    dsimp only
    cases found : c.byPid w.pid with
    | none => exact gone
    | some seqs =>
      -- A process that is listed nowhere is not the one that was unlinked.
      have other : pid ≠ w.pid := by
        rintro rfl
        rw [gone] at found
        cases found
      simp [other, gone]

/-- Nothing is kept back where no live entry awaits an unlisted event or belongs to an unlisted process. -/
theorem IndexesBut.whole (ok : IndexesBut keys pids c)
    (untouched : ∀ seq w, c.entries seq = some w → (∀ key ∈ w.keysOf, ¬ keys key) ∧ ¬ pids w.pid) : c.Indexes where
  fresh := ok.fresh
  byKey key seq := by
    -- No live entry awaits a struck event, so its empty index is right.
    by_cases listed : keys key
    · rw [under_of_none (ok.keysGone key listed)]
      refine iff_of_false (Finset.notMem_empty seq) ?_
      rintro ⟨w, here, awaited⟩
      exact (untouched seq w here).1 key awaited listed
    · exact ok.byKey key listed seq
  byPid pid seq := by
    -- No live entry belongs to a struck process, so its missing list is right.
    by_cases listed : pids pid
    · rw [ok.pidsGone pid listed]
      refine iff_of_false List.not_mem_nil ?_
      rintro ⟨w, here, rfl⟩
      exact (untouched seq w here).2 listed
    · exact ok.byPid pid listed seq
  keysFilled := ok.keysFilled
  pidsFilled := ok.pidsFilled
  pidsOnce := ok.pidsOnce

/-- The indexes of everything, with some events and processes struck out. -/
theorem Indexes.but (ok : c.Indexes) (key : EventKey) :
    IndexesBut (· = key) (fun _ => False) { c with byKey := update c.byKey key none } where
  fresh := ok.fresh
  byKey key' other seq := by
    show seq ∈ under (update c.byKey key none) key' ↔ _
    -- The other events read the same index as before.
    rw [under, update_of_ne other]
    exact ok.byKey key' seq
  byPid pid _ seq := ok.byPid pid seq
  keysFilled key' := by
    by_cases here : key' = key
    · simp [here]
    · simpa [here] using ok.keysFilled key'
  pidsFilled := ok.pidsFilled
  pidsOnce := ok.pidsOnce
  keysGone key' here := by simp [here]
  pidsGone _ impossible := impossible.elim

/-- The indexes of everything but one process. -/
theorem Indexes.butPid (ok : c.Indexes) (pid : Nat) :
    IndexesBut (fun _ => False) (· = pid) { c with byPid := update c.byPid pid none } where
  fresh := ok.fresh
  byKey key _ seq := ok.byKey key seq
  byPid pid' other seq := by
    show seq ∈ (update c.byPid pid none pid').getD [] ↔ _
    -- The other processes read the same list as before.
    rw [update_of_ne other]
    exact ok.byPid pid' seq
  keysFilled := ok.keysFilled
  pidsFilled pid' := by
    by_cases here : pid' = pid
    · simp [here]
    · simpa [here] using ok.pidsFilled pid'
  pidsOnce pid' := by
    by_cases here : pid' = pid
    · simp [here]
    · simpa [here] using ok.pidsOnce pid'
  keysGone _ impossible := impossible.elim
  pidsGone pid' here := by simp [here]

/-- Taking entries removes and returns them, one after the other. -/
theorem take_fold (seqs : List Nat) (once : seqs.Nodup) (woken : List (Nat × γ)) (ok : IndexesBut keys pids c) :
    let took := seqs.foldl takeSeq (c, woken)
    IndexesBut keys pids took.1 ∧ took.1.next = c.next ∧ took.1.entries = dropping c.entries seqs ∧
      took.2 = woken ++ (seqs.filterMap c.entries).map fun w => (w.pid, w.continuation) := by
  induction seqs generalizing c woken with
  | nil => exact ⟨ok, rfl, by funext s; simp [dropping], by simp⟩
  | cons seq rest ih =>
    obtain ⟨fresh, once'⟩ := List.nodup_cons.mp once
    rw [List.foldl_cons]
    cases here : c.entries seq with
    | none =>
      have skipped : takeSeq (c, woken) seq = (c, woken) := by rw [takeSeq, here]
      obtain ⟨ok', next, entries, taken⟩ := ih once' woken ok
      rw [skipped]
      refine ⟨ok', next, ?_, by rw [taken, List.filterMap_cons_none here]⟩
      rw [entries, ← dropping_cons, ← here, update_eq_self]
    | some w =>
      have taken : takeSeq (c, woken) seq =
          ({ c with entries := update c.entries seq none }.unlink seq w, woken ++ [(w.pid, w.continuation)]) := by
        rw [takeSeq, here]
      rw [taken]
      obtain ⟨ok', next, entries, more⟩ := ih once' (woken ++ [(w.pid, w.continuation)]) (ok.unlink here)
      refine ⟨ok', next, entries.trans (dropping_cons _ _ _), ?_⟩
      -- The entries still to take are not the one that was removed.
      have same : rest.filterMap (update c.entries seq none) = rest.filterMap c.entries := by
        refine List.filterMap_congr fun s member => ?_
        have other : s ≠ seq := fun here => fresh (here ▸ member)
        rw [update_of_ne other]
      rw [more, List.filterMap_cons_some here]
      show _ ++ _ ++ (rest.filterMap (update c.entries seq none)).map _ = _
      rw [same]
      simp

/-- Dropping entries of unlisted processes removes them, one after the other. -/
theorem drop_fold (seqs : List Nat) (ok : IndexesBut keys pids c)
    (owned : ∀ seq ∈ seqs, ∀ w, c.entries seq = some w → pids w.pid) :
    let dropped := seqs.foldl InstanceEventWaiters.dropSeq c
    IndexesBut keys pids dropped ∧ dropped.next = c.next ∧ dropped.entries = dropping c.entries seqs := by
  -- The numbers are dropped in the order of the list, each from what the ones before it left.
  induction seqs generalizing c with
  | nil => exact ⟨ok, rfl, by funext s; simp [dropping]⟩
  | cons seq rest ih =>
    rw [List.foldl_cons]
    cases here : c.entries seq with
    | none =>
      -- A number that is already dead is skipped.
      have skipped : c.dropSeq seq = c := by rw [InstanceEventWaiters.dropSeq, here]
      obtain ⟨ok', next, entries⟩ := ih ok fun s member => owned s (List.mem_cons_of_mem _ member)
      rw [skipped]
      refine ⟨ok', next, ?_⟩
      rw [entries, ← dropping_cons, ← here, update_eq_self]
    | some w =>
      have gone := owned seq List.mem_cons_self w here
      have entries' : (c.dropSeq seq).entries = update c.entries seq none := by rw [InstanceEventWaiters.dropSeq, here]
      have next' : (c.dropSeq seq).next = c.next := by rw [InstanceEventWaiters.dropSeq, here]
      -- What the later numbers belong to is read in the map before the drop.
      obtain ⟨ok', next, entries⟩ := ih (ok.dropSeq here gone) fun s member w' there => by
        rw [entries'] at there
        by_cases same : s = seq
        · simp [same] at there
        · exact owned s (List.mem_cons_of_mem _ member) w' (by simpa [same] using there)
      refine ⟨ok', next.trans next', ?_⟩
      rw [entries, entries', dropping_cons]

/-- The live entries once those that satisfy a test were dropped. -/
theorem filter_parked {n : Nat} {entries : Nat → Option (InstanceEventWaiter γ)} {seqs : List Nat}
    {p : InstanceEventWaiter γ → Bool} (listed : ∀ seq w, entries seq = some w → (seq ∈ seqs ↔ p w = true)) :
    (List.range n).filterMap (dropping entries seqs) =
      ((List.range n).filterMap entries).filter fun w => !p w := by
  rw [List.filter_filterMap]
  -- Number by number, the waiter is left out exactly where its number is listed.
  refine List.filterMap_congr fun seq _ => ?_
  unfold dropping
  cases here : entries seq with
  | none => simp
  | some w =>
    by_cases own : p w = true
    · simp [Option.filter, own, (listed seq w here).mpr own]
    · simp [Option.filter, own, mt (listed seq w here).mp own]

/-- The numbers of a set below a bound, in order. -/
theorem sort_below {set : Finset Nat} {n : Nat} (below : ∀ seq ∈ set, seq < n) :
    set.sort = (List.range n).filter (· ∈ set) := by
  refine set.sortedLT_sort.eq_of_mem_iff ?_ fun seq => ?_
  · exact (List.pairwise_lt_range.filter _).sortedLT
  · rw [Finset.mem_sort, List.mem_filter, List.mem_range, decide_eq_true_iff]
    exact ⟨fun member => ⟨below seq member, member⟩, And.right⟩

/-- The live entries that a test picks by their numbers, in order. -/
theorem filterMap_sort {n : Nat} {entries : Nat → Option (InstanceEventWaiter γ)} {set : Finset Nat}
    {p : InstanceEventWaiter γ → Bool} (below : ∀ seq ∈ set, seq < n)
    (listed : ∀ seq w, entries seq = some w → (seq ∈ set ↔ p w = true)) :
    set.sort.filterMap entries = ((List.range n).filterMap entries).filter p := by
  rw [sort_below below, List.filterMap_filter, List.filter_filterMap]
  -- Number by number, the waiter is kept exactly where its number is listed.
  refine List.filterMap_congr fun seq _ => ?_
  cases here : entries seq with
  | none => simp
  | some w =>
    by_cases own : p w = true
    · simp [Option.filter, own, (listed seq w here).mpr own]
    · simp [Option.filter, own, mt (listed seq w here).mp own]

/-- A waiter is listed under an event exactly where it awaits it. -/
theorem Indexes.listed (ok : c.Indexes) (key : EventKey) {seq : Nat} {w : InstanceEventWaiter γ}
    (here : c.entries seq = some w) : seq ∈ under c.byKey key ↔ key ∈ w.keysOf := by
  rw [ok.byKey key seq, here]
  simp

/-- A number listed under an event is that of a live entry. -/
theorem Indexes.below (ok : c.Indexes) {key : EventKey} {seq : Nat} (member : seq ∈ under c.byKey key) :
    seq < c.next := by
  obtain ⟨w, here, _⟩ := (ok.byKey key seq).mp member
  by_contra above
  rw [ok.fresh seq (Nat.le_of_not_lt above)] at here
  cases here

/-- `take_key` takes the waiters of an event in parking order, and leaves the others. -/
theorem Indexes.takeKey (ok : c.Indexes) (key : EventKey) :
    (c.takeKey key).1.Indexes ∧ (c.takeKey key).1.parked = c.parked.filter (fun w => key ∉ w.keysOf) ∧
      (c.takeKey key).2 = (c.parked.filter fun w => key ∈ w.keysOf).map fun w => (w.pid, w.continuation) := by
  -- The numbers listed under the event are those of its live waiters.
  have listed (seq : Nat) (w : InstanceEventWaiter γ) (here : c.entries seq = some w) :
      seq ∈ under c.byKey key ↔ decide (key ∈ w.keysOf) = true := by
    rw [decide_eq_true_iff]
    exact ok.listed key here
  cases found : c.byKey key with
  | none =>
    have nobody : ∀ w ∈ c.parked, key ∉ w.keysOf := by
      intro w member
      obtain ⟨seq, _, here⟩ := List.mem_filterMap.mp member
      have absent := listed seq w here
      rw [under_of_none found] at absent
      simpa using absent
    have same : c.takeKey key = (c, []) := by rw [InstanceEventWaiters.takeKey, found]
    rw [same]
    refine ⟨ok, ?_, ?_⟩
    · exact (List.filter_eq_self.mpr fun w member => by simpa using nobody w member).symm
    · rw [List.filter_eq_nil_iff.mpr fun w member => by simpa using nobody w member, List.map_nil]
  | some seqs =>
    have set : under c.byKey key = seqs := by rw [under, found, Option.getD_some]
    have taken : c.takeKey key = seqs.sort.foldl takeSeq ({ c with byKey := update c.byKey key none }, []) := by
      rw [InstanceEventWaiters.takeKey, found]
    obtain ⟨ok', next, entries, woken⟩ := take_fold seqs.sort (seqs.sort_nodup _) [] (ok.but key)
    rw [← taken] at ok' next entries woken
    rw [set] at listed
    have sorted (seq : Nat) (w : InstanceEventWaiter γ) (here : c.entries seq = some w) :
        seq ∈ seqs.sort ↔ decide (key ∈ w.keysOf) = true := by
      rw [Finset.mem_sort]
      exact listed seq w here
    refine ⟨ok'.whole fun seq w here => ⟨?_, id⟩, ?_, ?_⟩
    · rintro key' awaited rfl
      rw [entries, dropping] at here
      split at here
      · cases here
      · rename_i kept
        exact kept ((sorted seq w here).mpr (by simpa using awaited))
    · rw [parked, next, entries]
      have left := filter_parked (n := c.next) sorted
      simp only [decide_not] at left ⊢
      exact left
    · rw [woken, List.nil_append]
      exact congrArg (List.map _) (filterMap_sort (fun seq member => ok.below (set.symm ▸ member)) listed)

/-- `remove_pid` removes the waiters of a process. -/
theorem Indexes.removePid (ok : c.Indexes) (pid : Nat) :
    (c.removePid pid).Indexes ∧ (c.removePid pid).parked = c.parked.filter fun w => w.pid ≠ pid := by
  -- The numbers under the process are those of its live waiters.
  have listed (seq : Nat) (w : InstanceEventWaiter γ) (here : c.entries seq = some w) :
      seq ∈ (c.byPid pid).getD [] ↔ decide (w.pid = pid) = true := by
    rw [ok.byPid pid seq, here, decide_eq_true_iff]
    simp
  cases found : c.byPid pid with
  | none =>
    have same : c.removePid pid = c := by rw [InstanceEventWaiters.removePid, found]
    rw [same]
    -- With no list there is no waiter of the process to remove.
    refine ⟨ok, (List.filter_eq_self.mpr fun w member => ?_).symm⟩
    obtain ⟨seq, _, here⟩ := List.mem_filterMap.mp member
    have absent := listed seq w here
    rw [found] at absent
    simpa using absent
  | some seqs =>
    have dropped : c.removePid pid = seqs.foldl dropSeq { c with byPid := update c.byPid pid none } := by
      rw [InstanceEventWaiters.removePid, found]
    rw [found, Option.getD_some] at listed
    obtain ⟨ok', next, entries⟩ := drop_fold seqs (ok.butPid pid) fun seq member w here => by
      simpa using (listed seq w here).mp member
    rw [← dropped] at ok' next entries
    -- Every waiter of the process went with its number, so nothing is kept back.
    refine ⟨ok'.whole fun seq w here => ⟨fun _ _ => id, ?_⟩, ?_⟩
    · rintro rfl
      rw [entries, dropping] at here
      split at here
      · cases here
      · rename_i kept
        exact kept ((listed seq w here).mpr (by simp))
    · rw [parked, next, entries]
      have left := filter_parked (n := c.next) listed
      simp only [ne_eq, decide_not] at left ⊢
      exact left

/-- `push` parks a waiter behind the others. -/
theorem Indexes.push (ok : c.Indexes) (w : InstanceEventWaiter γ) :
    (c.push w).Indexes ∧ (c.push w).parked = c.parked ++ [w] := by
  have unused := ok.fresh c.next (Nat.le_refl _)
  -- An entry is an old one, or the new one under the next number.
  have entry {P : InstanceEventWaiter γ → Prop} (s : Nat) :
      (∃ w', update c.entries c.next (some w) s = some w' ∧ P w') ↔
        (s = c.next ∧ P w) ∨ ∃ w', c.entries s = some w' ∧ P w' := by
    by_cases here : s = c.next
    · subst here
      simp [unused]
    · simp [here]
  have numbers (pid : Nat) : ((c.push w).byPid pid).getD [] =
      if pid = w.pid then (c.byPid pid).getD [] ++ [c.next] else (c.byPid pid).getD [] := by
    unfold InstanceEventWaiters.push
    by_cases own : pid = w.pid
    · subst own
      simp
    · simp [own]
  refine ⟨⟨fun s above => ?_, fun key s => ?_, fun pid s => ?_, foldl_keeps (fun _ _ => Filled.file) _ ok.keysFilled,
    fun pid => ?_, fun pid => ?_⟩, ?_⟩
  · change c.next + 1 ≤ s at above
    show update c.entries c.next (some w) s = none
    rw [update_of_ne (by omega)]
    exact ok.fresh s (by omega)
  · show s ∈ under (w.keysOf.foldl (file c.next) c.byKey) key ↔ ∃ w', update c.entries c.next (some w) s = some w' ∧ _
    rw [under_files, entry, ← ok.byKey key s]
    by_cases own : key ∈ w.keysOf
    · simp [own]
    · simp [own]
  · show _ ↔ ∃ w', update c.entries c.next (some w) s = some w' ∧ _
    rw [numbers, entry, ← ok.byPid pid s]
    by_cases own : pid = w.pid
    · subst own
      simp [or_comm]
    · simp [own, Ne.symm own]
  · unfold InstanceEventWaiters.push
    by_cases own : pid = w.pid
    · subst own
      simp
    · simpa [own] using ok.pidsFilled pid
  · rw [numbers]
    split
    · refine List.nodup_append.mpr ⟨ok.pidsOnce pid, List.nodup_singleton _, fun s member t new same => ?_⟩
      rw [List.mem_singleton] at new
      obtain ⟨w', here, _⟩ := (ok.byPid pid s).mp member
      rw [same, new, unused] at here
      cases here
    · exact ok.pidsOnce pid
  · show (List.range (c.next + 1)).filterMap (update c.entries c.next (some w)) = _
    rw [List.range_succ, List.filterMap_append]
    congr 1
    · refine List.filterMap_congr fun s member => ?_
      have other : s ≠ c.next := by
        have := List.mem_range.mp member
        omega
      rw [update_of_ne other]
    · simp

/-- The events of a waiter once one of them was replaced. -/
theorem mem_keysOf_replace {w : InstanceEventWaiter γ} {old new : EventKey} (awaited : old ∈ w.keysOf)
    (key : EventKey) :
    key ∈ ({ w with key := w.key.replace old new } : InstanceEventWaiter γ).keysOf ↔
      key = new ∨ (key ≠ old ∧ key ∈ w.keysOf) := by
  obtain ⟨ks, pid, continuation⟩ := w
  cases ks with
  | one k =>
    -- A single event is replaced outright.
    obtain rfl : old = k := by simpa [InstanceEventWaiter.keysOf] using awaited
    simp [InstanceEventWaiter.keysOf, InstanceEventKeys.replace]
  | any ks =>
    -- Among several events, each occurrence of the old one is replaced.
    simp only [InstanceEventWaiter.keysOf, InstanceEventKeys.replace, List.mem_map] at awaited ⊢
    constructor
    · rintro ⟨k, member, rfl⟩
      split
      · exact Or.inl rfl
      · rename_i other
        exact Or.inr ⟨other, member⟩
    · rintro (rfl | ⟨other, member⟩)
      · exact ⟨old, awaited, if_pos rfl⟩
      · exact ⟨key, member, if_neg other⟩

/-- What `rekey` does where the event is awaited. -/
theorem rekey_some {old : EventKey} {seqs : Finset Nat} (found : c.byKey old = some seqs) (new : EventKey) :
    c.rekey old new = { c with
      entries := fun seq =>
        if seq ∈ seqs then (c.entries seq).map fun w => { w with key := w.key.replace old new } else c.entries seq
      byKey := update (update c.byKey old none) new (some (under (update c.byKey old none) new ∪ seqs)) } := by
  rw [InstanceEventWaiters.rekey, found]

/-- The index once an event that is awaited was replaced. -/
theorem rekey_index {old : EventKey} {seqs : Finset Nat} (found : c.byKey old = some seqs) (new : EventKey) :
    (c.rekey old new).byKey =
      update (update c.byKey old none) new (some (under (update c.byKey old none) new ∪ seqs)) := by
  rw [InstanceEventWaiters.rekey, found]

/-- `rekey` replaces the event in every entry that awaits it. -/
theorem Indexes.rekey_entries (ok : c.Indexes) (old new : EventKey) (seq : Nat) :
    (c.rekey old new).entries seq = (c.entries seq).map fun w =>
      if old ∈ w.keysOf then { w with key := w.key.replace old new } else w := by
  -- A waiter is rewritten exactly where its number is listed under the old event.
  cases here : c.entries seq with
  | none =>
    cases found : c.byKey old with
    | none => rw [InstanceEventWaiters.rekey, found, Option.map_none, here]
    | some seqs =>
      rw [rekey_some found]
      simp [here]
  | some w =>
    have listed := ok.listed old here
    cases found : c.byKey old with
    | none =>
      -- The old event has no index, so the waiter does not await it.
      rw [under_of_none found] at listed
      rw [InstanceEventWaiters.rekey, found, here, Option.map_some, if_neg (by simpa using listed)]
    | some seqs =>
      rw [under, found, Option.getD_some] at listed
      rw [rekey_some found]
      by_cases awaited : old ∈ w.keysOf
      · simp [here, awaited, listed.mpr awaited]
      · simp [here, awaited, mt listed.mp awaited]

/-- The numbers under each event once one event was replaced by another. -/
theorem under_rekey {old : EventKey} {seqs : Finset Nat} (found : c.byKey old = some seqs) (new key : EventKey)
    (seq : Nat) : seq ∈ under (c.rekey old new).byKey key ↔
      (key ≠ old ∧ seq ∈ under c.byKey key) ∨ (key = new ∧ seq ∈ seqs) := by
  -- The old index is struck first, and the new one then takes the old one's numbers beside its own.
  have rest (k : EventKey) : seq ∈ under (update c.byKey old none) k ↔ k ≠ old ∧ seq ∈ under c.byKey k := by
    by_cases here : k = old
    · subst here
      simp [under]
    · simp [under, here]
  rw [rekey_index found]
  by_cases here : key = new
  · subst here
    rw [under, update_self, Option.getD_some, Finset.mem_union, rest]
    simp
  · rw [under, update_of_ne here]
    show seq ∈ under (update c.byKey old none) key ↔ _
    rw [rest]
    simp [here]

/-- `rekey` lists every waiter under the events it then awaits. -/
theorem Indexes.rekey_byKey (ok : c.Indexes) {old : EventKey} {seqs : Finset Nat} (found : c.byKey old = some seqs)
    (new key : EventKey) (seq : Nat) : seq ∈ under (c.rekey old new).byKey key ↔
      ∃ w, (c.rekey old new).entries seq = some w ∧ key ∈ w.keysOf := by
  have set : under c.byKey old = seqs := by rw [under, found, Option.getD_some]
  rw [under_rekey found, ok.rekey_entries, ← set]
  cases here : c.entries seq with
  | none =>
    have absent (k : EventKey) : seq ∉ under c.byKey k := by
      rw [ok.byKey k seq, here]
      simp
    simp [absent]
  | some w =>
    rw [ok.listed key here, ok.listed old here]
    simp only [Option.map_some, Option.some.injEq, exists_eq_left']
    by_cases awaited : old ∈ w.keysOf
    · rw [if_pos awaited, mem_keysOf_replace awaited]
      simp [awaited, or_comm]
    · -- A waiter of other events keeps them.
      rw [if_neg awaited]
      have other : key ∈ w.keysOf → key ≠ old := by
        rintro member rfl
        exact awaited member
      simp only [awaited, and_false, or_false]
      exact ⟨And.right, fun member => ⟨other member, member⟩⟩

/-- `rekey` parks the waiters of an event on another one. -/
theorem Indexes.rekey (ok : c.Indexes) (old new : EventKey) :
    (c.rekey old new).Indexes ∧ (c.rekey old new).parked =
      c.parked.map fun w => if old ∈ w.keysOf then { w with key := w.key.replace old new } else w := by
  -- Rekeying rewrites entries and the event index, and leaves the numbering and the process index alone.
  have entry := ok.rekey_entries old new
  have next : (c.rekey old new).next = c.next := by
    unfold InstanceEventWaiters.rekey
    split <;> rfl
  have byPid : (c.rekey old new).byPid = c.byPid := by
    unfold InstanceEventWaiters.rekey
    split <;> rfl
  refine ⟨⟨fun s above => ?_, fun key s => ?_, fun pid s => ?_, fun key => ?_, ?_, ?_⟩, ?_⟩
  · rw [next] at above
    rw [entry, ok.fresh s above, Option.map_none]
  · cases found : c.byKey old with
    | none =>
      have same : c.rekey old new = c := by rw [InstanceEventWaiters.rekey, found]
      rw [same]
      exact ok.byKey key s
    | some seqs => exact ok.rekey_byKey found new key s
  · rw [entry, byPid, ok.byPid pid s]
    cases c.entries s with
    | none => simp
    | some w =>
      simp only [Option.map_some, Option.some.injEq, exists_eq_left']
      split <;> rfl
  · cases found : c.byKey old with
    | none =>
      rw [InstanceEventWaiters.rekey, found]
      exact ok.keysFilled key
    | some seqs =>
      -- An index that is present lists something, so the new event's index lists something too.
      have occupied : seqs ≠ ∅ := fun empty => ok.keysFilled old (by rw [found, empty])
      rw [rekey_index found]
      by_cases here : key = new
      · subst here
        simp [occupied]
      · rw [update_of_ne here]
        by_cases there : key = old
        · simp [there]
        · simpa [there] using ok.keysFilled key
  · rw [byPid]
    exact ok.pidsFilled
  · rw [byPid]
    exact ok.pidsOnce
  · rw [parked, next, parked, List.map_filterMap]
    exact List.filterMap_congr fun seq _ => entry seq

/-- `contains_pid` says whether a process is parked. -/
theorem Indexes.containsPid (ok : c.Indexes) (pid : Nat) :
    c.containsPid pid = c.parked.any fun w => w.pid = pid := by
  rw [Bool.eq_iff_iff, List.any_eq_true]
  simp only [decide_eq_true_iff]
  constructor
  · -- A listed process has a first number, and the number is that of a live waiter of it.
    intro listed
    obtain ⟨seqs, found⟩ := Option.isSome_iff_exists.mp listed
    obtain ⟨seq, rest, rfl⟩ := List.exists_cons_of_ne_nil fun empty => ok.pidsFilled pid (empty ▸ found)
    obtain ⟨w, here, own⟩ := (ok.byPid pid seq).mp (by rw [found]; exact List.mem_cons_self)
    refine ⟨w, List.mem_filterMap.mpr ⟨seq, List.mem_range.mpr ?_, here⟩, own⟩
    -- A live number is one that was handed out.
    by_contra above
    rw [ok.fresh seq (Nat.le_of_not_lt above)] at here
    cases here
  · -- A parked waiter's number is in the list of its process, so that list is there.
    rintro ⟨w, member, own⟩
    obtain ⟨seq, _, here⟩ := List.mem_filterMap.mp member
    have listed := (ok.byPid pid seq).mpr ⟨w, here, own⟩
    unfold InstanceEventWaiters.containsPid
    cases found : c.byPid pid with
    | none =>
      rw [found] at listed
      exact absurd listed List.not_mem_nil
    | some seqs => rfl

/-- `remove_pids` removes the waiters of several processes. -/
theorem Indexes.removePids (ok : c.Indexes) (pids : List Nat) :
    (c.removePids pids).Indexes ∧ (c.removePids pids).parked = c.parked.filter fun w => w.pid ∉ pids := by
  induction pids generalizing c with
  | nil => exact ⟨ok, by simp [InstanceEventWaiters.removePids]⟩
  | cons pid rest ih =>
    obtain ⟨ok', parked⟩ := ok.removePid pid
    obtain ⟨ok'', parked'⟩ := ih ok'
    -- The two filters are one.
    refine ⟨ok'', ?_⟩
    rw [InstanceEventWaiters.removePids, List.foldl_cons]
    rw [InstanceEventWaiters.removePids] at parked'
    rw [parked', parked, List.filter_filter]
    refine List.filter_congr fun w _ => ?_
    simp [Bool.and_comm]

/-- Nothing is indexed while nobody is parked. -/
theorem indexes_default : (default : InstanceEventWaiters γ).Indexes where
  fresh _ _ := rfl
  byKey _ _ := by simp [default, under]
  byPid _ _ := by simp [default]
  keysFilled _ := by simp [default]
  pidsFilled _ := by simp [default]
  pidsOnce _ := by simp [default]

end InstanceEventWaiters

/-- A call keeps the indexes, and answers as the list of waiters does. -/
theorem ParkOp.step_refines {c : InstanceEventWaiters γ} (ok : c.Indexes) (op : ParkOp γ) :
    (op.onWaiters c).1.Indexes ∧ (op.onWaiters c).1.parked = (op.onParked c.parked).1 ∧
      (op.onWaiters c).2 = (op.onParked c.parked).2 := by
  -- Every call is one law of the indexes, read together with the reply.
  cases op with
  | push w => exact ⟨(ok.push w).1, (ok.push w).2, rfl⟩
  | takeKey key =>
    obtain ⟨ok', parked, woken⟩ := ok.takeKey key
    exact ⟨ok', parked, congrArg ParkReply.woken woken⟩
  | rekey old new => exact ⟨(ok.rekey old new).1, (ok.rekey old new).2, rfl⟩
  | removePid pid => exact ⟨(ok.removePid pid).1, (ok.removePid pid).2, rfl⟩
  | removePids pids => exact ⟨(ok.removePids pids).1, (ok.removePids pids).2, rfl⟩
  | containsPid pid => exact ⟨ok, rfl, congrArg ParkReply.flag (ok.containsPid pid)⟩

/-- A run keeps the indexes, and answers as the list of waiters does all along. -/
theorem runParked_refines {c : InstanceEventWaiters γ} (ok : c.Indexes) (ops : List (ParkOp γ)) :
    let code := runParked (fun c op => op.onWaiters c) c ops
    let list := runParked (fun l op => op.onParked l) c.parked ops
    code.1.Indexes ∧ code.1.parked = list.1 ∧ code.2 = list.2 := by
  -- The induction carries the indexes along, which every call keeps.
  induction ops generalizing c with
  | nil => exact ⟨ok, rfl, rfl⟩
  | cons op rest ih =>
    obtain ⟨ok', parked, reply⟩ := op.step_refines ok
    obtain ⟨last, parked', replies⟩ := ih ok'
    rw [parked] at parked' replies
    refine ⟨last, parked', ?_⟩
    simp only [runParked]
    rw [reply, replies]

/-- After every sequence of calls the indexes list exactly the live entries, and every call has answered as on the
waiters in the order they parked in: `take_key` with those that await the event, once each, while no other goes, and
`contains_pid` with whether the process has one. -/
theorem instanceEventWaiters_exact (ops : List (ParkOp γ)) :
    let code := runParked (fun c op => op.onWaiters c) InstanceEventWaiters.default ops
    let list := runParked (fun l op => op.onParked l) [] ops
    code.1.Indexes ∧ code.1.parked = list.1 ∧ code.2 = list.2 :=
  runParked_refines InstanceEventWaiters.indexes_default ops

end Xezim.Waiters
