import Xezim.Settle.Worklist

/-! Within a pass the lists hold exactly the triggered entries, and the pass takes them in order. -/

namespace Xezim.Settle

open Function

namespace Worklist

/-- The lists of a pass that has come to some index: what is ahead may still be taken, what is below waits. The entries
`lost` are triggered and in no list. -/
structure Exact (lost : List Nat) (lo : Nat) (w : Worklist) : Prop where
  sorted : w.rest.Pairwise (· < ·)
  restAt : ∀ e ∈ w.rest, lo ≤ e ∧ e < w.numEntries ∧ w.triggered e = true
  injectAt : ∀ e, w.inject.has e = true → lo ≤ e ∧ e < w.numEntries ∧ w.triggered e = true
  nextOnce : w.nextList.Nodup
  nextAt : ∀ e ∈ w.nextList, e < lo ∧ e < w.numEntries ∧ w.triggered e = true
  placed : ∀ e, w.triggered e = true → e ∉ lost → e ∈ w.rest ∨ w.inject.has e = true ∨ e ∈ w.nextList
  apart : ∀ e ∈ w.rest, w.inject.has e = false
  summed : w.inject.Summed
  room : ∀ e < w.numEntries, e / 64 < w.inject.words
  least : LeastFrom w.inject.has 0 w.nextInject
  astray : ∀ e ∈ lost, w.triggered e = true ∧ e ∉ w.rest ∧ w.inject.has e = false ∧ e ∉ w.nextList

variable {w : Worklist} {lo : Nat} {lost : List Nat}

/-- The flags that are left once one is cleared. -/
theorem flag_cleared {flags : Nat → Bool} {c e : Nat} :
    update flags c false e = true ↔ e ≠ c ∧ flags e = true := by
  by_cases same : e = c
  · simp [same]
  · simp [same]

/-- A triggered entry that is in no list of the pass waits for the next one. -/
theorem Exact.waits (exact : Exact lost lo w) (passed : w.rest = []) (clear : w.nextInject = none) {e : Nat}
    (set : w.triggered e = true) (kept : e ∉ lost) : e ∈ w.nextList := by
  have nothing := exact.least
  rw [clear] at nothing
  -- A flagged entry is ahead, injected or waiting, and the first two are used up.
  rcases exact.placed e set kept with ahead | injected | later
  · rw [passed] at ahead
    cases ahead
  · rw [nothing e (Nat.zero_le e)] at injected
    cases injected
  · exact later

/-- The entry at the position of the pass, and what is left behind it. -/
theorem rest_cons {c : Nat} (here : w.curList[w.curPos]? = some c) :
    w.rest = c :: w.curList.drop (w.curPos + 1) := by
  obtain ⟨inside, same⟩ := List.getElem?_eq_some_iff.mp here
  rw [rest, List.drop_eq_getElem_cons inside, same]

/-- Nothing is left where the position is at the end. -/
theorem rest_nil (done : w.curList[w.curPos]? = none) : w.rest = [] :=
  List.drop_eq_nil_of_le (List.getElem?_eq_none_iff.mp done)

/-- The state once an entry was taken from the list and its flag consumed. -/
theorem Exact.takeListed (exact : Exact lost lo w) {c : Nat} (here : w.curList[w.curPos]? = some c)
    (first : ∀ e, w.inject.has e = true → c < e) :
    Exact lost (c + 1) { w.takeListed with triggered := update w.triggered c false } := by
  have shape := rest_cons here
  have member : c ∈ w.rest := by rw [shape]; exact List.mem_cons_self
  have sorted := exact.sorted
  rw [shape, List.pairwise_cons] at sorted
  obtain ⟨above, sorted⟩ := sorted
  have low := (exact.restAt c member).1
  have ahead : ∀ e ∈ w.curList.drop (w.curPos + 1), e ∈ w.rest := by
    intro e later
    rw [shape]
    exact List.mem_cons_of_mem c later
  refine ⟨sorted, ?_, ?_, exact.nextOnce, ?_, ?_, fun e later => exact.apart e (ahead e later), exact.summed,
    exact.room, exact.least, ?_⟩
  · intro e later
    have order := above e later
    obtain ⟨-, inside, set⟩ := exact.restAt e (ahead e later)
    exact ⟨order, inside, flag_cleared.mpr ⟨by omega, set⟩⟩
  · intro e injected
    have order := first e injected
    obtain ⟨-, inside, set⟩ := exact.injectAt e injected
    exact ⟨order, inside, flag_cleared.mpr ⟨by omega, set⟩⟩
  · intro e later
    obtain ⟨below, inside, set⟩ := exact.nextAt e later
    exact ⟨by omega, inside, flag_cleared.mpr ⟨by omega, set⟩⟩
  · intro e set kept
    -- The entry that was taken is the only one that left the list.
    obtain ⟨other, set⟩ := flag_cleared.mp set
    rcases exact.placed e set kept with later | injected | waiting
    · rw [shape, List.mem_cons] at later
      exact .inl (later.resolve_left other)
    · exact .inr (.inl injected)
    · exact .inr (.inr waiting)
  · intro e gone
    obtain ⟨set, apart, clear, unlisted⟩ := exact.astray e gone
    have other : e ≠ c := fun same => apart (same ▸ member)
    exact ⟨flag_cleared.mpr ⟨other, set⟩, fun later => apart (ahead e later), clear, unlisted⟩

/-- The state once the least injected entry was taken and its flag consumed. -/
theorem Exact.takeInjected (exact : Exact lost lo w) {i : Nat} (least : w.nextInject = some i)
    (first : ∀ e ∈ w.rest, i < e) :
    Exact lost (i + 1) { w.takeInjected i with triggered := update w.triggered i false } := by
  have lowest := exact.least
  rw [least] at lowest
  obtain ⟨-, here, lower⟩ := lowest
  have low := (exact.injectAt i here).1
  have summed := exact.summed.remove i
  refine ⟨exact.sorted, ?_, ?_, exact.nextOnce, ?_, ?_, ?_, summed, exact.room, ?_, ?_⟩
  · intro e later
    have order := first e later
    obtain ⟨-, inside, set⟩ := exact.restAt e later
    exact ⟨order, inside, flag_cleared.mpr ⟨by omega, set⟩⟩
  · intro e injected
    have left : (w.inject.remove i).has e = true := injected
    rw [InjectBits.has_remove, Bool.and_eq_true, decide_eq_true_iff] at left
    obtain ⟨injected, apart⟩ := left
    have order : ¬ e < i := by
      intro below
      rw [lower e (Nat.zero_le e) below] at injected
      cases injected
    obtain ⟨-, inside, set⟩ := exact.injectAt e injected
    exact ⟨by omega, inside, flag_cleared.mpr ⟨apart, set⟩⟩
  · intro e later
    obtain ⟨below, inside, set⟩ := exact.nextAt e later
    exact ⟨by omega, inside, flag_cleared.mpr ⟨by omega, set⟩⟩
  · intro e set kept
    obtain ⟨other, set⟩ := flag_cleared.mp set
    rcases exact.placed e set kept with later | injected | waiting
    · exact .inl later
    · have left : (w.inject.remove i).has e = true := by simp [injected, other]
      exact .inr (.inl left)
    · exact .inr (.inr waiting)
  · intro e later
    show (w.inject.remove i).has e = false
    rw [InjectBits.has_remove, exact.apart e later, Bool.false_and]
  · -- The bits up to the entry that was taken are clear, so the scan may start behind it.
    apply (InjectBits.nextSetBit_spec summed (i + 1)).start_le (Nat.zero_le _)
    intro e _ below
    rw [InjectBits.has_remove]
    by_cases same : e = i
    · simp [same]
    · rw [lower e (Nat.zero_le e) (by omega), Bool.false_and]
  · intro e gone
    obtain ⟨set, apart, clear, unlisted⟩ := exact.astray e gone
    have other : e ≠ i := by
      rintro rfl
      rw [here] at clear
      cases clear
    refine ⟨flag_cleared.mpr ⟨other, set⟩, apart, ?_, unlisted⟩
    show (w.inject.remove i).has e = false
    rw [InjectBits.has_remove, clear, Bool.false_and]

/-- The entry that is taken is at the index the pass has come to or above, was triggered, and is consumed. -/
theorem Exact.takeNext (exact : Exact lost lo w) {eidx : Nat} {next : Worklist}
    (take : w.takeNext = some (eidx, next)) :
    lo ≤ eidx ∧ w.triggered eidx = true ∧ next.triggered = w.triggered ∧
      Exact lost (eidx + 1) { next with triggered := update w.triggered eidx false } := by
  have lowest := exact.least
  unfold Worklist.takeNext at take
  -- Where the list goes on, its entry is the smallest one left in it.
  have head : ∀ c, w.curList[w.curPos]? = some c → c ∈ w.rest ∧ ∀ e ∈ w.rest, c ≤ e := by
    intro c here
    have sorted := exact.sorted
    rw [rest_cons here, List.pairwise_cons] at sorted
    rw [rest_cons here]
    refine ⟨List.mem_cons_self, fun e member => ?_⟩
    rcases List.mem_cons.mp member with same | later
    · exact Nat.le_of_eq same.symm
    · exact (sorted.1 e later).le
  cases found : w.nextInject with
  | none =>
    rw [found] at lowest
    cases here : w.curList[w.curPos]? with
    | none => simp [found, here] at take
    | some c =>
      simp only [found, here, Option.some.injEq, Prod.mk.injEq] at take
      obtain ⟨rfl, rfl⟩ := take
      obtain ⟨low, -, set⟩ := exact.restAt c (head c here).1
      refine ⟨low, set, rfl, exact.takeListed here fun e injected => ?_⟩
      rw [lowest e (Nat.zero_le e)] at injected
      cases injected
  | some i =>
    rw [found] at lowest
    obtain ⟨low, -, set⟩ := exact.injectAt i lowest.2.1
    cases here : w.curList[w.curPos]? with
    | none =>
      simp only [found, here, Option.some.injEq, Prod.mk.injEq] at take
      obtain ⟨rfl, rfl⟩ := take
      refine ⟨low, set, rfl, exact.takeInjected found fun e later => ?_⟩
      rw [rest_nil here] at later
      cases later
    | some c =>
      obtain ⟨member, smallest⟩ := head c here
      by_cases before : i < c
      · simp only [found, here, if_pos before, Option.some.injEq, Prod.mk.injEq] at take
        obtain ⟨rfl, rfl⟩ := take
        exact ⟨low, set, rfl, exact.takeInjected found fun e later => before.trans_le (smallest e later)⟩
      · simp only [found, here, if_neg before, Option.some.injEq, Prod.mk.injEq] at take
        obtain ⟨rfl, rfl⟩ := take
        obtain ⟨lowC, -, setC⟩ := exact.restAt c member
        refine ⟨lowC, setC, rfl, exact.takeListed here fun e injected => ?_⟩
        -- The list's entry is not injected itself, so the least injected one is above it.
        have notC : i ≠ c := by
          intro same
          have clear := exact.apart c member
          rw [← same, lowest.2.1] at clear
          cases clear
        have above : ¬ e < i := by
          intro below
          rw [lowest.2.2 e (Nat.zero_le e) below] at injected
          cases injected
        omega

/-- The flags that are set once one is set. -/
theorem flag_set {flags : Nat → Bool} {c e : Nat} : update flags c true e = true ↔ e = c ∨ flags e = true := by
  by_cases same : e = c
  · simp [same]
  · simp [same]

/-- Triggering a dependent of the entry that runs puts it in one list. -/
theorem Exact.trigger {eidx dep : Nat} (exact : Exact lost (eidx + 1) w) (inside : dep < w.numEntries) :
    Exact lost (eidx + 1) (w.trigger eidx dep) := by
  unfold Worklist.trigger
  by_cases set : w.triggered dep = true
  · rw [if_pos set]
    exact exact
  · rw [if_neg set]
    -- An entry that is not triggered is in no list yet.
    have notRest : dep ∉ w.rest := fun member => set (exact.restAt dep member).2.2
    have notInject : w.inject.has dep = false := by
      by_contra injected
      exact set (exact.injectAt dep (by simpa using injected)).2.2
    have notNext : dep ∉ w.nextList := fun member => set (exact.nextAt dep member).2.2
    have found : ∀ e ∈ lost, e ≠ dep := fun e gone same => set (same ▸ (exact.astray e gone).1)
    by_cases ahead : eidx < dep
    · rw [if_pos ahead]
      refine ⟨exact.sorted, ?_, ?_, exact.nextOnce, ?_, ?_, ?_, exact.summed.insert (exact.room dep inside),
        exact.room, ?_, ?_⟩
      · intro e member
        obtain ⟨low, bound, flag⟩ := exact.restAt e member
        exact ⟨low, bound, flag_set.mpr (.inr flag)⟩
      · intro e member
        have injected : (w.inject.insert dep).has e = true := member
        rw [InjectBits.has_insert, Bool.or_eq_true, decide_eq_true_iff] at injected
        rcases injected with injected | rfl
        · obtain ⟨low, bound, flag⟩ := exact.injectAt e injected
          exact ⟨low, bound, flag_set.mpr (.inr flag)⟩
        · exact ⟨ahead, inside, flag_set.mpr (.inl rfl)⟩
      · intro e member
        obtain ⟨low, bound, flag⟩ := exact.nextAt e member
        exact ⟨low, bound, flag_set.mpr (.inr flag)⟩
      · intro e flag kept
        have injects : ∀ e, w.inject.has e = true ∨ e = dep → (w.inject.insert dep).has e = true := by
          intro e either
          simpa using either
        rcases flag_set.mp flag with same | flag
        · exact .inr (.inl (injects e (.inr same)))
        · rcases exact.placed e flag kept with listed | injected | waiting
          · exact .inl listed
          · exact .inr (.inl (injects e (.inl injected)))
          · exact .inr (.inr waiting)
      · intro e member
        show (w.inject.insert dep).has e = false
        rw [InjectBits.has_insert, exact.apart e member, Bool.false_or, decide_eq_false_iff_not]
        rintro rfl
        exact notRest member
      · -- The least injected entry is the new one where it is below the old one.
        have least := exact.least
        show LeastFrom (w.inject.insert dep).has 0 (if belowInject dep w.nextInject then some dep else w.nextInject)
        cases found : w.nextInject with
        | none =>
          rw [found] at least
          refine ⟨Nat.zero_le dep, by simp, fun j _ below => ?_⟩
          rw [InjectBits.has_insert, least j (Nat.zero_le j), Bool.false_or, decide_eq_false_iff_not]
          omega
        | some i =>
          rw [found] at least
          obtain ⟨-, here, lower⟩ := least
          by_cases below : dep < i
          · simp only [belowInject, decide_eq_true below, if_true]
            refine ⟨Nat.zero_le dep, by simp, fun j _ before => ?_⟩
            rw [InjectBits.has_insert, lower j (Nat.zero_le j) (by omega), Bool.false_or, decide_eq_false_iff_not]
            omega
          · simp only [belowInject, decide_eq_false below, Bool.false_eq_true, if_false]
            refine ⟨Nat.zero_le i, by simp [here], fun j _ before => ?_⟩
            rw [InjectBits.has_insert, lower j (Nat.zero_le j) before, Bool.false_or, decide_eq_false_iff_not]
            omega
      · intro e gone
        obtain ⟨flag, apart, clear, unlisted⟩ := exact.astray e gone
        refine ⟨flag_set.mpr (.inr flag), apart, ?_, unlisted⟩
        show (w.inject.insert dep).has e = false
        rw [InjectBits.has_insert, clear, Bool.false_or, decide_eq_false_iff_not]
        exact found e gone
    · rw [if_neg ahead]
      refine ⟨exact.sorted, ?_, ?_, ?_, ?_, ?_, exact.apart, exact.summed, exact.room, exact.least, ?_⟩
      · intro e member
        obtain ⟨low, bound, flag⟩ := exact.restAt e member
        exact ⟨low, bound, flag_set.mpr (.inr flag)⟩
      · intro e member
        obtain ⟨low, bound, flag⟩ := exact.injectAt e member
        exact ⟨low, bound, flag_set.mpr (.inr flag)⟩
      · exact List.Nodup.append exact.nextOnce (List.nodup_singleton dep) (by simpa using notNext)
      · intro e member
        rcases List.mem_append.mp member with waiting | new
        · obtain ⟨low, bound, flag⟩ := exact.nextAt e waiting
          exact ⟨low, bound, flag_set.mpr (.inr flag)⟩
        · rw [List.mem_singleton] at new
          subst new
          exact ⟨by omega, inside, flag_set.mpr (.inl rfl)⟩
      · intro e flag kept
        rcases flag_set.mp flag with same | flag
        · exact .inr (.inr (List.mem_append.mpr (.inr (List.mem_singleton.mpr same))))
        · rcases exact.placed e flag kept with listed | injected | waiting
          · exact .inl listed
          · exact .inr (.inl injected)
          · exact .inr (.inr (List.mem_append.mpr (.inl waiting)))
      · intro e gone
        obtain ⟨flag, apart, clear, unlisted⟩ := exact.astray e gone
        refine ⟨flag_set.mpr (.inr flag), apart, clear, fun member => ?_⟩
        rcases List.mem_append.mp member with waiting | new
        · exact unlisted waiting
        · exact found e gone (List.mem_singleton.mp new)

/-- What one edge of `trigger_deps` may do: nothing to the lists, or trigger its entry. -/
theorem triggerDep_cases {P : Worklist → Prop} {t : DepTables} {eidx id : Nat} {chg : Word} {edge : DepEdge}
    (same : P w) (queued : ∀ g, P (w.queueGate g)) (triggers : P (w.trigger eidx edge.entry)) :
    P (triggerDep t eidx id chg w edge) := by
  unfold triggerDep
  dsimp only
  -- The guards leave the lists alone, and past them the edge queues its gate or triggers its entry.
  split_ifs
  · exact same
  · exact same
  · exact same
  · exact same
  all_goals
    split
    · exact queued _
    · exact triggers

/-- Queueing a gate leaves the lists of entries alone. -/
theorem queueGate_eq (g : Nat) :
    w.queueGate g = { w with gateQueued := (w.queueGate g).gateQueued, gateQueue := (w.queueGate g).gateQueue } := by
  unfold queueGate
  split_ifs <;> rfl

/-- A property of the entries' lists that holds however the gates are queued is kept by `trigger_deps` when triggering
keeps it. -/
theorem triggerDeps_keeps {P : Worklist → Prop} {t : DepTables} {eidx n : Nat}
    (within : ∀ id, ∀ edge ∈ t.depEdges id, edge.entry < n)
    (triggers : ∀ w dep, P w → dep < n → P (w.trigger eidx dep)) (queued : ∀ w g, P w → P (queueGate w g))
    (writes : List (Nat × Word)) : ∀ w, P w → P (writes.foldl (triggerDeps t eidx) w) := by
  -- The edges of one write are followed in order, and so are the writes.
  have edges : ∀ id chg, ∀ row : List DepEdge, (∀ edge ∈ row, edge.entry < n) → ∀ w, P w →
      P (row.foldl (triggerDep t eidx id chg) w) := by
    intro id chg row
    induction row with
    | nil => exact fun _ w holds => holds
    | cons edge row ih =>
      intro bound w holds
      apply ih (fun edge later => bound edge (List.mem_cons_of_mem _ later))
      exact triggerDep_cases holds (fun g => queued w g holds) (triggers w _ holds (bound edge List.mem_cons_self))
  induction writes with
  | nil => exact fun w holds => holds
  | cons write writes ih => exact fun w holds => ih _ (edges write.1 write.2 _ (within write.1) w holds)

/-- A pass after some entries were taken. -/
structure InPass (lost taken : List Nat) (w : Worklist) : Prop where
  exact : ∃ lo, Exact lost lo w ∧ ∀ e ∈ taken, e < lo
  order : taken.Pairwise (· < ·)
  passed : ∀ e ∈ w.curList.take w.curPos, e ∈ taken
  quiet : w.evaluatedAny = false → w.nextList = []

/-- The next entry to take is above those taken, and triggered. -/
theorem InPass.takeNext {taken : List Nat} (pass : InPass lost taken w) {eidx : Nat} {next : Worklist}
    (take : w.takeNext = some (eidx, next)) : w.triggered eidx = true ∧ ∀ e ∈ taken, e < eidx := by
  obtain ⟨lo, exact, below⟩ := pass.exact
  obtain ⟨low, set, -⟩ := exact.takeNext take
  exact ⟨set, fun e member => (below e member).trans_le low⟩

/-- What a pass has behind it once it took an entry. -/
theorem takeNext_passed {eidx : Nat} {next : Worklist} (take : w.takeNext = some (eidx, next)) :
    next.numEntries = w.numEntries ∧ next.curList = w.curList ∧ next.nextList = w.nextList ∧
      next.evaluatedAny = w.evaluatedAny ∧
      ∀ e ∈ next.curList.take next.curPos, e ∈ w.curList.take w.curPos ∨ e = eidx := by
  -- Taking a listed entry passes it and nothing else.
  have listed : ∀ c, w.curList[w.curPos]? = some c → ∀ e ∈ w.curList.take (w.curPos + 1),
      e ∈ w.curList.take w.curPos ∨ e = c := by
    intro c here e member
    rw [List.take_add_one, here] at member
    simpa using member
  unfold Worklist.takeNext at take
  -- The next entry is the listed one or the injected one, whichever comes first.
  cases found : w.nextInject with
  | none =>
    cases here : w.curList[w.curPos]? with
    | none => simp [found, here] at take
    | some c =>
      simp only [found, here, Option.some.injEq, Prod.mk.injEq] at take
      obtain ⟨rfl, rfl⟩ := take
      exact ⟨rfl, rfl, rfl, rfl, listed c here⟩
  | some i =>
    cases here : w.curList[w.curPos]? with
    | none =>
      simp only [found, here, Option.some.injEq, Prod.mk.injEq] at take
      obtain ⟨rfl, rfl⟩ := take
      exact ⟨rfl, rfl, rfl, rfl, fun e member => .inl member⟩
    | some c =>
      by_cases before : i < c
      · simp only [found, here, if_pos before, Option.some.injEq, Prod.mk.injEq] at take
        obtain ⟨rfl, rfl⟩ := take
        exact ⟨rfl, rfl, rfl, rfl, fun e member => .inl member⟩
      · simp only [found, here, if_neg before, Option.some.injEq, Prod.mk.injEq] at take
        obtain ⟨rfl, rfl⟩ := take
        exact ⟨rfl, rfl, rfl, rfl, listed c here⟩

/-- Taking an entry and visiting it goes on with the pass. -/
theorem InPass.step {taken : List Nat} (pass : InPass lost taken w) {eidx : Nat} {next : Worklist} {t : DepTables}
    {what : Visit} (within : ∀ id, ∀ edge ∈ t.depEdges id, edge.entry < w.numEntries)
    (take : w.takeNext = some (eidx, next)) : InPass lost (taken ++ [eidx]) (next.visit t eidx what) := by
  obtain ⟨above, behind⟩ := pass.takeNext take |>.symm
  obtain ⟨lo, exact, below⟩ := pass.exact
  obtain ⟨-, set, flags, consumed⟩ := exact.takeNext take
  obtain ⟨entries, cur, waiting, evaluated, passed⟩ := takeNext_passed take
  have order : (taken ++ [eidx]).Pairwise (· < ·) := by
    rw [List.pairwise_append]
    exact ⟨pass.order, List.pairwise_singleton _ _, by simpa using above⟩
  have early : ∀ e ∈ taken ++ [eidx], e < eidx + 1 := by
    intro e member
    rcases List.mem_append.mp member with member | last
    · exact (above e member).trans (Nat.lt_succ_self eidx)
    · rw [List.mem_singleton.mp last]
      exact Nat.lt_succ_self eidx
  have gone : ∀ e ∈ next.curList.take next.curPos, e ∈ taken ++ [eidx] := by
    intro e member
    rcases passed e member with old | rfl
    · exact List.mem_append_left _ (pass.passed e old)
    · exact List.mem_append_right _ (List.mem_singleton_self _)
  unfold Worklist.visit
  rw [flags, if_pos behind]
  cases what with
  | deferred =>
    refine ⟨⟨eidx + 1, consumed, early⟩, order, gone, fun still => ?_⟩
    show next.nextList = []
    rw [waiting]
    exact pass.quiet (evaluated ▸ still)
  | evaluated writes =>
    -- The writes of the entry trigger others one by one.
    have kept := @triggerDeps_keeps (fun v => Exact lost (eidx + 1) v ∧ v.numEntries = w.numEntries ∧
        v.evaluatedAny = true ∧ v.curList = next.curList ∧ v.curPos = next.curPos) _ eidx _ within
      (fun v dep holds inside => ?triggers) (fun v g holds => ?queued) writes
      { next with triggered := update w.triggered eidx false, evaluatedAny := true }
      ⟨⟨consumed.sorted, consumed.restAt, consumed.injectAt, consumed.nextOnce, consumed.nextAt, consumed.placed,
        consumed.apart, consumed.summed, consumed.room, consumed.least, consumed.astray⟩, entries, rfl, rfl, rfl⟩
    case triggers =>
      obtain ⟨exact, count, ran, list, position⟩ := holds
      have after := exact.trigger (show dep < v.numEntries by rw [count]; exact inside)
      refine ⟨after, ?_⟩
      unfold Worklist.trigger
      split_ifs <;> exact ⟨count, ran, list, position⟩
    case queued =>
      obtain ⟨exact, count, ran, list, position⟩ := holds
      rw [queueGate_eq]
      exact ⟨⟨exact.sorted, exact.restAt, exact.injectAt, exact.nextOnce, exact.nextAt, exact.placed, exact.apart,
        exact.summed, exact.room, exact.least, exact.astray⟩, count, ran, list, position⟩
    obtain ⟨after, -, ran, list, position⟩ := kept
    refine ⟨⟨eidx + 1, after, early⟩, order, ?_, fun still => ?_⟩
    · rw [list, position]
      exact gone
    · rw [ran] at still
      cases still

/-- Between settles nothing is injected, and what is triggered is listed or lost. -/
structure Settled (lost : List Nat) (w : Worklist) : Prop where
  summed : w.inject.Summed
  clear : ∀ e, w.inject.has e = false
  waiting : ∀ e, w.triggered e = true → e ∉ lost → e ∈ w.nextList
  astray : ∀ e ∈ lost, w.triggered e = true ∧ e ∉ w.nextList

/-- Before a pass the list holds the triggered entries that are not lost, each once. -/
structure Listed (lost : List Nat) (w : Worklist) : Prop extends Settled lost w where
  once : w.nextList.Nodup
  listed : ∀ e ∈ w.nextList, e < w.numEntries ∧ w.triggered e = true

/-- Before a pass the buffers are ready as well. -/
structure Ready (lost : List Nat) (w : Worklist) : Prop extends Listed lost w where
  emptied : w.curList = []
  room : ∀ e < w.numEntries, e / 64 < w.inject.words
  notInjected : w.nextInject = none

/-- Clearing the flags of a list. -/
theorem flags_cleared (l : List Nat) (flags : Nat → Bool) (e : Nat) :
    l.foldl (fun flags eidx => update flags eidx false) flags e = true ↔ e ∉ l ∧ flags e = true := by
  induction l generalizing flags with
  | nil => simp
  | cons first rest ih =>
    rw [List.foldl_cons, ih, flag_cleared, List.mem_cons, not_or]
    exact ⟨fun ⟨later, other, set⟩ => ⟨⟨other, later⟩, set⟩, fun ⟨⟨other, later⟩, set⟩ => ⟨later, other, set⟩⟩

/-- Seeding an entry lists it once. -/
theorem Listed.seedEntry (listed : Listed lost w) {eidx : Nat} (inside : eidx < w.numEntries) :
    Listed lost (w.seedEntry eidx) := by
  unfold Worklist.seedEntry
  -- An entry that is flagged is listed already.
  by_cases set : w.triggered eidx = true
  · rw [if_pos set]
    exact listed
  · rw [if_neg set]
    -- A new entry is flagged and listed at once.
    have new : eidx ∉ w.nextList := fun member => set (listed.listed eidx member).2
    refine ⟨⟨listed.summed, listed.clear, fun e flag kept => ?_, fun e gone => ?_⟩, ?_, fun e member => ?_⟩
    · rcases flag_set.mp flag with same | flag
      · exact List.mem_append_right _ (List.mem_singleton.mpr same)
      · exact List.mem_append_left _ (listed.waiting e flag kept)
    · obtain ⟨flag, unlisted⟩ := listed.astray e gone
      refine ⟨flag_set.mpr (.inr flag), fun member => ?_⟩
      rcases List.mem_append.mp member with member | last
      · exact unlisted member
      · exact set (List.mem_singleton.mp last ▸ flag)
    · exact List.Nodup.append listed.once (List.nodup_singleton eidx) (by simpa using new)
    · rcases List.mem_append.mp member with member | last
      · obtain ⟨bound, flag⟩ := listed.listed e member
        exact ⟨bound, flag_set.mpr (.inr flag)⟩
      · rw [List.mem_singleton.mp last]
        exact ⟨inside, flag_set.mpr (.inl rfl)⟩

/-- A settle starts with the entries it seeds, whatever the last one left. -/
theorem Settled.seed (settled : Settled lost w) {numEntries : Nat} {seeds : List Nat}
    (within : ∀ eidx ∈ seeds, eidx < numEntries) : Listed lost (w.seed numEntries seeds) := by
  have fold : ∀ (seeds : List Nat) (v : Worklist), (∀ eidx ∈ seeds, eidx < numEntries) → v.numEntries = numEntries →
      Listed lost v → Listed lost (seeds.foldl Worklist.seedEntry v) := by
    intro seeds
    induction seeds with
    | nil => exact fun v _ _ listed => listed
    | cons eidx rest ih =>
      intro v bound count listed
      apply ih _ fun e later => bound e (List.mem_cons_of_mem _ later)
      · unfold Worklist.seedEntry
        split_ifs <;> exact count
      · exact listed.seedEntry (by rw [count]; exact bound eidx List.mem_cons_self)
  apply fold seeds _ within rfl
  refine ⟨⟨settled.summed, settled.clear, fun e flag kept => ?_, fun e gone => ?_⟩, List.nodup_nil,
    fun e member => by cases member⟩
  · -- Every flag that was left belongs to an entry that was still listed, unless it was lost.
    obtain ⟨unlisted, set⟩ := (flags_cleared w.nextList w.triggered e).mp flag
    exact absurd (settled.waiting e set kept) unlisted
  · obtain ⟨set, unlisted⟩ := settled.astray e gone
    exact ⟨(flags_cleared w.nextList w.triggered e).mpr ⟨unlisted, set⟩, List.not_mem_nil⟩

/-- Making room gets a seeded settle ready. -/
theorem Listed.prepare (listed : Listed lost w) : Ready lost w.prepare where
  summed := listed.summed.resize w.numEntries
  clear := listed.clear
  waiting := listed.waiting
  astray := listed.astray
  once := listed.once
  listed := listed.listed
  emptied := rfl
  room _ inside := InjectBits.resize_room w.inject inside
  notInjected := rfl

/-- A pass starts with the sorted list and nothing behind it. -/
theorem Ready.beginPass (ready : Ready lost w) : InPass lost [] w.beginPass := by
  -- Sorting keeps the entries and puts each of them once.
  have perm := List.mergeSort_perm w.nextList (fun a b => decide (a ≤ b))
  have sorted : (w.nextList.mergeSort).Pairwise (· < ·) := by
    have le := @List.pairwise_mergeSort _ (fun a b : Nat => decide (a ≤ b))
      (fun a b c first second => by simp only [decide_eq_true_eq] at first second ⊢; omega)
      (fun a b => by simp only [Bool.or_eq_true, decide_eq_true_eq]; omega) w.nextList
    have once := perm.nodup_iff.mpr ready.once
    exact (le.and once).imp fun ⟨order, apart⟩ => lt_of_le_of_ne (by simpa using order) apart
  -- The pass lists what was waiting, so every flagged entry is ahead.
  have members : ∀ e, e ∈ w.nextList.mergeSort ↔ e ∈ w.nextList := fun e => List.mem_mergeSort
  refine ⟨⟨0, ⟨sorted, fun e member => ?_, fun e injected => ?_, ?_, fun e member => ?_, fun e set kept => ?_,
    fun e _ => ready.clear e, ready.summed, ready.room, ?_, fun e gone => ?_⟩, by simp⟩, List.Pairwise.nil, by simp
      [Worklist.beginPass],
    fun _ => ready.emptied⟩
  · exact ⟨Nat.zero_le e, ready.listed e ((members e).mp member)⟩
  · rw [show w.beginPass.inject.has e = false from ready.clear e] at injected
    cases injected
  · show w.curList.Nodup
    rw [ready.emptied]
    exact List.nodup_nil
  · rw [show w.beginPass.nextList = [] from ready.emptied] at member
    cases member
  · exact .inl ((members e).mpr (ready.waiting e set kept))
  · rw [show w.beginPass.nextInject = none from ready.notInjected]
    exact fun e _ => ready.clear e
  · obtain ⟨set, unlisted⟩ := ready.astray e gone
    refine ⟨set, fun member => unlisted ((members e).mp member), ready.clear e, ?_⟩
    rw [show w.beginPass.nextList = [] from ready.emptied]
    exact List.not_mem_nil

/-- Where no entry is left to take, the list and the injected entries are used up. -/
theorem takeNext_none (done : w.takeNext = none) : w.rest = [] ∧ w.nextInject = none := by
  unfold Worklist.takeNext at done
  -- A pass ends where neither a listed nor an injected entry is left.
  cases found : w.nextInject with
  | none =>
    cases here : w.curList[w.curPos]? with
    | none => exact ⟨rest_nil here, rfl⟩
    | some c => simp [found, here] at done
  | some i =>
    cases here : w.curList[w.curPos]? with
    | none => simp [found, here] at done
    | some c =>
      simp only [found, here] at done
      split_ifs at done

/-- At the end of a pass every triggered entry is listed once for the next one. -/
theorem InPass.finished {taken : List Nat} (pass : InPass lost taken w) (done : w.takeNext = none) : Listed lost w := by
  obtain ⟨lo, exact, -⟩ := pass.exact
  obtain ⟨passed, empty⟩ := takeNext_none done
  have clear := exact.least
  rw [empty] at clear
  -- Nothing is injected any more, so what is flagged waits for the next pass.
  refine ⟨⟨exact.summed, fun e => clear e (Nat.zero_le e), fun e set kept => exact.waits passed empty set kept, ?_⟩,
    exact.nextOnce, fun e member => (exact.nextAt e member).2⟩
  intro e gone
  obtain ⟨set, -, -, unlisted⟩ := exact.astray e gone
  exact ⟨set, unlisted⟩

/-- A settle that ends because a pass evaluated nothing leaves nothing triggered but what was lost. -/
theorem InPass.still {taken : List Nat} (pass : InPass lost taken w) (done : w.takeNext = none)
    (quiet : w.evaluatedAny = false) {e : Nat} (kept : e ∉ lost) : w.drainGates.triggered e = false := by
  cases set : w.drainGates.triggered e with
  | false => rfl
  | true =>
    have waiting := (pass.finished done).waiting e set kept
    rw [pass.quiet quiet] at waiting
    cases waiting

/-- A pass that evaluated something leaves the buffers ready for the next one. -/
theorem InPass.endPass {taken : List Nat} (pass : InPass lost taken w) (done : w.takeNext = none) :
    Ready lost w.endPass := by
  have listed := pass.finished done
  obtain ⟨lo, exact, -⟩ := pass.exact
  exact ⟨⟨⟨listed.summed, listed.clear, listed.waiting, listed.astray⟩, listed.once, listed.listed⟩, rfl, exact.room,
    (takeNext_none done).2⟩

end Worklist

end Xezim.Settle
