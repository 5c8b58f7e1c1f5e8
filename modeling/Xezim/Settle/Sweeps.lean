import Xezim.Settle.WorklistLaws

/-! The level-ordered settle: sweeps drain the triggered entries level by level, with the flags of the pass loop. -/

namespace Xezim.Settle

open Function

namespace Worklist

variable (w : Worklist)

/-- The number of levels of the entries. -/
def numLevels (level : Nat → Nat) : Nat :=
  ((List.range w.numEntries).map level).max?.getD 0 + 1

/-- A level-ordered settle with something to do empties its buckets. -/
def beginSweeps : Worklist :=
  { w with buckets := fun _ => [], nextSeed := [] }

/-- Put a seed that is still triggered into the bucket of its level. -/
def sortSeed (level : Nat → Nat) (w : Worklist) (e : Nat) : Worklist :=
  if w.triggered e then { w with buckets := update w.buckets (level e) (w.buckets (level e) ++ [e]) } else w

/-- A sweep takes the seed list over. -/
def beginSweep (level : Nat → Nat) : Worklist :=
  { w.nextList.foldl (sortSeed level) w with nextList := [] }

/-- Trigger a dependent of an entry of a level: within the sweep where its level is still ahead. -/
def sweepTrigger (level : Nat → Nat) (l dep : Nat) (w : Worklist) : Worklist :=
  if w.triggered dep then w
  else if l < level dep then
    { w with
      triggered := update w.triggered dep true
      buckets := update w.buckets (level dep) (w.buckets (level dep) ++ [dep]) }
  else { w with triggered := update w.triggered dep true, nextSeed := w.nextSeed ++ [dep] }

/-- One dependent of a signal that changed. Only the serial drain knows which entry wrote it. -/
def sweepDep (t : DepTables) (level : Nat → Nat) (l : Nat) (writer : Option Nat) (w : Worklist) (edge : DepEdge) :
    Worklist :=
  if writer = some edge.entry ∧ t.combSelfExempt edge.entry then w else w.sweepTrigger level l edge.entry

/-- The dependents of a signal that changed. -/
def sweepDeps (t : DepTables) (level : Nat → Nat) (l : Nat) (writer : Option Nat) (w : Worklist) (id : Nat) :
    Worklist :=
  (t.depEdges id).foldl (sweepDep t level l writer) w

/-- The serial drain takes an entry of the level's bucket, and runs it if it is still triggered. -/
def drainEntry (t : DepTables) (level : Nat → Nat) (l eidx : Nat) (left dirtied : List Nat) : Worklist :=
  let popped := { w with buckets := update w.buckets l left }
  if w.triggered eidx then
    dirtied.foldl (sweepDeps t level l (some eidx)) { popped with triggered := update w.triggered eidx false }
  else popped

/-- The triggered entries of a bucket that may run in parallel, their flags consumed. -/
def takeBatch (parSafe : Nat → Bool) : List Nat → (Nat → Bool) → (Nat → Bool) × List Nat
  | [], flags => (flags, [])
  | e :: es, flags =>
    if flags e && parSafe e then
      let taken := takeBatch parSafe es (update flags e false)
      (taken.1, e :: taken.2)
    else takeBatch parSafe es flags

/-- A level's entries that may run in parallel run together, unless they are too few: then they are triggered again. -/
def runBatch (t : DepTables) (level : Nat → Nat) (l : Nat) (parSafe : Nat → Bool) (threshold : Nat)
    (dirtied : List Nat) : Worklist :=
  let taken := takeBatch parSafe (w.buckets l) w.triggered
  if threshold ≤ taken.2.length then dirtied.foldl (sweepDeps t level l none) { w with triggered := taken.1 }
  else { w with triggered := taken.2.foldl (fun flags e => update flags e true) taken.1 }

/-- The next sweep is seeded with what this one triggered behind it. -/
def nextSweep : Worklist :=
  { w with nextList := w.nextSeed, nextSeed := [] }

/-- At the limit of sweeps the seed list is cleared, its flags are not. -/
def abandon : Worklist :=
  { w with nextList := [] }

/-- Before a sweep the seed list holds the triggered entries that are not lost. -/
structure Between (lost : List Nat) (level : Nat → Nat) (w : Worklist) : Prop where
  summed : w.inject.Summed
  clear : ∀ e, w.inject.has e = false
  waiting : ∀ e, w.triggered e = true → e ∉ lost → e ∈ w.nextList
  seeds : ∀ e ∈ w.nextList, e < w.numEntries
  sorted : ∀ m, ∀ e ∈ w.buckets m, level e = m ∧ e < w.numEntries
  fresh : w.nextSeed = []
  astray : ∀ e ∈ lost, w.triggered e = true ∧ e ∉ w.nextList ∧ ∀ m, e ∉ w.buckets m

/-- In a sweep that has come to a level, the triggered entries that are not lost are in the buckets from there on, or
wait for the next sweep. -/
structure InSweep (lost : List Nat) (level : Nat → Nat) (l : Nat) (w : Worklist) : Prop where
  summed : w.inject.Summed
  clear : ∀ e, w.inject.has e = false
  taken : w.nextList = []
  waiting : ∀ e, w.triggered e = true → e ∉ lost → e ∈ w.nextSeed ∨ ∃ m, l ≤ m ∧ e ∈ w.buckets m
  seeds : ∀ e ∈ w.nextSeed, e < w.numEntries
  sorted : ∀ m, ∀ e ∈ w.buckets m, level e = m ∧ e < w.numEntries
  astray : ∀ e ∈ lost, w.triggered e = true ∧ e ∉ w.nextSeed ∧ ∀ m, e ∉ w.buckets m

variable {w} {lost : List Nat} {level : Nat → Nat} {l : Nat}

/-- Every entry has a level below their number. -/
theorem level_lt_numLevels {e : Nat} (inside : e < w.numEntries) : level e < w.numLevels level := by
  -- The level is one of those the largest is taken of.
  have member : level e ∈ (List.range w.numEntries).map level :=
    List.mem_map.mpr ⟨e, List.mem_range.mpr inside, rfl⟩
  unfold numLevels
  cases most : ((List.range w.numEntries).map level).max? with
  | none =>
    rw [List.max?_eq_none_iff] at most
    rw [most] at member
    cases member
  | some top =>
    have bound := (List.max?_eq_some_iff.mp most).2 _ member
    exact Nat.lt_succ_of_le bound

/-- A level-ordered settle starts with the seeds listed. -/
theorem Listed.beginSweeps (listed : Listed lost w) : Between lost level w.beginSweeps where
  summed := listed.summed
  clear := listed.clear
  waiting := listed.waiting
  seeds e member := (listed.listed e member).1
  sorted m e member := by cases member
  fresh := rfl
  astray e gone := by
    obtain ⟨set, unlisted⟩ := listed.astray e gone
    exact ⟨set, unlisted, fun m => List.not_mem_nil⟩

/-- A bucket with an entry added to one of them. -/
theorem mem_update_append {buckets : Nat → List Nat} {k m e x : Nat} :
    e ∈ update buckets k (buckets k ++ [x]) m ↔ e ∈ buckets m ∨ m = k ∧ e = x := by
  by_cases same : m = k
  · subst same
    simp
  · simp [same]

/-- Sorting seeds fills the buckets with those still triggered, and changes nothing else. -/
theorem sortSeeds (level : Nat → Nat) (seeds : List Nat) (w : Worklist) :
    ∃ buckets, seeds.foldl (sortSeed level) w = { w with buckets := buckets } ∧
      ∀ m e, e ∈ buckets m ↔ e ∈ w.buckets m ∨ e ∈ seeds ∧ w.triggered e = true ∧ level e = m := by
  -- A seed goes to the bucket of its level when its flag is still set, and the induction is on the seeds.
  induction seeds generalizing w with
  | nil => exact ⟨w.buckets, rfl, by simp⟩
  | cons x rest ih =>
    rw [List.foldl_cons, sortSeed]
    by_cases set : w.triggered x = true
    · rw [if_pos set]
      obtain ⟨buckets, same, members⟩ :=
        ih { w with buckets := update w.buckets (level x) (w.buckets (level x) ++ [x]) }
      refine ⟨buckets, same, fun m e => ?_⟩
      rw [members, mem_update_append, List.mem_cons]
      constructor
      · rintro ((old | ⟨rfl, rfl⟩) | ⟨later, flag, place⟩)
        · exact .inl old
        · exact .inr ⟨.inl rfl, set, rfl⟩
        · exact .inr ⟨.inr later, flag, place⟩
      · rintro (old | ⟨rfl | later, flag, place⟩)
        · exact .inl (.inl old)
        · exact .inl (.inr ⟨place.symm, rfl⟩)
        · exact .inr ⟨later, flag, place⟩
    · rw [if_neg set]
      obtain ⟨buckets, same, members⟩ := ih w
      refine ⟨buckets, same, fun m e => ?_⟩
      rw [members, List.mem_cons]
      constructor
      · rintro (old | ⟨later, flag, place⟩)
        · exact .inl old
        · exact .inr ⟨.inr later, flag, place⟩
      · rintro (old | ⟨rfl | later, flag, place⟩)
        · exact .inl old
        · exact absurd flag set
        · exact .inr ⟨later, flag, place⟩

/-- A sweep starts with every triggered entry that is not lost in its bucket. -/
theorem Between.beginSweep (between : Between lost level w) : InSweep lost level 0 (w.beginSweep level) := by
  obtain ⟨buckets, same, members⟩ := sortSeeds level w.nextList w
  unfold Worklist.beginSweep
  rw [same]
  -- Between sweeps only the seeds wait, so afterwards the buckets hold all that wait.
  refine ⟨between.summed, between.clear, rfl, fun e set kept => ?_, fun e member => ?_, fun m e member => ?_,
    fun e gone => ?_⟩
  · exact .inr ⟨level e, Nat.zero_le _, (members _ e).mpr (.inr ⟨between.waiting e set kept, set, rfl⟩)⟩
  · rw [show ({ w with buckets := buckets, nextList := [] } : Worklist).nextSeed = [] from between.fresh] at member
    cases member
  · rcases (members m e).mp member with old | ⟨seed, -, place⟩
    · exact between.sorted m e old
    · exact ⟨place, between.seeds e seed⟩
  · obtain ⟨set, unlisted, apart⟩ := between.astray e gone
    refine ⟨set, ?_, fun m member => ?_⟩
    · rw [show ({ w with buckets := buckets, nextList := [] } : Worklist).nextSeed = [] from between.fresh]
      exact List.not_mem_nil
    · rcases (members m e).mp member with old | ⟨seed, -⟩
      · exact apart m old
      · exact unlisted seed

/-- Triggering a dependent puts it into a bucket ahead or among the next seeds. -/
theorem InSweep.sweepTrigger (sweep : InSweep lost level l w) {dep : Nat} (inside : dep < w.numEntries) :
    InSweep lost level l (w.sweepTrigger level l dep) := by
  unfold Worklist.sweepTrigger
  -- A flagged entry is queued already; a new one goes ahead of the sweep or to the next one.
  by_cases set : w.triggered dep = true
  · rw [if_pos set]
    exact sweep
  · rw [if_neg set]
    have found : ∀ e ∈ lost, e ≠ dep := fun e gone same => set (same ▸ (sweep.astray e gone).1)
    by_cases ahead : l < level dep
    · rw [if_pos ahead]
      refine ⟨sweep.summed, sweep.clear, sweep.taken, fun e flag kept => ?_, sweep.seeds, fun m e member => ?_,
        fun e gone => ?_⟩
      · rcases flag_set.mp flag with rfl | flag
        · exact .inr ⟨level e, ahead.le, mem_update_append.mpr (.inr ⟨rfl, rfl⟩)⟩
        · refine (sweep.waiting e flag kept).imp_right ?_
          rintro ⟨m, above, member⟩
          exact ⟨m, above, mem_update_append.mpr (.inl member)⟩
      · rcases mem_update_append.mp member with old | ⟨rfl, rfl⟩
        · exact sweep.sorted m e old
        · exact ⟨rfl, inside⟩
      · obtain ⟨flag, unlisted, apart⟩ := sweep.astray e gone
        refine ⟨flag_set.mpr (.inr flag), unlisted, fun m member => ?_⟩
        rcases mem_update_append.mp member with old | ⟨-, same⟩
        · exact apart m old
        · exact found e gone same
    · rw [if_neg ahead]
      refine ⟨sweep.summed, sweep.clear, sweep.taken, fun e flag kept => ?_, fun e member => ?_, sweep.sorted,
        fun e gone => ?_⟩
      · rcases flag_set.mp flag with rfl | flag
        · exact .inl (List.mem_append_right _ (List.mem_singleton_self _))
        · exact (sweep.waiting e flag kept).imp_left (List.mem_append_left _)
      · rcases List.mem_append.mp member with old | new
        · exact sweep.seeds e old
        · exact List.mem_singleton.mp new ▸ inside
      · obtain ⟨flag, unlisted, apart⟩ := sweep.astray e gone
        refine ⟨flag_set.mpr (.inr flag), fun member => ?_, apart⟩
        rcases List.mem_append.mp member with old | new
        · exact unlisted old
        · exact found e gone (List.mem_singleton.mp new)

/-- Triggering changes neither the number of entries nor any list behind the level. -/
theorem sweepTrigger_numEntries (dep : Nat) : (w.sweepTrigger level l dep).numEntries = w.numEntries := by
  unfold Worklist.sweepTrigger
  split_ifs <;> rfl

/-- The dependents of the signals that changed are all triggered in this way. -/
theorem InSweep.sweepDeps {t : DepTables} {writer : Option Nat}
    (within : ∀ id, ∀ edge ∈ t.depEdges id, edge.entry < w.numEntries) (dirtied : List Nat) {v : Worklist}
    (count : v.numEntries = w.numEntries) (sweep : InSweep lost level l v) :
    InSweep lost level l (dirtied.foldl (Worklist.sweepDeps t level l writer) v) := by
  -- The edges of one signal are the inner loop, the signals written the outer one.
  have edges : ∀ row : List DepEdge, (∀ edge ∈ row, edge.entry < w.numEntries) → ∀ v : Worklist,
      v.numEntries = w.numEntries → InSweep lost level l v →
      (row.foldl (sweepDep t level l writer) v).numEntries = w.numEntries ∧
        InSweep lost level l (row.foldl (sweepDep t level l writer) v) := by
    intro row
    induction row with
    | nil => exact fun _ v count sweep => ⟨count, sweep⟩
    | cons edge row ih =>
      intro bound v count sweep
      have inside : edge.entry < v.numEntries := count.symm ▸ bound edge List.mem_cons_self
      apply ih fun edge later => bound edge (List.mem_cons_of_mem _ later)
      · unfold sweepDep
        split
        · exact count
        · exact (sweepTrigger_numEntries _).trans count
      · unfold sweepDep
        split
        · exact sweep
        · exact sweep.sweepTrigger inside
  induction dirtied generalizing v with
  | nil => exact sweep
  | cons id rest ih =>
    obtain ⟨same, kept⟩ := edges (t.depEdges id) (within id) v count sweep
    exact ih same kept

/-- The serial drain takes one entry of the level. -/
theorem InSweep.drainEntry (sweep : InSweep lost level l w) {t : DepTables} {eidx : Nat} {left dirtied : List Nat}
    (within : ∀ id, ∀ edge ∈ t.depEdges id, edge.entry < w.numEntries) (bucket : w.buckets l = eidx :: left) :
    InSweep lost level l (w.drainEntry t level l eidx left dirtied) := by
  have shrunk : ∀ m e, e ∈ update w.buckets l left m → e ∈ w.buckets m := by
    intro m e member
    by_cases same : m = l
    · subst same
      rw [update_self] at member
      rw [bucket]
      exact List.mem_cons_of_mem _ member
    · rwa [update_of_ne same] at member
  have others : ∀ m e, e ≠ eidx → e ∈ w.buckets m → e ∈ update w.buckets l left m := by
    intro m e other member
    by_cases same : m = l
    · subst same
      rw [bucket, List.mem_cons] at member
      rw [update_self]
      exact member.resolve_left other
    · rwa [update_of_ne same]
  -- With the flag of the entry consumed, or clear already, the others are where they were.
  have popped : ∀ flags : Nat → Bool, flags eidx = false → (∀ e, e ≠ eidx → flags e = w.triggered e) →
      InSweep lost level l { w with triggered := flags, buckets := update w.buckets l left } := by
    intro flags consumed rest
    refine ⟨sweep.summed, sweep.clear, sweep.taken, fun e flag kept => ?_, sweep.seeds,
      fun m e member => sweep.sorted m e (shrunk m e member), fun e gone => ?_⟩
    · have other : e ≠ eidx := by
        rintro rfl
        rw [show flags e = true from flag] at consumed
        cases consumed
      refine (sweep.waiting e (rest e other ▸ flag) kept).imp_right ?_
      rintro ⟨m, above, member⟩
      exact ⟨m, above, others m e other member⟩
    · obtain ⟨flag, unlisted, apart⟩ := sweep.astray e gone
      have other : e ≠ eidx := by
        rintro rfl
        exact apart l (by rw [bucket]; exact List.mem_cons_self)
      exact ⟨(rest e other).trans flag, unlisted, fun m member => apart m (shrunk m e member)⟩
  unfold Worklist.drainEntry
  by_cases set : w.triggered eidx = true
  · rw [if_pos set]
    refine InSweep.sweepDeps (w := w) within dirtied (by rfl) ?_
    exact popped _ (update_self ..) fun e other => update_of_ne other ..
  · rw [if_neg set]
    exact popped w.triggered (by simpa using set) fun _ _ => rfl

/-- The flags that are left once a batch was taken. -/
theorem takeBatch_flags (parSafe : Nat → Bool) (es : List Nat) (flags : Nat → Bool) (e : Nat) :
    ((takeBatch parSafe es flags).1 e = true ↔ flags e = true ∧ e ∉ (takeBatch parSafe es flags).2) ∧
      (e ∈ (takeBatch parSafe es flags).2 → e ∈ es ∧ flags e = true) := by
  -- An entry is taken at most once, since taking it clears its flag.
  induction es generalizing flags with
  | nil => simp [takeBatch]
  | cons x rest ih =>
    rw [takeBatch]
    by_cases runs : (flags x && parSafe x) = true
    · obtain ⟨set, -⟩ := Bool.and_eq_true_iff.mp runs
      obtain ⟨left, members⟩ := ih (update flags x false)
      simp only [if_pos runs, List.mem_cons, not_or]
      refine ⟨?_, ?_⟩
      · rw [left, flag_cleared]
        tauto
      · rintro (rfl | later)
        · exact ⟨.inl rfl, set⟩
        · exact ⟨.inr (members later).1, (flag_cleared.mp (members later).2).2⟩
    · simp only [if_neg runs, List.mem_cons]
      exact ⟨(ih flags).1, fun later => ⟨.inr ((ih flags).2 later).1, ((ih flags).2 later).2⟩⟩

/-- Setting the flags of a list. -/
theorem flags_set (es : List Nat) (flags : Nat → Bool) (e : Nat) :
    es.foldl (fun flags e => update flags e true) flags e = true ↔ e ∈ es ∨ flags e = true := by
  induction es generalizing flags with
  | nil => simp
  | cons x rest ih =>
    rw [List.foldl_cons, ih, flag_set, List.mem_cons]
    tauto

/-- A batch of the level's entries runs, or is triggered again. -/
theorem InSweep.runBatch (sweep : InSweep lost level l w) {t : DepTables} {parSafe : Nat → Bool} {threshold : Nat}
    {dirtied : List Nat} (within : ∀ id, ∀ edge ∈ t.depEdges id, edge.entry < w.numEntries) :
    InSweep lost level l (w.runBatch t level l parSafe threshold dirtied) := by
  have batch := takeBatch_flags parSafe (w.buckets l) w.triggered
  -- Fewer flags are set, and every lost one is, for it is in no bucket.
  have fewer : ∀ flags : Nat → Bool, (∀ e, flags e = true → w.triggered e = true) →
      (∀ e ∈ lost, flags e = true) → InSweep lost level l { w with triggered := flags } := by
    intro flags less kept
    refine ⟨sweep.summed, sweep.clear, sweep.taken, fun e flag => sweep.waiting e (less e flag), sweep.seeds,
      sweep.sorted, fun e gone => ?_⟩
    obtain ⟨-, apart⟩ := sweep.astray e gone
    exact ⟨kept e gone, apart⟩
  have spared : ∀ e ∈ lost, (takeBatch parSafe (w.buckets l) w.triggered).1 e = true := by
    intro e gone
    obtain ⟨flag, -, apart⟩ := sweep.astray e gone
    exact (batch e).1.mpr ⟨flag, fun taken => apart l ((batch e).2 taken).1⟩
  unfold Worklist.runBatch
  dsimp only
  split
  · refine InSweep.sweepDeps (w := w) within dirtied (by rfl) ?_
    exact fewer _ (fun e flag => ((batch e).1.mp flag).1) spared
  · refine fewer _ (fun e flag => ?_) fun e gone => (flags_set _ _ e).mpr (.inr (spared e gone))
    rcases (flags_set _ _ e).mp flag with taken | left
    · exact ((batch e).2 taken).2
    · exact ((batch e).1.mp left).1

/-- An empty bucket is left behind. -/
theorem InSweep.nextLevel (sweep : InSweep lost level l w) (empty : w.buckets l = []) :
    InSweep lost level (l + 1) w := by
  refine ⟨sweep.summed, sweep.clear, sweep.taken, fun e set kept => ?_, sweep.seeds, sweep.sorted, sweep.astray⟩
  refine (sweep.waiting e set kept).imp_right ?_
  rintro ⟨m, above, member⟩
  refine ⟨m, Nat.lt_of_le_of_ne above ?_, member⟩
  rintro rfl
  rw [empty] at member
  cases member

/-- Behind the last level what is triggered waits for the next sweep. -/
theorem InSweep.drained (sweep : InSweep lost level (w.numLevels level) w) {e : Nat} (set : w.triggered e = true)
    (kept : e ∉ lost) : e ∈ w.nextSeed := by
  rcases sweep.waiting e set kept with seeded | ⟨m, above, member⟩
  · exact seeded
  · obtain ⟨place, inside⟩ := sweep.sorted m e member
    have below : level e < w.numLevels level := level_lt_numLevels inside
    omega

/-- The next sweep. -/
theorem InSweep.nextSweep (sweep : InSweep lost level (w.numLevels level) w) : Between lost level w.nextSweep where
  summed := sweep.summed
  clear := sweep.clear
  waiting _ set kept := sweep.drained set kept
  seeds := sweep.seeds
  sorted := sweep.sorted
  fresh := rfl
  astray := sweep.astray

/-- A sweep that triggers nothing for another one ends the settle. -/
theorem InSweep.settled (sweep : InSweep lost level (w.numLevels level) w) (done : w.nextSeed = []) :
    Settled lost w where
  summed := sweep.summed
  clear := sweep.clear
  waiting e set kept := by
    have seeded := sweep.drained set kept
    rw [done] at seeded
    cases seeded
  astray e gone := by
    rw [sweep.taken]
    exact ⟨(sweep.astray e gone).1, List.not_mem_nil⟩

/-- The entries still triggered at the limit of sweeps are lost. -/
theorem Between.abandon (between : Between lost level w) :
    Settled (lost ++ w.nextList.filter w.triggered) w.abandon where
  summed := between.summed
  clear := between.clear
  waiting e set kept := by
    rw [List.mem_append, not_or, List.mem_filter] at kept
    exact absurd ⟨between.waiting e set kept.1, set⟩ kept.2
  astray e gone := by
    refine ⟨?_, List.not_mem_nil⟩
    rcases List.mem_append.mp gone with old | new
    · exact (between.astray e old).1
    · exact (List.mem_filter.mp new).2

end Worklist

end Xezim.Settle
