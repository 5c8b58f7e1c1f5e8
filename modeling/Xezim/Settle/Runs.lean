import Xezim.Settle.Sweeps

/-! Runs of settles: the worklist of a pass is exact as long as no level-ordered settle was cut off at its limit. -/

namespace Xezim.Settle

/-- Where a settle stands: in the pass loop, or in the sweeps of a level-ordered settle. -/
inductive Phase where
  | idle
  | seeded
  | ready
  | passing
  | between (level : Nat → Nat)
  | entering (level : Nat → Nat) (l : Nat)
  | draining (level : Nat → Nat) (l : Nat)

/-- The states that settles go through, with the entries taken in the present pass, and the entries whose flags were
left set where a level-ordered settle was cut off. -/
inductive SettleRun : List Nat → Phase → List Nat → Worklist → Prop
  | new : SettleRun [] .idle [] Worklist.new
  -- Both kinds of settles are seeded in the same way.
  | seed {lost taken : List Nat} {w : Worklist} (numEntries : Nat) (seeds : List Nat)
      (within : ∀ eidx ∈ seeds, eidx < numEntries) (before : SettleRun lost .idle taken w) :
      SettleRun lost .seeded [] (w.seed numEntries seeds)
  | nothing {lost taken : List Nat} {w : Worklist} (before : SettleRun lost .seeded taken w)
      (empty : w.nextList = []) : SettleRun lost .idle [] w
  | prepare {lost taken : List Nat} {w : Worklist} (before : SettleRun lost .seeded taken w)
      (seeded : w.nextList ≠ []) : SettleRun lost .ready [] w.prepare
  | pass {lost taken : List Nat} {w : Worklist} (before : SettleRun lost .ready taken w)
      (waiting : w.nextList ≠ []) : SettleRun lost .passing [] w.beginPass
  | step {lost taken : List Nat} {w next : Worklist} {eidx : Nat} (t : DepTables) (what : Visit)
      (within : ∀ id, ∀ edge ∈ t.depEdges id, edge.entry < w.numEntries) (before : SettleRun lost .passing taken w)
      (take : w.takeNext = some (eidx, next)) : SettleRun lost .passing (taken ++ [eidx]) (next.visit t eidx what)
  -- A pass that evaluated nothing ends the settle at once.
  | still {lost taken : List Nat} {w : Worklist} (before : SettleRun lost .passing taken w)
      (done : w.takeNext = none) (quiet : w.evaluatedAny = false) : SettleRun lost .idle [] w.drainGates
  | again {lost taken : List Nat} {w : Worklist} (before : SettleRun lost .passing taken w)
      (done : w.takeNext = none) (ran : w.evaluatedAny = true) : SettleRun lost .ready [] w.endPass
  -- The settle ends where nothing is triggered, or at its limit of passes.
  | leave {lost taken : List Nat} {w : Worklist} (before : SettleRun lost .ready taken w) :
      SettleRun lost .idle [] w
  | sweeps {lost taken : List Nat} {w : Worklist} (level : Nat → Nat) (before : SettleRun lost .seeded taken w)
      (seeded : w.nextList ≠ []) : SettleRun lost (.between level) [] w.beginSweeps
  | sweep {lost taken : List Nat} {w : Worklist} {level : Nat → Nat}
      (before : SettleRun lost (.between level) taken w) : SettleRun lost (.entering level 0) [] (w.beginSweep level)
  | serial {lost taken : List Nat} {w : Worklist} {level : Nat → Nat} {l : Nat}
      (before : SettleRun lost (.entering level l) taken w) (left : l < w.numLevels level) :
      SettleRun lost (.draining level l) [] w
  | batch {lost taken : List Nat} {w : Worklist} {level : Nat → Nat} {l : Nat} (t : DepTables)
      (parSafe : Nat → Bool) (threshold : Nat) (dirtied : List Nat)
      (within : ∀ id, ∀ edge ∈ t.depEdges id, edge.entry < w.numEntries)
      (before : SettleRun lost (.entering level l) taken w) (left : l < w.numLevels level)
      (wide : threshold ≤ (w.buckets l).length) :
      SettleRun lost (.draining level l) [] (w.runBatch t level l parSafe threshold dirtied)
  | drain {lost taken : List Nat} {w : Worklist} {level : Nat → Nat} {l eidx : Nat} {left : List Nat} (t : DepTables)
      (dirtied : List Nat) (within : ∀ id, ∀ edge ∈ t.depEdges id, edge.entry < w.numEntries)
      (before : SettleRun lost (.draining level l) taken w) (bucket : w.buckets l = eidx :: left) :
      SettleRun lost (.draining level l) [] (w.drainEntry t level l eidx left dirtied)
  | nextLevel {lost taken : List Nat} {w : Worklist} {level : Nat → Nat} {l : Nat}
      (before : SettleRun lost (.draining level l) taken w) (empty : w.buckets l = []) :
      SettleRun lost (.entering level (l + 1)) [] w
  | nextSweep {lost taken : List Nat} {w : Worklist} {level : Nat → Nat}
      (before : SettleRun lost (.entering level (w.numLevels level)) taken w) (seeded : w.nextSeed ≠ []) :
      SettleRun lost (.between level) [] w.nextSweep
  | settled {lost taken : List Nat} {w : Worklist} {level : Nat → Nat}
      (before : SettleRun lost (.entering level (w.numLevels level)) taken w) (done : w.nextSeed = []) :
      SettleRun lost .idle [] w
  -- At the limit of sweeps the list is dropped with its flags set.
  | cutOff {lost taken : List Nat} {w : Worklist} {level : Nat → Nat}
      (before : SettleRun lost (.between level) taken w) :
      SettleRun (lost ++ w.nextList.filter w.triggered) .idle [] w.abandon

namespace Worklist

/-- What holds of a settle wherever it stands. -/
def Sound (lost : List Nat) : Phase → List Nat → Worklist → Prop
  | .idle, _, w => Settled lost w
  | .seeded, _, w => Listed lost w
  | .ready, _, w => Ready lost w
  | .passing, taken, w => InPass lost taken w
  | .between level, _, w => Between lost level w
  | .entering level l, _, w => InSweep lost level l w
  | .draining level l, _, w => InSweep lost level l w

/-- Every state that settles go through is sound. -/
theorem sound {lost : List Nat} {phase : Phase} {taken : List Nat} {w : Worklist}
    (run : SettleRun lost phase taken w) : Sound lost phase taken w := by
  induction run with
  | new =>
    exact ⟨InjectBits.summed_empty, InjectBits.has_empty, fun e set _ => (by cases set),
      fun e gone => (by cases gone)⟩
  | seed numEntries seeds within _ ih => exact Settled.seed ih within
  | nothing _ _ ih => exact Listed.toSettled ih
  | prepare _ _ ih => exact Listed.prepare ih
  | pass _ _ ih => exact Ready.beginPass ih
  | step t what within _ take ih => exact InPass.step ih within take
  | still _ done _ ih =>
    have listed := InPass.finished ih done
    exact ⟨listed.summed, listed.clear, listed.waiting, listed.astray⟩
  | again _ done _ ih => exact InPass.endPass ih done
  | leave _ ih => exact Ready.toListed ih |>.toSettled
  | sweeps level _ _ ih => exact Listed.beginSweeps ih
  | sweep _ ih => exact Between.beginSweep ih
  | serial _ _ ih => exact ih
  | batch t parSafe threshold dirtied within _ _ _ ih => exact InSweep.runBatch ih within
  | drain t dirtied within _ bucket ih => exact InSweep.drainEntry ih within bucket
  | nextLevel _ empty ih => exact InSweep.nextLevel ih empty
  | nextSweep _ _ ih => exact InSweep.nextSweep ih
  | settled _ done ih => exact InSweep.settled ih done
  | cutOff _ ih => exact Between.abandon ih

end Worklist

/-- The lists an entry that is triggered may be in. -/
inductive Place where
  | rest
  | injected
  | next

/-- A list holds an entry. -/
def Worklist.Holds (w : Worklist) (e : Nat) : Place → Prop
  | .rest => e ∈ w.rest
  | .injected => w.inject.has e = true
  | .next => e ∈ w.nextList

/-- A pass that took some entries is exact. -/
structure PassExact (taken : List Nat) (w : Worklist) : Prop where
  place : ∀ e, w.triggered e = true → ∃! place, w.Holds e place
  flagged : ∀ e place, w.Holds e place → w.triggered e = true
  once : w.rest.Nodup ∧ w.nextList.Nodup
  summary : ∀ word, slotSet w.inject.sum word = true ↔ w.inject.bits word ≠ 0#64
  least : LeastFrom w.inject.has 0 w.nextInject
  increasing : taken.Pairwise (· < ·)
  passed : ∀ e ∈ w.curList.take w.curPos, e ∈ taken
  take : ∀ eidx next, w.takeNext = some (eidx, next) → w.triggered eidx = true ∧ ∀ e ∈ taken, e < eidx
  finished : w.takeNext = none → ∀ e, w.triggered e = true → e ∈ w.nextList
  still : w.takeNext = none → w.evaluatedAny = false → ∀ e, w.drainGates.triggered e = false

namespace Worklist

/-- A pass in which no flag is lost is exact. -/
theorem InPass.passExact {taken : List Nat} {w : Worklist} (pass : InPass [] taken w) : PassExact taken w := by
  obtain ⟨lo, exact, -⟩ := pass.exact
  -- What waits is below the index of the pass, and what may still be taken is not.
  have early : ∀ e, e ∈ w.nextList → e ∉ w.rest ∧ w.inject.has e ≠ true := by
    intro e waiting
    have below := (exact.nextAt e waiting).1
    constructor
    · intro ahead
      have above := (exact.restAt e ahead).1
      omega
    · intro injected
      have above := (exact.injectAt e injected).1
      omega
  refine ⟨fun e set => ?_, fun e place holds => ?_, ⟨exact.sorted.imp Nat.ne_of_lt, exact.nextOnce⟩,
    exact.summed.marks, exact.least, pass.order, pass.passed, fun eidx next take => pass.takeNext take,
    fun done e set => (pass.finished done).waiting e set List.not_mem_nil,
    fun done quiet e => pass.still done quiet List.not_mem_nil⟩
  · rcases exact.placed e set List.not_mem_nil with ahead | injected | waiting
    · refine ⟨.rest, ahead, fun place holds => ?_⟩
      cases place with
      | rest => rfl
      | injected =>
        have clear := exact.apart e ahead
        rw [show w.inject.has e = true from holds] at clear
        cases clear
      | next => exact absurd ahead (early e holds).1
    · refine ⟨.injected, injected, fun place holds => ?_⟩
      cases place with
      | rest =>
        have clear := exact.apart e holds
        rw [injected] at clear
        cases clear
      | injected => rfl
      | next => exact absurd injected (early e holds).2
    · refine ⟨.next, waiting, fun place holds => ?_⟩
      cases place with
      | rest => exact absurd holds (early e waiting).1
      | injected => exact absurd holds (early e waiting).2
      | next => rfl
  · cases place with
    | rest => exact (exact.restAt e holds).2.2
    | injected => exact (exact.injectAt e holds).2.2
    | next => exact (exact.nextAt e holds).2.2

/-- A pass is not exact while a flag is lost. -/
theorem InPass.not_passExact {lost taken : List Nat} {w : Worklist} (pass : InPass lost taken w) {e : Nat}
    (gone : e ∈ lost) : ¬ PassExact taken w := by
  intro exact
  obtain ⟨lo, lists, -⟩ := pass.exact
  obtain ⟨set, apart, clear, unlisted⟩ := lists.astray e gone
  obtain ⟨place, holds, -⟩ := exact.place e set
  cases place with
  | rest => exact apart holds
  | injected =>
    rw [show w.inject.has e = true from holds] at clear
    cases clear
  | next => exact unlisted holds

end Worklist

/-- In a pass of a run of settles the worklist is exact before each step (a triggered entry is in exactly one list, the
summary and the least injected entry are right, and the entries are taken in strictly increasing order, each one
triggered and none left behind) exactly where no level-ordered settle before it was cut off with an entry still
triggered. The scan finds the least entry from any start on, for bitsets of any size. -/
theorem settle_worklist_exact_iff {lost taken : List Nat} {w : Worklist} (run : SettleRun lost .passing taken w) :
    (PassExact taken w ↔ lost = []) ∧
      ∀ b : InjectBits, b.Summed → ∀ start, LeastFrom b.has start (b.nextSetBit start) := by
  refine ⟨⟨fun exact => ?_, ?_⟩, fun b summed start => InjectBits.nextSetBit_spec summed start⟩
  · have pass : Worklist.InPass lost taken w := Worklist.sound run
    rw [List.eq_nil_iff_forall_not_mem]
    exact fun e gone => pass.not_passExact gone exact
  · rintro rfl
    have pass : Worklist.InPass [] taken w := Worklist.sound run
    exact pass.passExact

/-- Entry 65 reads the first signal, entry 0 the second. -/
def crossTables : DepTables :=
  ⟨fun id => if id = 0 then [⟨65, 1#64⟩] else if id = 1 then [⟨0, 1#64⟩] else [], fun _ => false, fun _ => false,
    fun _ => false, fun _ => false, false, fun _ => none⟩

/-- The entries of the tables are among the first seventy. -/
theorem crossTables_within : ∀ id, ∀ edge ∈ crossTables.depEdges id, edge.entry < 70 := by
  intro id edge member
  unfold crossTables at member
  dsimp only at member
  split_ifs at member
  · rw [List.mem_singleton.mp member]
    decide
  · rw [List.mem_singleton.mp member]
    decide
  · cases member

/-- Entries of one level. -/
theorem numLevels_flat (w : Worklist) : w.numLevels (fun _ => 0) = 1 := by
  unfold Worklist.numLevels
  cases most : ((List.range w.numEntries).map fun _ => 0).max? with
  | none => rfl
  | some top =>
    have member := (List.max?_eq_some_iff.mp most).1
    obtain ⟨-, -, rfl⟩ := List.mem_map.mp member
    rfl

/-- A sweep over seventy entries of one level, with the first one seeded. -/
def seededSweep : Worklist :=
  (Worklist.new.seed 70 [0]).beginSweeps.beginSweep fun _ => 0

/-- The sweep comes to its only level. -/
theorem seededSweep_run : SettleRun [] (.draining (fun _ => 0) 0) [] seededSweep := by
  refine .serial (.sweep (.sweeps _ (.seed 70 [0] (by decide) .new) (by decide))) ?_
  rw [numLevels_flat]
  exact Nat.one_pos

/-- The sweep after its entry ran and wrote some signals. -/
def sweptOnce (dirtied : List Nat) : Worklist :=
  seededSweep.drainEntry crossTables (fun _ => 0) 0 0 [] dirtied

/-- The sweep is at its end. -/
theorem sweptOnce_run (dirtied : List Nat) (empty : (sweptOnce dirtied).buckets 0 = []) :
    SettleRun [] (.entering (fun _ => 0) ((sweptOnce dirtied).numLevels fun _ => 0)) [] (sweptOnce dirtied) := by
  rw [numLevels_flat]
  exact .nextLevel (.drain crossTables dirtied crossTables_within seededSweep_run (by rfl)) empty

/-- The first pass of a settle after a sweep that triggered nothing, with the first entry seeded. -/
def seededPass : Worklist :=
  ((sweptOnce []).seed 70 [0]).prepare.beginPass

/-- The pass after its first entry wrote the signal that an entry of the next word reads. -/
def crossPass : Worklist :=
  seededPass.takeListed.visit crossTables 0 (.evaluated [(0, 1#64)])

/-- After a level-ordered settle that settled, an entry injected beyond the first word is the next one, and the only
one in the lists. -/
theorem settle_worklist_exact_crossPass :
    PassExact [0] crossPass ∧ ∀ b : InjectBits, b.Summed → ∀ start, LeastFrom b.has start (b.nextSetBit start) := by
  have swept : SettleRun [] .idle [] (sweptOnce []) := .settled (sweptOnce_run [] (by rfl)) (by rfl)
  have seeded : ((sweptOnce []).seed 70 [0]).nextList = [0] := by rfl
  have run : SettleRun [] .passing [0] crossPass :=
    @SettleRun.step [] [] _ _ _ crossTables (.evaluated [(0, 1#64)]) crossTables_within
      (.pass (.prepare (.seed 70 [0] (by decide) swept) (by decide)) (by decide))
      (by simp [Worklist.takeNext, seededPass, Worklist.beginPass, seeded, Worklist.prepare])
  exact ⟨(settle_worklist_exact_iff run).1.mpr rfl, (settle_worklist_exact_iff run).2⟩

/-- The first pass of a settle with entry 1 seeded, after a level-ordered one was cut off where entry 0 had triggered
itself again. -/
def pastLimit : Worklist :=
  ((sweptOnce [1]).nextSweep.abandon.seed 70 [1]).prepare.beginPass

/-- Entry 0 stays triggered in no list, and nothing will trigger it again. -/
theorem cut_off_sweep_loses_flag : SettleRun [0] .passing [] pastLimit ∧ ¬ PassExact [] pastLimit := by
  constructor
  · have cut : SettleRun [0] .idle [] (sweptOnce [1]).nextSweep.abandon :=
      .cutOff (.nextSweep (sweptOnce_run [1] (by rfl)) (by decide))
    exact .pass (.prepare (.seed 70 [1] (by decide) cut) (by decide)) (by decide)
  · intro exact
    have seeded : ((sweptOnce [1]).nextSweep.abandon.seed 70 [1]).prepare.nextList = [1] := by rfl
    obtain ⟨place, holds, -⟩ := exact.place 0 (by rfl)
    cases place with
    | rest => simp [Worklist.Holds, Worklist.rest, pastLimit, Worklist.beginPass, seeded] at holds
    | injected => cases holds
    | next => cases holds

end Xezim.Settle
