import Xezim.Vm.TsKept
import Xezim.Vm.Reference

/-! A forced signal keeps its value, and every other one is written as if nothing were forced. -/

namespace Xezim

open Function

/-- One step of a block, or of the end of a time step, that may write signals. -/
inductive WriteEvent where
  | blocking (op : BlockingOp)
  | nba (op : NbaOp)
  /-- A two-state executor's run of a stream, or what it did before it gave up and restored. -/
  | twoState (insns : List TsInsn) (calls : List TsCall)
  /-- `apply_nba`. -/
  | commit

section Events

variable [VmOps] (D : VmDesign)

/-- Carry out an event. -/
def WriteEvent.apply (s : VmSim) : WriteEvent → VmSim
  | .blocking op => op.apply D s
  | .nba op => op.apply D s
  | .twoState _ calls => runCalls D s calls
  | .commit => applyNba D s

/-- An event a run can reach: a blocking write through `write_sig!` or to a signal no force holds, a
nonblocking store call among the nonblocking ones, and a two-state run only of a stream that
`ts_writes_forced` let through. -/
def WriteEvent.Reached (s : VmSim) : WriteEvent → Prop
  | .blocking op => ∀ id, op.splices D = some id → s.forced id = false
  | .nba (.ts op) => ∀ u, op.update D.toDesign = some u → u.nba = true
  | .nba _ | .commit => True
  | .twoState insns calls =>
    tsWritesForced s.forced insns = false ∧ ∀ call ∈ calls, TsMakes D insns call

/-- Carry out the events of a run in order. -/
def runWrites (s : VmSim) (events : List WriteEvent) : VmSim :=
  events.foldl (fun s e => e.apply D s) s

/-- Every event is one the run reaches. -/
def RunReached : VmSim → List WriteEvent → Prop
  | _, [] => True
  | s, e :: rest => e.Reached D s ∧ RunReached (e.apply D s) rest

/-- The run in which every event is carried out as if nothing were forced and the forced values are
put back after it. -/
def runKept (s : VmSim) (events : List WriteEvent) : VmSim :=
  events.foldl (fun s e => keepForced s (e.apply D s.unforced)) s

/-- An event that a run reaches changes no forced signal, and everything else as if nothing were
forced. -/
theorem WriteEvent.apply_kept {s : VmSim} {e : WriteEvent} (reached : e.Reached D s) :
    e.apply D s = keepForced s (e.apply D s.unforced) := by
  cases e with
  | blocking op => exact BlockingOp.apply_kept D reached
  | nba op =>
    refine NbaOp.apply_kept D fun o same => ?_
    subst same
    exact reached
  | twoState insns calls => exact runCalls_kept D reached.1 reached.2
  | commit => exact applyNba_kept D s

omit [VmOps] in
/-- What keeps the forced values keeps the forces too. -/
theorem keepForced_held (after : VmSim) {s : VmSim} {id : Nat} (held : s.forced id = true) :
    (keepForced s after).forced id = true ∧
      (keepForced s after).signalTable id = s.signalTable id ∧
      (keepForced s after).packed id = s.packed id :=
  ⟨held, if_pos held, if_pos held⟩

/-- A kept run leaves every forced signal and packed cell at its value. -/
theorem runKept_held (events : List WriteEvent) {s : VmSim} {id : Nat} (held : s.forced id = true) :
    (runKept D s events).signalTable id = s.signalTable id ∧
      (runKept D s events).packed id = s.packed id := by
  induction events generalizing s with
  | nil => exact ⟨rfl, rfl⟩
  | cons e rest ih =>
    obtain ⟨still, table, cell⟩ := keepForced_held (e.apply D s.unforced) held
    obtain ⟨restTable, restCell⟩ := ih still
    exact ⟨restTable.trans table, restCell.trans cell⟩

/-- Every run carries out each of its writes as if nothing were forced, except that a forced signal
or packed cell keeps its value throughout. -/
theorem runWrites_kept {s : VmSim} {events : List WriteEvent} (reached : RunReached D s events) :
    runWrites D s events = runKept D s events ∧
      ∀ id, s.forced id = true →
        (runWrites D s events).signalTable id = s.signalTable id ∧
          (runWrites D s events).packed id = s.packed id := by
  have same : runWrites D s events = runKept D s events := by
    induction events generalizing s with
    | nil => rfl
    | cons e rest ih =>
      show runWrites D (e.apply D s) rest = runKept D (keepForced s (e.apply D s.unforced)) rest
      rw [ih reached.2, WriteEvent.apply_kept D reached.1]
  exact ⟨same, fun id held => same ▸ runKept_held D events held⟩

end Events

section Samples

attribute [local instance] referenceVmOps referenceVmOps_lawful

/-- Two four-bit signals at 5, the first of them forced. -/
def forcedSim : VmSim := { fourBitSim (fun _ => 5) with forced := fun id => id == 0 }

/-- A block that writes both signals, blocking and nonblocking, and the end of its time step. -/
def forcedWrites : List WriteEvent :=
  [.blocking (.assign 0 (fourBit 12) 4), .blocking (.bitDyn 1 (fourBit 1) (fourBit 1)),
    .nba (.assign 0 (fourBit 3) 4), .commit]

/-- The run of that block keeps the forced signal and writes the other one. -/
theorem runWrites_kept_forcedSim :
    runWrites fourBitDesign forcedSim forcedWrites = runKept fourBitDesign forcedSim forcedWrites ∧
      ∀ id, forcedSim.forced id = true →
        (runWrites fourBitDesign forcedSim forcedWrites).signalTable id =
            forcedSim.signalTable id ∧
          (runWrites fourBitDesign forcedSim forcedWrites).packed id = forcedSim.packed id := by
  refine runWrites_kept fourBitDesign (And.intro (fun id splices => ?_)
    (And.intro (fun id splices => ?_) ⟨trivial, trivial, trivial⟩))
  · cases splices
  · cases splices
    rfl

/-- Bits of signals held by forces, whole or in part. A part force puts its signal among the forced
ones as a whole forced one does. -/
def Forces (bits : Nat → Nat → Bool) (s : VmSim) : Prop :=
  ∀ id, s.forced id = true ↔ ∃ i, bits id i = true

/-- A force of bits 1 and 0 also keeps a whole write from bits 3 and 2. -/
theorem runWrites_not_bitwise :
    ¬ ∀ (bits : Nat → Nat → Bool) (s : VmSim) (events : List WriteEvent), Forces bits s →
      RunReached fourBitDesign s events → ∀ id i, bits id i = false →
        ((runWrites fourBitDesign s events).signalTable id).val.testBit i =
          ((runWrites fourBitDesign s.unforced events).signalTable id).val.testBit i := by
  intro claim
  have held : Forces (fun id i => id == 0 && decide (i < 2)) forcedSim := by
    intro id
    constructor
    · exact fun here => ⟨0, by simpa using beq_iff_eq.mp here⟩
    · rintro ⟨i, here⟩
      exact (Bool.and_eq_true _ _ ▸ here).1
  -- Bit 3 would become set by the write of 12, and it stays clear.
  have bit := claim _ _ [.blocking (.assign 0 (fourBit 12) 4)] held
    (And.intro (fun _ splices => nomatch splices) trivial) 0 3 rfl
  exact absurd bit (by decide)

end Samples

end Xezim
