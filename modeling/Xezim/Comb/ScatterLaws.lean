import Xezim.Comb.CommitFrame
import Xezim.Comb.Scatter

/-! Batched gates and the single gates they stand for. -/

namespace Xezim.Comb

open Splice

section Lanes

/-- A lane of two words. -/
theorem laneBit_eq (val xz : Word) (i : Nat) :
    laneBit val xz i = (val.getLsbD i).toNat + 2 * (xz.getLsbD i).toNat := by
  rw [laneBit, BitVec.or_comm, wordCode_eq]

/-- It is one of the four codes. -/
theorem laneBit_lt (val xz : Word) (i : Nat) : laneBit val xz i < 4 := by
  rw [laneBit_eq]
  cases val.getLsbD i <;> cases xz.getLsbD i <;> decide

/-- Every lane is in the mask. -/
theorem getLsbD_laneMask {width i : Nat} (word : width ≤ 64) (lane : i < width) :
    (laneMask width).getLsbD i = true := by
  unfold laneMask
  -- A full word is all ones, and a narrower mask is one bit shifted up less one.
  split
  · rw [BitVec.getLsbD_allOnes, decide_eq_true (by omega)]
  · have mask : (1 : Word) <<< width - 1 = xmask width := by
      rw [xmask, if_neg (by omega)]
      congr 1
      apply BitVec.eq_of_toNat_eq
      rw [BitVec.toNat_shiftLeft, BitVec.toNat_ofNat, Nat.shiftLeft_eq, show BitVec.toNat (1 : Word) = 1 from rfl,
        Nat.one_mul]
    rw [mask, getLsbD_xmask]
    simp
    omega

/-- The planes of a two-input gate compute it in every lane. -/
theorem GateBin.planes_lane (op : GateBin) {mask : Word} {i : Nat} (lane : mask.getLsbD i = true) (inside : i < 64)
    (av ax bv bx : Word) :
    laneBit (op.planes mask av ax bv bx).1 (op.planes mask av ax bv bx).2 i =
      op.eval (laneBit av ax i) (laneBit bv bx i) := by
  simp only [laneBit_eq]
  cases op <;>
    simp only [GateBin.planes, GateBin.eval, BitVec.getLsbD_and, BitVec.getLsbD_or, BitVec.getLsbD_xor,
      BitVec.getLsbD_not, lane, inside, decide_true, Bool.true_and, Bool.and_true] <;>
    -- The sixteen pairs of codes.
    cases av.getLsbD i <;> cases ax.getLsbD i <;> cases bv.getLsbD i <;> cases bx.getLsbD i <;> rfl

/-- Inverted planes invert every lane. -/
theorem invert_lane {mask : Word} {i : Nat} (lane : mask.getLsbD i = true) (inside : i < 64) (v x : Word) :
    laneBit (~~~v &&& ~~~x &&& mask) x i = not4 (laneBit v x i) := by
  simp only [laneBit_eq, BitVec.getLsbD_and, BitVec.getLsbD_not, lane, inside, decide_true, Bool.true_and,
    Bool.and_true]
  cases v.getLsbD i <;> cases x.getLsbD i <;> rfl

variable [GateOps] [LawfulGateOps]

/-- A lane of a source is the bit it reads. -/
theorem vectorRefBits_lane {view : View} {r : VectorRef} {width i : Nat} (fits : (view r.sigId).Fits)
    (inside : r.lo + width ≤ (view r.sigId).width) (word : width ≤ 64) (lane : i < width) :
    laneBit (vectorRefBits view r width).1 (vectorRefBits view r width).2 i = codeAt view (r.lane i) := by
  have bit : (r.lane i).bit < (view (r.lane i).sigId).width := by
    simp only [VectorRef.lane]
    omega
  rw [codeAt, LawfulGateOps.getBitCode_eq _ _ bit, vectorRefBits, LawfulValueOps.slice_planes _ _ _ word fits,
    laneBit_eq]
  have within : i < 64 := by omega
  simp only [BitVec.getLsbD_ofNat, within, decide_true, Bool.true_and, testBit_window, lane, planeCode, VectorRef.lane]

/-- A lane of the batch is its single gate. -/
theorem scatterGateEval_lane {view : View} (gateDriven : Nat → Bool) {op : ScatterGate} {i dst : Nat}
    (sources : ∀ r ∈ op.sources, (view r.sigId).Fits ∧ r.lo + op.width ≤ (view r.sigId).width)
    (word : op.width ≤ 64) (lane : i < op.width) (copies : op.copies = true → gateDriven dst = false) :
    fusedGateEval view gateDriven (op.gate i dst) =
      ({ sigId := dst, bit := 0 }, laneBit (scatterGateEval view op).1 (scatterGateEval view op).2 i) := by
  have mask := getLsbD_laneMask word lane
  have inside : i < 64 := by omega
  cases op with
  | buf dsts src width invert =>
    obtain ⟨fits, within⟩ := sources src (by simp [ScatterGate.sources])
    simp only [ScatterGate.width] at mask within word lane
    have read := vectorRefBits_lane fits within word lane
    simp only [ScatterGate.gate, fusedGateEval, scatterGateEval]
    cases invert with
    | true => rw [if_pos rfl, if_pos rfl, invert_lane mask inside, read]
    | false =>
      -- A copied z stays z: no destination is a gate's.
      have free : gateDriven dst = false := copies rfl
      simp only [Bool.false_eq_true, if_false, free, and_false]
      rw [read]
  | bin dsts a b width op invert =>
    obtain ⟨fitsA, withinA⟩ := sources a (by simp [ScatterGate.sources])
    obtain ⟨fitsB, withinB⟩ := sources b (by simp [ScatterGate.sources])
    simp only [ScatterGate.width] at mask withinA withinB word lane
    have readA := vectorRefBits_lane fitsA withinA word lane
    have readB := vectorRefBits_lane fitsB withinB word lane
    have planes := op.planes_lane mask inside (vectorRefBits view a width).1 (vectorRefBits view a width).2
      (vectorRefBits view b width).1 (vectorRefBits view b width).2
    rw [readA, readB] at planes
    simp only [ScatterGate.gate, fusedGateEval, scatterGateEval]
    cases invert with
    | true => rw [if_pos rfl, if_pos rfl, invert_lane mask inside, planes]
    | false => rw [if_neg (by decide), if_neg (by decide), planes]

end Lanes

namespace CommitSim

variable {s : CommitSim}

/-- A bit of the table and a code driven to it, as a commit meets them. -/
def site (sized : s.Sized) {dst : BitRef} (has : s.HasBit dst) (newBit : Fin 4) : GateSite where
  sim := s
  dst := dst
  newBit := newBit
  width := sized.width _ has.1
  fits := sized.fits _ has.1
  inside := has.2
  inTable := has.1
  quiet := fun valid => sized.quiet valid dst.sigId

/-- The planned commit of a code to a destination is the generic one. -/
def LaneSafe (s : CommitSim) (id newBit : Nat) : Prop :=
  s.delayedNow (s.sdfDelays ≠ []) id = true ∨ s.forcedSignals id = none ∨ s.code { sigId := id, bit := 0 } = newBit

/-- A safe lane stays so while the other lanes are committed. -/
theorem LaneSafe.congr {t : CommitSim} (settings : t.settings = s.settings) {id : Nat}
    (kept : t.signalTable id = s.signalTable id) (newBit : Nat) : t.LaneSafe id newBit ↔ s.LaneSafe id newBit := by
  have delays : t.sdfDelays = s.sdfDelays := congrArg Settings.sdfDelays settings
  have time : t.time = s.time := congrArg Settings.time settings
  have forced : t.forcedSignals = s.forcedSignals := congrArg Settings.forcedSignals settings
  simp only [LaneSafe, delayedNow, code, delays, time, forced, kept]

/-- The commit path depends on the settings alone. -/
theorem fusedBatchCommitState_congr {t : CommitSim} (settings : t.settings = s.settings) :
    t.fusedBatchCommitState = s.fusedBatchCommitState := by
  -- The settings fix whether a mirror is kept.
  have mirror : t.signalInlineBits = [] ↔ s.signalInlineBits = [] := by
    rw [← List.length_eq_zero_iff, ← List.length_eq_zero_iff, show t.signalInlineBits.length = s.signalInlineBits.length
      from congrArg Settings.mirrored settings]
  -- Everything the state is computed from is a setting.
  unfold fusedBatchCommitState
  simp only [ne_eq, mirror,
    show t.signalCommitPlan = s.signalCommitPlan from congrArg Settings.signalCommitPlan settings,
    show t.valueTraceIds = s.valueTraceIds from congrArg Settings.valueTraceIds settings,
    show t.dumpDirtyActive = s.dumpDirtyActive from congrArg Settings.dumpDirtyActive settings,
    show t.activeForceExprs = s.activeForceExprs from congrArg Settings.activeForceExprs settings,
    show t.eventMeasure = s.eventMeasure from congrArg Settings.eventMeasure settings,
    show t.armedEdge = s.armedEdge from congrArg Settings.armedEdge settings,
    show t.dirtyEdge = s.dirtyEdge from congrArg Settings.dirtyEdge settings,
    show t.dirtyEdgeShadow = s.dirtyEdgeShadow from congrArg Settings.dirtyEdgeShadow settings,
    show t.inEdgeBlock = s.inEdgeBlock from congrArg Settings.inEdgeBlock settings,
    show t.inEdgeCont = s.inEdgeCont from congrArg Settings.inEdgeCont settings]

variable [GateOps] [LawfulGateOps]

/-- A bit of the table is read as its code. -/
theorem codeAt_eq (sized : s.Sized) {b : BitRef} (has : s.HasBit b) : codeAt s.signalTable b = s.code b :=
  LawfulGateOps.getBitCode_eq _ _ (by rw [sized.width _ has.1]; exact has.2)

/-- A safe lane is committed alike on both paths. -/
theorem planned_of_safe (sized : s.Sized) {id : Nat} (inTable : id < s.tableLen) (one : s.signalWidths id = 1)
    {edge armed : Bool} (state : s.fusedBatchCommitState = some (edge, armed)) {newBit : Nat} (low : newBit < 4)
    (safe : s.LaneSafe id newBit) :
    s.fusedScalarCommitPlanned id newBit (s.sdfDelays ≠ []) edge armed =
      s.fusedBitCommit { sigId := id, bit := 0 } newBit (s.sdfDelays ≠ []) := by
  have has : s.HasBit { sigId := id, bit := 0 } := ⟨inTable, by rw [one]; exact Nat.one_pos⟩
  exact GateSite.planned_agrees (g := s.site sized has ⟨newBit, low⟩) one state safe

/-- Only the planned path reports an unsafe lane. -/
theorem planned_of_unsafe (sized : s.Sized) {id : Nat} (inTable : id < s.tableLen) (one : s.signalWidths id = 1)
    {edge armed : Bool} (state : s.fusedBatchCommitState = some (edge, armed)) {newBit : Nat} (low : newBit < 4)
    (unsafe' : ¬ s.LaneSafe id newBit) :
    (s.fusedScalarCommitPlanned id newBit (s.sdfDelays ≠ []) edge armed).2 = true ∧
      (s.fusedBitCommit { sigId := id, bit := 0 } newBit (s.sdfDelays ≠ [])).2 = false := by
  -- The net is scalar, so its first bit is its only one.
  have has : s.HasBit { sigId := id, bit := 0 } := ⟨inTable, by rw [one]; exact Nat.one_pos⟩
  simp only [LaneSafe, not_or] at unsafe'
  obtain ⟨now, forced, differs⟩ := unsafe'
  obtain ⟨fv, forced⟩ := Option.ne_none_iff_exists'.mp forced
  -- The planned commit stores the code and reports the change.
  constructor
  · have planned := GateSite.planned_eq (g := s.site sized has ⟨newBit, low⟩) one state
    exact congrArg Prod.snd (planned.trans ((if_neg now).trans (if_neg differs)))
  · -- The generic one holds the net and reports nothing.
    exact GateSite.generic_unreported (g := s.site sized has ⟨newBit, low⟩) forced

end CommitSim

section Runs

variable {α β : Type}

/-- Only destinations are reported. -/
theorem commitEach_marks {bitOf : CommitSim → α → BitRef × Nat}
    {commit : CommitSim → BitRef → Nat → CommitSim × Bool} {n : α → Nat}
    (dst : ∀ s a, (bitOf s a).1.sigId = n a) (l : List α) (s : CommitSim) :
    ∀ x ∈ (commitEach bitOf commit l s).2, x ∈ l.map n := by
  -- A mark is the destination of the gate that was committed.
  induction l generalizing s with
  | nil => simp [commitEach]
  | cons a rest ih =>
    intro x marked
    simp only [commitEach] at marked
    rw [List.map_cons, List.mem_cons]
    split at marked
    · rcases List.mem_cons.mp marked with here | later
      · exact .inl (here.trans (dst s a))
      · exact .inr (ih _ x later)
    · exact .inr (ih _ x marked)

/-- Loops whose steps agree wherever an invariant holds do the same. -/
theorem commitEach_congr {I : CommitSim → Prop} {f : CommitSim → α → BitRef × Nat} {g : CommitSim → β → BitRef × Nat}
    {commit other : CommitSim → BitRef → Nat → CommitSim × Bool} (h : α → β) (l : List α)
    (bits : ∀ s, I s → ∀ a ∈ l, g s (h a) = f s a)
    (same : ∀ s, I s → ∀ a ∈ l, other s (f s a).1 (f s a).2 = commit s (f s a).1 (f s a).2)
    (keeps : ∀ s, I s → ∀ a ∈ l, I (commit s (f s a).1 (f s a).2).1) (s : CommitSim) (inv : I s) :
    commitEach f commit l s = commitEach g other (l.map h) s := by
  -- The invariant is carried through the commits, and under it the two runs agree step by step.
  induction l generalizing s with
  | nil => rfl
  | cons a rest ih =>
    have tail := ih (fun s inv a here => bits s inv a (List.mem_cons_of_mem _ here))
      (fun s inv a here => same s inv a (List.mem_cons_of_mem _ here))
      (fun s inv a here => keeps s inv a (List.mem_cons_of_mem _ here))
    have head : a ∈ a :: rest := List.mem_cons_self
    simp only [List.map_cons, commitEach]
    rw [bits s inv a head, same s inv a head, tail _ (keeps s inv a head)]

end Runs

namespace ScatterGate

/-- What the compiler checks before it joins single gates: one destination a lane, distinct one-bit signals, none of
them read, the source lanes declared, and no copy onto a net that a gate drives. -/
structure Built (op : ScatterGate) (s : CommitSim) (gateDriven : Nat → Bool) : Prop where
  lanes : op.dsts.length = op.width
  word : 1 ≤ op.width ∧ op.width ≤ 64
  distinct : op.dsts.Nodup
  scalar : ∀ d ∈ op.dsts, d < s.tableLen ∧ s.signalWidths d = 1
  sources : ∀ r ∈ op.sources, r.sigId ∉ op.dsts ∧ r.sigId < s.tableLen ∧ r.lo + op.width ≤ s.signalWidths r.sigId
  copies : op.copies = true → ∀ d ∈ op.dsts, gateDriven d = false

/-- The code a lane drives. -/
def laneCode [GateOps] (op : ScatterGate) (gateDriven : Nat → Bool) (view : View) (l : Nat × Nat) : Nat :=
  (fusedGateEval view gateDriven (op.gate l.2 l.1)).2

variable [GateOps] {op : ScatterGate} {gateDriven : Nat → Bool}

/-- The gate of a lane reads the sources only. -/
theorem gate_congr {view other : View} (l : Nat × Nat) (same : ∀ r ∈ op.sources, other r.sigId = view r.sigId) :
    fusedGateEval other gateDriven (op.gate l.2 l.1) = fusedGateEval view gateDriven (op.gate l.2 l.1) := by
  have read : ∀ r ∈ op.sources, codeAt other (r.lane l.2) = codeAt view (r.lane l.2) := by
    intro r source
    rw [codeAt, codeAt]
    exact congrArg (GateOps.getBitCode · (r.lane l.2).bit) (same r source)
  cases op with
  | buf _ src _ invert => simp only [gate, fusedGateEval, read src (by simp [sources])]
  | bin _ a b _ op invert => simp only [gate, fusedGateEval, read a (by simp [sources]), read b (by simp [sources])]

/-- It drives the destination of the lane. -/
theorem gate_dst (view : View) (l : Nat × Nat) :
    (fusedGateEval view gateDriven (op.gate l.2 l.1)).1 = { sigId := l.1, bit := 0 } := by
  cases op <;> rfl

variable [LawfulGateOps] {s : CommitSim}

omit [GateOps] [LawfulGateOps] in
/-- The destination of a lane is one of the batch. -/
theorem dst_mem {l : Nat × Nat} (here : l ∈ op.dsts.zipIdx) : l.1 ∈ op.dsts := by
  rw [(List.mem_zipIdx here).2.2]
  exact List.getElem_mem _

/-- The lanes of a built batch are its single gates. -/
theorem Built.lane (built : op.Built s gateDriven) (sized : s.Sized) {l : Nat × Nat} (here : l ∈ op.dsts.zipIdx) :
    fusedGateEval s.signalTable gateDriven (op.gate l.2 l.1) =
      ({ sigId := l.1, bit := 0 },
        laneBit (scatterGateEval s.signalTable op).1 (scatterGateEval s.signalTable op).2 l.2) := by
  obtain ⟨-, below, -⟩ := List.mem_zipIdx here
  -- The lane is one of the word's, and its sources are whole entries of the tables.
  refine scatterGateEval_lane gateDriven ?_ built.word.2 ?_ ?_
  · intro r source
    obtain ⟨-, inTable, inside⟩ := built.sources r source
    exact ⟨sized.fits _ inTable, by rw [sized.width _ inTable]; exact inside⟩
  · rw [← built.lanes]
    omega
  · intro copies
    exact built.copies copies l.1 (dst_mem here)

/-- While the destinations are written, the sources stay as they were. -/
structure Between (op : ScatterGate) (start s : CommitSim) : Prop where
  sized : s.Sized
  settings : s.settings = start.settings
  sources : ∀ r ∈ op.sources, s.signalTable r.sigId = start.signalTable r.sigId

/-- A committed lane keeps that. -/
theorem Between.step {start : CommitSim} (built : op.Built start gateDriven) (between : op.Between start s) {id : Nat}
    (dst : id ∈ op.dsts) {newBit : Nat} (low : newBit < 4) (sdfAny : Bool) :
    op.Between start (s.fusedBitCommit { sigId := id, bit := 0 } newBit sdfAny).1 := by
  -- The destination is a scalar net of the table.
  obtain ⟨inTable, one⟩ := built.scalar id dst
  have has : s.HasBit { sigId := id, bit := 0 } :=
    CommitSim.HasBit.congr between.settings ⟨inTable, by rw [one]; exact Nat.one_pos⟩
  refine ⟨CommitSim.fusedBitCommit_sized between.sized has low sdfAny,
    (CommitSim.fusedBitCommit_settings _ _ _ _).trans between.settings, ?_⟩
  -- No source is among the destinations, so no source changes.
  intro r source
  have apart : r.sigId ≠ id := fun same => (built.sources r source).1 (same ▸ dst)
  rw [CommitSim.fusedBitCommit_signalTable _ _ _ _ apart]
  exact between.sources r source

omit [GateOps] [LawfulGateOps] in
/-- A lane yet to be committed, its signal declared and the path still the planned one. -/
theorem Between.lane {start : CommitSim} (built : op.Built start gateDriven) (between : op.Between start s) {id : Nat}
    (dst : id ∈ op.dsts) : id < s.tableLen ∧ s.signalWidths id = 1 := by
  obtain ⟨inTable, one⟩ := built.scalar id dst
  constructor
  · rw [show s.tableLen = start.tableLen from congrArg CommitSim.Settings.tableLen between.settings]
    exact inTable
  · rw [show s.signalWidths = start.signalWidths from congrArg CommitSim.Settings.signalWidths between.settings]
    exact one

/-- On the planned path the lanes do what their gates do precisely when each of them is safe. -/
theorem planned_lanes {start : CommitSim} (built : op.Built start gateDriven) {edge armed : Bool}
    (state : start.fusedBatchCommitState = some (edge, armed)) (code : Nat × Nat → Nat) (lanes : List (Nat × Nat))
    (drives : ∀ l ∈ lanes, code l < 4 ∧
      fusedGateEval start.signalTable gateDriven (op.gate l.2 l.1) = ({ sigId := l.1, bit := 0 }, code l))
    (dsts : ∀ l ∈ lanes, l.1 ∈ op.dsts) (distinct : (lanes.map Prod.fst).Nodup) (s : CommitSim)
    (between : op.Between start s) :
    let batch := commitEach (fun _ l => (({ sigId := l.1, bit := 0 } : BitRef), code l))
      (fun s dst newBit => s.fusedScalarCommitPlanned dst.sigId newBit (start.sdfDelays ≠ []) edge armed) lanes s
    let single := execFusedGates gateDriven (lanes.map fun l => op.gate l.2 l.1) s
    batch.1.signalTable = single.1.signalTable ∧ batch.2 = single.2 ↔ ∀ l ∈ lanes, s.LaneSafe l.1 (code l) := by
  induction lanes generalizing s with
  | nil => simp [commitEach, execFusedGates]
  | cons l rest ih =>
    rw [List.forall_mem_cons] at drives dsts
    rw [List.map_cons, List.nodup_cons] at distinct
    obtain ⟨⟨low, eval⟩, drives⟩ := drives
    obtain ⟨inTable, one⟩ := between.lane built dsts.1
    have state' := (CommitSim.fusedBatchCommitState_congr between.settings).trans state
    have delays : s.sdfDelays = start.sdfDelays := congrArg CommitSim.Settings.sdfDelays between.settings
    -- The gate of the lane reads the sources as they were.
    have eval' := (gate_congr l between.sources).trans eval
    simp only [List.map_cons, execFusedGates, commitEach, List.forall_mem_cons, eval', ← delays]
    by_cases safe : s.LaneSafe l.1 (code l)
    · -- Both paths take the same step, and the rest decides.
      rw [CommitSim.planned_of_safe between.sized inTable one state' low safe]
      have tail := ih drives dsts.2 distinct.2 _ (between.step built dsts.1 low (decide (s.sdfDelays ≠ [])))
      have others : ∀ l' ∈ rest, (s.fusedBitCommit { sigId := l.1, bit := 0 } (code l)
          (s.sdfDelays ≠ [])).1.LaneSafe l'.1 (code l') ↔ s.LaneSafe l'.1 (code l') := by
        intro l' later
        have apart : l'.1 ≠ l.1 := fun same => distinct.1 (same ▸ List.mem_map_of_mem later)
        exact CommitSim.LaneSafe.congr (CommitSim.fusedBitCommit_settings _ _ _ _)
          (CommitSim.fusedBitCommit_signalTable _ _ _ _ apart) _
      rw [forall₂_congr others] at tail
      simp only [← delays] at tail
      clear others
      generalize s.fusedBitCommit { sigId := l.1, bit := 0 } (code l) (s.sdfDelays ≠ []) = r at tail ⊢
      refine Iff.trans ?_ (tail.trans (by simp [safe]))
      split
      · exact and_congr Iff.rfl (by rw [List.cons.injEq, eq_self_iff_true, true_and]; rfl)
      · exact Iff.rfl
    · -- The planned path reports the destination, its gate and the gates after it do not.
      obtain ⟨reported, silent⟩ := CommitSim.planned_of_unsafe between.sized inTable one state' low safe
      refine iff_of_false ?_ (fun all => safe all.1)
      rintro ⟨-, marks⟩
      simp only [reported, silent, if_true, Bool.false_eq_true, if_false] at marks
      have mine := List.mem_cons_self (a := l.1)
        (l := (commitEach (fun _ l => (({ sigId := l.1, bit := 0 } : BitRef), code l))
          (fun s' dst newBit => s'.fusedScalarCommitPlanned dst.sigId newBit (s.sdfDelays ≠ []) edge armed) rest
          (s.fusedScalarCommitPlanned l.1 (code l) (s.sdfDelays ≠ []) edge armed).1).2)
      rw [marks] at mine
      have among := commitEach_marks (n := fun gate => gate.dst.sigId) (fun s op => by cases op <;> rfl) _ _ _ mine
      rw [List.map_map] at among
      refine distinct.1 ?_
      convert among using 2
      funext l'
      cases op <;> rfl

/-- On the generic path the lanes do what their gates do. -/
theorem generic_lanes {start : CommitSim} (built : op.Built start gateDriven) (code : Nat × Nat → Nat)
    (lanes : List (Nat × Nat))
    (drives : ∀ l ∈ lanes, code l < 4 ∧
      fusedGateEval start.signalTable gateDriven (op.gate l.2 l.1) = ({ sigId := l.1, bit := 0 }, code l))
    (dsts : ∀ l ∈ lanes, l.1 ∈ op.dsts) (sized : start.Sized) :
    commitEach (fun _ l => (({ sigId := l.1, bit := 0 } : BitRef), code l))
        (fun s dst newBit => s.fusedBitCommit dst newBit (start.sdfDelays ≠ [])) lanes start =
      execFusedGates gateDriven (lanes.map fun l => op.gate l.2 l.1) start := by
  refine commitEach_congr (I := op.Between start) _ lanes ?_ ?_ ?_ start ⟨sized, rfl, fun _ _ => rfl⟩
  · intro s between l here
    exact (gate_congr l between.sources).trans (drives l here).2
  · intro s between l here
    rw [show s.sdfDelays = start.sdfDelays from congrArg CommitSim.Settings.sdfDelays between.settings]
  · intro s between l here
    exact between.step built (dsts l here) (drives l here).1 _

end ScatterGate

section Fanouts

/-- An inverted code is one of four. -/
theorem not4_lt (c : Nat) : not4 c < 4 := by
  unfold not4
  split
  · decide
  · split <;> decide

variable [GateOps]

/-- A destination of a buffer fanout gets what its buffer would drive. -/
theorem bufFanout_bit (gateDriven : Nat → Bool) (view : View) (src dst : BitRef) (invert : Bool) :
    fusedGateEval view gateDriven (.buf1 dst src invert) =
      (dst, fusedBufDstBit gateDriven dst (fusedBufSrcBit view src invert) invert) := by
  cases invert <;> simp [fusedGateEval, fusedBufDstBit, fusedBufSrcBit]

/-- A branch of an and fanout gets what its gate would drive. -/
theorem andFanout_bit (gateDriven : Nat → Bool) (view : View) (common : BitRef) (branch : FusedAndBranch)
    (invert : Bool) :
    fusedGateEval view gateDriven (.bin2 branch.dst common branch.other .and invert) =
      (branch.dst, fusedAndBranchBit view (codeAt view common) branch invert) := rfl

variable [LawfulGateOps]

/-- So is what a fanout drives. -/
theorem bufDstBit_lt (gateDriven : Nat → Bool) {s : CommitSim} (sized : s.Sized) {src : BitRef} (has : s.HasBit src)
    (dst : BitRef) (invert : Bool) :
    fusedBufDstBit gateDriven dst (fusedBufSrcBit s.signalTable src invert) invert < 4 := by
  -- The source bit is a code whether it is inverted or not.
  have source : fusedBufSrcBit s.signalTable src invert < 4 := by
    unfold fusedBufSrcBit
    dsimp only
    split
    · exact not4_lt _
    · rw [CommitSim.codeAt_eq sized has]
      exact CommitSim.code_lt _ _
  unfold fusedBufDstBit
  split
  · decide
  · exact source

omit [LawfulGateOps] in
/-- So is what a branch drives. -/
theorem andBranchBit_lt (view : View) (commonCode : Nat) (branch : FusedAndBranch) (invert : Bool) :
    fusedAndBranchBit view commonCode branch invert < 4 := by
  unfold fusedAndBranchBit
  dsimp only
  split <;> grind

/-- While other bits are written, a bit stays as it was. -/
structure Beside (src : BitRef) (start s : CommitSim) : Prop where
  sized : s.Sized
  settings : s.settings = start.settings
  code : s.code src = start.code src

/-- A commit of another bit keeps that. -/
theorem Beside.step {src : BitRef} {start s : CommitSim} (beside : Beside src start s) (has : start.HasBit src)
    {dst : BitRef} (hasDst : start.HasBit dst) (other : dst ≠ src) {newBit : Nat} (low : newBit < 4) (sdfAny : Bool) :
    Beside src start (s.fusedBitCommit dst newBit sdfAny).1 := by
  have here := CommitSim.HasBit.congr beside.settings has
  have hereDst := CommitSim.HasBit.congr beside.settings hasDst
  exact ⟨CommitSim.fusedBitCommit_sized beside.sized hereDst low sdfAny,
    (CommitSim.fusedBitCommit_settings _ _ _ _).trans beside.settings,
    (CommitSim.fusedBitCommit_code beside.sized hereDst here low sdfAny (Ne.symm other)).trans beside.code⟩

/-- The bit is read as it was. -/
theorem Beside.codeAt_eq {src : BitRef} {start s : CommitSim} (beside : Beside src start s) (sized : start.Sized)
    (has : start.HasBit src) : codeAt s.signalTable src = codeAt start.signalTable src := by
  rw [CommitSim.codeAt_eq beside.sized (CommitSim.HasBit.congr beside.settings has), CommitSim.codeAt_eq sized has,
    beside.code]

/-- A buffer fanout is its buffers, one after the other. -/
theorem execFusedBufFanout_eq (gateDriven : Nat → Bool) {s : CommitSim} (sized : s.Sized) {src : BitRef}
    (has : s.HasBit src) (dsts : List BitRef) (others : ∀ d ∈ dsts, s.HasBit d ∧ d ≠ src) (invert : Bool) :
    execFusedBufFanout gateDriven src dsts invert s =
      execFusedGates gateDriven (dsts.map fun dst => .buf1 dst src invert) s := by
  -- No destination is the source, so the source bit stays what it was.
  refine commitEach_congr (I := Beside src s) _ dsts ?_ ?_ ?_ s ⟨sized, rfl, rfl⟩
  · intro t beside dst _
    rw [bufFanout_bit, fusedBufSrcBit, beside.codeAt_eq sized has]
    rfl
  · intro t beside dst _
    rw [show t.sdfDelays = s.sdfDelays from congrArg CommitSim.Settings.sdfDelays beside.settings]
  · intro t beside dst here
    exact beside.step has (others dst here).1 (others dst here).2 (bufDstBit_lt gateDriven sized has dst invert) _

/-- An and fanout is its gates, one after the other. -/
theorem execFusedAndFanout_eq (gateDriven : Nat → Bool) {s : CommitSim} (sized : s.Sized) {common : BitRef}
    (has : s.HasBit common) (branches : List FusedAndBranch)
    (others : ∀ b ∈ branches, s.HasBit b.dst ∧ b.dst ≠ common) (invert : Bool) :
    execFusedAndFanout common branches invert s =
      execFusedGates gateDriven (branches.map fun b => .bin2 b.dst common b.other .and invert) s := by
  refine commitEach_congr (I := Beside common s) _ branches ?_ ?_ ?_ s ⟨sized, rfl, rfl⟩
  · intro t beside branch _
    rw [andFanout_bit, beside.codeAt_eq sized has]
  · intro t beside branch _
    rw [show t.sdfDelays = s.sdfDelays from congrArg CommitSim.Settings.sdfDelays beside.settings]
  · intro t beside branch here
    exact beside.step has (others branch here).1 (others branch here).2 (andBranchBit_lt _ _ _ _) _

end Fanouts

/-- An entry of several gates in a simulator, as the compiler builds it: a scatter gate checked, and a fanout whose
shared bit is none of its destinations. -/
def GateBatch.Built (s : CommitSim) (gateDriven : Nat → Bool) : GateBatch → Prop
  | .scatter op => op.Built s gateDriven
  | .bufFanout src dsts _ => s.HasBit src ∧ ∀ d ∈ dsts, s.HasBit d ∧ d ≠ src
  | .andFanout common branches _ => s.HasBit common ∧ ∀ b ∈ branches, s.HasBit b.dst ∧ b.dst ≠ common

/-- An entry of several gates and the simulator it runs in. -/
structure BatchSite where
  sim : CommitSim
  gateDriven : Nat → Bool
  batch : GateBatch
  sized : sim.Sized
  built : batch.Built sim gateDriven

namespace BatchSite

variable [GateOps] (g : BatchSite)

/-- The entry leaves the values of its gates run one by one, and reports the same destinations. -/
structure GatesExact : Prop where
  values : (g.batch.exec g.gateDriven g.sim).1.signalTable =
    (execFusedGates g.gateDriven g.batch.gates g.sim).1.signalTable
  reports : (g.batch.exec g.gateDriven g.sim).2 = (execFusedGates g.gateDriven g.batch.gates g.sim).2

/-- A scatter gate on the planned path drives no forced destination with another bit than it has, delayed
destinations apart. -/
def ForceSafe : Prop :=
  match g.batch with
  | .scatter op => g.sim.fusedBatchCommitState.isSome → ∀ l ∈ op.dsts.zipIdx,
      g.sim.LaneSafe l.1 (op.laneCode g.gateDriven g.sim.signalTable l)
  | _ => True

variable [LawfulGateOps]

/-- Without a batch state a scatter gate does what its gates do. -/
theorem scatter_generic {s : CommitSim} {gateDriven : Nat → Bool} {op : ScatterGate} (sized : s.Sized)
    (built : op.Built s gateDriven) (state : s.fusedBatchCommitState = none) :
    execScatterGate op s = execFusedGates gateDriven (op.dsts.zipIdx.map fun l => op.gate l.2 l.1) s := by
  rw [← ScatterGate.generic_lanes built _ op.dsts.zipIdx (fun l here => ⟨laneBit_lt _ _ _, built.lane sized here⟩)
    (fun l here => ScatterGate.dst_mem here) sized, execScatterGate]
  simp only [state]

/-- With one it does so precisely when every lane is safe. -/
theorem scatter_planned {s : CommitSim} {gateDriven : Nat → Bool} {op : ScatterGate} (sized : s.Sized)
    (built : op.Built s gateDriven) {edge armed : Bool} (state : s.fusedBatchCommitState = some (edge, armed)) :
    let single := execFusedGates gateDriven (op.dsts.zipIdx.map fun l => op.gate l.2 l.1) s
    (execScatterGate op s).1.signalTable = single.1.signalTable ∧ (execScatterGate op s).2 = single.2 ↔
      ∀ l ∈ op.dsts.zipIdx, s.LaneSafe l.1 (op.laneCode gateDriven s.signalTable l) := by
  -- The planned lanes are committed one after the other from the state of the word.
  have lanes := ScatterGate.planned_lanes built state _ op.dsts.zipIdx
    (fun l here => ⟨laneBit_lt _ _ _, built.lane sized here⟩) (fun l here => ScatterGate.dst_mem here)
    (by rw [List.zipIdx_map_fst]; exact built.distinct) s ⟨sized, rfl, fun _ _ => rfl⟩
  -- A lane's code is that of its own gate.
  have codes : ∀ l ∈ op.dsts.zipIdx, s.LaneSafe l.1 (op.laneCode gateDriven s.signalTable l) ↔
      s.LaneSafe l.1 (laneBit (scatterGateEval s.signalTable op).1 (scatterGateEval s.signalTable op).2 l.2) := by
    intro l here
    rw [ScatterGate.laneCode, built.lane sized here]
  rw [forall₂_congr codes, execScatterGate]
  simp only [state]
  exact lanes

/-- A batch does what its gates do precisely when no lane of a scatter gate on the planned path would change a forced
destination. -/
theorem gatesExact_iff : g.GatesExact ↔ g.ForceSafe := by
  obtain ⟨s, gateDriven, batch, sized, built⟩ := g
  -- A scatter goes through the planned lanes or through the generic commits.
  cases batch with
  | scatter op =>
    cases state : s.fusedBatchCommitState with
    | none =>
      -- Without the planned lanes every commit is the generic one.
      have same := scatter_generic sized built state
      refine iff_of_true ⟨congrArg (·.1.signalTable) same, congrArg Prod.snd same⟩ ?_
      intro path
      simp [state] at path
    | some path =>
      have lanes := scatter_planned sized built state
      constructor
      · rintro ⟨values, reports⟩ -
        exact lanes.mp ⟨values, reports⟩
      · intro safe
        have both := lanes.mpr (safe (by rw [state]; rfl))
        exact ⟨both.1, both.2⟩
  -- The two fan-outs commit each destination as a gate of its own does.
  | bufFanout src dsts invert =>
    have same := execFusedBufFanout_eq gateDriven sized built.1 dsts built.2 invert
    exact iff_of_true ⟨congrArg (·.1.signalTable) same, congrArg Prod.snd same⟩ trivial
  | andFanout common branches invert =>
    have same := execFusedAndFanout_eq gateDriven sized built.1 branches built.2 invert
    exact iff_of_true ⟨congrArg (·.1.signalTable) same, congrArg Prod.snd same⟩ trivial

end BatchSite

section Samples

attribute [local instance] referenceGateOps

/-- Two inverters on the bits of signal 2, the one of signal 0 under a force to zero. -/
def heldInverters (source : Fin 4) : BatchSite where
  sim := { (heldNet 1).sim with
    signalTable := fun id => if id = 2 then ⟨2, source, 0, false, false, false⟩ else ⟨1, 0, 0, false, false, false⟩
    tableLen := 3
    signalWidths := fun id => if id = 2 then 2 else 1
    forcedSignals := fun id => if id = 0 then some ⟨1, 0, 0, false, false, false⟩ else none
    signalCommitPlan := [0, 0, 0] }
  gateDriven := fun _ => true
  batch := .scatter (.buf [0, 1] { sigId := 2, lo := 0 } 2 true)
  sized := by
    refine ⟨?_, ?_, ?_, nofun⟩
    · intro id _
      dsimp only
      split <;> rfl
    · intro id _
      dsimp only
      split
      · exact ⟨source.isLt, Nat.two_pow_pos _⟩
      · exact ⟨Nat.two_pow_pos _, Nat.two_pow_pos _⟩
    · intro id _ fv forced
      dsimp only at forced ⊢
      split at forced
      · rename_i zero
        subst zero
        cases forced
        rfl
      · simp at forced
  built := by
    refine ⟨rfl, by decide, by decide, ?_, ?_, nofun⟩
    · intro d dst
      have lanes : d = 0 ∨ d = 1 := by simpa [ScatterGate.dsts] using dst
      rcases lanes with rfl | rfl
      · exact ⟨(by decide : 0 < 3), rfl⟩
      · exact ⟨(by decide : 1 < 3), rfl⟩
    · intro r source
      have read : r = { sigId := 2, lo := 0 } := by simpa [ScatterGate.sources] using source
      subst read
      exact ⟨by decide, (by decide : 2 < 3), Nat.le_refl 2⟩

/-- While the source of the forced destination is one, the batch does what its inverters do. -/
theorem heldInverters_agree : (heldInverters 1).GatesExact := by
  have := referenceGateOps_lawful
  refine (BatchSite.gatesExact_iff (heldInverters 1)).mpr ?_
  intro _ l here
  have lanes : l = (0, 0) ∨ l = (1, 1) := by simpa [heldInverters, ScatterGate.dsts] using here
  rcases lanes with rfl | rfl
  · exact .inr (.inr (by decide))
  · exact .inr (.inl rfl)

/-- Once it is zero the batch reports the forced destination, its inverter does not. -/
theorem heldInverters_differ : ¬ (heldInverters 0).GatesExact := by
  intro exact
  exact absurd exact.reports (by decide)

end Samples

end Xezim.Comb
