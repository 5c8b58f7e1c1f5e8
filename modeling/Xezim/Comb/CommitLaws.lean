import Mathlib.Tactic.IntervalCases
import Xezim.Comb.Commit
import Xezim.Comb.Reference

/-! When the fast commits of a gate bit do what the generic one does. -/

namespace Xezim.Comb

open Splice

section Bits

/-- A written bit reads back its code. -/
theorem planeCode_write {v : Value} {i c : Nat} (inside : i < v.width) (code : c < 4) :
    planeCode (v.write i 1 (c % 2) (c / 2)) i = c := by
  rw [planeCode, Value.testBit_write_val _ _ _ _ _ _ inside, Value.testBit_write_xz _ _ _ _ _ _ inside,
    if_pos ⟨Nat.le_refl i, Nat.lt_succ_self i⟩, if_pos ⟨Nat.le_refl i, Nat.lt_succ_self i⟩, Nat.sub_self]
  interval_cases c <;> rfl

/-- Writing the code a bit has changes nothing. -/
theorem write_planeCode {v : Value} {i : Nat} (inside : i < v.width) :
    v.write i 1 (planeCode v i % 2) (planeCode v i / 2) = v := by
  have one : min 1 (v.width - i) = 1 := by omega
  have planes : ∀ (a b : Bool), (a.toNat + 2 * b.toNat) % 2 = a.toNat ∧ (a.toNat + 2 * b.toNat) / 2 = b.toNat := by
    decide
  obtain ⟨low, high⟩ := planes (v.val.testBit i) (v.xz.testBit i)
  -- A single bit of a plane is its own window.
  have same : ∀ a : Nat, splice a i 1 (a.testBit i).toNat = a := by
    intro a
    refine plane_ext fun k => ?_
    rw [testBit_splice]
    split
    · rename_i here
      obtain rfl : k = i := by omega
      rw [Nat.sub_self]
      cases a.testBit k <;> rfl
    · rfl
  simp only [Value.write, planeCode, one, low, high, same]

/-- Of two writes to a bit the second counts. -/
theorem write_write_bit (v : Value) (i a x b y : Nat) : (v.write i 1 a x).write i 1 b y = v.write i 1 b y := by
  simp only [Value.write, splice_splice_same]

/-- The code of a bit of two words. -/
theorem wordCode_eq (v x : Word) (i : Nat) :
    (((x >>> i &&& 1) <<< 1) ||| (v >>> i &&& 1)).toNat = (v.getLsbD i).toNat + 2 * (x.getLsbD i).toNat := by
  -- A shifted word masked to one bit is that bit.
  have bit : ∀ a : Word, a >>> i &&& 1 = if a.getLsbD i then 1 else 0 := by
    intro a
    refine BitVec.eq_of_getLsbD_eq fun k _ => ?_
    by_cases first : k = 0
    · subst first
      cases bit : a.getLsbD i <;> simp [bit, -BitVec.getLsbD_eq_getElem]
    · cases a.getLsbD i <;> simp [BitVec.getLsbD_one, first]
  rw [bit v, bit x]
  cases v.getLsbD i <;> cases x.getLsbD i <;> decide

/-- The fast commit reads the code of the bit. -/
theorem laneCode_eq {v : Value} {i : Nat} (inside : i < 64) :
    (((v.planes.2 >>> i &&& 1) <<< 1) ||| (v.planes.1 >>> i &&& 1)).toNat = planeCode v i := by
  rw [wordCode_eq]
  simp only [Value.planes, planeCode, BitVec.getLsbD_ofNat, inside, decide_true, Bool.true_and]

/-- One bit of a word replaced is that bit of its plane replaced. -/
theorem replaced_toNat {a w i : Nat} (fits : a < 2 ^ w) (narrow : w ≤ 64) (inside : i < w) (b : Bool) :
    (if b then BitVec.ofNat 64 a ||| (1 : Word) <<< i else BitVec.ofNat 64 a &&& ~~~((1 : Word) <<< i)).toNat =
      splice a i 1 b.toNat := by
  refine plane_ext fun k => ?_
  rw [testBit_splice, testBit_toNat]
  -- The mask has one bit, at the position itself.
  have mask : ∀ k, ((1 : Word) <<< i).getLsbD k = decide (k = i) := by
    intro k
    simp only [BitVec.getLsbD_shiftLeft]
    by_cases here : k = i
    · subst here
      simp
      omega
    · by_cases above : k < i
      · simp [here, above]
      · have differ : k - i ≠ 0 := by omega
        simp [here, differ]
  -- Only the masked position is replaced.
  by_cases here : k = i
  · subst here
    have word : k < 64 := by omega
    cases b <;> simp [word]
  · have other : ¬ (i ≤ k ∧ k < i + 1) := by omega
    have unset : ((1 : Word) <<< i).getLsbD k = false := by rw [mask, decide_eq_false here]
    -- Above the width the plane and the word are both clear.
    have kept : (BitVec.ofNat 64 a).getLsbD k = a.testBit k := by
      rw [BitVec.getLsbD_ofNat]
      by_cases word : k < 64
      · rw [decide_eq_true word, Bool.true_and]
      · rw [decide_eq_false word, Bool.false_and, testBit_of_lt fits (by omega)]
    rw [if_neg other, ← kept]
    cases b
    · rw [if_neg (by decide), BitVec.getLsbD_and, BitVec.getLsbD_not, unset]
      by_cases word : k < 64
      · rw [decide_eq_true word, Bool.not_false, Bool.and_true, Bool.and_true]
      · rw [decide_eq_false word, Bool.false_and, Bool.and_false, BitVec.getLsbD_of_ge _ _ (by omega)]
    · rw [if_pos rfl, BitVec.getLsbD_or, unset, Bool.or_false]

/-- The fast commit stores the written value. -/
theorem replaceBit_eq {v : Value} {i c : Nat} (fits : v.Fits) (narrow : v.width ≤ 64) (inside : i < v.width)
    (code : c < 4) :
    ({ v with
      val := (CommitSim.replaceBit v.planes i c).1.toNat
      xz := (CommitSim.replaceBit v.planes i c).2.toNat } : Value) = v.write i 1 (c % 2) (c / 2) := by
  -- One bit inside the width is written whole.
  have one : min 1 (v.width - i) = 1 := by omega
  have low : ∀ b : Bool, _ := replaced_toNat fits.1 narrow inside
  have high : ∀ b : Bool, _ := replaced_toNat fits.2 narrow inside
  simp only [CommitSim.replaceBit, Value.write, one, Value.planes]
  -- The two low bits of a code are its planes.
  have parts : (decide (c &&& 1 ≠ 0)).toNat = c % 2 ∧ (decide (c &&& 2 ≠ 0)).toNat = c / 2 := by
    interval_cases c <;> decide
  have lowC := low (decide (c &&& 1 ≠ 0))
  have highC := high (decide (c &&& 2 ≠ 0))
  simp only [decide_eq_true_eq, parts.1] at lowC
  simp only [decide_eq_true_eq, parts.2] at highC
  rw [lowC, highC]

variable [GateOps] [LawfulGateOps]

/-- A bit is changed precisely when it had another code. -/
theorem setBitCode_spec {v : Value} {i c : Nat} (inside : i < v.width) (code : c < 4) :
    GateOps.setBitCode v i c = (v.write i 1 (c % 2) (c / 2), decide (planeCode v i ≠ c)) := by
  have stored := LawfulGateOps.setBitCode_eq v i c inside code
  -- The bit is stored, and the change is whether the code was another.
  refine Prod.ext stored ?_
  rw [LawfulGateOps.setBitCode_changed, stored, decide_eq_decide]
  refine not_congr ⟨fun same => ?_, fun same => ?_⟩
  · rw [← same]
    exact planeCode_write inside code
  · rw [← same]
    exact write_planeCode inside

end Bits

namespace CommitSim

/-- No observer is active beyond the armed and edge notes. -/
structure NoObserver (s : CommitSim) : Prop where
  trace : s.valueTraceIds = none
  dump : s.dumpDirtyActive = false
  forces : s.activeForceExprs = 0
  mirror : s.signalInlineBits = []
  measure : (s.eventMeasure && !s.armedEdge) = false

section Notes

variable {s : CommitSim} {id : Nat}

/-- An unarmed input leaves no armed note. -/
theorem noteArmedWrite_of_unarmed (unarmed : s.armedInputSet id = false) : s.noteArmedWrite id = s := by
  simp [noteArmedWrite, unarmed]

/-- A signal without a position leaves no edge note. -/
theorem noteEdgeWrite_of_none (none : s.sigToEdgePos id = none) : s.noteEdgeWrite id = s := by
  have exec : s.noteEdgeExec id = s := by simp [noteEdgeExec, none]
  simp only [noteEdgeWrite, exec, none]
  split <;> rfl

/-- Armed notes wake no observer. -/
theorem NoObserver.armed (quiet : NoObserver s) : NoObserver (s.noteArmedWrite id) := by
  unfold noteArmedWrite
  split
  · exact quiet
  · exact ⟨quiet.trace, quiet.dump, quiet.forces, quiet.mirror, quiet.measure⟩

/-- Edge notes wake no observer. -/
theorem NoObserver.edge (quiet : NoObserver s) : NoObserver (s.noteEdgeWrite id) := by
  -- Recording an evaluation does not touch the observers.
  have exec : NoObserver (s.noteEdgeExec id) := by
    unfold noteEdgeExec
    split
    · split
      · split
        · exact quiet
        · exact ⟨quiet.trace, quiet.dump, quiet.forces, quiet.mirror, quiet.measure⟩
      · exact quiet
    · exact quiet
  unfold noteEdgeWrite
  dsimp only
  split
  · exact exec
  · split
    · split
      · exact exec
      · exact ⟨exec.trace, exec.dump, exec.forces, exec.mirror, exec.measure⟩
    · exact exec

/-- Armed notes keep the signal's position. -/
theorem noteArmedWrite_sigToEdgePos (other : Nat) :
    (s.noteArmedWrite id).sigToEdgePos other = s.sigToEdgePos other := by
  unfold noteArmedWrite
  split <;> rfl

/-- Armed notes leave the table alone. -/
theorem noteArmedWrite_signalTable : (s.noteArmedWrite id).signalTable = s.signalTable := by
  unfold noteArmedWrite
  split <;> rfl

variable [GateOps]

/-- Without observers a write leaves the notes only. -/
theorem afterSignalWriteObserved_eq (quiet : NoObserver s) (edge armed : Bool) :
    s.afterSignalWriteObserved id true edge armed =
      if edge then (if armed then s.noteArmedWrite id else s).noteEdgeWrite id
      else if armed then s.noteArmedWrite id else s := by
  have trace : (s.valueTraceIds.any fun ids => ids.contains id && id < s.tableLen) = false := by
    rw [quiet.trace]
    rfl
  unfold afterSignalWriteObserved
  simp only [trace, Bool.false_eq_true, if_false, Bool.not_true, Bool.false_and]
  have noted : NoObserver (if armed then s.noteArmedWrite id else s) := by
    split
    · exact quiet.armed
    · exact quiet
  generalize (if armed then s.noteArmedWrite id else s) = s₁ at noted ⊢
  have noted' : NoObserver (if edge then s₁.noteEdgeWrite id else s₁) := by
    split
    · exact noted.edge
    · exact noted
  generalize (if edge then s₁.noteEdgeWrite id else s₁) = s₂ at noted' ⊢
  -- The marks, the epochs and the measurement all find nothing active.
  have mark : s₂.vcdMark id = s₂ := by simp [vcdMark, noted'.dump]
  simp [mark, noted'.forces, noted'.measure]

end Notes

section Commits

variable [GateOps] {s : CommitSim} (id : Nat)

/-- The notes of a write that `gate_lane_commit` decides by the destination are those of the generic hook. -/
theorem afterWrite_lane (quiet : NoObserver s) (noPlan : s.signalCommitPlan = []) (inTable : id < s.tableLen)
    (quietOk : s.quietValid = true → s.quietBits id = true →
      s.armedInputSet id = false ∧ s.sigToEdgePos id = none) :
    s.afterSignalWritePremirrored id = (s.noteArmedWrite id).noteEdgeWrite id := by
  unfold afterSignalWritePremirrored afterSignalWriteInner
  rw [if_neg (by omega), if_pos noPlan]
  split
  · -- A quiet signal has no readers to note.
    rename_i isQuiet
    simp only [Bool.and_eq_true] at isQuiet
    obtain ⟨unarmed, none⟩ := quietOk isQuiet.1.1.1.1.1.1 isQuiet.1.1.1.1.1.2
    rw [noteArmedWrite_of_unarmed unarmed, noteEdgeWrite_of_none none]
  · rw [afterSignalWriteObserved_eq quiet]
    simp

/-- So are those that `fused_scalar_commit_planned` decides by the plan. -/
theorem afterWrite_planned (quiet : NoObserver s) (plan : s.signalCommitPlan ≠ []) (inTable : id < s.tableLen) :
    s.afterSignalWritePremirrored id =
      let armed := s.armedEdge && s.signalCommitPlan[id]?.getD 3 &&& 2 ≠ 0
      let edge := (s.dirtyEdge || s.dirtyEdgeShadow || s.inEdgeBlock || s.inEdgeCont) &&
        s.signalCommitPlan[id]?.getD 3 &&& 1 ≠ 0
      let s := if armed then s.noteArmedWrite id else s
      if edge then s.noteEdgeWrite id else s := by
  unfold afterSignalWritePremirrored afterSignalWriteInner
  -- Without observers only the armed edges and the dirty edges are left to note.
  rw [if_neg (by omega), if_neg plan]
  simp only [quiet.trace, quiet.dump, quiet.forces, quiet.measure, Option.isSome_none, Bool.or_false, Bool.not_true,
    Bool.false_and, ne_eq, not_true_eq_false, decide_false, Bool.not_false, Bool.and_true,
    Bool.and_comm (decide ¬ s.signalCommitPlan[id]?.getD 3 &&& 1 = 0),
    Bool.and_comm (decide ¬ s.signalCommitPlan[id]?.getD 3 &&& 2 = 0)]
  -- Only the two tests of the plan matter from here on.
  generalize ((s.dirtyEdge || s.dirtyEdgeShadow || s.inEdgeBlock || s.inEdgeCont) &&
    decide ¬ s.signalCommitPlan[id]?.getD 3 &&& 1 = 0) = edge
  generalize (s.armedEdge && decide ¬ s.signalCommitPlan[id]?.getD 3 &&& 2 = 0) = armed
  rw [afterSignalWriteObserved_eq quiet]
  cases edge <;> cases armed <;> simp

end Commits

end CommitSim

/-- A bit a gate drives, in a simulator whose stored values have their declared widths and whose quiet signals
have no armed or edge readers. -/
structure GateSite where
  sim : CommitSim
  dst : BitRef
  newBit : Fin 4
  width : (sim.signalTable dst.sigId).width = sim.signalWidths dst.sigId
  fits : (sim.signalTable dst.sigId).Fits
  inside : dst.bit < sim.signalWidths dst.sigId
  inTable : dst.sigId < sim.tableLen
  quiet : sim.quietValid = true → sim.quietBits dst.sigId = true →
    sim.armedInputSet dst.sigId = false ∧ sim.sigToEdgePos dst.sigId = none

namespace GateSite

variable [GateOps] (g : GateSite)

/-- `!self.sdf_delays.is_empty()`. -/
def sdfAny : Bool := g.sim.sdfDelays ≠ []

/-- The generic commit. -/
def generic : CommitSim × Bool := g.sim.fusedBitCommit g.dst g.newBit g.sdfAny

/-- The commit of the gate lane. -/
def lane : CommitSim × Bool :=
  g.sim.gateLaneCommit g.dst g.newBit (g.sim.gateObs g.dst.sigId) g.sim.gateLaneSlow

/-- The planned commit. -/
def planned (edge armed : Bool) : CommitSim × Bool :=
  g.sim.fusedScalarCommitPlanned g.dst.sigId g.newBit g.sdfAny edge armed

/-- The fast commits leave the simulator and report the change as the generic one does, and a forced signal that
holds its forced bit keeps its value on every path. -/
structure CommitsAgree : Prop where
  lane : g.sim.gateLaneSlow = false → g.lane = g.generic
  batch : ∀ edge armed, g.sim.signalWidths g.dst.sigId = 1 → g.sim.fusedBatchCommitState = some (edge, armed) →
    g.planned edge armed = g.generic
  held : ∀ fv, g.sim.forcedSignals g.dst.sigId = some fv →
    GateOps.getBitCode fv g.dst.bit = planeCode (g.sim.signalTable g.dst.sigId) g.dst.bit →
    g.generic.1.signalTable = g.sim.signalTable ∧ g.lane.1.signalTable = g.sim.signalTable ∧
      ∀ edge armed, g.sim.signalWidths g.dst.sigId = 1 → g.sim.fusedBatchCommitState = some (edge, armed) →
        (g.planned edge armed).1.signalTable = g.sim.signalTable

/-- The simulator with the driven bit stored. -/
def stored : CommitSim :=
  { g.sim.setSignal g.dst.sigId
      ((g.sim.signalTable g.dst.sigId).write g.dst.bit 1 (g.newBit % 2) (g.newBit / 2)) with tableModified := true }

/-- The gate lane writes the destination itself. -/
def LaneWrites : Prop := g.sim.gateLaneSlow = false ∧ g.sim.signalWidths g.dst.sigId ≤ 64

/-- The planned commit writes the destination itself, and now. -/
def BatchWrites : Prop :=
  g.sim.fusedBatchCommitState.isSome ∧ g.sim.signalWidths g.dst.sigId = 1 ∧
    g.sim.delayedNow g.sdfAny g.dst.sigId = false

/-- The destination is not forced, or the gate drives the bit it has, or neither fast commit writes it. -/
def ForceSafe : Prop :=
  g.sim.forcedSignals g.dst.sigId = none ∨ planeCode (g.sim.signalTable g.dst.sigId) g.dst.bit = g.newBit ∨
    ¬ (g.LaneWrites ∨ g.BatchWrites)

end GateSite

namespace GateSite

variable [GateOps] [LawfulGateOps] {g : GateSite}

open CommitSim

/-- Without a change the generic commit leaves the simulator alone. -/
theorem generic_same (same : planeCode (g.sim.signalTable g.dst.sigId) g.dst.bit = g.newBit) :
    g.generic = (g.sim, false) := by
  have inside : g.dst.bit < (g.sim.signalTable g.dst.sigId).width := by rw [g.width]; exact g.inside
  unfold generic fusedBitCommit
  dsimp only
  rw [LawfulGateOps.getBitCode_eq _ _ inside, setBitCode_spec inside g.newBit.isLt]
  have stored := write_planeCode inside
  rw [same] at stored
  simp [same, stored, setSignal]

omit [LawfulGateOps] in
/-- A delayed change is only scheduled. -/
theorem generic_delayed (delayed : g.sim.delayedNow g.sdfAny g.dst.sigId = true) :
    g.generic.2 = false ∧ g.generic.1.signalTable = g.sim.signalTable := by
  unfold generic fusedBitCommit
  dsimp only
  rw [if_pos delayed]
  split <;> exact ⟨rfl, rfl⟩

/-- A change of a forced bit is taken back. -/
theorem generic_forced (now : g.sim.delayedNow g.sdfAny g.dst.sigId = false)
    (differs : planeCode (g.sim.signalTable g.dst.sigId) g.dst.bit ≠ g.newBit) {fv : Value}
    (forced : g.sim.forcedSignals g.dst.sigId = some fv) :
    g.generic = ((g.sim.setSignal g.dst.sigId
      ((g.sim.signalTable g.dst.sigId).write g.dst.bit 1 (g.newBit % 2) (g.newBit / 2))).setSignal g.dst.sigId
        (GateOps.setBitCode ((g.sim.signalTable g.dst.sigId).write g.dst.bit 1 (g.newBit % 2) (g.newBit / 2))
          g.dst.bit (GateOps.getBitCode fv g.dst.bit)).1, false) := by
  have inside : g.dst.bit < (g.sim.signalTable g.dst.sigId).width := by rw [g.width]; exact g.inside
  unfold generic fusedBitCommit
  dsimp only
  rw [now, if_neg (by decide), setBitCode_spec inside g.newBit.isLt]
  simp [differs, setSignal, forced]

/-- A change of an unforced bit is stored and noted. -/
theorem generic_changed (now : g.sim.delayedNow g.sdfAny g.dst.sigId = false)
    (differs : planeCode (g.sim.signalTable g.dst.sigId) g.dst.bit ≠ g.newBit)
    (free : g.sim.forcedSignals g.dst.sigId = none) (mirror : g.sim.signalInlineBits = []) :
    g.generic = (g.stored.afterSignalWritePremirrored g.dst.sigId, true) := by
  have inside : g.dst.bit < (g.sim.signalTable g.dst.sigId).width := by rw [g.width]; exact g.inside
  unfold generic fusedBitCommit
  dsimp only
  rw [now, if_neg (by decide), setBitCode_spec inside g.newBit.isLt]
  simp [differs, setSignal, free, syncMirror, mirror, stored]

/-- The generic commit leaves a forced signal that holds its forced bit as it is. -/
theorem generic_held {fv : Value} (forced : g.sim.forcedSignals g.dst.sigId = some fv)
    (holds : GateOps.getBitCode fv g.dst.bit = planeCode (g.sim.signalTable g.dst.sigId) g.dst.bit) :
    g.generic.1.signalTable = g.sim.signalTable := by
  have inside : g.dst.bit < (g.sim.signalTable g.dst.sigId).width := by rw [g.width]; exact g.inside
  by_cases same : planeCode (g.sim.signalTable g.dst.sigId) g.dst.bit = g.newBit
  · rw [generic_same same]
  · cases now : g.sim.delayedNow g.sdfAny g.dst.sigId with
    | true => exact (generic_delayed now).2
    | false =>
      -- The written bit is written back.
      have code : planeCode (g.sim.signalTable g.dst.sigId) g.dst.bit < 4 := by
        have bits : ∀ a b : Bool, a.toNat + 2 * b.toNat < 4 := by decide
        exact bits _ _
      rw [generic_forced now same forced, holds]
      simp only [setSignal, Function.update_idem]
      rw [setBitCode_spec (by rw [Value.write_width]; exact inside) code, write_write_bit, write_planeCode inside,
        Function.update_eq_self]

omit [GateOps] [LawfulGateOps] in
/-- A stored bit wakes no observer. -/
theorem stored_quiet (quiet : NoObserver g.sim) : NoObserver g.stored :=
  ⟨quiet.trace, quiet.dump, quiet.forces, quiet.mirror, quiet.measure⟩

omit [GateOps] [LawfulGateOps] in
/-- What `gate_lane_slow` being false says. -/
theorem fast_lane (fast : g.sim.gateLaneSlow = false) :
    NoObserver g.sim ∧ g.sim.sdfDelays = [] ∧ g.sim.signalCommitPlan = [] := by
  simp only [gateLaneSlow, Bool.or_eq_false_iff, decide_eq_false_iff_not, not_not, Option.isSome_eq_false_iff,
    Option.isNone_iff_eq_none] at fast
  obtain ⟨⟨⟨⟨⟨⟨trace, dump⟩, forces⟩, mirror⟩, measure⟩, sdf⟩, plan⟩ := fast
  exact ⟨⟨trace, dump, forces, mirror, measure⟩, sdf, plan⟩

omit [GateOps] [LawfulGateOps] in
/-- What a batch state says. -/
theorem fast_batch {edge armed : Bool} (state : g.sim.fusedBatchCommitState = some (edge, armed)) :
    NoObserver g.sim ∧ g.sim.signalCommitPlan ≠ [] ∧
      edge = (g.sim.dirtyEdge || g.sim.dirtyEdgeShadow || g.sim.inEdgeBlock || g.sim.inEdgeCont) ∧
      armed = g.sim.armedEdge := by
  unfold fusedBatchCommitState at state
  split at state
  · simp at state
  · -- A batch takes the fast path where nothing observes it.
    rename_i quiet
    simp only [Bool.not_eq_true, Bool.or_eq_false_iff, decide_eq_false_iff_not, not_not, Option.isSome_eq_false_iff,
      Option.isNone_iff_eq_none] at quiet
    obtain ⟨⟨⟨⟨⟨plan, trace⟩, dump⟩, forces⟩, mirror⟩, measure⟩ := quiet
    simp only [Option.some.injEq, Prod.mk.injEq] at state
    exact ⟨⟨trace, dump, forces, mirror, measure⟩, plan, state.1.symm, state.2.symm⟩

omit [GateOps] [LawfulGateOps] in
/-- The bits of the notes. -/
theorem gateObs_bits (s : CommitSim) (id : Nat) :
    (s.gateObs id &&& 1 ≠ 0 ↔ s.armedInputSet id = true) ∧
      (s.gateObs id &&& 2 ≠ 0 ↔ (s.sigToEdgePos id).isSome = true) ∧
      (s.gateObs id &&& 4 ≠ 0 ↔ 64 < s.signalWidths id) := by
  -- The three observations are the low bits of one word.
  have bits : ∀ a e w : Bool, (a.toNat ||| e.toNat <<< 1 ||| w.toNat <<< 2) &&& 1 = a.toNat ∧
      (a.toNat ||| e.toNat <<< 1 ||| w.toNat <<< 2) &&& 2 = 2 * e.toNat ∧
      (a.toNat ||| e.toNat <<< 1 ||| w.toNat <<< 2) &&& 4 = 4 * w.toNat := by decide
  obtain ⟨armed, edge, wide⟩ := bits (s.armedInputSet id) (s.sigToEdgePos id).isSome (decide (64 < s.signalWidths id))
  unfold gateObs
  rw [armed, edge, wide]
  refine ⟨?_, ?_, ?_⟩
  · cases s.armedInputSet id <;> simp
  · cases (s.sigToEdgePos id).isSome <;> simp
  · by_cases far : 64 < s.signalWidths id <;> simp [far]

omit [LawfulGateOps] in
/-- A lane that does not write the destination itself is the generic commit. -/
theorem lane_slow (slow : ¬ g.LaneWrites) : g.lane = g.generic := by
  -- A slow lane is one that the gate state or the width of the net sends to the generic commit.
  have taken : (g.sim.gateLaneSlow || decide (g.sim.gateObs g.dst.sigId &&& 4 ≠ 0)) = true := by
    rw [Bool.or_eq_true, decide_eq_true_eq, (gateObs_bits _ _).2.2]
    by_contra fast
    simp only [not_or, Bool.not_eq_true, Nat.not_lt] at fast
    exact slow fast
  unfold lane gateLaneCommit
  simp only [taken, if_true]
  rfl

/-- What a lane that writes the destination itself does. -/
theorem lane_fast (fast : g.LaneWrites) :
    g.lane =
      if planeCode (g.sim.signalTable g.dst.sigId) g.dst.bit = g.newBit then (g.sim, false)
      else ((g.stored.noteArmedWrite g.dst.sigId).noteEdgeWrite g.dst.sigId, true) := by
  obtain ⟨quick, narrow⟩ := fast
  have inside : g.dst.bit < (g.sim.signalTable g.dst.sigId).width := by rw [g.width]; exact g.inside
  have small : (g.sim.signalTable g.dst.sigId).width ≤ 64 := by rw [g.width]; exact narrow
  obtain ⟨armed, edge, wide⟩ := gateObs_bits g.sim g.dst.sigId
  have notWide : (g.sim.gateLaneSlow || decide (g.sim.gateObs g.dst.sigId &&& 4 ≠ 0)) = false := by
    have : ¬ (g.sim.gateObs g.dst.sigId &&& 4 ≠ 0) := fun far => by have := wide.mp far; omega
    simp only [quick, this, decide_false, Bool.or_self]
  unfold lane gateLaneCommit
  dsimp only
  rw [notWide, if_neg (by decide), LawfulValueOps.rawBits_eq, laneCode_eq (by omega)]
  split
  · rfl
  · rw [LawfulValueOps.setInlineBits_narrow _ _ _ small]
    dsimp only
    rw [replaceBit_eq g.fits small inside g.newBit.isLt]
    -- A note the destination does not need would have changed nothing.
    have first : (if g.sim.gateObs g.dst.sigId &&& 1 ≠ 0 then g.stored.noteArmedWrite g.dst.sigId else g.stored) =
        g.stored.noteArmedWrite g.dst.sigId := by
      split
      · rfl
      · rename_i unarmed
        have off : g.sim.armedInputSet g.dst.sigId = false := by simpa using mt armed.mpr unarmed
        exact (noteArmedWrite_of_unarmed (s := g.stored) off).symm
    have second : ∀ s : CommitSim, s.sigToEdgePos = g.sim.sigToEdgePos →
        (if g.sim.gateObs g.dst.sigId &&& 2 ≠ 0 then s.noteEdgeWrite g.dst.sigId else s) =
          s.noteEdgeWrite g.dst.sigId := by
      intro s position
      split
      · rfl
      · rename_i unseen
        refine (noteEdgeWrite_of_none ?_).symm
        rw [position]
        simpa using mt edge.mpr unseen
    change ((if g.sim.gateObs g.dst.sigId &&& 2 ≠ 0 then
        (if g.sim.gateObs g.dst.sigId &&& 1 ≠ 0 then g.stored.noteArmedWrite g.dst.sigId
          else g.stored).noteEdgeWrite g.dst.sigId
      else if g.sim.gateObs g.dst.sigId &&& 1 ≠ 0 then g.stored.noteArmedWrite g.dst.sigId else g.stored),
      true) = _
    rw [first, second]
    exact funext noteArmedWrite_sigToEdgePos

/-- The planned commit of a one-bit signal. -/
theorem planned_eq {edge armed : Bool} (one : g.sim.signalWidths g.dst.sigId = 1)
    (state : g.sim.fusedBatchCommitState = some (edge, armed)) :
    g.planned edge armed =
      if g.sim.delayedNow g.sdfAny g.dst.sigId = true then g.generic
      else if planeCode (g.sim.signalTable g.dst.sigId) g.dst.bit = g.newBit then (g.sim, false)
      else (g.stored.afterSignalWritePremirrored g.dst.sigId, true) := by
  obtain ⟨quiet, plan, rfl, rfl⟩ := fast_batch state
  have inside : g.dst.bit < (g.sim.signalTable g.dst.sigId).width := by rw [g.width]; exact g.inside
  have bit : g.dst.bit = 0 := by have := g.inside; omega
  have scalar : GateOps.setScalarCode (g.sim.signalTable g.dst.sigId) g.newBit =
      GateOps.setBitCode (g.sim.signalTable g.dst.sigId) g.dst.bit g.newBit := by
    rw [bit]
    exact LawfulGateOps.setScalarCode_eq _ _ (by rw [g.width]; exact one)
  unfold planned fusedScalarCommitPlanned
  dsimp only
  rw [scalar]
  split
  · -- The delayed change is the generic one.
    rename_i delayed
    unfold generic fusedBitCommit
    dsimp only
    rw [if_pos delayed, bit]
  · rw [setBitCode_spec inside g.newBit.isLt]
    by_cases same : planeCode (g.sim.signalTable g.dst.sigId) g.dst.bit = g.newBit
    · have held := write_planeCode inside
      rw [same] at held
      simp [same, held, setSignal]
    · simp only [same, ne_eq, not_false_eq_true, decide_true, Bool.not_true, Bool.false_eq_true, if_false]
      refine Prod.ext ?_ rfl
      exact (afterWrite_planned g.dst.sigId (stored_quiet quiet) plan g.inTable).symm

/-- The generic commit does not report the write of a forced signal. -/
theorem generic_unreported {fv : Value} (forced : g.sim.forcedSignals g.dst.sigId = some fv) :
    g.generic.2 = false := by
  by_cases same : planeCode (g.sim.signalTable g.dst.sigId) g.dst.bit = g.newBit
  · rw [generic_same same]
  · cases now : g.sim.delayedNow g.sdfAny g.dst.sigId with
    | true => exact (generic_delayed now).1
    | false => rw [generic_forced now same forced]

/-- A lane that writes an unforced bit, or the bit that is there, does what the generic commit does. -/
theorem lane_agrees (fast : g.LaneWrites)
    (safe : g.sim.forcedSignals g.dst.sigId = none ∨
      planeCode (g.sim.signalTable g.dst.sigId) g.dst.bit = g.newBit) : g.lane = g.generic := by
  obtain ⟨quiet, sdf, plan⟩ := fast_lane fast.1
  -- A bit that keeps its code is left alone by both commits.
  rw [lane_fast fast]
  split
  · rename_i same
    rw [generic_same same]
  · -- A bit that changes is not forced, so both store it and note it in the same way.
    rename_i differs
    have free := safe.resolve_right differs
    have now : g.sim.delayedNow g.sdfAny g.dst.sigId = false := by simp [delayedNow, sdfAny, sdf]
    rw [generic_changed now differs free quiet.mirror]
    refine Prod.ext ?_ rfl
    exact (afterWrite_lane g.dst.sigId (stored_quiet quiet) plan g.inTable g.quiet).symm

/-- So does a planned commit. -/
theorem planned_agrees {edge armed : Bool} (one : g.sim.signalWidths g.dst.sigId = 1)
    (state : g.sim.fusedBatchCommitState = some (edge, armed))
    (safe : g.sim.delayedNow g.sdfAny g.dst.sigId = true ∨ g.sim.forcedSignals g.dst.sigId = none ∨
      planeCode (g.sim.signalTable g.dst.sigId) g.dst.bit = g.newBit) : g.planned edge armed = g.generic := by
  rw [planned_eq one state]
  -- A delayed net goes to the generic commit either way.
  split
  · rfl
  · rename_i now
    have now : g.sim.delayedNow g.sdfAny g.dst.sigId = false := by simpa using now
    -- A bit that keeps its code is left alone by both commits.
    split
    · rename_i same
      rw [generic_same same]
    · rename_i differs
      -- A bit that changes is not forced.
      have free : g.sim.forcedSignals g.dst.sigId = none := by
        rcases safe with delayed | free | same
        · simp [now] at delayed
        · exact free
        · exact absurd same differs
      rw [generic_changed now differs free (fast_batch state).1.mirror]

/-- The fast commits do what the generic one does precisely when they never write a bit of a forced signal that
its driver would change. -/
theorem commitsAgree_iff (g : GateSite) : g.CommitsAgree ↔ g.ForceSafe := by
  constructor
  · intro agree
    by_contra unsafe'
    rw [ForceSafe, not_or, not_or, not_not] at unsafe'
    obtain ⟨forced, differs, writes⟩ := unsafe'
    obtain ⟨fv, forced⟩ := Option.ne_none_iff_exists'.mp forced
    have silent := generic_unreported forced
    -- The fast path reports the change the generic one takes back.
    rcases writes with fast | ⟨state, one, now⟩
    · have same := agree.lane fast.1
      rw [lane_fast fast, if_neg differs] at same
      rw [← same] at silent
      simp at silent
    · obtain ⟨⟨edge, armed⟩, state⟩ := Option.isSome_iff_exists.mp state
      have same := agree.batch edge armed one state
      rw [planned_eq one state, now, if_neg (by decide), if_neg differs] at same
      rw [← same] at silent
      simp at silent
  · intro safe
    -- Under the condition each path is the generic commit.
    have lane : g.lane = g.generic := by
      by_cases fast : g.LaneWrites
      · refine lane_agrees fast ?_
        rcases safe with free | same | slow
        · exact .inl free
        · exact .inr same
        · exact absurd (.inl fast) slow
      · exact lane_slow fast
    have batch : ∀ edge armed, g.sim.signalWidths g.dst.sigId = 1 →
        g.sim.fusedBatchCommitState = some (edge, armed) → g.planned edge armed = g.generic := by
      intro edge armed one state
      refine planned_agrees one state ?_
      rcases safe with free | same | slow
      · exact .inr (.inl free)
      · exact .inr (.inr same)
      · refine .inl ?_
        by_contra now
        refine slow (.inr ⟨?_, one, by simpa using now⟩)
        rw [state]
        rfl
    refine ⟨fun _ => lane, batch, ?_⟩
    intro fv forced holds
    have held := generic_held forced holds
    refine ⟨held, by rw [lane]; exact held, ?_⟩
    intro edge armed one state
    rw [batch edge armed one state]
    exact held

end GateSite

section Samples

attribute [local instance] referenceGateOps

/-- A net held at zero by a force with a constant right side, while its driver is `driven`. -/
def heldNet (driven : Fin 4) : GateSite where
  sim := {
    signalTable := fun _ => ⟨1, 0, 0, false, false, false⟩
    tableLen := 1
    signalWidths := fun _ => 1
    forcedSignals := fun _ => some ⟨1, 0, 0, false, false, false⟩
    sdfDelays := []
    time := 5
    scheduled := []
    valueTraceIds := none
    valueTracePending := []
    dumpDirtyActive := false
    dumpDirtyMark := []
    dumpDirtyEpoch := 0
    dumpDirty := []
    activeForceExprs := 0
    activeForceSignalEpochs := []
    forceEpochGen := 0
    signalInlineBits := []
    signalHasXz := []
    eventMeasure := false
    sigLastChange := []
    eventPhase := 0
    signalCommitPlan := []
    quietValid := false
    quietBits := fun _ => false
    tableModified := false
    dirtyEdge := false
    dirtyEdgeShadow := false
    inEdgeBlock := false
    inEdgeCont := false
    sigToEdgePos := fun _ => none
    edgeExecSeen := fun _ => false
    edgeExecWrote := []
    edgePosSeen := fun _ => false
    changedEdgePos := []
    armedEdge := false
    armedInputSet := fun _ => false
    armedInputRanges := fun _ => (0, 0)
    armedInputBlocks := fun _ => 0
    edgeBlockArmed := fun _ => false
    armCensus := none }
  dst := { sigId := 0, bit := 0 }
  newBit := driven
  width := rfl
  fits := ⟨by decide, by decide⟩
  inside := by decide
  inTable := by decide
  quiet := nofun

/-- A driver that agrees with the force changes nothing on any path. -/
theorem heldNet_agrees : (heldNet 0).CommitsAgree := by
  have := referenceGateOps_lawful
  exact (GateSite.commitsAgree_iff (heldNet 0)).mpr (.inr (.inl rfl))

/-- A driver of one reaches the held net through the gate lane. -/
theorem heldNet_disagrees : ¬ (heldNet 1).CommitsAgree := by
  intro agree
  have reported : (heldNet 1).lane.2 = (heldNet 1).generic.2 := by rw [agree.lane rfl]
  exact absurd reported (by decide)

end Samples

end Xezim.Comb
