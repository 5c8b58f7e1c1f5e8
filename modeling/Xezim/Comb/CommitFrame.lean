import Xezim.Comb.CommitLaws

/-! What a commit leaves alone: the settings of the simulator, and every other bit. -/

namespace Xezim.Comb

open Splice

namespace CommitSim

/-- The fields the commits only read. -/
structure Settings where
  tableLen : Nat
  signalWidths : Nat → Nat
  forcedSignals : Nat → Option Value
  sdfDelays : List Nat
  time : Nat
  valueTraceIds : Option (List Nat)
  dumpDirtyActive : Bool
  activeForceExprs : Nat
  /-- Length of `signal_inline_bits`. -/
  mirrored : Nat
  eventMeasure : Bool
  signalCommitPlan : List Nat
  quietValid : Bool
  quietBits : Nat → Bool
  dirtyEdge : Bool
  dirtyEdgeShadow : Bool
  inEdgeBlock : Bool
  inEdgeCont : Bool
  sigToEdgePos : Nat → Option Nat
  armedEdge : Bool
  armedInputSet : Nat → Bool

/-- The settings of a simulator. -/
def settings (s : CommitSim) : Settings where
  tableLen := s.tableLen
  signalWidths := s.signalWidths
  forcedSignals := s.forcedSignals
  sdfDelays := s.sdfDelays
  time := s.time
  valueTraceIds := s.valueTraceIds
  dumpDirtyActive := s.dumpDirtyActive
  activeForceExprs := s.activeForceExprs
  mirrored := s.signalInlineBits.length
  eventMeasure := s.eventMeasure
  signalCommitPlan := s.signalCommitPlan
  quietValid := s.quietValid
  quietBits := s.quietBits
  dirtyEdge := s.dirtyEdge
  dirtyEdgeShadow := s.dirtyEdgeShadow
  inEdgeBlock := s.inEdgeBlock
  inEdgeCont := s.inEdgeCont
  sigToEdgePos := s.sigToEdgePos
  armedEdge := s.armedEdge
  armedInputSet := s.armedInputSet

/-- The simulator after keeps the settings, the stored values and the scheduled changes. -/
structure Noted (s after : CommitSim) : Prop where
  settings : after.settings = s.settings
  signalTable : after.signalTable = s.signalTable
  scheduled : after.scheduled = s.scheduled

section Notes

variable {s t u : CommitSim} (id : Nat)

/-- Nothing done keeps everything. -/
theorem Noted.refl (s : CommitSim) : Noted s s := ⟨rfl, rfl, rfl⟩

/-- Notes compose. -/
theorem Noted.trans (first : Noted s t) (second : Noted t u) : Noted s u :=
  ⟨second.settings.trans first.settings, second.signalTable.trans first.signalTable,
    second.scheduled.trans first.scheduled⟩

/-- A step taken or not. -/
theorem Noted.ite {c : Prop} [Decidable c] (thenNoted : Noted s t) (elseNoted : Noted s u) : Noted s
    (if c then t else u) := by
  split
  · exact thenNoted
  · exact elseNoted

/-- Armed notes are notes. -/
theorem noteArmedWrite_noted (s : CommitSim) : Noted s (s.noteArmedWrite id) := by
  unfold noteArmedWrite
  exact Noted.ite (Noted.refl s) ⟨rfl, rfl, rfl⟩

/-- So are edge notes. -/
theorem noteEdgeWrite_noted (s : CommitSim) : Noted s (s.noteEdgeWrite id) := by
  -- Each note touches the bookkeeping of edges only, and the second starts where the first ends.
  have exec : Noted s (s.noteEdgeExec id) := by
    unfold noteEdgeExec
    split
    · split
      · exact Noted.ite (Noted.refl s) ⟨rfl, rfl, rfl⟩
      · exact Noted.refl s
    · exact Noted.refl s
  refine exec.trans ?_
  unfold noteEdgeWrite
  dsimp only
  generalize s.noteEdgeExec id = e
  split
  · exact Noted.refl e
  · split
    · exact Noted.ite (Noted.refl e) ⟨rfl, rfl, rfl⟩
    · exact Noted.refl e

/-- The mirror only follows the table. -/
theorem syncMirror_noted [GateOps] (s : CommitSim) : Noted s (s.syncMirror id) := by
  unfold syncMirror
  split
  · exact ⟨by simp [CommitSim.settings], rfl, rfl⟩
  · exact Noted.refl s

/-- The write hooks only take notes. -/
theorem afterSignalWriteObserved_noted [GateOps] (s : CommitSim) (premirrored edge armed : Bool) :
    Noted s (s.afterSignalWriteObserved id premirrored edge armed) := by
  unfold afterSignalWriteObserved
  extract_lets s₁ s₂ s₃ s₄ s₅ s₆
  -- One step a note, in the order of the hook.
  have traced : Noted s s₁ := Noted.ite ⟨rfl, rfl, rfl⟩ (Noted.refl s)
  clear_value s₁
  have noted : Noted s₁ s₂ := Noted.ite (noteArmedWrite_noted id s₁) (Noted.refl s₁)
  clear_value s₂
  have edged : Noted s₂ s₃ := Noted.ite (noteEdgeWrite_noted id s₂) (Noted.refl s₂)
  clear_value s₃
  have marked : Noted s₃ s₄ := by
    simp only [s₄, vcdMark]
    exact Noted.ite ⟨rfl, rfl, rfl⟩ (Noted.refl s₃)
  clear_value s₄
  have forced : Noted s₄ s₅ := Noted.ite ⟨rfl, rfl, rfl⟩ (Noted.refl s₄)
  clear_value s₅
  have mirrored : Noted s₅ s₆ := Noted.ite ⟨by simp [CommitSim.settings], rfl, rfl⟩ (Noted.refl s₅)
  clear_value s₆
  refine (((((traced.trans noted).trans edged).trans marked).trans forced).trans mirrored).trans ?_
  exact Noted.ite ⟨rfl, rfl, rfl⟩ (Noted.refl s₆)

/-- So does the hook the commits call. -/
theorem afterSignalWritePremirrored_noted [GateOps] (s : CommitSim) : Noted s (s.afterSignalWritePremirrored id) := by
  unfold afterSignalWritePremirrored afterSignalWriteInner
  dsimp only
  split
  · exact Noted.refl s
  · split
    · exact Noted.ite (Noted.refl s) (afterSignalWriteObserved_noted id s true true true)
    · exact Noted.ite (Noted.refl s) (afterSignalWriteObserved_noted id s true _ _)

end Notes

section Commits

variable [GateOps] (s : CommitSim)

/-- The generic commit keeps the settings. -/
theorem fusedBitCommit_settings (dst : BitRef) (newBit : Nat) (sdfAny : Bool) :
    (s.fusedBitCommit dst newBit sdfAny).1.settings = s.settings := by
  -- Each path changes the delayed queue, or the table, its mirror and the notes.
  unfold fusedBitCommit
  dsimp only
  split
  · split <;> rfl
  · split
    · split
      · rfl
      · exact (afterSignalWritePremirrored_noted _ _).settings.trans (syncMirror_noted _ _).settings
    · rfl

/-- It writes its signal alone. -/
theorem fusedBitCommit_signalTable (dst : BitRef) (newBit : Nat) (sdfAny : Bool) {id : Nat} (other : id ≠ dst.sigId) :
    (s.fusedBitCommit dst newBit sdfAny).1.signalTable id = s.signalTable id := by
  -- Another signal's entry is not the one written.
  unfold fusedBitCommit
  dsimp only
  split
  · split <;> rfl
  · split
    · split
      · simp [setSignal, other]
      · rw [(afterSignalWritePremirrored_noted _ _).signalTable]
        refine (congrFun (syncMirror_noted _ _).signalTable id).trans ?_
        simp [setSignal, other]
    · simp [setSignal, other]

/-- The planned commit keeps the settings. -/
theorem fusedScalarCommitPlanned_settings (id newBit : Nat) (sdfAny edge armed : Bool) :
    (s.fusedScalarCommitPlanned id newBit sdfAny edge armed).1.settings = s.settings := by
  -- The same paths, with the notes that the plan asks for.
  unfold fusedScalarCommitPlanned
  dsimp only
  split
  · split <;> rfl
  · split
    · rfl
    · refine (Noted.ite ((noteEdgeWrite_noted id _)) (Noted.refl _)).settings.trans ?_
      exact (Noted.ite (noteArmedWrite_noted id _) (Noted.refl _)).settings

/-- It writes its signal alone. -/
theorem fusedScalarCommitPlanned_signalTable (id newBit : Nat) (sdfAny edge armed : Bool) {j : Nat} (other : j ≠ id) :
    (s.fusedScalarCommitPlanned id newBit sdfAny edge armed).1.signalTable j = s.signalTable j := by
  unfold fusedScalarCommitPlanned
  dsimp only
  split
  · split <;> rfl
  · split
    · simp [setSignal, other]
    · refine (congrFun (Noted.ite (noteEdgeWrite_noted id _) (Noted.refl _)).signalTable j).trans ?_
      refine (congrFun (Noted.ite (noteArmedWrite_noted id _) (Noted.refl _)).signalTable j).trans ?_
      simp [setSignal, other]

end Commits

/-- Stored and forced values have the widths of their signals, and quiet signals have no armed or edge readers. -/
structure Sized (s : CommitSim) : Prop where
  width : ∀ id < s.tableLen, (s.signalTable id).width = s.signalWidths id
  fits : ∀ id < s.tableLen, (s.signalTable id).Fits
  forced : ∀ id < s.tableLen, ∀ fv, s.forcedSignals id = some fv → fv.width = s.signalWidths id
  quiet : s.quietValid = true → ∀ id, s.quietBits id = true →
    s.armedInputSet id = false ∧ s.sigToEdgePos id = none

/-- A bit of the table. -/
def HasBit (s : CommitSim) (b : BitRef) : Prop := b.sigId < s.tableLen ∧ b.bit < s.signalWidths b.sigId

/-- The code of a bit of the table. -/
def code (s : CommitSim) (b : BitRef) : Nat := planeCode (s.signalTable b.sigId) b.bit

section Sized

variable {s t : CommitSim}

/-- Equal settings have the same bits. -/
theorem HasBit.congr (same : t.settings = s.settings) {b : BitRef} (has : s.HasBit b) : t.HasBit b := by
  have len : t.tableLen = s.tableLen := congrArg Settings.tableLen same
  have widths : t.signalWidths = s.signalWidths := congrArg Settings.signalWidths same
  exact ⟨by rw [len]; exact has.1, by rw [widths]; exact has.2⟩

/-- A code is one of four. -/
theorem code_lt (v : Value) (i : Nat) : planeCode v i < 4 := by
  have bits : ∀ a b : Bool, a.toNat + 2 * b.toNat < 4 := by decide
  exact bits _ _

/-- A written bit leaves the codes of the others. -/
theorem planeCode_write_of_ne {v : Value} {i j : Nat} (c : Nat) (inside : j < v.width) (other : j ≠ i) :
    planeCode (v.write i 1 (c % 2) (c / 2)) j = planeCode v j := by
  have apart : ¬ (i ≤ j ∧ j < i + 1) := by omega
  rw [planeCode, Value.testBit_write_val _ _ _ _ _ _ inside, Value.testBit_write_xz _ _ _ _ _ _ inside,
    if_neg apart, if_neg apart]
  rfl

/-- Equal settings and entries of the declared widths are enough. -/
theorem sized_of_settings (sized : s.Sized) (settings : t.settings = s.settings)
    (entry : ∀ id < s.tableLen, (t.signalTable id).width = s.signalWidths id ∧ (t.signalTable id).Fits) : t.Sized := by
  -- The four bounds are read off the settings, which are the same.
  have len : t.tableLen = s.tableLen := congrArg Settings.tableLen settings
  have widths : t.signalWidths = s.signalWidths := congrArg Settings.signalWidths settings
  refine ⟨?_, ?_, ?_, ?_⟩
  · intro id inTable
    rw [widths]
    exact (entry id (by omega)).1
  · intro id inTable
    exact (entry id (by omega)).2
  · rw [widths, len, show t.forcedSignals = s.forcedSignals from congrArg Settings.forcedSignals settings]
    exact sized.forced
  · rw [show t.quietValid = s.quietValid from congrArg Settings.quietValid settings,
      show t.quietBits = s.quietBits from congrArg Settings.quietBits settings,
      show t.armedInputSet = s.armedInputSet from congrArg Settings.armedInputSet settings,
      show t.sigToEdgePos = s.sigToEdgePos from congrArg Settings.sigToEdgePos settings]
    exact sized.quiet

variable [GateOps] [LawfulGateOps]

/-- What the generic commit stores is its signal with the driven bit replaced by some code, or the signal itself. -/
theorem fusedBitCommit_stores (sized : s.Sized) {dst : BitRef} (has : s.HasBit dst) {newBit : Nat} (low : newBit < 4)
    (sdfAny : Bool) :
    ∃ c < 4, (s.fusedBitCommit dst newBit sdfAny).1.signalTable dst.sigId =
      (s.signalTable dst.sigId).write dst.bit 1 (c % 2) (c / 2) := by
  have inside : dst.bit < (s.signalTable dst.sigId).width := by rw [sized.width _ has.1]; exact has.2
  have kept : (s.signalTable dst.sigId) =
      (s.signalTable dst.sigId).write dst.bit 1 (s.code dst % 2) (s.code dst / 2) := (write_planeCode inside).symm
  unfold fusedBitCommit
  dsimp only
  rw [setBitCode_spec inside low]
  split
  · refine ⟨s.code dst, code_lt _ _, ?_⟩
    split <;> exact kept
  · split
    · split
      · -- The forced bit is written over the driven one.
        rename_i fv forced
        have held : dst.bit < fv.width := by rw [sized.forced _ has.1 fv forced]; exact has.2
        refine ⟨planeCode fv dst.bit, code_lt _ _, ?_⟩
        simp only [setSignal, Function.update_self]
        rw [LawfulGateOps.getBitCode_eq fv _ held, setBitCode_spec (by exact inside) (code_lt _ _), write_write_bit]
      · refine ⟨newBit, low, ?_⟩
        refine (congrFun (afterSignalWritePremirrored_noted _ _).signalTable _).trans ?_
        refine (congrFun (syncMirror_noted _ _).signalTable _).trans ?_
        simp [setSignal]
    · exact ⟨newBit, low, by simp [setSignal]⟩

/-- The generic commit keeps the widths. -/
theorem fusedBitCommit_sized (sized : s.Sized) {dst : BitRef} (has : s.HasBit dst) {newBit : Nat} (low : newBit < 4)
    (sdfAny : Bool) : (s.fusedBitCommit dst newBit sdfAny).1.Sized := by
  obtain ⟨c, -, stored⟩ := fusedBitCommit_stores sized has low sdfAny
  -- The driven signal keeps its width, the others their values.
  refine sized_of_settings sized (fusedBitCommit_settings s dst newBit sdfAny) ?_
  intro id inTable
  by_cases driven : id = dst.sigId
  · subst driven
    rw [stored]
    exact ⟨sized.width _ inTable, (sized.fits _ inTable).write _ _ _ _⟩
  · rw [fusedBitCommit_signalTable s dst newBit sdfAny driven]
    exact ⟨sized.width _ inTable, sized.fits _ inTable⟩

/-- The generic commit changes no other bit. -/
theorem fusedBitCommit_code (sized : s.Sized) {dst b : BitRef} (has : s.HasBit dst) (hasB : s.HasBit b) {newBit : Nat}
    (low : newBit < 4) (sdfAny : Bool) (other : b ≠ dst) :
    (s.fusedBitCommit dst newBit sdfAny).1.code b = s.code b := by
  unfold code
  -- A bit of another signal is untouched; another bit of the same signal keeps its code.
  by_cases signal : b.sigId = dst.sigId
  · have bit : b.bit ≠ dst.bit := by
      intro bit
      apply other
      cases b
      cases dst
      simp_all
    obtain ⟨c, -, stored⟩ := fusedBitCommit_stores sized has low sdfAny
    have inside : b.bit < (s.signalTable dst.sigId).width := by
      rw [← signal, sized.width _ hasB.1]
      exact hasB.2
    rw [signal, stored, planeCode_write_of_ne c inside bit]
  · rw [fusedBitCommit_signalTable s dst newBit sdfAny signal]

/-- A delayed bit that differs is scheduled, with the rest of its signal as it is now. -/
theorem fusedBitCommit_delayed (sized : s.Sized) {dst : BitRef} (has : s.HasBit dst) {newBit : Nat} (low : newBit < 4)
    {sdfAny : Bool} (delayed : s.delayedNow sdfAny dst.sigId = true) :
    (s.fusedBitCommit dst newBit sdfAny).1 =
      if s.code dst = newBit then s
      else s.scheduleDelayed dst.sigId ((s.signalTable dst.sigId).write dst.bit 1 (newBit % 2) (newBit / 2)) := by
  have inside : dst.bit < (s.signalTable dst.sigId).width := by rw [sized.width _ has.1]; exact has.2
  unfold fusedBitCommit code
  dsimp only
  rw [if_pos delayed, LawfulGateOps.getBitCode_eq _ _ inside, setBitCode_spec inside low]
  by_cases same : planeCode (s.signalTable dst.sigId) dst.bit = newBit <;> simp [same]

/-- An undelayed bit is stored, unless a force holds another. -/
theorem fusedBitCommit_now (sized : s.Sized) {dst : BitRef} (has : s.HasBit dst) {newBit : Nat} (low : newBit < 4)
    {sdfAny : Bool} (now : s.delayedNow sdfAny dst.sigId = false) :
    (s.fusedBitCommit dst newBit sdfAny).1.scheduled = s.scheduled ∧
      (s.fusedBitCommit dst newBit sdfAny).1.code dst =
        if s.code dst = newBit then newBit
        else (s.forcedSignals dst.sigId).elim newBit fun fv => planeCode fv dst.bit := by
  have inside : dst.bit < (s.signalTable dst.sigId).width := by rw [sized.width _ has.1]; exact has.2
  have written := planeCode_write inside low
  unfold fusedBitCommit code
  dsimp only
  rw [if_neg (by simp [now]), setBitCode_spec inside low]
  by_cases same : planeCode (s.signalTable dst.sigId) dst.bit = newBit
  · simp [same, setSignal, written]
  · cases forced : s.forcedSignals dst.sigId with
    | none =>
      simp only [same, ne_eq, not_false_eq_true, decide_true, if_true, if_false, setSignal, forced, Option.elim_none]
      refine ⟨(afterSignalWritePremirrored_noted _ _).scheduled.trans (syncMirror_noted _ _).scheduled, ?_⟩
      rw [(afterSignalWritePremirrored_noted _ _).signalTable]
      refine (congrArg (fun table => planeCode (table dst.sigId) dst.bit) (syncMirror_noted _ _).signalTable).trans ?_
      simpa using written
    | some fv =>
      -- The forced bit is written over the driven one.
      have held : dst.bit < fv.width := by rw [sized.forced _ has.1 fv forced]; exact has.2
      simp only [same, ne_eq, not_false_eq_true, decide_true, if_true, if_false, setSignal, forced, Option.elim_some,
        Function.update_self]
      rw [LawfulGateOps.getBitCode_eq fv _ held, setBitCode_spec (by exact inside) (code_lt _ _), write_write_bit]
      exact ⟨trivial, planeCode_write inside (code_lt _ _)⟩

end Sized

end CommitSim

end Xezim.Comb
