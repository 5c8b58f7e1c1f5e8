import Xezim.Reference
import Xezim.TwoState.StepAgreement

/-! On signals without x and z the x-plane executor runs as the two-state executors do. -/

namespace Xezim

open KnownBits

section Runs

variable [ValueOps] {D : Design} {insns : List TsInsn} {polls : Nat → Bool}
  {widths : Nat → RegWidths}

/-- The x-plane executor only looks at the signal table. -/
theorem xStep_congr {s sx : Sim} (table : sx.signalTable = s.signalTable) (poll : Bool)
    (r : XRegs) (insn : TsInsn) : xStep D sx poll r insn = xStep D s poll r insn := by
  have planes : ∀ sig, sx.sigX sig = s.sigX sig := fun sig => by
    rw [Sim.sigX, Sim.sigPlanes, table]; rfl
  cases insn <;> simp only [xStep, planes, table]

/-- Every signal a two-state run reads is free of x and z when it is read. -/
def RunReadsClean (D : Design) (insns : List TsInsn) (polls : Nat → Bool) :
    Nat → Cfg Regs → Prop
  | 0, _ => True
  | fuel + 1, c =>
    match insns[c.pc]? with
    | none => True
    | some insn =>
      insn.ReadsClean c.sim c.regs ∧
        match tsStep c.sim (polls c.pcs.length) c.regs insn with
        | .next r op => RunReadsClean D insns polls fuel (c.after D (c.pc + 1) r op)
        | .jump r t => RunReadsClean D insns polls fuel (c.after D t r none)
        | _ => True

/-- The x-plane run stands where the two-state run does, on known registers and an alike
simulator, after the same positions and the same updates. -/
structure Cfg.Matches (D : Design) (c : Cfg Regs) (cx : Cfg XRegs) : Prop where
  pc : cx.pc = c.pc
  regs : cx.regs = knownRegs c.regs
  sim : c.sim.Alike cx.sim
  pcs : cx.pcs = c.pcs
  updates : cx.updates D = c.updates D

/-- What carries a two-state run on: registers of the lowered widths and a sound simulator. -/
structure Cfg.Sound (D : Design) (widths : Nat → RegWidths) (c : Cfg Regs) : Prop where
  holds : (widths c.pc).Holds c.regs
  ok : c.sim.Ok D

variable [LawfulValueOps] {c : Cfg Regs} {cx : Cfg XRegs}

/-- Agreeing outcomes lead from matching configurations to matching ones. -/
theorem Cfg.Matches.after (matching : c.Matches D cx) {pc : Nat} {r : Regs}
    {op opx : Option StoreOp} (agree : StoreOp.Agrees op opx) (ok : c.sim.Ok D)
    (legal : ∀ o, op = some o → o.Ok D) :
    (c.after D pc r op).Matches D (cx.after D pc (knownRegs r) opx) where
  pc := rfl
  regs := rfl
  sim := matching.sim.after agree ok legal
  pcs := by simp [Cfg.after, matching.pcs, matching.pc]
  updates := by
    rw [Cfg.updates_after, Cfg.updates_after, matching.updates, agree.update]

/-- A completed step of the two-state executor keeps what carries the run on. -/
theorem Cfg.Sound.next (flow : FlowOk D insns widths) (sound : c.Sound D widths) {insn : TsInsn}
    {poll : Bool} (here : insns[c.pc]? = some insn) {r : Regs} {op : Option StoreOp}
    (stepped : tsStep c.sim poll c.regs insn = .next r op) :
    (c.after D (c.pc + 1) r op).Sound D widths ∧ ∀ o, op = some o → o.Ok D := by
  have ok := tsStep_next (flow.checks _ _ here) sound.holds sound.ok.entries stepped
  refine ⟨⟨ok.1.le (flow.falls _ _ here), ?_⟩, ok.2⟩
  cases op with
  | none => exact sound.ok
  | some o => exact StoreOp.apply_ok (ok.2 o rfl) sound.ok

/-- A taken branch of the two-state executor keeps what carries the run on. -/
theorem Cfg.Sound.jump (flow : FlowOk D insns widths) (sound : c.Sound D widths) {insn : TsInsn}
    {poll : Bool} (here : insns[c.pc]? = some insn) {r : Regs} {t : Nat}
    (stepped : tsStep c.sim poll c.regs insn = .jump r t) :
    (c.after D t r none).Sound D widths := by
  have ok := tsStep_jump sound.holds sound.ok.entries stepped
  exact ⟨ok.1.le (flow.jumps _ _ here t ok.2), sound.ok⟩

/-- A two-state run that completes is followed by the x-plane run to the same end. -/
theorem execTwoStateX_of_ctrl_done (flow : FlowOk D insns widths) (fuel : Nat) :
    ∀ (c : Cfg Regs) (cx : Cfg XRegs) (stop : Cfg Regs), c.Sound D widths → c.Matches D cx →
      RunReadsClean D insns polls fuel c → execTwoStateCtrl D insns polls fuel c = .done stop →
      ∃ stopX, execTwoStateX D insns polls fuel cx = .done stopX ∧ stop.Matches D stopX := by
  induction fuel with
  | zero =>
    intro c cx stop _ matching _ ran
    rw [execTwoStateCtrl] at ran
    split at ran
    · rename_i past
      cases ran
      exact ⟨cx, by rw [execTwoStateX, matching.pc, if_pos past], matching⟩
    · cases ran
  | succ fuel ih =>
    intro c cx stop sound matching clean ran
    rw [execTwoStateCtrl] at ran
    rw [execTwoStateX, matching.pc]
    rw [RunReadsClean] at clean
    cases here : insns[c.pc]? with
    | none =>
      simp only [here, Halt.done.injEq] at ran
      subst ran
      exact ⟨cx, rfl, matching⟩
    | some insn =>
      simp only [here] at ran clean ⊢
      have follows := xStep_followsTs (polls c.pcs.length) (flow.checks _ _ here)
        sound.holds clean.1
      rw [xStep_congr matching.sim.table, matching.regs, matching.pcs]
      cases stepped : tsStep c.sim (polls c.pcs.length) c.regs insn with
      | next r op =>
        simp only [stepped] at ran clean follows
        obtain ⟨opx, stepX, agree⟩ := follows
        obtain ⟨carried, legal⟩ := sound.next flow here stepped
        simp only [stepX]
        exact ih _ _ _ carried (matching.after agree sound.ok legal) clean.2 ran
      | jump r t =>
        simp only [stepped] at ran clean follows
        simp only [show xStep D c.sim (polls c.pcs.length) (knownRegs c.regs) insn =
          .jump (knownRegs r) t from follows]
        exact ih _ _ _ (sound.jump flow here stepped)
          (matching.after (.same none) sound.ok (by simp)) clean.2 ran
      | bail | xbail | leave | unreachable =>
        simp only [stepped] at ran
        cases ran

omit [LawfulValueOps] in
/-- A straight-line run that completes is a run by position. -/
theorem execTwoStateCtrl_of_line (rest : List TsInsn) :
    ∀ (c stop : Cfg Regs), insns.drop c.pc = rest →
      execTwoStateLine D polls rest c = .done stop →
      execTwoStateCtrl D insns polls rest.length c = .done stop := by
  induction rest with
  | nil =>
    intro c stop left ran
    rw [List.length_nil, execTwoStateCtrl, if_pos (List.drop_eq_nil_iff.mp left)]
    exact ran
  | cons insn rest ih =>
    intro c stop left ran
    have here : insns[c.pc]? = some insn := by
      rw [← List.head?_drop, left]
      rfl
    have left' : insns.drop (c.pc + 1) = rest := by
      rw [← List.drop_drop, left]
      rfl
    rw [execTwoStateLine] at ran
    split at ran
    · cases ran
    · simp only [List.length_cons, execTwoStateCtrl, here]
      split at ran
      · rename_i stepped
        rw [stepped]
        exact ih _ stop left' ran
      all_goals cases ran

/-- Two runs that end alike: the same positions executed, known registers of the same words, the
same updates in the same order, and simulators alike but for the saves. -/
def Cfg.EndsLike (D : Design) (c : Cfg Regs) (haltX : Halt XRegs) : Prop :=
  ∃ cx, haltX = .done cx ∧ cx.pcs = c.pcs ∧ cx.regs = knownRegs c.regs ∧
    cx.updates D = c.updates D ∧ c.sim.Alike cx.sim

/-- On a lowered stream and signals that are free of x and z whenever they are read, the x-plane
executor ends like the two-state executor that completes: the one with control flow, and the
straight-line one. -/
theorem execTwoStateX_agrees (flow : FlowOk D insns widths) {r : Regs} {s : Sim}
    (holds : (widths 0).Holds r) (ok : s.Ok D)
    (clean : ∀ fuel, RunReadsClean D insns polls fuel (Cfg.start r s)) :
    (∀ fuel c, execTwoStateCtrl D insns polls fuel (Cfg.start r s) = .done c →
        c.EndsLike D (execTwoStateX D insns polls fuel (Cfg.start (knownRegs r) s))) ∧
      ∀ c, execTwoStateLine D polls insns (Cfg.start r s) = .done c →
        c.EndsLike D (execTwoStateX D insns polls insns.length (Cfg.start (knownRegs r) s)) := by
  have matching : (Cfg.start r s).Matches D (Cfg.start (knownRegs r) s) :=
    ⟨rfl, rfl, ⟨rfl, rfl, rfl⟩, rfl, rfl⟩
  have ctrl : ∀ fuel c, execTwoStateCtrl D insns polls fuel (Cfg.start r s) = .done c →
      c.EndsLike D (execTwoStateX D insns polls fuel (Cfg.start (knownRegs r) s)) := by
    intro fuel c ran
    obtain ⟨cx, ranX, same⟩ :=
      execTwoStateX_of_ctrl_done flow fuel _ _ _ ⟨holds, ok⟩ matching (clean fuel) ran
    exact ⟨cx, ranX, same.pcs, same.regs, same.updates, same.sim⟩
  exact ⟨ctrl, fun c ran => ctrl _ c (execTwoStateCtrl_of_line insns _ c rfl ran)⟩

end Runs

section Samples

attribute [local instance] referenceOps referenceOps_lawful

/-- A branch around a store. -/
def branchStream : List TsInsn := [.loadSig 0 0, .brFalse 0 3, .store 1 0 3#64]

/-- The first signal holds two, and every other one zero. -/
def branchSim : Sim := freshSim fun id => twoBit (if id = 0 then 2 else 0)

/-- The loaded register is known from its load on. -/
def branchWidths : Nat → RegWidths
  | 0 => fun _ => none
  | _ => fun d => if d = 0 then some 2 else none

/-- The branch stream is lowered. -/
theorem branchStream_flowOk : FlowOk twoBitDesign branchStream branchWidths where
  checks pc insn here := by
    rcases pc with _ | _ | _ | pc <;> simp [branchStream] at here <;> subst here
    · trivial
    · exact ⟨2, rfl, by decide⟩
    · exact ⟨⟨2, rfl, by decide⟩, by decide, by decide⟩
  falls pc insn here := by
    rcases pc with _ | _ | _ | pc <;> simp [branchStream] at here <;> subst here <;>
      intro d w defined <;> simp only [branchWidths, Option.ite_none_right_eq_some,
        Option.some.injEq] at defined <;> obtain ⟨rfl, rfl⟩ := defined <;>
      exact ⟨2, rfl, le_rfl⟩
  jumps pc insn here t target := by
    rcases pc with _ | _ | _ | pc <;> simp [branchStream] at here <;> subst here <;>
      simp only [TsInsn.targets, List.mem_singleton, List.not_mem_nil] at target
    subst target
    intro d w defined
    simp only [branchWidths, Option.ite_none_right_eq_some, Option.some.injEq] at defined
    obtain ⟨rfl, rfl⟩ := defined
    exact ⟨2, rfl, le_rfl⟩

/-- A run around a taken store, from its load to its end. -/
theorem execTwoStateX_agrees_branch :
    (∃ c, execTwoStateCtrl twoBitDesign branchStream (fun _ => false) 3
        (Cfg.start (fun _ => 0#64) branchSim) = .done c ∧
      c.updates twoBitDesign = [⟨false, 1, 0, 2, 2, 0⟩]) ∧
    ∀ fuel c, execTwoStateCtrl twoBitDesign branchStream (fun _ => false) fuel
        (Cfg.start (fun _ => 0#64) branchSim) = .done c →
      c.EndsLike twoBitDesign (execTwoStateX twoBitDesign branchStream (fun _ => false) fuel
        (Cfg.start (knownRegs fun _ => 0#64) branchSim)) := by
  refine ⟨⟨_, rfl, by decide⟩, ?_⟩
  refine (execTwoStateX_agrees branchStream_flowOk (fun d w defined => by cases defined)
    (freshSim_twoBit_ok _) fun fuel => ?_).1
  -- The load reads the first signal, and nothing else reads one.
  have loads : (TsInsn.loadSig 0 0).ReadsClean branchSim fun _ => 0#64 := by
    simp [TsInsn.ReadsClean, TsInsn.reads, branchSim, freshSim, Value.Clean, twoBit]
  have branches : ∀ s r, (TsInsn.brFalse 0 3).ReadsClean s r := fun _ _ => by
    simp [TsInsn.ReadsClean, TsInsn.reads]
  have stores : ∀ s r, (TsInsn.store 1 0 3#64).ReadsClean s r := fun _ _ => by
    simp [TsInsn.ReadsClean, TsInsn.reads]
  rcases fuel with _ | _ | _ | fuel
  · trivial
  · exact And.intro loads trivial
  · exact And.intro loads (And.intro (branches _ _) trivial)
  · refine And.intro loads (And.intro (branches _ _) (And.intro (stores _ _) ?_))
    cases fuel <;> trivial

/-- A signal set to x by the block itself and then copied into an array element. -/
def copyStream : List TsInsn :=
  [.constStoreX 0 0#64 1#64, .loadSig 1 1, .elemStoreNbaFromSig ⟨0, 0, ⟨2, 0, 0, 1, 0, 2, 3#64⟩⟩]

/-- A lowered stream can set a signal to x itself and read it back: from a state without any x or z
bit the two-state executor then completes, and the x-plane executor ends with an unknown bit in a
register. -/
theorem execTwoStateX_agrees_not_from_clean :
    (LineOk twoBitDesign (fun _ => none) copyStream ∧
      ∀ insn ∈ copyStream, insn.isCtrl = false) ∧
    (∀ sig, ((freshSim fun _ => twoBit 0).signalTable sig).Clean) ∧
    ∃ c cx, execTwoStateLine twoBitDesign (fun _ => false) copyStream
        (Cfg.start (fun _ => 0#64) (freshSim fun _ => twoBit 0)) = .done c ∧
      execTwoStateX twoBitDesign copyStream (fun _ => false) 3
        (Cfg.start (knownRegs fun _ => 0#64) (freshSim fun _ => twoBit 0)) = .done cx ∧
      (cx.regs 0).x ≠ 0#64 := by
  refine ⟨⟨⟨?_, ?_, ?_, trivial⟩, by decide⟩, fun _ => rfl, _, _, rfl, rfl, by decide⟩
  · have small : ∀ u : Word, u.toNat < 4 → Fits 2 u := fun u small => fits_of_toNat_lt small
    exact ⟨by decide, small _ (by decide), small _ (by decide)⟩
  · trivial
  · exact ⟨⟨2, rfl, by decide⟩, by decide, by decide, by decide, fun _ _ _ => rfl⟩

end Samples

end Xezim
