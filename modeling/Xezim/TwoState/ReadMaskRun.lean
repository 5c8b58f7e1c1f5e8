import Xezim.Reference
import Xezim.TwoState.Agreement
import Xezim.TwoState.Machine
import Xezim.TwoState.ReadMaskLaws

/-! Runs from signals that agree on the recorded bits make the same stores. -/

namespace Xezim

open Lockstep

section Runs

variable [ValueOps] [LawfulValueOps] {D : Design} {reads : List (Nat × Word)} {writes : List Nat}
  {insns : List TsInsn} {widths : Nat → RegWidths} {answers : Nat → Bool}

/-- A store call writes the same bits to signals that agree on some of theirs. -/
theorem Sim.AgreeOn.apply {s s' : Sim} {op : StoreOp} (agree : s.AgreeOn D reads s') (legal : op.Ok D)
    (ok : s.Ok D) (ok' : s'.Ok D) : (op.apply D s).AgreeOn D reads (op.apply D s') := by
  cases made : op.update D with
  | none =>
    intro sig b inside recorded
    rw [(StoreOp.apply_none (s := s) made).1, (StoreOp.apply_none (s := s') made).1]
    exact agree sig b inside recorded
  | some u =>
    cases kind : u.nba with
    | false =>
      rw [StoreOp.apply_blocking legal ok.entries made kind, StoreOp.apply_blocking legal ok'.entries made kind]
      intro sig b inside recorded
      by_cases same : sig = u.id
      · -- Inside the window both show the source, outside it they are as before.
        subst same
        have old := agree u.id b inside recorded
        have here : b < (s.signalTable u.id).width := by rwa [(ok.entries u.id).width]
        have here' : b < (s'.signalTable u.id).width := by rwa [(ok'.entries u.id).width]
        simp only [Sim.setSignal, Function.update_self, Value.testBit_write_val _ _ _ _ _ _ here,
          Value.testBit_write_val _ _ _ _ _ _ here', Value.testBit_write_xz _ _ _ _ _ _ here,
          Value.testBit_write_xz _ _ _ _ _ _ here', old.1, old.2, and_self]
      · simpa [Sim.setSignal, same] using agree sig b inside recorded
    | true =>
      have queued := StoreOp.apply_nba legal ok.queue ok.entries made kind
      have queued' := StoreOp.apply_nba legal ok'.queue ok'.entries made kind
      intro sig b inside recorded
      rw [queued.table, queued'.table]
      exact agree sig b inside recorded

omit [ValueOps] [LawfulValueOps] in
/-- Two runs that executed the same positions, made the same store calls and hold the same registers, over
signals that agree on the recorded bits. -/
structure SameSoFar (D : Design) (reads : List (Nat × Word)) (c c' : Cfg Regs) : Prop where
  pc : c'.pc = c.pc
  regs : c'.regs = c.regs
  pcs : c'.pcs = c.pcs
  ops : c'.ops = c.ops
  agree : c.sim.AgreeOn D reads c'.sim

/-- The runs have come to a part-select of a narrow signal whose x and z bits differ, outside the recorded
bits then, and one of them stops on such a bit. -/
def StopsApart (D : Design) (insns : List TsInsn) (answers : Nat → Bool) (c c' : Cfg Regs) : Prop :=
  ∃ insn sig, insns[c.pc]? = some insn ∧ sig ∈ insn.partReads ∧
    (c.sim.sigPlanes sig).2 ≠ (c'.sim.sigPlanes sig).2 ∧
    (ctrlStep D insns answers c = .inr .xbail ∨ ctrlStep D insns answers c' = .inr .xbail)

/-- What the runs of a stream rely on: it is lowered, its constant reads stay inside their signals, and
all its reads are recorded. -/
structure Recorded (D : Design) (reads : List (Nat × Word)) (insns : List TsInsn)
    (widths : Nat → RegWidths) : Prop where
  flow : FlowOk D insns widths
  inside : ∀ insn ∈ insns, insn.ReadsInside D
  reads : ∀ insn ∈ insns, ∃ spans, insn.readSpans D.signalWidths = some spans ∧
    ∀ sig m, (sig, m) ∈ spans → Covered m (readMask reads sig)

variable {c c' last : Cfg Regs} {e : Ending} {n : Nat}

omit [ValueOps] [LawfulValueOps] in
/-- The registers and the position carry over to the other run. -/
theorem SameSoFar.sound (same : SameSoFar D reads c c') (sound : c.Sound D widths) (ok : c'.sim.Ok D) :
    c'.Sound D widths := ⟨by rw [same.pc, same.regs]; exact sound.holds, ok⟩

/-- One turn: the runs go on alike, end alike, or stop apart. -/
theorem sameSoFar_step (recorded : Recorded D reads insns widths) (same : SameSoFar D reads c c')
    (sound : c.Sound D widths) (ok' : c'.sim.Ok D) :
    StopsApart D insns answers c c' ∨
      (∃ e, ctrlStep D insns answers c = .inr e ∧ ctrlStep D insns answers c' = .inr e) ∨
      ∃ d d', ctrlStep D insns answers c = .inl d ∧ ctrlStep D insns answers c' = .inl d' ∧
        SameSoFar D reads d d' ∧ d.Sound D widths ∧ d'.sim.Ok D := by
  have sound' := same.sound sound ok'
  cases here : insns[c.pc]? with
  | none =>
    have here' : insns[c'.pc]? = none := by rw [same.pc, here]
    exact .inr (.inl ⟨.done, by simp [ctrlStep, here], by simp [ctrlStep, here']⟩)
  | some insn =>
    have here' : insns[c'.pc]? = some insn := by rw [same.pc, here]
    have member := List.mem_of_getElem? here
    obtain ⟨spans, told, covered⟩ := recorded.reads insn member
    have step : ctrlStep D insns answers c = _ := ctrlStep_at here
    have step' : ctrlStep D insns answers c' = _ := ctrlStep_at here'
    rw [same.pcs, same.regs] at step'
    rcases outcomesAlike (answers (asked insns c.pcs)) c.regs same.agree sound.ok.entries ok'.entries
      (recorded.flow.checks _ _ here) (recorded.inside insn member) told covered with
      alike | ⟨⟨sig, partly, differ⟩, stops⟩
    · cases out : tsStep c.sim (answers (asked insns c.pcs)) c.regs insn with
      | next r op =>
        rw [out] at alike step
        rw [← alike] at step'
        obtain ⟨carried, legal⟩ := sound.next recorded.flow here out
        obtain ⟨carried', -⟩ := sound'.next recorded.flow here' (by rw [same.regs]; exact alike.symm)
        refine .inr (.inr ⟨_, _, step, step', ⟨?_, rfl, ?_, ?_, ?_⟩, carried, ?_⟩)
        · simp [Cfg.after, same.pc]
        · simp [Cfg.after, same.pcs, same.pc]
        · simp [Cfg.after, same.ops]
        · cases op with
          | none => exact same.agree
          | some o => exact same.agree.apply (legal o rfl) sound.ok ok'
        · exact carried'.ok
      | jump r t =>
        rw [out] at alike step
        rw [← alike] at step'
        refine .inr (.inr ⟨_, _, step, step', ⟨rfl, rfl, ?_, ?_, same.agree⟩,
          sound.jump recorded.flow here out, ok'⟩)
        · simp [Cfg.after, same.pcs, same.pc]
        · simp [Cfg.after, same.ops]
      | bail | xbail | leave | unreachable =>
        rw [out] at alike step
        rw [← alike] at step'
        exact .inr (.inl ⟨_, step, step'⟩)
    · refine .inl ⟨insn, sig, here, partly, differ, ?_⟩
      rcases stops with stops | stops
      · exact .inl (by rw [step, stops]; rfl)
      · exact .inr (by rw [step', stops]; rfl)

/-- A run is followed by the other one to its end, or to where they stop apart. -/
theorem sameSoFar_run (recorded : Recorded D reads insns widths)
    (run : Steps (ctrlStep D insns answers) n c last) (ended : ctrlStep D insns answers last = .inr e)
    (same : SameSoFar D reads c c') (sound : c.Sound D widths) (ok' : c'.sim.Ok D) :
    (∃ last', Steps (ctrlStep D insns answers) n c' last' ∧ ctrlStep D insns answers last' = .inr e ∧
        SameSoFar D reads last last') ∨
      ∃ m d d', Steps (ctrlStep D insns answers) m c d ∧ Steps (ctrlStep D insns answers) m c' d' ∧
        SameSoFar D reads d d' ∧ StopsApart D insns answers d d' := by
  induction run generalizing c' with
  | refl c =>
    rcases sameSoFar_step recorded same sound ok' with apart | ⟨e', stop, stop'⟩ | ⟨d, d', on, -⟩
    · exact .inr ⟨0, c, c', .refl c, .refl c', same, apart⟩
    · rw [ended] at stop
      cases stop
      exact .inl ⟨c', .refl c', stop', same⟩
    · rw [ended] at on
      cases on
  | @cons n c d last stepped run ih =>
    rcases sameSoFar_step recorded same sound ok' with
      apart | ⟨e', stop, -⟩ | ⟨d₁, d', on, on', same', carried, carried'⟩
    · exact .inr ⟨0, c, c', .refl c, .refl c', same, apart⟩
    · rw [stepped] at stop
      cases stop
    · rw [stepped] at on
      cases on
      rcases ih ended same' carried carried' with
        ⟨last', run', ended', left⟩ | ⟨m, u, u', run, run', left, apart⟩
      · exact .inl ⟨last', .cons on' run', ended', left⟩
      · exact .inr ⟨m + 1, u, u', .cons stepped run, .cons on' run', left, apart⟩

/-- Read masks are sound: from two signal states that differ in chunks no read is recorded for, a lowered
stream executes the same positions with the same store calls and ends the same way, unless the runs come
to a part-select of a narrow signal that stops one of them on an x or z bit outside the part. -/
theorem tsReadMasks_sound (insns : List TsInsn) (widths : Nat → RegWidths) (flow : FlowOk D insns widths)
    (inside : ∀ insn ∈ insns, insn.ReadsInside D)
    (masks : tsReadMasks D.signalWidths insns = some (reads, writes)) (answers : Nat → Bool) (regs : Regs)
    (holds : (widths 0).Holds regs) (s s' : Sim) (ok : s.Ok D) (ok' : s'.Ok D)
    (agree : s.AgreeOn D reads s') (last : Cfg Regs) (e : Ending)
    (run : CtrlRun D insns answers (Cfg.start regs s) last e) :
    (∃ last', CtrlRun D insns answers (Cfg.start regs s') last' e ∧ SameSoFar D reads last last') ∨
      ∃ m d d', Steps (ctrlStep D insns answers) m (Cfg.start regs s) d ∧
        Steps (ctrlStep D insns answers) m (Cfg.start regs s') d' ∧
        SameSoFar D reads d d' ∧ StopsApart D insns answers d d' := by
  obtain ⟨n, run, ended⟩ := run
  have same : SameSoFar D reads (Cfg.start regs s) (Cfg.start regs s') := ⟨rfl, rfl, rfl, rfl, agree⟩
  rcases sameSoFar_run ⟨flow, inside, tsReadMasks_records masks⟩ run ended same ⟨holds, ok⟩ ok' with
    ⟨last', run', ended', same⟩ | apart
  · exact .inl ⟨last', ⟨n, run', ended'⟩, same⟩
  · exact .inr apart

end Runs

section Samples

attribute [local instance] referenceOps referenceOps_lawful

/-- The lowest bit of a signal copied to another one. -/
def lowBitStream : List TsInsn := [.sigBit 0 0 0, .store 1 0 3#64]

/-- The register is one bit wide from its load on. -/
def lowBitWidths : Nat → RegWidths
  | 0 => fun _ => none
  | _ => fun d => if d = 0 then some 1 else none

/-- The stream is lowered. -/
theorem lowBitStream_flowOk : FlowOk twoBitDesign lowBitStream lowBitWidths where
  checks pc insn here := by
    rcases pc with _ | _ | pc <;> simp [lowBitStream] at here <;> subst here
    · trivial
    · exact ⟨⟨1, rfl, by decide⟩, by decide, by decide⟩
  falls pc insn here := by
    rcases pc with _ | _ | pc <;> simp [lowBitStream] at here <;> subst here <;>
      intro d w defined <;> simp only [lowBitWidths, Option.ite_none_right_eq_some,
        Option.some.injEq] at defined <;> obtain ⟨rfl, rfl⟩ := defined <;>
      exact ⟨1, rfl, le_rfl⟩
  jumps pc insn here t target := by
    rcases pc with _ | _ | pc <;> simp [lowBitStream] at here <;> subst here <;> cases target

/-- Its constant read stays inside the signal. -/
theorem lowBitStream_inside : ∀ insn ∈ lowBitStream, insn.ReadsInside twoBitDesign := by
  simp [lowBitStream, TsInsn.ReadsInside, NarrowRead, twoBitDesign]

/-- One signal recorded at its lowest bit, one not read. -/
theorem tsReadMasks_lowBit : tsReadMasks twoBitDesign.signalWidths lowBitStream = some ([(0, 1#64)], [1]) := rfl

/-- Signals that differ in the other bit of the first one. -/
def highBitSim (val xz : Nat) : Sim :=
  freshSim fun id => if id = 0 then ⟨2, val, xz, false, false, false⟩ else twoBit 0

/-- They agree on the recorded bit. -/
theorem highBitSim_agree {val xz : Nat} (low : val.testBit 0 = false) (low' : xz.testBit 0 = false) :
    (highBitSim 0 0).AgreeOn twoBitDesign [(0, 1#64)] (highBitSim val xz) := by
  intro sig b _ recorded
  by_cases first : sig = 0
  · subst first
    -- Two bits are two chunks.
    have here : b < 1 := low_of_one recorded
    obtain rfl : b = 0 := by omega
    simp [highBitSim, freshSim, low, low']
  · simp [highBitSim, freshSim, first]

/-- They are sound. -/
theorem highBitSim_ok {val xz : Nat} (small : val < 4) (small' : xz < 4) :
    (highBitSim val xz).Ok twoBitDesign := by
  refine freshSim_ok fun id => ?_
  by_cases first : id = 0
  · simp only [if_pos first]
    exact ⟨rfl, small, small'⟩
  · simp only [if_neg first]
    exact ⟨rfl, by decide, by decide⟩

/-- The run that copies the lowest bit is the same whatever the other bit holds. -/
theorem tsReadMasks_sound_lowBit : ∃ last,
    CtrlRun twoBitDesign lowBitStream (fun _ => false) (Cfg.start (fun _ => 0#64) (highBitSim 0 0)) last
      .done ∧
    ((∃ last', CtrlRun twoBitDesign lowBitStream (fun _ => false)
        (Cfg.start (fun _ => 0#64) (highBitSim 2 0)) last' .done ∧
        SameSoFar twoBitDesign [(0, 1#64)] last last') ∨
      ∃ m d d', Steps (ctrlStep twoBitDesign lowBitStream fun _ => false) m
          (Cfg.start (fun _ => 0#64) (highBitSim 0 0)) d ∧
        Steps (ctrlStep twoBitDesign lowBitStream fun _ => false) m
          (Cfg.start (fun _ => 0#64) (highBitSim 2 0)) d' ∧
        SameSoFar twoBitDesign [(0, 1#64)] d d' ∧
        StopsApart twoBitDesign lowBitStream (fun _ => false) d d') := by
  have run : ∃ last, CtrlRun twoBitDesign lowBitStream (fun _ => false)
      (Cfg.start (fun _ => 0#64) (highBitSim 0 0)) last .done := ⟨_, 2, .cons rfl (.one rfl), rfl⟩
  obtain ⟨last, run⟩ := run
  exact ⟨last, run, tsReadMasks_sound lowBitStream lowBitWidths lowBitStream_flowOk lowBitStream_inside
    tsReadMasks_lowBit _ _ (fun d w defined => by cases defined) _ _
    (highBitSim_ok (by decide) (by decide)) (highBitSim_ok (by decide) (by decide))
    (highBitSim_agree rfl rfl) last .done run⟩

/-- The bail decision is not one of the recorded bits alone: an x in the other bit of a signal read in part
stops the run. -/
theorem tsReadMasks_not_bail_decision :
    ¬ ∀ (D : Design) (insns : List TsInsn) (widths : Nat → RegWidths) (reads : List (Nat × Word))
        (writes : List Nat), FlowOk D insns widths → (∀ insn ∈ insns, insn.ReadsInside D) →
      tsReadMasks D.signalWidths insns = some (reads, writes) →
      ∀ (answers : Nat → Bool) (regs : Regs), (widths 0).Holds regs → ∀ s s' : Sim, s.Ok D → s'.Ok D →
        s.AgreeOn D reads s' → ∀ last e, CtrlRun D insns answers (Cfg.start regs s) last e →
          ∃ last', CtrlRun D insns answers (Cfg.start regs s') last' e := by
  intro all
  have run : ∃ last, CtrlRun twoBitDesign lowBitStream (fun _ => false)
      (Cfg.start (fun _ => 0#64) (highBitSim 0 0)) last .done := ⟨_, 2, .cons rfl (.one rfl), rfl⟩
  obtain ⟨last, run⟩ := run
  obtain ⟨last', n, run', ended⟩ := all _ _ _ _ _ lowBitStream_flowOk lowBitStream_inside tsReadMasks_lowBit
    _ _ (fun d w defined => by cases defined) _ (highBitSim 0 2) (highBitSim_ok (by decide) (by decide))
    (highBitSim_ok (by decide) (by decide)) (highBitSim_agree rfl rfl) last .done run
  have stops : ctrlStep twoBitDesign lowBitStream (fun _ => false)
      (Cfg.start (fun _ => 0#64) (highBitSim 0 2)) = .inr .xbail := rfl
  have here := Steps.ending_unique (.refl _) stops run' ended
  subst here
  rw [stops] at ended
  cases ended

end Samples

end Xezim
