import Mathlib.Data.List.Forall2
import Xezim.Reference
import Xezim.TwoState.StepAbstraction

/-! The x-plane executor covers the straight-line executor on every completion of its signals. -/

namespace Xezim

open Splice KnownBits Function

/-- Values that show the same update of covering values cover each other. -/
theorem Value.Shows.covers {w lo len a x a' x' : Nat} {abs con new newC : Value}
    (shows : new.Shows w abs lo len a x) (showsC : newC.Shows w con lo len a' x')
    (covers : abs.Covers con) (width : abs.width = w) (widths : new.width = w ∧ newC.width = w)
    (bits : ∀ i, i < len → x.testBit i = false →
      x'.testBit i = false ∧ a'.testBit i = a.testBit i) : new.Covers newC := by
  refine ⟨widths.1.trans widths.2.symm, fun i inside clear => ?_⟩
  rw [widths.1] at inside
  rw [(shows i inside).2] at clear
  rw [(showsC i inside).1, (showsC i inside).2, (shows i inside).1]
  by_cases window : lo ≤ i ∧ i < lo + len
  · simp only [window, and_self, if_true] at clear ⊢
    exact bits (i - lo) (by omega) clear
  · simp only [window, if_false] at clear ⊢
    exact covers.2 i (by omega) clear

/-- Overwriting the same bits of covering values by covering planes. -/
theorem Value.Covers.write {abs con : Value} (covers : abs.Covers con) {lo len a x a' x' : Nat}
    (bits : ∀ i, i < len → x.testBit i = false →
      x'.testBit i = false ∧ a'.testBit i = a.testBit i) :
    (abs.write lo len a x).Covers (con.write lo len a' x') := by
  have shows := abs.shows_write lo len a x
  have showsC := con.shows_write lo len a' x'
  rw [← covers.1] at showsC
  exact shows.covers showsC covers rfl ⟨rfl, covers.1.symm⟩ bits

/-- One simulator is another with each x and z bit of a signal replaced by a zero or a one. -/
structure Sim.Completes (sc s : Sim) : Prop where
  signals : ∀ id, (sc.signalTable id).Completes (s.signalTable id)
  queue : sc.nbaFast = s.nbaFast

section Effects

variable [ValueOps] [LawfulValueOps] {D : Design} {s sc : Sim}

/-- The simulator after an optional store call. -/
def Sim.afterOp (D : Design) (s : Sim) (op : Option StoreOp) : Sim :=
  op.elim s (StoreOp.apply D s)

omit [LawfulValueOps] in
/-- An outcome that updates nothing leaves the table and the queue alone. -/
theorem Sim.afterOp_none {op : Option StoreOp} (made : op.bind (StoreOp.update D) = none) :
    (s.afterOp D op).signalTable = s.signalTable ∧ (s.afterOp D op).nbaFast = s.nbaFast := by
  cases op with
  | none => exact ⟨rfl, rfl⟩
  | some op => exact StoreOp.apply_none made

/-- A blocking outcome is its update of the signal table. -/
theorem Sim.afterOp_blocking (ok : s.Ok D) {op : Option StoreOp} {u : Update}
    (legal : ∀ o, op = some o → o.Ok D) (made : op.bind (StoreOp.update D) = some u)
    (now : u.nba = false) :
    s.afterOp D op = s.setSignal u.id ((s.signalTable u.id).write u.lo u.len u.val u.xz) := by
  obtain ⟨o, rfl, made⟩ := Option.bind_eq_some_iff.mp made
  exact StoreOp.apply_blocking (legal o rfl) ok.entries made now

/-- A nonblocking outcome is its update of the pending value. -/
theorem Sim.afterOp_nba (ok : s.Ok D) {op : Option StoreOp} {u : Update}
    (legal : ∀ o, op = some o → o.Ok D) (made : op.bind (StoreOp.update D) = some u)
    (later : u.nba = true) : s.Queued D (s.afterOp D op) u := by
  obtain ⟨o, rfl, made⟩ := Option.bind_eq_some_iff.mp made
  exact StoreOp.apply_nba (legal o rfl) ok.queue ok.entries made later

/-- A legal outcome keeps the simulator sound. -/
theorem Sim.Ok.afterOp (ok : s.Ok D) {op : Option StoreOp} (legal : ∀ o, op = some o → o.Ok D) :
    (s.afterOp D op).Ok D := by
  cases op with
  | none => exact ok
  | some op => exact StoreOp.apply_ok (legal op rfl) ok

omit [ValueOps] [LawfulValueOps] in
/-- Replacing one signal's value leaves another's pending value alone. -/
theorem Sim.pending_setSignal_of_ne {id id' : Nat} (other : id' ≠ id) (v : Value) :
    (s.setSignal id v).pending id' = s.pending id' := by
  simp [Sim.pending, Sim.setSignal, update_of_ne other]

variable {op opx : Option StoreOp}

/-- Covering outcomes leave covering tables. -/
theorem Sim.TableCovers.afterOp (table : s.TableCovers sc) (ok : s.Ok D) (okC : sc.Ok D)
    (legal : ∀ o, op = some o → o.Ok D) (legalX : ∀ o, opx = some o → o.Ok D)
    (covers : Option.Rel Update.Covers (opx.bind (StoreOp.update D))
      (op.bind (StoreOp.update D))) :
    (s.afterOp D opx).TableCovers (sc.afterOp D op) := by
  intro id
  generalize madeX : opx.bind (StoreOp.update D) = ux at covers
  generalize made : op.bind (StoreOp.update D) = u at covers
  cases covers with
  | none =>
    rw [(Sim.afterOp_none made).1, (Sim.afterOp_none madeX).1]
    exact table id
  | @some ux u covers =>
    obtain ⟨⟨nba, sig, lo, len⟩, bits⟩ := covers
    cases kind : u.nba with
    | true =>
      -- A queued write waits, on both sides.
      rw [(Sim.afterOp_nba okC legal made kind).table,
        (Sim.afterOp_nba ok legalX madeX (by rw [nba, kind])).table]
      exact table id
    | false =>
      rw [Sim.afterOp_blocking okC legal made kind,
        Sim.afterOp_blocking ok legalX madeX (by rw [nba, kind]), sig, lo, len]
      by_cases same : id = u.id
      · subst same
        simp only [Sim.setSignal, update_self]
        exact (table u.id).write (by rwa [len] at bits)
      · simpa [Sim.setSignal, update_of_ne same] using table id

/-- Covering outcomes leave covering pending values of a signal they do not store to at once. -/
theorem Sim.pending_covers_afterOp (ok : s.Ok D) (okC : sc.Ok D)
    (legal : ∀ o, op = some o → o.Ok D) (legalX : ∀ o, opx = some o → o.Ok D)
    (covers : Option.Rel Update.Covers (opx.bind (StoreOp.update D))
      (op.bind (StoreOp.update D))) {id : Nat}
    (later : ∀ u, op.bind (StoreOp.update D) = some u → u.id = id → u.nba = true)
    (pending : (s.pending id).Covers (sc.pending id)) :
    ((s.afterOp D opx).pending id).Covers ((sc.afterOp D op).pending id) := by
  generalize madeX : opx.bind (StoreOp.update D) = ux at covers
  generalize made : op.bind (StoreOp.update D) = u at covers later
  cases covers with
  | none =>
    simp only [Sim.pending, (Sim.afterOp_none made).1, (Sim.afterOp_none made).2,
      (Sim.afterOp_none madeX).1, (Sim.afterOp_none madeX).2]
    exact pending
  | @some ux u covers =>
    obtain ⟨⟨nba, sig, lo, len⟩, bits⟩ := covers
    cases kind : u.nba with
    | true =>
      have queued := Sim.afterOp_nba okC legal made kind
      have queuedX := Sim.afterOp_nba ok legalX madeX (by rw [nba, kind])
      by_cases same : id = u.id
      · subst same
        have shows := queuedX.shows
        rw [sig, lo, len] at shows
        exact shows.covers queued.shows pending (ok.queue.width _)
          ⟨queuedX.queue.width _, queued.queue.width _⟩ (by rwa [len] at bits)
      · rw [queued.others id same, queuedX.others id (by rw [sig]; exact same)]
        exact pending
    | false =>
      have other : id ≠ u.id := fun same => by
        have nba := later u rfl same.symm
        simp [kind] at nba
      rw [Sim.afterOp_blocking okC legal made kind,
        Sim.afterOp_blocking ok legalX madeX (by rw [nba, kind]), sig,
        Sim.pending_setSignal_of_ne other, Sim.pending_setSignal_of_ne other]
      exact pending

end Effects

section Runs

variable [ValueOps] {D : Design} {insns : List TsInsn} {polls : Nat → Bool}

/-- No step of an x-plane run executes a dynamic store with an unknown index, or stores an x or z
bit it computed at once into a signal that holds none. -/
def RunIncluded (D : Design) (insns : List TsInsn) (polls : Nat → Bool) : Nat → Cfg XRegs → Prop
  | 0, _ => True
  | fuel + 1, c =>
    match insns[c.pc]? with
    | none => True
    | some insn =>
      insn.IndexKnown c.sim c.regs ∧ insn.KeepsUnknown D c.sim c.regs ∧
        match xStep D c.sim (polls c.pcs.length) c.regs insn with
        | .next r op => RunIncluded D insns polls fuel (c.after D (c.pc + 1) r op)
        | .jump r t => RunIncluded D insns polls fuel (c.after D t r none)
        | _ => True

/-- What an x-plane run knows holds of a two-state run: its registers, its updates one by one, its
signal table, and the pending value of every signal without a blocking store. -/
structure Cfg.Covers (D : Design) (cx : Cfg XRegs) (c : Cfg Regs) : Prop where
  regs : ∀ d, KnownBits.Covers (cx.regs d) (c.regs d)
  updates : List.Forall₂ Update.Covers (cx.updates D) (c.updates D)
  table : cx.sim.TableCovers c.sim
  pending : ∀ id, (∀ u ∈ c.updates D, u.id = id → u.nba = true) →
    (cx.sim.pending id).Covers (c.sim.pending id)

/-- A design whose every signal holds x and z drops none. -/
theorem TsInsn.keepsUnknown_of_fourState (four : ∀ id, D.signalTwoState id = false) (insn : TsInsn)
    (s : Sim) (rx : XRegs) : insn.KeepsUnknown D s rx := by
  intro _ rx' op _ scrubs
  cases op <;> simp [StoreOp.Scrubs, four] at scrubs

variable [LawfulValueOps]

/-- Covering outcomes lead from a covering configuration to a covering one. -/
theorem Cfg.Covers.after {cx : Cfg XRegs} {c : Cfg Regs} (covers : cx.Covers D c)
    (ok : cx.sim.Ok D) (okC : c.sim.Ok D) {pc : Nat} {rx : XRegs} {r : Regs}
    {op opx : Option StoreOp} (regs : ∀ d, KnownBits.Covers (rx d) (r d))
    (legal : ∀ o, op = some o → o.Ok D) (legalX : ∀ o, opx = some o → o.Ok D)
    (rel : Option.Rel Update.Covers (opx.bind (StoreOp.update D)) (op.bind (StoreOp.update D))) :
    (cx.after D pc rx opx).Covers D (c.after D pc r op) where
  regs := regs
  updates := by
    rw [Cfg.updates_after, Cfg.updates_after]
    refine List.rel_append covers.updates ?_
    generalize opx.bind (StoreOp.update D) = ux, op.bind (StoreOp.update D) = u at rel
    cases rel with
    | none => exact .nil
    | some one => exact .cons one .nil
  table := covers.table.afterOp ok okC legal legalX rel
  pending id later := by
    rw [Cfg.updates_after] at later
    refine Sim.pending_covers_afterOp ok okC legal legalX rel (fun u made => later u ?_)
      (covers.pending id fun u member => later u (by simp [member]))
    simp [made]

/-- From covering configurations on, a straight-line run that completes is covered by the x-plane
run to its end. -/
theorem execTwoStateX_covers_line (rest : List TsInsn) :
    ∀ (ws : RegWidths) (cx : Cfg XRegs) (c stop : Cfg Regs), LineOk D ws rest →
      (∀ insn ∈ rest, insn.isCtrl = false) → insns.drop cx.pc = rest →
      cx.pc = c.pc ∧ cx.pcs = c.pcs → ws.Holds c.regs → cx.sim.Ok D → c.sim.Ok D →
      cx.Covers D c → RunIncluded D insns polls rest.length cx →
      execTwoStateLine D polls rest c = .done stop →
      ∃ stopX, execTwoStateX D insns polls rest.length cx = .done stopX ∧
        stopX.Covers D stop := by
  induction rest with
  | nil =>
    intro ws cx c stop _ _ left _ _ _ _ covers _ ran
    cases ran
    exact ⟨cx, by rw [List.length_nil, execTwoStateX, if_pos (List.drop_eq_nil_iff.mp left)], covers⟩
  | cons insn rest ih =>
    intro ws cx c stop line straight left same holds ok okC covers included ran
    have here : insns[cx.pc]? = some insn := by
      rw [← List.head?_drop, left]
      rfl
    have left' : insns.drop (cx.pc + 1) = rest := by
      rw [← List.drop_drop, left]
      rfl
    have noCtrl := straight insn (by simp)
    rw [List.length_cons, RunIncluded, here] at included
    obtain ⟨index, keeps, included⟩ := included
    -- One step on both sides, then the rest of the stream.
    have step := xStep_coversTs (polls c.pcs.length) noCtrl line.1 holds covers.regs covers.table
      ok.entries okC.entries index keeps
    rw [execTwoStateLine, noCtrl] at ran
    cases stepped : tsStep c.sim (polls c.pcs.length) c.regs insn with
    | next r op =>
      simp only [stepped] at ran step
      obtain ⟨rx, opx, stepX, regs, rel, legalX⟩ := step
      obtain ⟨holds', legal⟩ := tsStep_next line.1 holds okC.entries stepped
      rw [same.2, stepX] at included
      rw [List.length_cons, execTwoStateX, here, same.2]
      simp only [stepX]
      refine ih _ (cx.after D (cx.pc + 1) rx opx) _ stop line.2
        (fun i member => straight i (by simp [member])) left' ?_ holds' (ok.afterOp legalX)
        (okC.afterOp legal) ?_ included ran
      · exact ⟨by simp [Cfg.after, same.1], by simp [Cfg.after, same.1, same.2]⟩
      · rw [same.1]
        exact covers.after ok okC regs legal legalX rel
    | bail | xbail | leave | jump | unreachable =>
      simp only [stepped] at ran
      cases ran

/-- The x-plane executor covers the straight-line executor on every completion: it completes with
it, and every bit it knows in a register, in an update, in a signal, or in a pending value is the
bit the two-state run computes. -/
theorem execTwoStateX_covers {ws : RegWidths} (line : LineOk D ws insns)
    (straight : ∀ insn ∈ insns, insn.isCtrl = false) {rx : XRegs} {r : Regs} {s sc : Sim}
    (holds : ws.Holds r) (regs : ∀ d, KnownBits.Covers (rx d) (r d)) (ok : s.Ok D) (okC : sc.Ok D)
    (completes : sc.Completes s)
    (included : RunIncluded D insns polls insns.length (Cfg.start rx s)) {c : Cfg Regs}
    (ran : execTwoStateLine D polls insns (Cfg.start r sc) = .done c) :
    ∃ cx, execTwoStateX D insns polls insns.length (Cfg.start rx s) = .done cx ∧
      cx.Covers D c := by
  have table : s.TableCovers sc := fun id => (completes.signals id).covers
  refine execTwoStateX_covers_line insns ws (Cfg.start rx s) (Cfg.start r sc) c line straight rfl
    ⟨rfl, rfl⟩ holds ok okC ⟨regs, .nil, table, fun id _ => ?_⟩ included ran
  -- Both queues start alike, so a pending value is a queued one or the table's.
  simp only [Cfg.start, Sim.pending, completes.queue]
  cases s.nbaFast.live id with
  | none => exact table id
  | some v => exact .refl v

end Runs

section Samples

attribute [local instance] referenceOps referenceOps_lawful

/-- A table whose first signal is unknown in its low bit. -/
def unknownSim : Sim := freshSim fun id => if id = 0 then ⟨2, 0, 1, false, false, false⟩ else twoBit 0

/-- The completion of that table with a one. -/
def completedSim : Sim := freshSim fun id => if id = 0 then twoBit 1 else twoBit 0

/-- The completion holds one for the unknown bit. -/
theorem completedSim_completes : completedSim.Completes unknownSim where
  signals id := by
    by_cases first : id = 0
    · refine ⟨by simp [completedSim, freshSim, first, Value.Clean, twoBit],
        by simp [completedSim, unknownSim, freshSim, first, twoBit], ?_⟩
      intro i inside clear
      simp only [completedSim, unknownSim, freshSim, first, if_true] at inside clear ⊢
      revert clear
      revert inside
      revert i
      decide
    · simp [completedSim, unknownSim, freshSim, first, Value.Completes, Value.Clean, twoBit]
  queue := rfl

/-- Both sample tables are sound. -/
theorem unknownSim_ok : unknownSim.Ok twoBitDesign ∧ completedSim.Ok twoBitDesign := by
  constructor
  all_goals
    refine freshSim_ok fun id => ?_
    by_cases first : id = 0
    · simp [first, twoBitDesign, twoBit, Value.Fits]
    · simp [first, twoBitDesign, twoBit, Value.Fits]

/-- Load the first signal, join it with a constant, and queue the result for the second one. -/
def joinStream : List TsInsn :=
  [.loadSig 0 0, .const 1 2#64, .or 2 0 1, .storeNba 1 2 2 3#64]

/-- The join stream is lowered. -/
theorem joinStream_lineOk : LineOk twoBitDesign (fun _ => none) joinStream := by
  refine ⟨trivial, trivial, ⟨⟨2, rfl, by decide⟩, ⟨2, rfl, by decide⟩⟩, ?_, trivial⟩
  exact ⟨⟨2, rfl, by decide⟩, rfl, by decide, by decide, by decide⟩

/-- The queued value's high bit is known to be one, as it is on the completion. -/
theorem execTwoStateX_covers_join :
    ∃ c cx, execTwoStateLine twoBitDesign (fun _ => false) joinStream
        (Cfg.start (fun _ => 0#64) completedSim) = .done c ∧
      execTwoStateX twoBitDesign joinStream (fun _ => false) 4
        (Cfg.start (knownRegs fun _ => 0#64) unknownSim) = .done cx ∧
      cx.Covers twoBitDesign c := by
  obtain ⟨c, ran⟩ : ∃ c, execTwoStateLine twoBitDesign (fun _ => false) joinStream
      (Cfg.start (fun _ => 0#64) completedSim) = .done c := ⟨_, rfl⟩
  have keeps := TsInsn.keepsUnknown_of_fourState (D := twoBitDesign) fun _ => rfl
  -- No instruction of the stream stores at a run-time position.
  have included : RunIncluded twoBitDesign joinStream (fun _ => false) 4
      (Cfg.start (knownRegs fun _ => 0#64) unknownSim) :=
    And.intro trivial (And.intro (keeps _ _ _) (And.intro trivial (And.intro (keeps _ _ _)
      (And.intro trivial (And.intro (keeps _ _ _) (And.intro trivial (And.intro (keeps _ _ _)
        trivial)))))))
  obtain ⟨cx, ranX, covers⟩ := execTwoStateX_covers joinStream_lineOk (by decide)
    (fun d w defined => by cases defined) (fun d => covers_self _) unknownSim_ok.1 unknownSim_ok.2
    completedSim_completes included ran
  exact ⟨c, cx, ran, ranX, covers⟩

/-- The second signal holds no x and z. -/
def scrubbingDesign : Design := ⟨fun _ => 2, fun _ => false, fun id => id == 1⟩

/-- A copy into a two-state signal stores a known zero for an unknown bit, while the completion
with a one stores a one. -/
theorem execTwoStateX_covers_not_scrubbed :
    LineOk scrubbingDesign (fun _ => none) [.loadSig 0 0, .store 1 0 3#64] ∧
    completedSim.Completes unknownSim ∧
    ∃ c cx, execTwoStateLine scrubbingDesign (fun _ => false) [.loadSig 0 0, .store 1 0 3#64]
        (Cfg.start (fun _ => 0#64) completedSim) = .done c ∧
      execTwoStateX scrubbingDesign [.loadSig 0 0, .store 1 0 3#64] (fun _ => false) 2
        (Cfg.start (knownRegs fun _ => 0#64) unknownSim) = .done cx ∧
      (cx.sim.signalTable 1).xz.testBit 0 = false ∧
      (cx.sim.signalTable 1).val.testBit 0 ≠ (c.sim.signalTable 1).val.testBit 0 := by
  refine ⟨⟨trivial, ⟨⟨2, rfl, by decide⟩, by decide, by decide⟩, trivial⟩, completedSim_completes,
    _, _, rfl, rfl, by decide, by decide⟩

end Samples

end Xezim
