import Xezim.Bytecode.Footprints
import Xezim.Lib.Lockstep

/-! Runs of a compiled block through all its waits, and what it means that one stream stands for another. -/

namespace Xezim.Bytecode

open Lockstep

variable {Stmt Expr ι W : Type}

/-- How a run of a block ends: past its last instruction, at an instruction that stops it, or in a wait that nothing
ends. -/
inductive Ending where
  | done
  | stopped
  | parked

/-- A run of a block: its position, its machine, what becomes of the rest of the simulator in each wait still to come,
and the registers it has exported. -/
structure Run (W : Type) where
  pc : Nat
  vm : Vm W
  waits : List (W → W)
  exported : RegId → Prop

/-- What a run leaves when it ends. -/
structure Left (W : Type) where
  ending : Ending
  vm : Vm W
  exported : RegId → Prop

/-- The runtime reads a register after the block where a copy onto itself has marked it, unless it was written since. -/
def exportedAfter (insn : Insn Stmt Expr) (log : List (Access ι)) (exported : RegId → Prop) (r : RegId) : Prop :=
  insn = .move r r ∨ exported r ∧ .writeReg r ∉ log

/-- Where a run goes on, once an instruction has said so. -/
def Run.advance (run : Run W) (vm : Vm W) (exported : RegId → Prop) : Next → Run W ⊕ Left W
  | .goto pc => .inl ⟨pc, vm, run.waits, exported⟩
  | .suspend pc =>
    match run.waits with
    -- A parked process resumes with its registers, in whatever the rest of the simulator has become.
    | wait :: waits => .inl ⟨pc, { vm with world := wait vm.world }, waits, exported⟩
    | [] => .inr ⟨.parked, vm, exported⟩
  | .stop => .inr ⟨.stopped, vm, exported⟩

section Meaning

variable (H : Host Stmt Expr ι W) (D : Numbering ι)

/-- One instruction of a block. -/
def blockStep (insns : List (Insn Stmt Expr)) (run : Run W) : Run W ⊕ Left W :=
  match insns[run.pc]? with
  | none => .inr ⟨.done, run.vm, run.exported⟩
  | some insn =>
    run.advance (execInsn H D run.pc insn run.vm).state
      (exportedAfter insn (execInsn H D run.pc insn run.vm).log run.exported) (execInsn H D run.pc insn run.vm).value

/-- A run at the start of a block. -/
def Run.start (vm : Vm W) (waits : List (W → W)) : Run W := ⟨0, vm, waits, fun _ => False⟩

/-- A block, started on a machine, ends and leaves that. -/
def Leaves (insns : List (Insn Stmt Expr)) (vm : Vm W) (waits : List (W → W)) (left : Left W) : Prop :=
  ∃ n run, Steps (blockStep H D insns) n (Run.start vm waits) run ∧ blockStep H D insns run = .inr left

/-- A run ends as another one does, in the same simulator, and has every register that the other one exported. -/
structure Left.Meets (left left' : Left W) : Prop where
  ending : left'.ending = left.ending
  world : left'.vm.world = left.vm.world
  exported : ∀ r, left.exported r → left'.exported r ∧ left'.vm.regs r = left.vm.regs r

/-- One stream stands for another: started alike, each ends exactly where the other does, and what it leaves meets what
the other leaves. -/
def StandsFor (out insns : List (Insn Stmt Expr)) : Prop :=
  ∀ (vm : Vm W) (waits : List (W → W)),
    (∀ left, Leaves H D insns vm waits left → ∃ left', Leaves H D out vm waits left' ∧ left.Meets left') ∧
    ∀ left', Leaves H D out vm waits left' → ∃ left, Leaves H D insns vm waits left ∧ left.Meets left'

/-- Two streams run the same: started alike, they leave the very same. -/
def SameRuns (out insns : List (Insn Stmt Expr)) : Prop :=
  ∀ (vm : Vm W) (waits : List (W → W)) (left : Left W), Leaves H D out vm waits left ↔ Leaves H D insns vm waits left

end Meaning

section Composition

variable {H : Host Stmt Expr ι W} {D : Numbering ι} {insns out last : List (Insn Stmt Expr)}

theorem Left.Meets.refl (left : Left W) : left.Meets left := ⟨rfl, rfl, fun _ exported => ⟨exported, rfl⟩⟩

theorem Left.Meets.trans {a b c : Left W} (first : a.Meets b) (second : b.Meets c) : a.Meets c where
  ending := second.ending.trans first.ending
  world := second.world.trans first.world
  exported r exported := by
    -- What the first run exported the second did too, and so the third.
    obtain ⟨kept, same⟩ := first.exported r exported
    obtain ⟨kept', same'⟩ := second.exported r kept
    exact ⟨kept', same'.trans same⟩

/-- Every stream stands for itself. -/
theorem StandsFor.refl : StandsFor H D insns insns :=
  fun _ _ => ⟨fun left leaves => ⟨left, leaves, .refl left⟩, fun left leaves => ⟨left, leaves, .refl left⟩⟩

/-- Passes compose. -/
theorem StandsFor.trans (second : StandsFor H D last out) (first : StandsFor H D out insns) :
    StandsFor H D last insns := by
  intro vm waits
  obtain ⟨there, back⟩ := first vm waits
  obtain ⟨there', back'⟩ := second vm waits
  constructor
  · intro left leaves
    obtain ⟨mid, leavesMid, meets⟩ := there left leaves
    obtain ⟨left', leaves', meets'⟩ := there' mid leavesMid
    exact ⟨left', leaves', meets.trans meets'⟩
  · intro left' leaves'
    obtain ⟨mid, leavesMid, meets'⟩ := back' left' leaves'
    obtain ⟨left, leaves, meets⟩ := back mid leavesMid
    exact ⟨left, leaves, meets.trans meets'⟩

/-- A pass that rewrites a stream place by place, each rewrite keeping what later ones need. -/
theorem StandsFor.foldl {σ κ : Type} (stream : σ → List (Insn Stmt Expr)) (good : σ → Prop) {rewrite : σ → κ → σ}
    (each : ∀ s k, good s → good (rewrite s k) ∧ StandsFor H D (stream (rewrite s k)) (stream s)) (places : List κ)
    {s : σ} (start : good s) :
    good (places.foldl rewrite s) ∧ StandsFor H D (stream (places.foldl rewrite s)) (stream s) := by
  induction places generalizing s with
  | nil => exact ⟨start, .refl⟩
  | cons k places ih =>
    -- The rewrite of the first place, then those of the rest.
    obtain ⟨kept, stands⟩ := each s k start
    obtain ⟨keptAll, standsAll⟩ := ih kept
    exact ⟨keptAll, standsAll.trans stands⟩

/-- A stream that runs the same as another stands for it. -/
theorem SameRuns.standsFor (same : SameRuns H D out insns) : StandsFor H D out insns :=
  fun vm waits => ⟨fun left leaves => ⟨left, (same vm waits left).mpr leaves, .refl left⟩,
    fun left leaves => ⟨left, (same vm waits left).mp leaves, .refl left⟩⟩

theorem SameRuns.refl : SameRuns H D insns insns := fun _ _ _ => Iff.rfl

theorem SameRuns.trans (second : SameRuns H D last out) (first : SameRuns H D out insns) : SameRuns H D last insns :=
  fun vm waits left => (second vm waits left).trans (first vm waits left)

/-- Streams that go on together from every related pair of runs, and end with the same, run the same. -/
theorem SameRuns.of_turns (related : Run W → Run W → Prop)
    (start : ∀ vm waits, related (Run.start vm waits) (Run.start vm waits))
    (turn : ∀ run run', related run run' → Turn (blockStep H D insns) (blockStep H D out) related
      (fun _ left _ left' => left = left') (fun _ _ _ => False) run run') : SameRuns H D out insns := by
  intro vm waits left
  constructor
  · rintro ⟨n, run', steps', ended'⟩
    rcases backward turn (start vm waits) steps' ended' with
      ⟨k, run, left, steps, ended, rfl⟩ | ⟨_, _, _, _, _, _, _, _, gone⟩
    · exact ⟨k, run, steps, ended⟩
    · exact gone.elim
  · rintro ⟨n, run, steps, ended⟩
    rcases forward turn (start vm waits) steps ended with ⟨k, run', left', steps', ended', rfl⟩ | ⟨_, _, _, gone⟩
    · exact ⟨k, run', steps', ended'⟩
    · exact gone.elim

/-- Two streams go on together from related runs, or end together. -/
abbrev Together (H : Host Stmt Expr ι W) (D : Numbering ι) (insns out : List (Insn Stmt Expr))
    (related : Run W → Run W → Prop) (run run' : Run W) : Prop :=
  Turn (blockStep H D insns) (blockStep H D out) related (fun _ left _ left' => left.Meets left') (fun _ _ _ => False)
    run run'

/-- Streams that go on together from every related pair of runs stand for one another. -/
theorem StandsFor.of_turns (related : Run W → Run W → Prop)
    (start : ∀ vm waits, related (Run.start vm waits) (Run.start vm waits))
    (turn : ∀ run run', related run run' → Together H D insns out related run run') : StandsFor H D out insns := by
  intro vm waits
  constructor
  · rintro left ⟨n, run, steps, ended⟩
    rcases forward turn (start vm waits) steps ended with ⟨k, run', left', steps', ended', meets⟩ | ⟨_, _, _, gone⟩
    · exact ⟨left', ⟨k, run', steps', ended'⟩, meets⟩
    · exact gone.elim
  · rintro left' ⟨n, run', steps', ended'⟩
    rcases backward turn (start vm waits) steps' ended' with
      ⟨k, run, left, steps, ended, meets⟩ | ⟨_, _, _, _, _, _, _, _, gone⟩
    · exact ⟨left, ⟨k, run, steps, ended⟩, meets⟩
    · exact gone.elim

end Composition

section Agreement

variable {H : Host Stmt Expr ι W} {D : Numbering ι} {insns out : List (Insn Stmt Expr)} {run run' : Run W}

/-- Two runs at one position, alike but for registers that are dead there and not exported. -/
structure Alike (dead : RegId → Prop) (run run' : Run W) : Prop where
  pc : run'.pc = run.pc
  waits : run'.waits = run.waits
  vm : AgreeOff (fun r => dead r ∧ ¬ run.exported r) run.vm run'.vm
  exported : ∀ r, run.exported r → run'.exported r

/-- Runs alike at a position where the streams are in step. -/
def InStep (dead : Nat → RegId → Prop) (here : Nat → Prop) (run run' : Run W) : Prop :=
  here run.pc ∧ Alike (dead run.pc) run run'

/-- An instruction defines a register whatever was in it. -/
def Insn.Overwrites (insn : Insn Stmt Expr) (r : RegId) : Prop :=
  insn.destReg = some r ∧ ∀ kind a b tmp t, insn ≠ .cmpBranch kind a b tmp t

theorem Alike.start (dead : RegId → Prop) (vm : Vm W) (waits : List (W → W)) :
    Alike dead (Run.start vm waits) (Run.start vm waits) :=
  ⟨rfl, rfl, ⟨rfl, rfl, fun _ _ => rfl⟩, fun _ exported => exported⟩

/-- Runs alike have in common every register that an instruction reading no dead register leaves exported. -/
theorem Alike.marks (H : Host Stmt Expr ι W) (D : Numbering ι) (pc : Nat) {dead : RegId → Prop}
    {insn : Insn Stmt Expr} (alike : Alike dead run run')
    (unread : ∀ r, dead r → insn.insnReadsReg r = false) {r : RegId}
    (exported : exportedAfter insn (execInsn H D pc insn run.vm).log run.exported r) :
    exportedAfter insn (execInsn H D pc insn run.vm).log run'.exported r ∧ ¬ (dead r ∧ ¬ run.exported r) := by
  rcases exported with copied | ⟨before, unwritten⟩
  · -- A copy of the register onto itself reads it, so it is not dead.
    refine ⟨.inl copied, fun isDead => ?_⟩
    have reads := unread r isDead.1
    simp [copied, Insn.insnReadsReg, Insn.insnReadRegs] at reads
  · exact ⟨.inr ⟨alike.exported r before, unwritten⟩, fun isDead => isDead.2 before⟩

/-- An instruction that both streams hold, and that reads no dead register, is taken in step, where each register dead
before it is dead after it or overwritten. -/
theorem Alike.turn {dead : Nat → RegId → Prop} {here : Nat → Prop} {insn : Insn Stmt Expr}
    (alike : Alike (dead run.pc) run run') (left : insns[run.pc]? = some insn) (right : out[run.pc]? = some insn)
    (unread : ∀ r, dead run.pc r → insn.insnReadsReg r = false)
    (flows : ∀ t ∈ insn.succs run.pc, here t ∧ ∀ r, dead run.pc r → dead t r ∨ insn.Overwrites r) :
    Together H D insns out (InStep dead here) run run' := by
  obtain ⟨value, log, agree⟩ := execInsn_agreeOff H D run.pc alike.vm fun r isOff => unread r isOff.1
  have follows := (execInsn_traffic H D run.pc insn run.vm).2
  have shared (r : RegId) := alike.marks H D run.pc unread (r := r)
  -- What is left different after the instruction is dead there, and not exported.
  have after {t : Nat} (next : t ∈ insn.succs run.pc) : AgreeOff (fun r => dead t r ∧
      ¬ exportedAfter insn (execInsn H D run.pc insn run.vm).log run.exported r)
      (execInsn H D run.pc insn run.vm).state (execInsn H D run.pc insn run'.vm).state := by
    refine ⟨agree.world, agree.numRegs, fun r notOff => agree.regs r fun differs => ?_⟩
    obtain ⟨⟨isDead, notExported⟩, unwritten⟩ := differs
    rcases (flows t next).2 r isDead with later | ⟨dest, notCmp⟩
    · refine notOff ⟨later, fun exported => ?_⟩
      exact (shared r exported).2 ⟨isDead, notExported⟩
    · exact unwritten (execInsn_defines H D run.pc dest notCmp (unread r isDead) run.vm)
  have leftStep : blockStep H D insns run = run.advance (execInsn H D run.pc insn run.vm).state
      (exportedAfter insn (execInsn H D run.pc insn run.vm).log run.exported)
      (execInsn H D run.pc insn run.vm).value := by
    simp only [blockStep, left]
  have rightStep : blockStep H D out run' = run'.advance (execInsn H D run.pc insn run'.vm).state
      (exportedAfter insn (execInsn H D run.pc insn run.vm).log run'.exported)
      (execInsn H D run.pc insn run.vm).value := by
    simp only [blockStep, alike.pc, right, value, log]
  -- What both leave where the instruction ends the run.
  have meets (ending : Ending) : Left.Meets
      ⟨ending, (execInsn H D run.pc insn run.vm).state,
        exportedAfter insn (execInsn H D run.pc insn run.vm).log run.exported⟩
      ⟨ending, (execInsn H D run.pc insn run'.vm).state,
        exportedAfter insn (execInsn H D run.pc insn run.vm).log run'.exported⟩ :=
    ⟨rfl, agree.world, fun r exported =>
      ⟨(shared r exported).1, agree.regs r fun differs => (shared r exported).2 differs.1⟩⟩
  cases next : (execInsn H D run.pc insn run.vm).value with
  | goto pc' =>
    rw [next] at leftStep rightStep follows
    exact .on (.one leftStep) (.one rightStep)
      ⟨(flows pc' follows).1, rfl, alike.waits, after follows, fun r exported => (shared r exported).1⟩
  | suspend pc' =>
    rw [next] at leftStep rightStep follows
    simp only [Run.advance, alike.waits] at leftStep rightStep
    cases waits : run.waits with
    | nil =>
      rw [waits] at leftStep rightStep
      exact .ends (.refl _) leftStep (.refl _) rightStep (meets .parked)
    | cons wait later =>
      rw [waits] at leftStep rightStep
      -- The wait changes the rest of the simulator alike in both.
      refine .on (.one leftStep) (.one rightStep) ⟨(flows pc' follows).1, rfl, rfl, ⟨?_, agree.numRegs, ?_⟩, ?_⟩
      · simp only [agree.world]
      · exact (after follows).regs
      · exact fun r exported => (shared r exported).1
  | stop =>
    rw [next] at leftStep rightStep
    exact .ends (.refl _) leftStep (.refl _) rightStep (meets .stopped)

/-- Past the end of both streams, runs alike end alike. -/
theorem Alike.done {dead : RegId → Prop} {related : Run W → Run W → Prop} (alike : Alike dead run run')
    (left : insns[run.pc]? = none) (right : out[run.pc]? = none) : Together H D insns out related run run' := by
  refine .ends (.refl _) (h := ⟨.done, run.vm, run.exported⟩) ?_ (.refl _) (g := ⟨.done, run'.vm, run'.exported⟩) ?_
    ⟨rfl, alike.vm.world, fun r exported =>
      ⟨alike.exported r exported, alike.vm.regs r fun differs => differs.2 exported⟩⟩
  · simp only [blockStep, left]
  · simp only [blockStep, alike.pc, right]

/-- A stretch of a stream rewritten where nothing else enters it: the rewritten stream stands for the other one when
the stretch is run alike from its first position, up to registers that the rest of the stream does not read. -/
theorem StandsFor.of_stretch (first last : Nat) {dead : Nat → RegId → Prop}
    (outside : ∀ pc, pc < first ∨ last < pc → out[pc]? = insns[pc]?)
    (rest : ∀ pc insn, pc < first ∨ last < pc → insns[pc]? = some insn →
      (∀ r, dead pc r → insn.insnReadsReg r = false) ∧ ∀ t ∈ insn.succs pc, (t ≤ first ∨ last < t) ∧
        ∀ r, dead pc r → dead t r ∨ insn.Overwrites r)
    (stretch : ∀ run run' : Run W, run.pc = first → Alike (dead first) run run' →
      Together H D insns out (InStep dead fun pc => pc ≤ first ∨ last < pc) run run') : StandsFor H D out insns := by
  refine .of_turns (InStep dead fun pc => pc ≤ first ∨ last < pc)
    (fun vm waits => ⟨.inl (Nat.zero_le _), .start _ _ _⟩) fun run run' related => ?_
  obtain ⟨here, alike⟩ := related
  by_cases atFirst : run.pc = first
  · exact stretch run run' atFirst (atFirst ▸ alike)
  · -- Anywhere else the streams hold the same instruction.
    have away : run.pc < first ∨ last < run.pc := by omega
    cases held : insns[run.pc]? with
    | none => exact alike.done held ((outside _ away).trans held)
    | some insn =>
      obtain ⟨unread, flows⟩ := rest _ _ away held
      exact alike.turn held ((outside _ away).trans held) unread flows

/-- An instruction that both streams hold takes equal runs to equal runs. -/
theorem SameRuns.turn (here : Nat → Prop) {insn : Insn Stmt Expr} (left : insns[run.pc]? = some insn)
    (right : out[run.pc]? = some insn) (next : ∀ t ∈ insn.succs run.pc, here t) :
    Turn (blockStep H D insns) (blockStep H D out) (fun run run' => here run.pc ∧ run' = run)
      (fun _ left _ left' => left = left') (fun _ _ _ => False) run run := by
  have follows := (execInsn_traffic H D run.pc insn run.vm).2
  have stepped : blockStep H D out run = blockStep H D insns run := by simp only [blockStep, left, right]
  cases goes : blockStep H D insns run with
  | inr left => exact .ends (.refl _) goes (.refl _) (stepped.trans goes) rfl
  | inl run' =>
    refine .on (.one goes) (.one (stepped.trans goes)) ⟨next run'.pc ?_, rfl⟩
    -- Where the run stands now is where the instruction said.
    simp only [blockStep, left] at goes
    cases value : (execInsn H D run.pc insn run.vm).value with
    | goto pc =>
      rw [value] at goes follows
      cases goes
      exact follows
    | suspend pc =>
      rw [value] at goes follows
      simp only [Run.advance] at goes
      split at goes
      · cases goes
        exact follows
      · cases goes
    | stop =>
      rw [value] at goes
      cases goes

/-- A stretch of a stream rewritten where nothing else enters it: the rewritten stream runs the same when the stretch
does, from its first position. -/
theorem SameRuns.of_stretch (first last : Nat) (outside : ∀ pc, pc < first ∨ last < pc → out[pc]? = insns[pc]?)
    (rest : ∀ pc insn, pc < first ∨ last < pc → insns[pc]? = some insn →
      ∀ t ∈ insn.succs pc, t ≤ first ∨ last < t)
    (stretch : ∀ run : Run W, run.pc = first → Turn (blockStep H D insns) (blockStep H D out)
      (fun run run' => (run.pc ≤ first ∨ last < run.pc) ∧ run' = run) (fun _ left _ left' => left = left')
      (fun _ _ _ => False) run run) : SameRuns H D out insns := by
  refine .of_turns (fun run run' => (run.pc ≤ first ∨ last < run.pc) ∧ run' = run)
    (fun vm waits => ⟨.inl (Nat.zero_le _), rfl⟩) fun run run' related => ?_
  obtain ⟨here, rfl⟩ := related
  by_cases atFirst : run'.pc = first
  · exact stretch run' atFirst
  · have away : run'.pc < first ∨ last < run'.pc := by omega
    cases held : insns[run'.pc]? with
    | none =>
      have absent := (outside _ away).trans held
      refine .ends (.refl _) (h := ⟨.done, run'.vm, run'.exported⟩) ?_ (.refl _)
        (g := ⟨.done, run'.vm, run'.exported⟩) ?_ rfl
      · simp only [blockStep, held]
      · simp only [blockStep, absent]
    | some insn =>
      exact SameRuns.turn (fun t => t ≤ first ∨ last < t) held ((outside _ away).trans held) (rest _ _ away held)

end Agreement

end Xezim.Bytecode
