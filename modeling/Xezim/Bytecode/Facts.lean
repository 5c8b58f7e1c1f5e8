import Xezim.Bytecode.Peephole

/-! Rewrites that need a fact about the machine where they stand. -/

namespace Xezim.Bytecode

open Lockstep Traced

variable {Stmt Expr ι W : Type}

section Mimicry

variable {H : Host Stmt Expr ι W} {D : Numbering ι} {insns out : List (Insn Stmt Expr)} {run run' : Run W}

/-- From a run an instruction does what another one does, and leaves exported what the other one leaves. -/
structure Insn.Mimics (H : Host Stmt Expr ι W) (D : Numbering ι) (insn' insn : Insn Stmt Expr)
    (run : Run W) : Prop where
  value : (execInsn H D run.pc insn' run.vm).value = (execInsn H D run.pc insn run.vm).value
  state : (execInsn H D run.pc insn' run.vm).state = (execInsn H D run.pc insn run.vm).state
  exported : ∀ r, exportedAfter insn (execInsn H D run.pc insn run.vm).log run.exported r →
    exportedAfter insn' (execInsn H D run.pc insn' run.vm).log run.exported r

theorem Insn.Mimics.refl (insn : Insn Stmt Expr) : insn.Mimics H D insn run := ⟨rfl, rfl, fun _ exported => exported⟩

/-- An instruction that goes on leads to a successor, with the registers it leaves. -/
theorem blockStep_goes (went : blockStep H D insns run = .inl run') :
    ∃ insn, insns[run.pc]? = some insn ∧ run'.pc ∈ insn.succs run.pc ∧
      run'.vm.regs = (execInsn H D run.pc insn run.vm).state.regs ∧
      run'.exported = exportedAfter insn (execInsn H D run.pc insn run.vm).log run.exported := by
  cases held : insns[run.pc]? with
  | none =>
    simp only [blockStep, held] at went
    cases went
  | some insn =>
    have follows := (execInsn_traffic H D run.pc insn run.vm).2
    simp only [blockStep, held] at went
    cases value : (execInsn H D run.pc insn run.vm).value with
    | goto pc =>
      rw [value] at went follows
      cases went
      exact ⟨insn, rfl, follows, rfl, rfl⟩
    | suspend pc =>
      rw [value] at went follows
      simp only [Run.advance] at went
      split at went
      · -- The wait leaves the registers as they are.
        cases went
        exact ⟨insn, rfl, follows, rfl, rfl⟩
      · cases went
    | stop =>
      rw [value] at went
      cases went

/-- A stream rewritten in place: it stands for the other one when every instruction mimics the one it replaces, in the
runs of the other stream, of which a fact may be used that holds at the start and after every step. -/
theorem StandsFor.of_facts (holds : Run W → Prop) (start : ∀ vm waits, holds (Run.start vm waits))
    (kept : ∀ run run', holds run → blockStep H D insns run = .inl run' → holds run')
    (same : ∀ run, holds run → (insns[run.pc]? = none ∧ out[run.pc]? = none) ∨
      ∃ insn insn', insns[run.pc]? = some insn ∧ out[run.pc]? = some insn' ∧ insn'.Mimics H D insn run) :
    StandsFor H D out insns := by
  -- The runs differ in what is exported only, the second exporting more.
  refine .of_turns (fun run run' => holds run ∧ ∃ exported, run' = { run with exported := exported } ∧
      ∀ r, run.exported r → exported r)
    (fun vm waits => ⟨start vm waits, _, rfl, fun _ exported => exported⟩) fun run run' related => ?_
  obtain ⟨fact, exported, rfl, more⟩ := related
  rcases same run fact with ⟨left, right⟩ | ⟨insn, insn', left, right, mimics⟩
  · refine .ends (.refl _) (h := ⟨.done, run.vm, run.exported⟩) ?_ (.refl _) (g := ⟨.done, run.vm, exported⟩) ?_
      ⟨rfl, rfl, fun r was => ⟨more r was, rfl⟩⟩
    · simp only [blockStep, left]
    · simp only [blockStep, right]
  · have leftStep : blockStep H D insns run = run.advance (execInsn H D run.pc insn run.vm).state
        (exportedAfter insn (execInsn H D run.pc insn run.vm).log run.exported)
        (execInsn H D run.pc insn run.vm).value := by
      simp only [blockStep, left]
    have rightStep : blockStep H D out { run with exported := exported } =
        Run.advance { run with exported := exported } (execInsn H D run.pc insn run.vm).state
          (exportedAfter insn' (execInsn H D run.pc insn' run.vm).log exported)
          (execInsn H D run.pc insn run.vm).value := by
      simp only [blockStep, right, mimics.value, mimics.state]
    have still (r : RegId) (was : exportedAfter insn (execInsn H D run.pc insn run.vm).log run.exported r) :
        exportedAfter insn' (execInsn H D run.pc insn' run.vm).log exported r :=
      (mimics.exported r was).imp_right fun kept => ⟨more r kept.1, kept.2⟩
    cases next : (execInsn H D run.pc insn run.vm).value with
    | goto pc =>
      rw [next] at leftStep rightStep
      exact .on (.one leftStep) (.one rightStep) ⟨kept _ _ fact leftStep, _, rfl, still⟩
    | suspend pc =>
      rw [next] at leftStep rightStep
      simp only [Run.advance] at leftStep rightStep
      cases waits : run.waits with
      | nil =>
        rw [waits] at leftStep rightStep
        exact .ends (.refl _) leftStep (.refl _) rightStep ⟨rfl, rfl, fun r was => ⟨still r was, rfl⟩⟩
      | cons wait later =>
        rw [waits] at leftStep rightStep
        exact .on (.one leftStep) (.one rightStep) ⟨kept _ _ fact leftStep, _, rfl, still⟩
    | stop =>
      rw [next] at leftStep rightStep
      exact .ends (.refl _) leftStep (.refl _) rightStep ⟨rfl, rfl, fun r was => ⟨still r was, rfl⟩⟩

end Mimicry

end Xezim.Bytecode
