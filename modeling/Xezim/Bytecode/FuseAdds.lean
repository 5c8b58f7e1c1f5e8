import Xezim.Bytecode.Peephole

/-! Two constant adds dispatched as one. -/

namespace Xezim.Bytecode

open Lockstep Traced

variable {Stmt Expr ι W : Type}

/-- The loop of `fuse_addc2`, from a position on. -/
def fuseAddc2From (isTarget : Nat → Bool) (insns : List (Insn Stmt Expr)) (i : Nat) : List (Insn Stmt Expr) :=
  if _more : i + 1 < insns.length then
    match insns[i]? with
    | some (.binOpConst d1 s1 k1 .add) =>
      let j := nextReal isTarget insns (i + 1)
      if _free : j < insns.length ∧ isTarget j = false then
        match insns[j]? with
        | some (.binOpConst d2 s2 k2 .add) =>
          fuseAddc2From isTarget ((insns.set i (.binOpConstAdd2 ⟨d1, s1, k1, d2, s2, k2⟩)).set j .nop) (j + 1)
        | _ => fuseAddc2From isTarget insns j
      else fuseAddc2From isTarget insns (i + 1)
    | _ => fuseAddc2From isTarget insns (i + 1)
  else insns
termination_by insns.length - i
decreasing_by
  · have after := (nextReal_spec isTarget insns (i + 1)).1
    simp only [List.length_set]
    omega
  · have after := (nextReal_spec isTarget insns (i + 1)).1
    omega
  · omega
  · omega

/-- `fuse_addc2`, where it is switched on. -/
def fuseAddc2 (insns : List (Insn Stmt Expr)) : List (Insn Stmt Expr) :=
  fuseAddc2From (branchTargetMap insns) insns 0

variable {H : Host Stmt Expr ι W} {D : Numbering ι} {insns : List (Insn Stmt Expr)}

/-- Two constant adds with placeholders between them, and the pair in one instruction, take equal runs to equal
runs. -/
theorem addc2_turn {i j : Nat} {d1 s1 d2 s2 : RegId} {k1 k2 : Value} {out : List (Insn Stmt Expr)} (lt : i < j)
    (first : insns[i]? = some (.binOpConst d1 s1 k1 .add)) (second : insns[j]? = some (.binOpConst d2 s2 k2 .add))
    (between : ∀ k, i < k → k < j → insns[k]? = some .nop)
    (fused : out[i]? = some (.binOpConstAdd2 ⟨d1, s1, k1, d2, s2, k2⟩))
    (emptied : ∀ k, i < k → k ≤ j → out[k]? = some .nop) {run : Run W} (here : run.pc = i) :
    Turn (blockStep H D insns) (blockStep H D out) (fun run run' => (run.pc ≤ i ∨ j < run.pc) ∧ run' = run)
      (fun _ left _ left' => left = left') (fun _ _ _ => False) run run := by
  subst here
  -- One add, the placeholders, and the other add.
  have step := (binOpConst_computes (H := H) (D := D) d1 s1 k1 .add).blockStep run first
  obtain ⟨n, walk⟩ := steps_to H D (run.put d1 (H.add (run.vm.regs s1) k1)) j lt fun k atLeast below =>
    between k atLeast below
  have step' := (binOpConst_computes (H := H) (D := D) d2 s2 k2 .add).blockStep
    ((run.put d1 (H.add (run.vm.regs s1) k1)).moveTo j) second
  -- The pair in one instruction, and the placeholders after it.
  have both : execInsn H D run.pc (.binOpConstAdd2 ⟨d1, s1, k1, d2, s2, k2⟩) run.vm =
      ⟨.goto (run.pc + 1), (run.vm.put d1 (H.add (run.vm.regs s1) k1)).put d2
        (H.add ((run.vm.put d1 (H.add (run.vm.regs s1) k1)).regs s2) k2),
        [.readReg s1, .writeReg d1, .readReg s2, .writeReg d2]⟩ := rfl
  have marks : exportedAfter (.binOpConstAdd2 ⟨d1, s1, k1, d2, s2, k2⟩ : Insn Stmt Expr)
      ([.readReg s1, .writeReg d1, .readReg s2, .writeReg d2] : List (Access ι)) run.exported =
      fun r => (run.exported r ∧ r ≠ d1) ∧ r ≠ d2 := by
    funext r
    simp [exportedAfter, and_assoc]
  have fusedStep := blockStep_goto fused both
  rw [marks] at fusedStep
  obtain ⟨n', walk'⟩ := steps_to H D ⟨run.pc + 1, (run.vm.put d1 (H.add (run.vm.regs s1) k1)).put d2
    (H.add ((run.vm.put d1 (H.add (run.vm.regs s1) k1)).regs s2) k2), run.waits,
    fun r => (run.exported r ∧ r ≠ d1) ∧ r ≠ d2⟩ (j + 1) (Nat.succ_le_succ (Nat.le_of_lt lt))
    fun k atLeast below => emptied k atLeast (Nat.le_of_lt_succ below)
  refine .on (.cons step (walk.trans (.one step'))) (.cons fusedStep walk') ⟨?_, rfl⟩
  exact .inr (Nat.lt_succ_self j)

/-- From any position on, the loop of the pass keeps the runs. -/
theorem fuseAddc2From_sameRuns {isTarget : Nat → Bool} (mapped : Mapped isTarget insns) (i : Nat) :
    SameRuns H D (fuseAddc2From isTarget insns i) insns := by
  fun_induction fuseAddc2From isTarget insns i with
  | case1 insns i more d1 s1 k1 held j free d2 s2 k2 held' ih =>
    obtain ⟨after, between⟩ := nextReal_spec isTarget insns (i + 1)
    obtain ⟨inside, notTarget⟩ := free
    have lt : i < j := after
    -- The rewritten stream differs in the two places only, which nothing else enters.
    have kept : Mapped isTarget ((insns.set i (.binOpConstAdd2 ⟨d1, s1, k1, d2, s2, k2⟩)).set j .nop) :=
      (mapped.set (by simp [Insn.targets])).set (by simp [Insn.targets])
    have closed (k : Nat) (later : i < k) (le : k ≤ j) : isTarget k = false := by
      rcases Nat.lt_or_eq_of_le le with below | rfl
      · exact (between k later below).2
      · exact notTarget
    refine (ih kept).trans (.of_stretch i j (fun pc away => ?_)
      (fun pc insn away held t next => mapped.apart closed inside away held next) fun run here => ?_)
    · rw [List.getElem?_set_ne (by omega), List.getElem?_set_ne (by omega)]
    · refine addc2_turn lt held held' (fun k later below => (between k later below).1) ?_ (fun k later le => ?_) here
      · rw [List.getElem?_set_ne (by omega), List.getElem?_set_self (by omega)]
      · rcases Nat.lt_or_eq_of_le le with below | rfl
        · rw [List.getElem?_set_ne (by omega), List.getElem?_set_ne (by omega)]
          exact (between k later below).1
        · rw [List.getElem?_set_self (by simpa using inside)]
  -- Otherwise the loop only goes on.
  | case2 insns i more d1 s1 k1 held j free other ih => exact ih mapped
  | case3 insns i more d1 s1 k1 held j blocked ih => exact ih mapped
  | case4 insns i more other ih => exact ih mapped
  | case5 insns i done => exact .refl

/-- Two constant adds in one instruction: the rewritten stream runs the same as the stream it comes from, whatever the
registers of the two adds have in common. -/
theorem fuseAddc2_sameRuns (H : Host Stmt Expr ι W) (D : Numbering ι) (insns : List (Insn Stmt Expr)) :
    SameRuns H D (fuseAddc2 insns) insns :=
  fuseAddc2From_sameRuns (branchTargetMap_mapped insns) 0

end Xezim.Bytecode
