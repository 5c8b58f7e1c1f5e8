import Xezim.Bytecode.Peephole

/-! Placeholders dropped from a stream, with every branch target moved to its new position. -/

namespace Xezim.Bytecode

open Lockstep Traced

variable {Stmt Expr ι W : Type}

section Pass

/-- The new position of an old one: how many instructions before it survive. -/
def newIndex (insns : List (Insn Stmt Expr)) (old : Nat) : Nat := (insns.take old).countP fun insn => !insn.isNop

/-- A target moved with its instruction; one outside the map stays. -/
def remap (insns : List (Insn Stmt Expr)) (t : Nat) : Nat := if t < insns.length + 1 then newIndex insns t else t

/-- The targets of an instruction renamed. -/
def Insn.retarget (f : Nat → Nat) : Insn Stmt Expr → Insn Stmt Expr
  | caseJump s cj => caseJump s { cj with table := cj.table.map f, default := f cj.default }
  | caseMaskJump s mj => caseMaskJump s { mj with table := mj.table.map f, xzPath := f mj.xzPath }
  | branchIfFalse c t => branchIfFalse c (f t)
  | branchUnlessZero c t => branchUnlessZero c (f t)
  | branchIfSignalFalse s t b => branchIfSignalFalse s (f t) b
  | cmpBranch kind l r tmp t => cmpBranch kind l r tmp (f t)
  | cmpBranchConst kind s k tmp t => cmpBranchConst kind s k tmp (f t)
  | jump t => jump (f t)
  | insn => insn

/-- `compact_nops`. -/
def compactNops (insns : List (Insn Stmt Expr)) : List (Insn Stmt Expr) :=
  if insns.any Insn.isNop then (insns.filter fun insn => !insn.isNop).map (Insn.retarget (remap insns)) else insns

end Pass

section Positions

variable {insns : List (Insn Stmt Expr)}

/-- One more position is one more survivor, unless it holds a placeholder. -/
theorem newIndex_succ {k : Nat} {insn : Insn Stmt Expr} (held : insns[k]? = some insn) :
    newIndex insns (k + 1) = newIndex insns k + if insn.isNop then 0 else 1 := by
  rw [newIndex, List.take_add_one, held, Option.toList_some, List.countP_append, ← newIndex]
  cases nop : insn.isNop <;> simp [nop]

/-- New positions keep the order of the old ones. -/
theorem newIndex_mono {a b : Nat} (le : a ≤ b) : newIndex insns a ≤ newIndex insns b :=
  (List.take_sublist_take_left le).countP_le

/-- No position moves back past its count. -/
theorem newIndex_le (a : Nat) : newIndex insns a ≤ insns.length :=
  (List.countP_le_length).trans (List.length_take_le' a insns)

/-- A survivor is found at its new position. -/
theorem filter_newIndex {k : Nat} {insn : Insn Stmt Expr} (held : insns[k]? = some insn)
    (real : insn.isNop = false) : (insns.filter fun insn => !insn.isNop)[newIndex insns k]? = some insn := by
  induction insns generalizing k with
  | nil => simp at held
  | cons x insns ih =>
    cases k with
    | zero =>
      obtain rfl : x = insn := by simpa using held
      simp [newIndex, real]
    | succ k =>
      have rest := ih (k := k) (by simpa using held)
      -- The first instruction survives, and counts, or it does neither.
      cases nop : x.isNop with
      | true => simpa [newIndex, nop] using rest
      | false => simpa [newIndex, nop] using rest

/-- The survivors are counted by the position past the end. -/
theorem filter_length : (insns.filter fun insn => !insn.isNop).length = newIndex insns insns.length := by
  simp [newIndex, List.countP_eq_length_filter]

/-- A position past the end moves past the new end. -/
theorem remap_past {t : Nat} (past : insns.length ≤ t) : newIndex insns insns.length ≤ remap insns t := by
  unfold remap
  split
  · exact newIndex_mono past
  · exact (newIndex_le _).trans past

/-- A target comes no later than a survivor exactly if it did before. -/
theorem remap_le_iff {k t : Nat} {insn : Insn Stmt Expr} (held : insns[k]? = some insn)
    (real : insn.isNop = false) : remap insns t ≤ remap insns k ↔ t ≤ k := by
  have inside : k < insns.length := (List.getElem?_eq_some_iff.mp held).1
  have next : newIndex insns (k + 1) = newIndex insns k + 1 := by simp [newIndex_succ held, real]
  have atK : remap insns k = newIndex insns k := by rw [remap, if_pos (by omega)]
  rw [atK]
  unfold remap
  split
  · constructor
    · intro le
      by_contra later
      -- A later target counts the survivor itself.
      have counted : newIndex insns (k + 1) ≤ newIndex insns t := newIndex_mono (by omega)
      omega
    · exact fun le => newIndex_mono le
  · -- A target outside the map lies after every position of the stream.
    have bound : newIndex insns k ≤ insns.length := newIndex_le k
    omega

end Positions

section Runs

variable {H : Host Stmt Expr ι W} {D : Numbering ι} {insns : List (Insn Stmt Expr)}

/-- Where a run goes on, with its position renamed. -/
def Next.rename (f : Nat → Nat) : Next → Next
  | .goto pc => .goto (f pc)
  | .suspend pc => .suspend (f pc)
  | .stop => .stop

variable {f : Nat → Nat} {pc pc' : Nat}

theorem fall_rename (next : f (pc + 1) = pc' + 1) (arm : Exec ι W Unit) :
    fall pc' arm = Next.rename f <$> fall pc arm := by
  simp [fall, Next.rename, next]

theorem orFinish_rename (next : f (pc + 1) = pc' + 1) (arm : Exec ι W Unit) :
    orFinish H pc' arm = Next.rename f <$> orFinish H pc arm := by
  simp only [orFinish, map_bind]
  congr
  funext _
  congr
  funext w
  split <;> simp [Next.rename, next]

theorem branchUnless_rename (next : f (pc + 1) = pc' + 1) (t : Nat) (holds : Bool) :
    branchUnless pc' (f t) holds = (branchUnless pc t holds).rename f := by
  cases holds <;> simp [branchUnless, Next.rename, next]

/-- A jump is a backward one after the renaming exactly if it was before. -/
theorem jumpTo_rename {t : Nat} (order : f t ≤ pc' ↔ t ≤ pc) :
    (jumpTo H pc' (f t) : Exec ι W Next) = Next.rename f <$> jumpTo H pc t := by
  simp only [jumpTo, map_bind, order]
  congr
  funext w
  split <;> simp [Next.rename]

theorem caseJumpTarget_rename (cj : CaseJumpData) (s : Value) :
    caseJumpTarget H { cj with table := cj.table.map f, default := f cj.default } s = f (caseJumpTarget H cj s) := by
  unfold caseJumpTarget
  split
  · rfl
  · split
    · rename_i i _
      cases entry : cj.table[i]? <;> simp [entry]
    · rfl

theorem caseMaskNext_rename (mj : CaseMaskJumpData) (s : Value) :
    caseMaskNext H { mj with table := mj.table.map f, xzPath := f mj.xzPath } s = (caseMaskNext H mj s).rename f := by
  unfold caseMaskNext
  simp only [List.getElem?_map]
  split
  · split
    · rfl
    · split
      · rename_i v xz _ _ _
        cases mj.table[((v % 2 ^ min s.width 64) >>> mj.lo) % 2 ^ mj.width]? <;> simp [Next.rename]
      · rfl
  · rfl

/-- An instruction moved, its targets with it, does the same and goes on where its targets went. -/
theorem execInsn_retarget (next : f (pc + 1) = pc' + 1) (order : ∀ t, f t ≤ pc' ↔ t ≤ pc) (insn : Insn Stmt Expr) :
    execInsn H D pc' (insn.retarget f) = Next.rename f <$> execInsn H D pc insn := by
  cases insn with
  -- The branches and jumps first.
  | branchIfFalse c t => simp [execInsn, Insn.retarget, branchUnless_rename next]
  | cmpBranch kind l r tmp t => simp [execInsn, Insn.retarget, branchUnless_rename next]
  | branchIfSignalFalse sig t bit => simp [execInsn, Insn.retarget, branchUnless_rename next]
  | cmpBranchConst kind s k tmp t =>
    cases kind <;> simp [execInsn, Insn.retarget, branchUnless_rename next, Next.rename]
  | jump t => simp only [execInsn, Insn.retarget, jumpTo_rename (order t)]
  | branchUnlessZero c t =>
    simp only [execInsn, Insn.retarget, map_bind]
    congr
    funext v
    split
    · exact jumpTo_rename (order t)
    · simp [Next.rename, next]
  | caseJump s cj => simp [execInsn, Insn.retarget, caseJumpTarget_rename, Next.rename]
  | caseMaskJump s mj => simp [execInsn, Insn.retarget, caseMaskNext_rename]
  -- Waits resume at the next position.
  | waitDelayReg r => simp [execInsn, Insn.retarget, Next.rename, next]
  | waitEdge ix => simp [execInsn, Insn.retarget, Next.rename, next]
  | callMethod | callScopedMethod | callFreeFunction | callStaticScoped | loadClassStatic | storeClassStatic
  | constructObject | callCollMethod | loadCollElem | storeCollElem | cast | foreachKeys | retCollection
  | assignPendingColl | evalExprFallback | stmtFallback => exact orFinish_rename next _
  | _ => exact fall_rename next _

/-- A copy of a register onto itself is no branch. -/
theorem exportedAfter_retarget (insn : Insn Stmt Expr) (log : List (Access ι)) (exported : RegId → Prop) :
    exportedAfter (insn.retarget f) log exported = exportedAfter insn log exported := by
  funext r
  cases insn <;> simp [exportedAfter, Insn.retarget]

/-- A run advances to a renamed position from a renamed answer. -/
theorem Run.advance_rename (run : Run W) (vm : Vm W) (exported : RegId → Prop) (next : Next) :
    run.advance vm exported (next.rename f) = (run.advance vm exported next).map
      (fun r => { r with pc := f r.pc }) id := by
  cases next with
  | goto pc => rfl
  | suspend pc =>
    simp only [Run.advance, Next.rename]
    split <;> rfl
  | stop => rfl

/-- Runs of a stream and of its compacted form, the second one at the new position. -/
def Moved (insns : List (Insn Stmt Expr)) (run run' : Run W) : Prop := run' = { run with pc := remap insns run.pc }

/-- A stretch of placeholders keeps the new position. -/
theorem newIndex_nops {a b : Nat} (le : a ≤ b) (nops : ∀ k, a ≤ k → k < b → insns[k]? = some .nop) :
    newIndex insns b = newIndex insns a := by
  obtain ⟨n, rfl⟩ := Nat.exists_eq_add_of_le le
  clear le
  induction n with
  | zero => rfl
  | succ n ih =>
    have here := newIndex_succ (nops (a + n) (by omega) (by omega))
    rw [← Nat.add_assoc, here, ih fun k atLeast below => nops k atLeast (by omega)]
    simp [Insn.isNop]

/-- A stream and its compacted form, taken from an old position and its new one, go on together. -/
theorem compact_turn {run run' : Run W} (moved : Moved insns run run') :
    Turn (blockStep H D insns)
      (blockStep H D ((insns.filter fun insn => !insn.isNop).map (Insn.retarget (remap insns))))
      (Moved insns) (fun _ left _ left' => left = left') (fun _ _ _ => False) run run' := by
  subst moved
  obtain ⟨le, between⟩ := nextReal_spec (fun _ => false) insns run.pc
  -- The stream runs through its placeholders to the next survivor.
  have walk := steps_nops (H := H) (D := D) run le fun k atLeast below => (between k atLeast below).1
  have real (insn : Insn Stmt Expr) (held : insns[nextReal (fun _ => false) insns run.pc]? = some insn) :
      insn.isNop = false := nextReal_real held rfl
  generalize nextReal (fun _ => false) insns run.pc = k at *
  cases held : insns[k]? with
  | none =>
    -- Past the end, both runs are done.
    have past : insns.length ≤ k := List.getElem?_eq_none_iff.mp held
    refine .ends walk (h := ⟨.done, run.vm, run.exported⟩) ?_ (.refl _) (g := ⟨.done, run.vm, run.exported⟩) ?_ rfl
    · simp only [blockStep, held]
    · have outside : newIndex insns insns.length ≤ remap insns run.pc := by
        rcases Nat.lt_or_ge run.pc (insns.length + 1) with inside | far
        · have same := newIndex_nops le fun i atLeast below => (between i atLeast below).1
          rw [remap, if_pos inside, ← same]
          exact newIndex_mono past
        · exact remap_past (by omega)
      have gone : ((insns.filter fun insn => !insn.isNop).map (Insn.retarget (remap insns)))[remap insns run.pc]? =
          none := by
        rw [List.getElem?_eq_none_iff, List.length_map, filter_length]
        exact outside
      simp only [blockStep, gone]
  | some insn =>
    have inside : k < insns.length := (List.getElem?_eq_some_iff.mp held).1
    have survives := real insn held
    -- The survivor stands at the new position of every placeholder before it.
    have arrives : remap insns run.pc = remap insns k := by
      rw [remap, remap, if_pos (by omega), if_pos (by omega)]
      exact (newIndex_nops le fun i atLeast below => (between i atLeast below).1).symm
    have there : ((insns.filter fun insn => !insn.isNop).map (Insn.retarget (remap insns)))[remap insns k]? =
        some (insn.retarget (remap insns)) := by
      rw [List.getElem?_map, remap, if_pos (by omega), filter_newIndex held survives]
      rfl
    have next : remap insns (k + 1) = remap insns k + 1 := by
      rw [remap, remap, if_pos (by omega), if_pos (by omega), newIndex_succ held, if_neg (by simp [survives])]
    have exec := congrFun (execInsn_retarget (H := H) (D := D) next (fun t => remap_le_iff held survives) insn) run.vm
    have leftStep : blockStep H D insns { run with pc := k } = run.advance (execInsn H D k insn run.vm).state
        (exportedAfter insn (execInsn H D k insn run.vm).log run.exported) (execInsn H D k insn run.vm).value := by
      simp only [blockStep, held, Run.advance]
    have rightStep : blockStep H D ((insns.filter fun insn => !insn.isNop).map (Insn.retarget (remap insns)))
        { run with pc := remap insns run.pc } = run.advance (execInsn H D k insn run.vm).state
        (exportedAfter insn (execInsn H D k insn run.vm).log run.exported)
        ((execInsn H D k insn run.vm).value.rename (remap insns)) := by
      simp only [blockStep, arrives, there, exec, map_run, exportedAfter_retarget, Run.advance]
    rw [Run.advance_rename] at rightStep
    -- Both go on from renamed positions, or end with the same.
    cases goes : run.advance (execInsn H D k insn run.vm).state
        (exportedAfter insn (execInsn H D k insn run.vm).log run.exported) (execInsn H D k insn run.vm).value with
    | inl run' =>
      rw [goes] at leftStep rightStep
      exact .on (walk.trans (.one leftStep)) (.one rightStep) rfl
    | inr left =>
      rw [goes] at leftStep rightStep
      exact .ends walk leftStep (.refl _) rightStep rfl

end Runs

/-- The compacted stream runs the same as the stream it comes from, whatever the instructions: waits, table jumps,
backward jumps and targets past the end included. -/
theorem compactNops_sameRuns (H : Host Stmt Expr ι W) (D : Numbering ι) (insns : List (Insn Stmt Expr)) :
    SameRuns H D (compactNops insns) insns := by
  unfold compactNops
  split
  · -- Both runs start at position 0, which keeps its place.
    refine .of_turns (Moved insns) (fun vm waits => ?_) fun run run' moved => compact_turn moved
    simp [Moved, Run.start, remap, newIndex]
  · exact .refl

end Xezim.Bytecode
