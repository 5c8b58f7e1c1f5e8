import Xezim.Bytecode.Blocks
import Xezim.Lib.Tally

/-! What the peephole passes share: where branches land, the placeholders they leave, and counts of register reads. -/

namespace Xezim.Bytecode

open Lockstep Tally Traced

variable {Stmt Expr ι W : Type}

namespace Insn

/-- The positions a branch or a jump names. -/
def targets : Insn Stmt Expr → List Nat
  | caseJump _ cj => cj.table ++ [cj.default]
  | caseMaskJump _ mj => mj.table ++ [mj.xzPath]
  | branchIfFalse _ t | branchUnlessZero _ t | branchIfSignalFalse _ t _ | cmpBranch _ _ _ _ t
  | cmpBranchConst _ _ _ _ t | jump t => [t]
  | _ => []

/-- A placeholder. -/
def isNop : Insn Stmt Expr → Bool
  | nop => true
  | _ => false

/-- How often an instruction names a register it reads, nothing for one that may read any. -/
def readCount (r : RegId) (insn : Insn Stmt Expr) : Nat := (insn.insnReadRegs).elim 0 (·.count r)

/-- An instruction that may read any register counts as one fallback. -/
def fallbackCount (insn : Insn Stmt Expr) : Nat := (insn.insnReadRegs).elim 1 fun _ => 0

/-- Every successor is the next position or one the instruction names. -/
theorem succs_targets {pc t : Nat} {insn : Insn Stmt Expr} (next : t ∈ insn.succs pc) :
    t = pc + 1 ∨ t ∈ insn.targets := by
  cases insn with
  | caseJump src cj | caseMaskJump src mj =>
    -- The search goes through a table from its end.
    simp only [succs, List.mem_cons, List.mem_reverse] at next
    refine Or.inr ?_
    simpa [targets, or_comm] using next
  | jump target => exact Or.inr (by simpa [succs, targets] using next)
  | _ => simpa [succs, targets] using next

theorem isNop_iff {insn : Insn Stmt Expr} : insn.isNop = true ↔ insn = nop := by
  cases insn <;> simp [isNop]

/-- An instruction reads a register exactly when it names it or may read any. -/
theorem insnReadsReg_iff {insn : Insn Stmt Expr} {r : RegId} :
    insn.insnReadsReg r = true ↔ 0 < insn.readCount r ∨ 0 < insn.fallbackCount := by
  unfold insnReadsReg readCount fallbackCount
  cases insn.insnReadRegs with
  | none => simp
  | some regs => simp [List.count_pos_iff]

end Insn

section Targets

/-- `branch_target_map`: the positions of a stream, and the one past its end, that a branch or jump names. -/
def branchTargetMap (insns : List (Insn Stmt Expr)) (t : Nat) : Bool :=
  decide (t < insns.length + 1) && insns.any fun insn => insn.targets.contains t

/-- `has_backward_branch`: some branch or jump names an earlier position or its own. -/
def hasBackwardBranch (insns : List (Insn Stmt Expr)) : Bool :=
  insns.zipIdx.any fun p => p.1.targets.any fun t => decide (t ≤ p.2)

/-- A map of targets covers the targets a stream has. -/
def Mapped (isTarget : Nat → Bool) (insns : List (Insn Stmt Expr)) : Prop :=
  ∀ insn ∈ insns, ∀ t ∈ insn.targets, t < insns.length + 1 → isTarget t = true

/-- The map of a stream covers its targets. -/
theorem branchTargetMap_mapped (insns : List (Insn Stmt Expr)) : Mapped (branchTargetMap insns) insns := by
  intro insn member t named inside
  simp only [branchTargetMap, Bool.and_eq_true, decide_eq_true_eq, List.any_eq_true, List.contains_iff_mem]
  exact ⟨inside, insn, member, named⟩

/-- Every branch of a stream goes to a later position. -/
def GoesForward (insns : List (Insn Stmt Expr)) : Prop :=
  ∀ (pc : Nat) (insn : Insn Stmt Expr), insns[pc]? = some insn → ∀ t ∈ insn.targets, pc < t

/-- A stream without a backward branch goes forward. -/
theorem goesForward_of_not_backward {insns : List (Insn Stmt Expr)} (forward : hasBackwardBranch insns = false) :
    GoesForward insns := by
  intro pc insn held t named
  by_contra backward
  have found : hasBackwardBranch insns = true := by
    refine List.any_eq_true.mpr ⟨(insn, pc), List.mem_zipIdx_iff_getElem?.mpr held, ?_⟩
    exact List.any_eq_true.mpr ⟨t, named, by simpa using backward⟩
  simp [found] at forward

/-- A stream that goes forward only goes on to later positions. -/
theorem GoesForward.lt {insns : List (Insn Stmt Expr)} (forward : GoesForward insns) {pc t : Nat}
    {insn : Insn Stmt Expr} (held : insns[pc]? = some insn) (next : t ∈ insn.succs pc) : pc < t := by
  rcases Insn.succs_targets next with rfl | named
  · exact Nat.lt_succ_self pc
  · exact forward pc insn held t named

/-- Putting in an instruction that is no branch keeps a stream going forward. -/
theorem GoesForward.set {insns : List (Insn Stmt Expr)} {k : Nat} {insn : Insn Stmt Expr}
    (forward : GoesForward insns) (straight : insn.targets = []) : GoesForward (insns.set k insn) := by
  intro pc other held t named
  rcases Nat.decEq k pc with apart | rfl
  · exact forward pc other (by rwa [List.getElem?_set_ne apart] at held) t named
  · rw [List.getElem?_set] at held
    split at held
    · split at held
      · cases held
        simp [straight] at named
      · cases held
    · exact forward k other held t named

variable {isTarget : Nat → Bool} {insns : List (Insn Stmt Expr)}

/-- Putting in an instruction that names no new target keeps the map. -/
theorem Mapped.set {k : Nat} {insn : Insn Stmt Expr} (mapped : Mapped isTarget insns)
    (known : ∀ t ∈ insn.targets, t < insns.length + 1 → isTarget t = true) : Mapped isTarget (insns.set k insn) := by
  intro other member t named inside
  rw [List.length_set] at inside
  rcases List.mem_or_eq_of_mem_set member with before | rfl
  · exact mapped other before t named inside
  · exact known t named inside

/-- A position held by a stream names only targets of the map. -/
theorem Mapped.held {k t : Nat} {insn : Insn Stmt Expr} (mapped : Mapped isTarget insns)
    (held : insns[k]? = some insn) (named : t ∈ insn.targets) (inside : t < insns.length + 1) : isTarget t = true :=
  mapped insn (List.mem_of_getElem? held) t named inside

/-- Nothing outside a stretch without targets leads into it, but to its first position. -/
theorem Mapped.apart {first last : Nat} (mapped : Mapped isTarget insns)
    (closed : ∀ k, first < k → k ≤ last → isTarget k = false) (inside : last < insns.length) {pc : Nat}
    {insn : Insn Stmt Expr} (away : pc < first ∨ last < pc) (held : insns[pc]? = some insn) {t : Nat}
    (next : t ∈ insn.succs pc) : t ≤ first ∨ last < t := by
  rcases Insn.succs_targets next with rfl | named
  · omega
  · by_contra entered
    have isTarget_t := mapped.held held named (by omega)
    simp [closed t (by omega) (by omega)] at isTarget_t

end Targets

section Nops

/-- The first position from one on that is no placeholder, or where `stop` says. -/
def nextReal (stop : Nat → Bool) (insns : List (Insn Stmt Expr)) (j : Nat) : Nat :=
  match _held : insns[j]? with
  | some insn => if insn.isNop && !stop j then nextReal stop insns (j + 1) else j
  | none => j
termination_by insns.length - j
decreasing_by
  have inside := (List.getElem?_eq_some_iff.mp _held).1
  omega

/-- Between a position and the next real one there are placeholders only. -/
theorem nextReal_spec (stop : Nat → Bool) (insns : List (Insn Stmt Expr)) (j : Nat) :
    j ≤ nextReal stop insns j ∧
      ∀ k, j ≤ k → k < nextReal stop insns j → insns[k]? = some .nop ∧ stop k = false := by
  induction j using nextReal.induct stop insns with
  | case1 j insn held skips ih =>
    -- A placeholder is skipped.
    have unfolded : nextReal stop insns j = nextReal stop insns (j + 1) := by
      rw [nextReal]
      split
      · rename_i other there
        obtain rfl : insn = other := by simpa [held] using there
        rw [if_pos skips]
      · rename_i there
        simp [held] at there
    obtain ⟨le, between⟩ := ih
    rw [unfolded]
    have isNop := Insn.isNop_iff.mp (Bool.and_eq_true_iff.mp skips).1
    have goesOn : stop j = false := by simpa using (Bool.and_eq_true_iff.mp skips).2
    refine ⟨by omega, fun k atLeast below => ?_⟩
    rcases Nat.eq_or_lt_of_le atLeast with rfl | later
    · exact ⟨by rw [held, isNop], goesOn⟩
    · exact between k later below
  | case2 j insn held stays =>
    have unfolded : nextReal stop insns j = j := by
      rw [nextReal]
      split
      · rename_i other there
        obtain rfl : insn = other := by simpa [held] using there
        rw [if_neg stays]
      · rfl
    rw [unfolded]
    exact ⟨Nat.le_refl j, fun k atLeast below => by omega⟩
  | case3 j held =>
    have unfolded : nextReal stop insns j = j := by
      rw [nextReal]
      split
      · rename_i there
        simp [held] at there
      · rfl
    rw [unfolded]
    exact ⟨Nat.le_refl j, fun k atLeast below => by omega⟩

/-- What stands at the next real position is no placeholder, unless `stop` held it there. -/
theorem nextReal_real {stop : Nat → Bool} {insns : List (Insn Stmt Expr)} {j : Nat} {insn : Insn Stmt Expr}
    (held : insns[nextReal stop insns j]? = some insn) (free : stop (nextReal stop insns j) = false) :
    insn.isNop = false := by
  -- A stop is not looked past, so the place reached without one holds no nop.
  induction j using nextReal.induct stop insns with
  | case1 j other there skips ih =>
    have unfolded : nextReal stop insns j = nextReal stop insns (j + 1) := by
      rw [nextReal]
      split
      · rename_i same _
        rw [if_pos (by simp_all)]
      · rename_i outside
        simp [there] at outside
    rw [unfolded] at held free
    exact ih held free
  | case2 j other there stays =>
    have unfolded : nextReal stop insns j = j := by
      rw [nextReal]
      split
      · rw [if_neg (by simp_all)]
      · rfl
    rw [unfolded] at held free
    obtain rfl : other = insn := by simpa [there] using held
    simpa [free] using stays
  | case3 j outside =>
    have unfolded : nextReal stop insns j = j := by
      rw [nextReal]
      split
      · rename_i there
        simp [outside] at there
      · rfl
    rw [unfolded, outside] at held
    simp at held

variable {H : Host Stmt Expr ι W} {D : Numbering ι} {insns : List (Insn Stmt Expr)}

/-- An instruction that goes on. -/
theorem blockStep_goto {run : Run W} {insn : Insn Stmt Expr} {pc : Nat} {vm : Vm W} {log : List (Access ι)}
    (held : insns[run.pc]? = some insn) (exec : execInsn H D run.pc insn run.vm = ⟨.goto pc, vm, log⟩) :
    blockStep H D insns run = .inl ⟨pc, vm, run.waits, exportedAfter insn log run.exported⟩ := by
  simp only [blockStep, held, exec, Run.advance]

/-- An instruction that writes no register and copies none onto itself leaves exported what was. -/
theorem exportedAfter_silent {insn : Insn Stmt Expr} {log : List (Access ι)} (notCopy : ∀ r, insn ≠ .move r r)
    (silent : ∀ r, .writeReg r ∉ log) (exported : RegId → Prop) : exportedAfter insn log exported = exported := by
  funext r
  simp [exportedAfter, notCopy r, silent r]

/-- An instruction that falls through and copies no register onto itself. -/
theorem blockStep_fall (run : Run W) {insn : Insn Stmt Expr} {arm : Exec ι W Unit}
    (held : insns[run.pc]? = some insn) (exec : execInsn H D run.pc insn = fall run.pc arm)
    (notCopy : ∀ r, insn ≠ .move r r) : blockStep H D insns run = .inl ⟨run.pc + 1, (arm run.vm).state, run.waits,
      fun r => run.exported r ∧ .writeReg r ∉ (arm run.vm).log⟩ := by
  have marks : exportedAfter insn (arm run.vm).log run.exported =
      fun r => run.exported r ∧ .writeReg r ∉ (arm run.vm).log := by
    funext r
    simp [exportedAfter, notCopy r]
  simp only [blockStep, held, exec, fall, bind_run, pure_run, List.append_nil, marks, Run.advance]

/-- A placeholder does nothing. -/
theorem blockStep_nop (run : Run W) (held : insns[run.pc]? = some .nop) :
    blockStep H D insns run = .inl { run with pc := run.pc + 1 } := by
  have exec : execInsn H D run.pc .nop run.vm = ⟨.goto (run.pc + 1), run.vm, []⟩ := by simp [execInsn, fall]
  rw [blockStep_goto held exec]
  rw [exportedAfter_silent (by simp) (by simp)]

/-- Placeholders are run through. -/
theorem steps_nops (run : Run W) {last : Nat} (le : run.pc ≤ last)
    (nops : ∀ k, run.pc ≤ k → k < last → insns[k]? = some .nop) :
    Steps (blockStep H D insns) (last - run.pc) run { run with pc := last } := by
  -- By induction on the number of placeholders.
  obtain ⟨n, rfl⟩ := Nat.exists_eq_add_of_le le
  rw [Nat.add_sub_cancel_left]
  clear le
  induction n generalizing run with
  | zero => exact .refl _
  | succ n ih =>
    have first := blockStep_nop (H := H) (D := D) run (nops run.pc (Nat.le_refl _) (by omega))
    have rest := ih { run with pc := run.pc + 1 } fun k atLeast below =>
      nops k (Nat.le_of_succ_le atLeast) (by simp only at below; omega)
    refine .cons first ?_
    simpa only [Nat.add_assoc, Nat.add_comm 1 n] using rest

end Nops

section Computed

/-- A machine with one register set. -/
def Vm.put (vm : Vm W) (d : RegId) (v : Value) : Vm W := { vm with regs := Function.update vm.regs d v }

@[simp] theorem Vm.put_world (vm : Vm W) (d : RegId) (v : Value) : (vm.put d v).world = vm.world := rfl

@[simp] theorem Vm.put_numRegs (vm : Vm W) (d : RegId) (v : Value) : (vm.put d v).numRegs = vm.numRegs := rfl

@[simp] theorem Vm.put_self (vm : Vm W) (d : RegId) (v : Value) : (vm.put d v).regs d = v := by simp [put]

theorem Vm.put_other (vm : Vm W) {d r : RegId} (v : Value) (other : r ≠ d) : (vm.put d v).regs r = vm.regs r := by
  simp [put, Function.update_of_ne other]

/-- A run after an instruction that sets one register and falls through. -/
def Run.put (run : Run W) (d : RegId) (v : Value) : Run W :=
  ⟨run.pc + 1, run.vm.put d v, run.waits, fun r => run.exported r ∧ r ≠ d⟩

/-- An instruction computes a register from the machine, writes no other one and falls through. -/
def Computes (H : Host Stmt Expr ι W) (D : Numbering ι) (insn : Insn Stmt Expr) (d : RegId) (f : Vm W → Value) : Prop :=
  (∀ r, insn ≠ .move r r) ∧ ∀ pc vm, (execInsn H D pc insn vm).value = .goto (pc + 1) ∧
    (execInsn H D pc insn vm).state = vm.put d (f vm) ∧
    ∀ r, .writeReg r ∈ (execInsn H D pc insn vm).log ↔ r = d

variable {H : Host Stmt Expr ι W} {D : Numbering ι} {insns : List (Insn Stmt Expr)}

/-- What a run does at an instruction that computes a register. -/
theorem Computes.blockStep {insn : Insn Stmt Expr} {d : RegId} {f : Vm W → Value} (computes : Computes H D insn d f)
    (run : Run W) (held : insns[run.pc]? = some insn) :
    blockStep H D insns run = .inl (run.put d (f run.vm)) := by
  obtain ⟨notCopy, does⟩ := computes
  obtain ⟨value, state, writes⟩ := does run.pc run.vm
  have marks : exportedAfter insn (execInsn H D run.pc insn run.vm).log run.exported =
      fun r => run.exported r ∧ r ≠ d := by
    funext r
    simp [exportedAfter, notCopy r, writes r]
  simp only [Bytecode.blockStep, held, value, state, marks, Run.advance, Run.put]

theorem unArm_computes {insn : Insn Stmt Expr} (f : Value → Value) (d s : RegId) (notCopy : ∀ r, insn ≠ .move r r)
    (exec : ∀ pc, execInsn H D pc insn = fall pc (unArm f d s)) : Computes H D insn d fun vm => f (vm.regs s) := by
  refine ⟨notCopy, fun pc vm => ?_⟩
  rw [exec]
  exact ⟨rfl, rfl, fun r => by simp [fall, unArm, readReg, writeReg]⟩

theorem binArm_computes {insn : Insn Stmt Expr} (f : Value → Value → Value) (d l r : RegId)
    (notCopy : ∀ r, insn ≠ .move r r) (exec : ∀ pc, execInsn H D pc insn = fall pc (binArm f d l r)) :
    Computes H D insn d fun vm => f (vm.regs l) (vm.regs r) := by
  refine ⟨notCopy, fun pc vm => ?_⟩
  rw [exec]
  exact ⟨rfl, rfl, fun r => by simp [fall, binArm, readReg, writeReg]⟩

theorem loadSigArm_computes {insn : Insn Stmt Expr} (f : Value → Value) (d : RegId) (sig : SigId)
    (notCopy : ∀ r, insn ≠ .move r r) (exec : ∀ pc, execInsn H D pc insn = fall pc (loadSigArm H D f d sig)) :
    Computes H D insn d fun vm => f (H.signal vm.world (D.ref sig)) := by
  refine ⟨notCopy, fun pc vm => ?_⟩
  rw [exec]
  exact ⟨rfl, rfl, fun r => by simp [fall, loadSigArm, readSig, world, writeReg]⟩

theorem loadConst_computes (d : RegId) (k : Value) :
    Computes H D (.loadConst d k : Insn Stmt Expr) d fun _ => k :=
  ⟨by simp, fun pc vm => ⟨rfl, rfl, fun r => by simp [execInsn, fall, writeReg]⟩⟩

theorem binOpConst_computes (d s : RegId) (k : Value) (kind : BinOpConstKind) :
    Computes H D (.binOpConst d s k kind : Insn Stmt Expr) d fun vm => binOpConstFn H kind (vm.regs s) k :=
  unArm_computes (fun v => binOpConstFn H kind v k) d s (by simp) fun _ => rfl

/-- A move onto another register. -/
theorem move_computes {d s : RegId} (other : d ≠ s) :
    Computes H D (.move d s : Insn Stmt Expr) d fun vm => vm.regs s := by
  refine ⟨fun r same => ?_, fun pc vm => ?_⟩
  · cases same
    exact other rfl
  simp only [execInsn, moveArm, if_neg other]
  exact ⟨rfl, rfl, fun r => by simp [fall, readReg, writeReg]⟩

/-- A run at another position. -/
def Run.moveTo (run : Run W) (pc : Nat) : Run W := { run with pc := pc }

@[simp] theorem Run.moveTo_pc (run : Run W) (pc : Nat) : (run.moveTo pc).pc = pc := rfl

@[simp] theorem Run.moveTo_vm (run : Run W) (pc : Nat) : (run.moveTo pc).vm = run.vm := rfl

@[simp] theorem Run.put_pc (run : Run W) (d : RegId) (v : Value) : (run.put d v).pc = run.pc + 1 := rfl

@[simp] theorem Run.put_vm (run : Run W) (d : RegId) (v : Value) : (run.put d v).vm = run.vm.put d v := rfl

/-- Placeholders from a run's position on run through to the last of them. -/
theorem steps_to (H : Host Stmt Expr ι W) (D : Numbering ι) (run : Run W) (last : Nat) (le : run.pc ≤ last)
    (nops : ∀ k, run.pc ≤ k → k < last → insns[k]? = some .nop) :
    ∃ n, Steps (blockStep H D insns) n run (run.moveTo last) :=
  ⟨_, steps_nops run le nops⟩

variable {run run' : Run W} {dead : RegId → Prop} {d : RegId} {v v' : Value}

/-- Both runs step over. -/
theorem Alike.moveTo (alike : Alike dead run run') (pc : Nat) : Alike dead (run.moveTo pc) (run'.moveTo pc) :=
  ⟨rfl, alike.waits, alike.vm, alike.exported⟩

/-- More registers may count as dead. -/
theorem Alike.mono {dead' : RegId → Prop} (alike : Alike dead run run') (more : ∀ r, dead r → dead' r) :
    Alike dead' run run' :=
  ⟨alike.pc, alike.waits, ⟨alike.vm.world, alike.vm.numRegs, fun r notOff =>
    alike.vm.regs r fun off => notOff ⟨more r off.1, off.2⟩⟩, alike.exported⟩

/-- A register that is not dead is the same in both. -/
theorem Alike.live (alike : Alike dead run run') {r : RegId} (live : ¬ dead r) : run'.vm.regs r = run.vm.regs r :=
  alike.vm.regs r fun off => live off.1

/-- Both runs set a register, to the same unless it is dead. -/
theorem Alike.put (alike : Alike dead run run') (same : dead d ∨ v' = v) :
    Alike dead (run.put d v) (run'.put d v') where
  pc := congrArg (· + 1) alike.pc
  waits := alike.waits
  vm := by
    refine ⟨alike.vm.world, alike.vm.numRegs, fun r notOff => ?_⟩
    by_cases atD : r = d
    · subst atD
      rcases same with isDead | equal
      · exact absurd ⟨isDead, fun exported => exported.2 rfl⟩ notOff
      · simp [equal]
    · -- Another register keeps what it had, and stays exported.
      rw [Run.put_vm, Run.put_vm, Vm.put_other _ _ atD, Vm.put_other _ _ atD]
      exact alike.vm.regs r fun off => notOff ⟨off.1, fun exported => off.2 exported.1⟩
  exported r exported := ⟨alike.exported r exported.1, exported.2⟩

/-- Only the first run sets a register, which is dead. -/
theorem Alike.putLeft (alike : Alike dead run run') (isDead : dead d) :
    Alike dead (run.put d v) (run'.moveTo (run'.pc + 1)) where
  pc := congrArg (· + 1) alike.pc
  waits := alike.waits
  vm := by
    refine ⟨alike.vm.world, alike.vm.numRegs, fun r notOff => ?_⟩
    have other : r ≠ d := fun atD => notOff ⟨atD ▸ isDead, fun exported => exported.2 atD⟩
    rw [Run.put_vm, Vm.put_other _ _ other]
    exact alike.vm.regs r fun off => notOff ⟨off.1, fun exported => off.2 exported.1⟩
  exported r exported := alike.exported r exported.1

/-- A register set in both to the same is dead in neither. -/
theorem Alike.revive (alike : Alike dead run run') (same : v' = v) :
    Alike (fun r => dead r ∧ r ≠ d) (run.put d v) (run'.put d v') where
  pc := congrArg (· + 1) alike.pc
  waits := alike.waits
  vm := by
    refine ⟨alike.vm.world, alike.vm.numRegs, fun r notOff => ?_⟩
    by_cases atD : r = d
    · simp [atD, same]
    · rw [Run.put_vm, Run.put_vm, Vm.put_other _ _ atD, Vm.put_other _ _ atD]
      exact alike.vm.regs r fun off => notOff ⟨⟨off.1, atD⟩, fun exported => off.2 exported.1⟩
  exported r exported := ⟨alike.exported r exported.1, exported.2⟩

end Computed

section Sites

/-- Outside a stretch no instruction reads a register that is dead before it, and what is dead stays dead or is
overwritten. -/
def DeadAway (insns : List (Insn Stmt Expr)) (first last : Nat) (dead : Nat → RegId → Prop) : Prop :=
  ∀ pc insn, pc < first ∨ last < pc → insns[pc]? = some insn → ∀ r, dead pc r →
    insn.insnReadsReg r = false ∧ ∀ t ∈ insn.succs pc, dead t r ∨ insn.Overwrites r

variable {H : Host Stmt Expr ι W} {D : Numbering ι} {insns out : List (Insn Stmt Expr)} {isTarget : Nat → Bool}

/-- A stretch rewritten that no branch enters: the rewritten stream stands for the other one when the stretch is run
alike, up to registers dead outside it. -/
theorem StandsFor.of_site (first last : Nat) (mapped : Mapped isTarget insns)
    (closed : ∀ k, first < k → k ≤ last → isTarget k = false) (inside : last < insns.length)
    (outside : ∀ pc, pc < first ∨ last < pc → out[pc]? = insns[pc]?) {dead : Nat → RegId → Prop}
    (away : DeadAway insns first last dead)
    (stretch : ∀ run run' : Run W, run.pc = first → Alike (dead first) run run' →
      Together H D insns out (InStep dead fun pc => pc ≤ first ∨ last < pc) run run') : StandsFor H D out insns := by
  refine .of_stretch first last outside (fun pc insn apart held =>
    ⟨fun r isDead => ?_, fun t next => ⟨?_, fun r isDead => ?_⟩⟩)
    stretch
  · exact (away pc insn apart held r isDead).1
  · exact mapped.apart closed inside apart held next
  · exact (away pc insn apart held r isDead).2 t next

/-- Registers that nothing reads outside the stretch are dead everywhere. -/
theorem DeadAway.of_unread {first last : Nat} {regs : RegId → Prop}
    (unread : ∀ pc insn, pc < first ∨ last < pc → insns[pc]? = some insn → ∀ r, regs r → insn.insnReadsReg r = false) :
    DeadAway insns first last fun _ r => regs r :=
  fun pc insn away held r isDead => ⟨unread pc insn away held r isDead, fun _ _ => .inl isDead⟩

end Sites

section Readers

/-- `RegReaders`: how often each register is read in a stream, and how many instructions may read any. -/
structure RegReaders where
  reads : RegId → Nat
  fallbacks : Nat

namespace RegReaders

/-- `RegReaders::add`. -/
def add (rr : RegReaders) (insn : Insn Stmt Expr) : RegReaders where
  reads r := rr.reads r + insn.readCount r
  fallbacks := rr.fallbacks + insn.fallbackCount

/-- `RegReaders::remove`. -/
def remove (rr : RegReaders) (insn : Insn Stmt Expr) : RegReaders where
  reads r := rr.reads r - insn.readCount r
  fallbacks := rr.fallbacks - insn.fallbackCount

/-- `RegReaders::new`. -/
def new (insns : List (Insn Stmt Expr)) : RegReaders := insns.foldl add ⟨fun _ => 0, 0⟩

/-- `RegReaders::read_outside`: some instruction outside the slots may read the register. -/
def readOutside (rr : RegReaders) (insns : List (Insn Stmt Expr)) (r : RegId) (skip : List Nat) : Bool :=
  decide ((skip.map (slot Insn.fallbackCount insns)).sum < rr.fallbacks) ||
    decide ((skip.map (slot (Insn.readCount r) insns)).sum < rr.reads r)

/-- The counts are those of a stream. -/
structure Counts (rr : RegReaders) (insns : List (Insn Stmt Expr)) : Prop where
  reads : ∀ r, rr.reads r = tally (Insn.readCount r) insns
  fallbacks : rr.fallbacks = tally Insn.fallbackCount insns

variable {rr : RegReaders} {insns : List (Insn Stmt Expr)}

/-- Adding the instructions of a stream one after the other adds up their counts. -/
theorem foldl_add (rr : RegReaders) (insns : List (Insn Stmt Expr)) :
    (∀ r, (insns.foldl add rr).reads r = rr.reads r + tally (Insn.readCount r) insns) ∧
      (insns.foldl add rr).fallbacks = rr.fallbacks + tally Insn.fallbackCount insns := by
  induction insns generalizing rr with
  | nil => exact ⟨fun _ => rfl, rfl⟩
  | cons insn insns ih =>
    obtain ⟨reads, fallbacks⟩ := ih (rr.add insn)
    refine ⟨fun r => ?_, ?_⟩
    · rw [List.foldl_cons, reads]
      simp only [add, tally, List.map_cons, List.sum_cons, Nat.add_assoc]
    · rw [List.foldl_cons, fallbacks]
      simp only [add, tally, List.map_cons, List.sum_cons, Nat.add_assoc]

/-- Fresh counts are those of their stream. -/
theorem new_counts (insns : List (Insn Stmt Expr)) : (new insns).Counts insns := by
  obtain ⟨reads, fallbacks⟩ := foldl_add ⟨fun _ => 0, 0⟩ insns
  exact ⟨fun r => (reads r).trans (Nat.zero_add _), fallbacks.trans (Nat.zero_add _)⟩

/-- Replacing an instruction and keeping the counts in step. -/
theorem Counts.set {k : Nat} {old : Insn Stmt Expr} (counts : rr.Counts insns) (held : insns[k]? = some old)
    (put : Insn Stmt Expr) : ((rr.remove old).add put).Counts (insns.set k put) := by
  constructor
  · intro r
    have balance := tally_set (Insn.readCount r) held put
    have within := le_tally (Insn.readCount r) held
    simp only [add, remove, counts.reads r]
    omega
  · have balance := tally_set Insn.fallbackCount held put
    have within := le_tally Insn.fallbackCount held
    simp only [add, remove, counts.fallbacks]
    omega

/-- Emptying a place of its instruction's reads. -/
theorem Counts.erase {k : Nat} {old : Insn Stmt Expr} (counts : rr.Counts insns) (put : Insn Stmt Expr)
    (held : insns[k]? = some old)    (silent : put.insnReadRegs = some []) : (rr.remove old).Counts
      (insns.set k put) := by
  have kept := counts.set held put
  constructor
  · intro r
    simpa [add, Insn.readCount, silent] using kept.reads r
  · simpa [add, Insn.fallbackCount, silent] using kept.fallbacks

/-- Filling a place that reads nothing. -/
theorem Counts.fill {k : Nat} (counts : rr.Counts insns) (old : Insn Stmt Expr) (held : insns[k]? = some old)
    (silent : old.insnReadRegs = some []) (put : Insn Stmt Expr) : (rr.add put).Counts (insns.set k put) := by
  have kept := counts.set held put
  constructor
  · intro r
    simpa [add, remove, Insn.readCount, silent] using kept.reads r
  · simpa [add, remove, Insn.fallbackCount, silent] using kept.fallbacks

/-- Replacing an instruction that reads nothing by another one. -/
theorem Counts.swap {k : Nat} {old : Insn Stmt Expr} (counts : rr.Counts insns) (put : Insn Stmt Expr)
    (held : insns[k]? = some old)    (silent : old.insnReadRegs = some [])
      (silent' : put.insnReadRegs = some []) : rr.Counts (insns.set k put) := by
  have kept := counts.fill old held silent put
  constructor
  · intro r
    simpa [add, Insn.readCount, silent'] using kept.reads r
  · simpa [add, Insn.fallbackCount, silent'] using kept.fallbacks

/-- Counts in step with a stream find a read outside distinct slots exactly where there is one. -/
theorem Counts.readOutside_iff (counts : rr.Counts insns) {r : RegId} {skip : List Nat} (distinct : skip.Nodup) :
    rr.readOutside insns r skip = true ↔
      ∃ k insn, k ∉ skip ∧ insns[k]? = some insn ∧ insn.insnReadsReg r = true := by
  simp only [readOutside, Bool.or_eq_true, decide_eq_true_eq, counts.reads, counts.fallbacks,
    tally_gt_iff _ _ distinct, Insn.insnReadsReg_iff]
  constructor
  · rintro (⟨k, insn, apart, held, positive⟩ | ⟨k, insn, apart, held, positive⟩)
    · exact ⟨k, insn, apart, held, .inr positive⟩
    · exact ⟨k, insn, apart, held, .inl positive⟩
  · rintro ⟨k, insn, apart, held, positive | positive⟩
    · exact .inr ⟨k, insn, apart, held, positive⟩
    · exact .inl ⟨k, insn, apart, held, positive⟩

end RegReaders

end Readers

end Xezim.Bytecode
