import Xezim.Bytecode.DeadRegs

/-! A comparison taken into the branch on it, and a move into the resize of what it moved. -/

namespace Xezim.Bytecode

open Lockstep Traced

variable {Stmt Expr ι W : Type}

section Pass

/-- The fused branch of a comparison whose result is branched on. -/
def fusedBranch (c : RegId) (t : Nat) : Insn Stmt Expr → Option (Insn Stmt Expr)
  | .binOpConst d s k .eq => if d = c then some (.cmpBranchConst .eq s k c t) else none
  | .binOpConst d s k .caseEq => if d = c then some (.cmpBranchConst .caseEq s k c t) else none
  | .eq d l r => if d = c then some (.cmpBranch .eq l r c t) else none
  | .neq d l r => if d = c then some (.cmpBranch .neq l r c t) else none
  | .caseEq d l r => if d = c then some (.cmpBranch .caseEq l r c t) else none
  | .lt d l r => if d = c then some (.cmpBranch .lt l r c t) else none
  | .leq d l r => if d = c then some (.cmpBranch .leq l r c t) else none
  | .gt d l r => if d = c then some (.cmpBranch .gt l r c t) else none
  | .geq d l r => if d = c then some (.cmpBranch .geq l r c t) else none
  | _ => none

/-- The stream a pass rewrites, with the search it asks. -/
structure Searching (Stmt Expr : Type) where
  insns : List (Insn Stmt Expr)
  liveness : RegLiveness

/-- A pair in one instruction, the second place emptied. -/
def Searching.fuse (s : Searching Stmt Expr) (i j : Nat) (fused : Insn Stmt Expr) : Searching Stmt Expr :=
  { s with insns := (s.insns.set i fused).set j .nop }

/-- A pair in one instruction where no path from the starts reads a register. -/
def Searching.fuseDead (s : Searching Stmt Expr) (i j : Nat) (starts : List Nat) (r : RegId) (fused : Insn Stmt Expr) :
    Searching Stmt Expr :=
  let live := s.liveness.readBeforeWrite s.insns starts r
  if live.1 then { s with liveness := live.2 } else Searching.fuse { s with liveness := live.2 } i j fused

/-- A pair of instructions and what becomes of it. -/
def fusePair (s : Searching Stmt Expr) (i j : Nat) (first second : Insn Stmt Expr) : Searching Stmt Expr :=
  match second with
  | .branchIfFalse c t =>
    match fusedBranch c t first with
    | some fused => s.fuseDead i j [j + 1, t] c fused
    | none => s
  | .resize rd w =>
    match first with
    | .move d sr => if rd = d ∧ d ≠ sr then s.fuse i j (.moveResize d sr w) else s
    | _ => s
  | .move d ms =>
    match first with
    | .resize a w => if ms = a ∧ d ≠ a then s.fuseDead i j [j + 1] a (.moveResize d a w) else s
    | _ => s
  | _ => s

/-- One position of `fuse_cmp_branch_move_resize`. -/
def fuseCompareAt (isTarget : Nat → Bool) (s : Searching Stmt Expr) (i : Nat) : Searching Stmt Expr :=
  match s.insns[i]? with
  | none => s
  | some first =>
    if first.isNop then s
    else
      let j := nextReal isTarget s.insns (i + 1)
      if isTarget j then s
      else match s.insns[j]? with
        | none => s
        | some second => fusePair s i j first second

/-- `fuse_cmp_branch_move_resize`. -/
def fuseCmpBranchMoveResize (insns : List (Insn Stmt Expr)) : List (Insn Stmt Expr) :=
  ((List.range (insns.length - 1)).foldl (fuseCompareAt (branchTargetMap insns)) ⟨insns, .new⟩).insns

end Pass

section Paths

variable {isTarget : Nat → Bool} {insns out : List (Insn Stmt Expr)} {i j : Nat} {insn insn' : Insn Stmt Expr}

/-- A stretch in one instruction and placeholders: paths of the rewritten stream read no register that those of the
other one do not, if that is so of the instruction. -/
theorem MayRead.of_fused (lt : i < j) (mapped : Mapped isTarget insns)
    (closed : ∀ k, i < k → k ≤ j → isTarget k = false)
    (inside : j < insns.length) (outside : ∀ p, p < i ∨ j < p → out[p]? = insns[p]?) (fused : out[i]? = some insn')
    (emptied : ∀ k, i < k → k ≤ j → out[k]? = some .nop) {r : RegId}
    (reads : insn'.insnReadsReg r = true → MayRead insns r i)
    (goes : ¬ insn'.Overwrites r → MayRead insns r (j + 1) ∨ (∃ t ∈ insn'.targets, MayRead insns r t) →
      MayRead insns r i)
    (named : ∀ t ∈ insn'.targets, t ≤ i ∨ j < t) {p : Nat} (may : MayRead out r p) :
    (p ≤ i ∨ j < p → MayRead insns r p) ∧ (i < p → p ≤ j → MayRead insns r (j + 1)) := by
  -- By induction on the path through the rewritten stream.
  induction may with
  | @reads p x held read =>
    refine ⟨fun apart => ?_, fun after le => ?_⟩
    · by_cases atI : p = i
      · subst atI
        rw [fused] at held
        cases held
        exact reads read
      · exact .reads (by rwa [← outside p (by omega)]) read
    · rw [emptied p after le] at held
      cases held
      simp [Insn.insnReadsReg, Insn.insnReadRegs] at read
  | @goes p t x held kept next later ih =>
    refine ⟨fun apart => ?_, fun after le => ?_⟩
    · by_cases atI : p = i
      · subst atI
        rw [fused] at held
        cases held
        refine goes kept ?_
        rcases Insn.succs_targets next with rfl | isNamed
        · -- The placeholders lead past the stretch.
          exact .inl (ih.2 (Nat.lt_succ_self p) lt)
        · exact .inr ⟨t, isNamed, ih.1 (named t isNamed)⟩
      · have away : p < i ∨ j < p := by omega
        rw [outside p away] at held
        exact .goes held kept next (ih.1 (mapped.apart closed inside away held next))
    · rw [emptied p after le] at held
      cases held
      obtain rfl : t = p + 1 := by simpa [Insn.succs] using next
      rcases Nat.lt_or_eq_of_le le with below | rfl
      · exact ih.2 (by omega) below
      · exact ih.1 (.inr (Nat.lt_succ_self p))

end Paths

section Branches

variable {H : Host Stmt Expr ι W} {D : Numbering ι} {first fused : Insn Stmt Expr} {c : RegId} {t : Nat}

/-- What a comparison computes, and what its fused branch does with it. -/
structure ComparesFor (H : Host Stmt Expr ι W) (D : Numbering ι) (first fused : Insn Stmt Expr) (c : RegId) (t : Nat)
    (f : Vm W → Value) : Prop where
  computes : Computes H D first c f
  branches : ∀ pc vm, (execInsn H D pc fused vm).value = branchUnless pc t (H.isTrue (f vm)) ∧
    (execInsn H D pc fused vm).state = vm ∧ ∀ r, .writeReg r ∉ (execInsn H D pc fused vm).log
  follows : ∀ vm vm', (∀ r, first.insnReadsReg r = true → vm'.regs r = vm.regs r) → f vm' = f vm
  notCopy : ∀ r, fused ≠ .move r r
  reads : fused.insnReadRegs = first.insnReadRegs
  targets : fused.targets = [t]
  dest : first.destReg = some c
  falls : ∀ pc, pc + 1 ∈ first.succs pc
  scratch : ∀ kind a b tmp t', fused = .cmpBranch kind a b tmp t' → tmp = c

/-- Every fused branch decides by what its comparison computes. -/
theorem fusedBranch_compares (H : Host Stmt Expr ι W) (D : Numbering ι) (becomes : fusedBranch c t first = some fused) :
    ∃ f, ComparesFor H D first fused c t f := by
  -- Seven comparisons have a fused form, and those with a constant when they are equalities.
  cases first with
  | eq d l r | neq d l r | caseEq d l r | lt d l r | leq d l r | gt d l r | geq d l r =>
    simp only [fusedBranch, Option.ite_none_right_eq_some, Option.some.injEq] at becomes
    obtain ⟨rfl, rfl⟩ := becomes
    refine ⟨_, binArm_computes _ d l r (by simp) fun _ => rfl, fun pc vm => ⟨rfl, rfl, fun r => ?_⟩,
      fun vm vm' same => ?_, by simp, rfl, rfl, rfl, by simp [Insn.succs], fun kind a b tmp t' same => ?_⟩
    · simp [execInsn, readReg]
    · have left := same l (by simp [Insn.insnReadsReg, Insn.insnReadRegs])
      have right := same r (by simp [Insn.insnReadsReg, Insn.insnReadRegs])
      simp only [left, right]
    · cases same
      rfl
  | binOpConst d s k kind =>
    cases kind with
    | eq | caseEq =>
      simp only [fusedBranch, Option.ite_none_right_eq_some, Option.some.injEq] at becomes
      obtain ⟨rfl, rfl⟩ := becomes
      refine ⟨_, binOpConst_computes d s k _, fun pc vm => ⟨rfl, rfl, fun r => ?_⟩, fun vm vm' same => ?_, by simp,
        rfl, rfl, rfl, by simp [Insn.succs], by simp⟩
      · simp [execInsn, readReg]
      · have source := same s (by simp [Insn.insnReadsReg, Insn.insnReadRegs])
        simp only [source]
    | _ => cases becomes
  | _ => cases becomes

end Branches

section Turns

variable {H : Host Stmt Expr ι W} {D : Numbering ι} {insns out : List (Insn Stmt Expr)} {i j : Nat}
  {run run' : Run W}

/-- A comparison with the branch on it, and the fused branch, are run alike up to the register compared into, dead on
both ways out of the branch. -/
theorem fusedBranch_turn (lt : i < j) {first fused : Insn Stmt Expr} {c : RegId} {t : Nat} {f : Vm W → Value}
    (compares : ComparesFor H D first fused c t f) (held : insns[i]? = some first)
    (branch : insns[j]? = some (.branchIfFalse c t)) (between : ∀ k, i < k → k < j → insns[k]? = some .nop)
    (atI : out[i]? = some fused) (emptied : ∀ k, i < k → k ≤ j → out[k]? = some .nop) (exits : t ≤ i ∨ j < t)
    {dead : Nat → Prop} (unread : ∀ r, r = c → dead i → first.insnReadsReg r = false) (past : dead (j + 1))
    (taken : dead t) (here : run.pc = i) (alike : Alike (fun r => r = c ∧ dead i) run run') :
    Together H D insns out (InStep (fun pc r => r = c ∧ dead pc) fun pc => pc ≤ i ∨ j < pc) run run' := by
  subst here
  -- The comparison, the placeholders and the branch.
  have step := compares.computes.blockStep run held
  obtain ⟨n, walk⟩ := steps_to H D (run.put c (f run.vm)) j lt fun k atLeast below => between k atLeast below
  have branchStep : blockStep H D insns ((run.put c (f run.vm)).moveTo j) =
      Run.advance run (run.vm.put c (f run.vm)) (fun r => run.exported r ∧ r ≠ c)
        (branchUnless j t (H.isTrue (f run.vm))) := by
    have decided : execInsn H D j (.branchIfFalse c t) (run.vm.put c (f run.vm)) =
        ⟨branchUnless j t (H.isTrue (f run.vm)), run.vm.put c (f run.vm), [.readReg c]⟩ := by
      simp [execInsn, readReg]
    simp only [blockStep, Run.moveTo_pc, branch, Run.moveTo_vm, Run.put_vm, decided]
    rw [exportedAfter_silent (by simp) (by simp)]
    cases H.isTrue (f run.vm) <;> rfl
  -- The fused branch sees the same operands.
  have same : f run'.vm = f run.vm :=
    compares.follows run.vm run'.vm fun r reads => alike.live fun isDead => by
      rw [unread r isDead.1 isDead.2] at reads
      cases reads
  obtain ⟨goes, state, silent⟩ := compares.branches run'.pc run'.vm
  rw [same] at goes
  have fusedStep : blockStep H D out run' = run'.advance run'.vm
      (exportedAfter fused (execInsn H D run'.pc fused run'.vm).log run'.exported)
      (branchUnless run'.pc t (H.isTrue (f run.vm))) := by
    simp only [blockStep, alike.pc ▸ atI, goes, state]
  have after (pc : Nat) (isDead : dead pc) :
      Alike (fun r => r = c ∧ dead pc) ⟨pc, run.vm.put c (f run.vm), run.waits, fun r => run.exported r ∧ r ≠ c⟩
        ⟨pc, run'.vm, run'.waits, exportedAfter fused (execInsn H D run'.pc fused run'.vm).log run'.exported⟩ := by
    refine ⟨rfl, alike.waits, ⟨alike.vm.world, alike.vm.numRegs, fun r notOff => ?_⟩, fun r exported => ?_⟩
    · have other : r ≠ c := fun isC => notOff ⟨⟨isC, isDead⟩, fun exported => exported.2 isC⟩
      rw [Vm.put_other _ _ other]
      exact alike.live fun off => other off.1
    · exact .inr ⟨alike.exported r exported.1, silent r⟩
  cases holds : H.isTrue (f run.vm) with
  | true =>
    -- Both fall through, the fused one past the placeholders.
    rw [holds] at branchStep fusedStep
    simp only [branchUnless, if_true, Run.advance] at branchStep fusedStep
    obtain ⟨n', walk'⟩ := steps_to H D ⟨run'.pc + 1, run'.vm, run'.waits,
      exportedAfter fused (execInsn H D run'.pc fused run'.vm).log run'.exported⟩ (j + 1)
      (by simp only [alike.pc]; omega) fun k atLeast below => emptied k (by simp only [alike.pc] at atLeast; omega)
        (by omega)
    exact .on (.cons step (walk.trans (.one branchStep))) (.cons fusedStep walk')
      ⟨.inr (Nat.lt_succ_self j), after _ past⟩
  | false =>
    rw [holds] at branchStep fusedStep
    simp only [branchUnless, Bool.false_eq_true, if_false, Run.advance] at branchStep fusedStep
    exact .on (.cons step (walk.trans (.one branchStep))) (.one fusedStep) ⟨exits, after _ taken⟩

/-- A value at a width. -/
def fitted (H : Host Stmt Expr ι W) (w : Nat) (v : Value) : Value := if v.width ≠ w then H.resize v w else v

/-- What a run does at a resize: the register takes the value at the width, and is exported still if that is what it
was. -/
theorem blockStep_resize (run : Run W) {r : RegId} {w : Nat} (held : insns[run.pc]? = some (.resize r w)) :
    blockStep H D insns run = .inl ⟨run.pc + 1, run.vm.put r (fitted H w (run.vm.regs r)), run.waits,
      fun q => run.exported q ∧ ((run.vm.regs r).width ≠ w → q ≠ r)⟩ := by
  by_cases fits : (run.vm.regs r).width = w
  · -- Nothing is written.
    have exec : execInsn H D run.pc (.resize r w) run.vm = ⟨.goto (run.pc + 1), run.vm, [.readReg r]⟩ := by
      simp [execInsn, fall, readReg, fits]
    rw [blockStep_goto held exec, exportedAfter_silent (by simp) (by simp)]
    simp [Vm.put, fitted, fits]
  · have exec : execInsn H D run.pc (.resize r w) run.vm =
        ⟨.goto (run.pc + 1), run.vm.put r (H.resize (run.vm.regs r) w), [.readReg r, .writeReg r]⟩ := by
      simp [execInsn, fall, readReg, writeReg, fits, Vm.put]
    have marks : exportedAfter (.resize r w : Insn Stmt Expr)
      ([.readReg r, .writeReg r] : List (Access ι)) run.exported =
        fun q => run.exported q ∧ ((run.vm.regs r).width ≠ w → q ≠ r) := by
      funext q
      simp [exportedAfter, fits]
    rw [blockStep_goto held exec, marks]
    simp [fitted, fits]

theorem moveResize_computes (d s : RegId) (w : Nat) :
    Computes H D (.moveResize d s w : Insn Stmt Expr) d fun vm => fitted H w (vm.regs s) :=
  unArm_computes (fun v => fitted H w v) d s (by simp) fun _ => rfl

/-- A move with the resize of what it moved, and both in one instruction, are run alike. -/
theorem moveResize_turn (lt : i < j) {d s : RegId} {w : Nat} (apart : d ≠ s) (move : insns[i]? = some (.move d s))
    (resize : insns[j]? = some (.resize d w)) (between : ∀ k, i < k → k < j → insns[k]? = some .nop)
    (atI : out[i]? = some (.moveResize d s w)) (emptied : ∀ k, i < k → k ≤ j → out[k]? = some .nop)
    (here : run.pc = i) (alike : Alike (fun _ => False) run run') :
    Together H D insns out (InStep (fun _ _ => False) fun pc => pc ≤ i ∨ j < pc) run run' := by
  subst here
  have step := (move_computes (H := H) (D := D) apart).blockStep run move
  obtain ⟨n, walk⟩ := steps_to H D (run.put d (run.vm.regs s)) j lt fun k atLeast below => between k atLeast below
  have resized := blockStep_resize (H := H) (D := D) (Run.moveTo (run.put d (run.vm.regs s)) j) resize
  have step' := (moveResize_computes (H := H) (D := D) d s w).blockStep run' (alike.pc.symm ▸ atI)
  obtain ⟨n', walk'⟩ := steps_to H D (run'.put d (fitted H w (run'.vm.regs s))) (j + 1)
    (by simp only [Run.put_pc, alike.pc]; omega)
    fun k atLeast below => emptied k (by simp only [Run.put_pc, alike.pc] at atLeast; omega) (by omega)
  refine .on (.cons step (walk.trans (.one resized))) (.cons step' walk') ⟨.inr (Nat.lt_succ_self j), rfl, alike.waits,
    ⟨alike.vm.world, alike.vm.numRegs, fun r _ => ?_⟩, fun r exported => ?_⟩
  · -- The moved value is what is resized.
    have source : run'.vm.regs s = run.vm.regs s := alike.live id
    by_cases atD : r = d
    · simp [atD, source]
    · simpa [Vm.put_other _ _ atD] using alike.live id
  · obtain ⟨⟨before, other⟩, -⟩ := exported
    exact ⟨alike.exported r before, other⟩

/-- A resize with the move of what it resized, and the resize of the moved value, are run alike up to the register
resized, dead after the move. -/
theorem resizeMove_turn (lt : i < j) {d a : RegId} {w : Nat} (apart : d ≠ a) (resize : insns[i]? = some (.resize a w))
    (move : insns[j]? = some (.move d a)) (between : ∀ k, i < k → k < j → insns[k]? = some .nop)
    (atI : out[i]? = some (.moveResize d a w)) (emptied : ∀ k, i < k → k ≤ j → out[k]? = some .nop)
    {dead : Nat → Prop} (live : ¬ dead i) (after : dead (j + 1)) (here : run.pc = i)
    (alike : Alike (fun r => r = a ∧ dead i) run run') :
    Together H D insns out (InStep (fun pc r => r = a ∧ dead pc) fun pc => pc ≤ i ∨ j < pc) run run' := by
  subst here
  have same (r : RegId) : run'.vm.regs r = run.vm.regs r := alike.live fun isDead => live isDead.2
  have step := blockStep_resize (H := H) (D := D) run resize
  obtain ⟨n, walk⟩ := steps_to H D ⟨run.pc + 1, run.vm.put a (fitted H w (run.vm.regs a)), run.waits,
    fun q => run.exported q ∧ ((run.vm.regs a).width ≠ w → q ≠ a)⟩ j lt fun k atLeast below => between k atLeast below
  have moved := (move_computes (H := H) (D := D) apart).blockStep (Run.moveTo ⟨run.pc + 1,
    run.vm.put a (fitted H w (run.vm.regs a)), run.waits,
    fun q => run.exported q ∧ ((run.vm.regs a).width ≠ w → q ≠ a)⟩ j) move
  have step' := (moveResize_computes (H := H) (D := D) d a w).blockStep run' (alike.pc.symm ▸ atI)
  obtain ⟨n', walk'⟩ := steps_to H D (run'.put d (fitted H w (run'.vm.regs a))) (j + 1)
    (by simp only [Run.put_pc, alike.pc]; omega)
    fun k atLeast below => emptied k (by simp only [Run.put_pc, alike.pc] at atLeast; omega) (by omega)
  refine .on (.cons step (walk.trans (.one moved))) (.cons step' walk') ⟨.inr (Nat.lt_succ_self j), rfl, alike.waits,
    ⟨alike.vm.world, alike.vm.numRegs, fun r notOff => ?_⟩, fun r exported => ?_⟩
  · by_cases atD : r = d
    · simp [atD, same]
    · by_cases atA : r = a
      · -- The resized register has its old value unless it is dead.
        by_cases fits : (run.vm.regs a).width = w
        · simp [atA, Vm.put_other _ _ (Ne.symm apart), same, fitted, fits]
        · exact absurd ⟨⟨atA, after⟩, fun exported => exported.1.2 fits atA⟩ notOff
      · simp [Vm.put_other _ _ atD, Vm.put_other _ _ atA, same]
  · obtain ⟨⟨before, -⟩, other⟩ := exported
    exact ⟨alike.exported r before, other⟩

end Turns

section Step

variable {H : Host Stmt Expr ι W} {D : Numbering ι} {isTarget : Nat → Bool} {s : Searching Stmt Expr} {i j : Nat}
  {first second fused : Insn Stmt Expr}

/-- What the pass keeps: the map covers the targets, and the register of a fused branch is not read after it. -/
structure Searching.Good (isTarget : Nat → Bool) (s : Searching Stmt Expr) : Prop where
  mapped : Mapped isTarget s.insns
  scratch : ScratchUnread s.insns

/-- A pair of instructions with placeholders between them that no branch enters. -/
structure Pair (isTarget : Nat → Bool) (insns : List (Insn Stmt Expr)) (i j : Nat) (first second : Insn Stmt Expr) :
    Prop where
  lt : i < j
  first : insns[i]? = some first
  second : insns[j]? = some second
  between : ∀ k, i < k → k < j → insns[k]? = some .nop
  closed : ∀ k, i < k → k ≤ j → isTarget k = false

namespace Pair

variable {insns : List (Insn Stmt Expr)}

theorem inside (pair : Pair isTarget insns i j first second) : j < insns.length :=
  (List.getElem?_eq_some_iff.mp pair.second).1

theorem outside (pair : Pair isTarget insns i j first second) (fused : Insn Stmt Expr) (p : Nat)
    (away : p < i ∨ j < p) : ((insns.set i fused).set j .nop)[p]? = insns[p]? := by
  have lt := pair.lt
  rw [List.getElem?_set_ne (by omega), List.getElem?_set_ne (by omega)]

theorem atFirst (pair : Pair isTarget insns i j first second) (fused : Insn Stmt Expr) :
    ((insns.set i fused).set j .nop)[i]? = some fused := by
  have lt := pair.lt
  have inside := pair.inside
  rw [List.getElem?_set_ne (by omega), List.getElem?_set_self (by omega)]

theorem emptied (pair : Pair isTarget insns i j first second) (fused : Insn Stmt Expr) (k : Nat) (after : i < k)
    (le : k ≤ j) : ((insns.set i fused).set j .nop)[k]? = some .nop := by
  have inside := pair.inside
  rcases Nat.lt_or_eq_of_le le with below | rfl
  · rw [List.getElem?_set_ne (by omega), List.getElem?_set_ne (by omega)]
    exact pair.between k after below
  · rw [List.getElem?_set_self (by simpa using inside)]

/-- What a path may read after the pair, it may read before it, if neither instruction overwrites it. -/
theorem mayRead (pair : Pair isTarget insns i j first second) {r : RegId} {t : Nat}
    (straight : i + 1 ∈ first.succs i) (kept : ¬ first.Overwrites r) (kept' : ¬ second.Overwrites r)
    (next : t ∈ second.succs j) (later : MayRead insns r t) : MayRead insns r i := by
  have lt := pair.lt
  -- Backwards from the second instruction over the placeholders.
  have back : ∀ n, i + 1 + n ≤ j → MayRead insns r (j - n) := by
    intro n
    induction n with
    | zero => exact fun _ => .goes pair.second kept' next later
    | succ n ih =>
      intro within
      have nop := pair.between (j - (n + 1)) (by omega) (by omega)
      refine .goes nop (by rintro ⟨dest, -⟩; cases dest) (t := j - n) ?_ (ih (by omega))
      have next : j - n = j - (n + 1) + 1 := by omega
      simp [Insn.succs, next]
  refine .goes pair.first kept straight ?_
  have start := back (j - (i + 1)) (by omega)
  rwa [Nat.sub_sub_self (by omega)] at start

end Pair

theorem Searching.fuse_insns (s : Searching Stmt Expr) (i j : Nat) (fused : Insn Stmt Expr) :
    (s.fuse i j fused).insns = (s.insns.set i fused).set j .nop := rfl

/-- Fusing a pair keeps what the pass needs, if the fused instruction reads and overwrites no more than the pair, and
its own register is dead. -/
theorem Searching.Good.fuse (good : s.Good isTarget) (pair : Pair isTarget s.insns i j first second)
    (reads : ∀ r, fused.insnReadsReg r = true → MayRead s.insns r i)
    (targets : ∀ t ∈ fused.targets, t ∈ second.targets)
    (goes : ∀ r, ¬ fused.Overwrites r → MayRead s.insns r (j + 1) ∨ (∃ t ∈ fused.targets, MayRead s.insns r t) →
      MayRead s.insns r i)
    (own : ∀ kind a b tmp t, fused = .cmpBranch kind a b tmp t → ¬ MayRead s.insns tmp (j + 1) ∧
      ¬ MayRead s.insns tmp t) : (s.fuse i j fused).Good isTarget := by
  have named (t : Nat) (isNamed : t ∈ fused.targets) : t ≤ i ∨ j < t := by
    by_contra entered
    have inside := pair.inside
    have target := good.mapped.held pair.second (targets t isNamed) (by omega)
    simp [pair.closed t (by omega) (by omega)] at target
  have before {r : RegId} {p : Nat} (may : MayRead ((s.insns.set i fused).set j .nop) r p) :=
    may.of_fused pair.lt good.mapped pair.closed pair.inside (pair.outside fused) (pair.atFirst fused)
      (pair.emptied fused)
      (reads r) (goes r) named
  refine ⟨?_, ?_⟩
  · refine (good.mapped.set fun t isNamed inside => ?_).set (by simp [Insn.targets])
    exact good.mapped.held pair.second (targets t isNamed) inside
  · intro p kind a b tmp t held apart apart' may
    by_cases atI : p = i
    · -- The new branch: neither way out of it reads its register.
      subst atI
      have same := pair.atFirst fused
      rw [Searching.fuse_insns, same] at held
      cases held
      obtain ⟨unread, unread'⟩ := own kind a b tmp t rfl
      cases may with
      | reads held read =>
        rw [Searching.fuse_insns, same] at held
        cases held
        simp [Insn.insnReadsReg, Insn.insnReadRegs, apart, apart'] at read
      | @goes _ way _ held kept next later =>
        rw [Searching.fuse_insns, same] at held
        cases held
        have ways : way = p + 1 ∨ way = t := by simpa [Insn.succs] using next
        rcases ways with rfl | rfl
        · exact unread ((before later).2 (Nat.lt_succ_self p) pair.lt)
        · exact unread' ((before later).1 (named _ (by simp [Insn.targets])))
    · by_cases within : i < p ∧ p ≤ j
      · have nop := pair.emptied fused p within.1 within.2
        rw [Searching.fuse_insns, nop] at held
        cases held
      · have away : p < i ∨ j < p := by omega
        rw [Searching.fuse_insns, pair.outside fused p away] at held
        exact good.scratch p kind a b tmp t held apart apart' ((before may).1 (by omega))

/-- The state of the search changes neither the stream nor what the pass needs of it. -/
theorem Searching.Good.searched (good : s.Good isTarget) (L : RegLiveness) :
    ({ s with liveness := L } : Searching Stmt Expr).Good isTarget := ⟨good.mapped, good.scratch⟩

/-- A comparison taken into its branch. -/
theorem fuseBranch_standsFor (good : s.Good isTarget) {c : RegId} {t : Nat}
    (pair : Pair isTarget s.insns i j first (.branchIfFalse c t)) (becomes : fusedBranch c t first = some fused)
    (dead : ¬ MayRead s.insns c (j + 1)) (dead' : ¬ MayRead s.insns c t) :
    (s.fuse i j fused).Good isTarget ∧ StandsFor H D (s.fuse i j fused).insns s.insns := by
  obtain ⟨f, compares⟩ := fusedBranch_compares H D becomes
  have inside := pair.inside
  have lt := pair.lt
  have exits : t ≤ i ∨ j < t := by
    by_contra entered
    have target := good.mapped.held pair.second (show t ∈ (Insn.branchIfFalse c t : Insn Stmt Expr).targets by
      simp [Insn.targets]) (by omega)
    simp [pair.closed t (by omega) (by omega)] at target
  have reads (r : RegId) : fused.insnReadsReg r = first.insnReadsReg r := by
    simp only [Insn.insnReadsReg, compares.reads]
  refine ⟨good.fuse pair (fun r read => .reads pair.first (by rwa [reads] at read)) (fun u named => ?_)
    (fun r kept later => ?_) (fun kind a b tmp t' same => ?_), ?_⟩
  · rw [compares.targets] at named
    simpa [Insn.targets] using named
  · -- The register compared into is read on neither way, so it is another one.
    have other : r ≠ c := by
      rintro rfl
      rcases later with past | ⟨u, named, taken⟩
      · exact dead past
      · rw [compares.targets, List.mem_singleton] at named
        exact dead' (named ▸ taken)
    have kept₁ : ¬ first.Overwrites r := by
      rintro ⟨dest, -⟩
      rw [compares.dest] at dest
      exact other (Option.some.inj dest).symm
    have kept₂ : ¬ (Insn.branchIfFalse c t : Insn Stmt Expr).Overwrites r := by
      rintro ⟨dest, -⟩
      cases dest
    rcases later with past | ⟨u, named, taken⟩
    · exact pair.mayRead (compares.falls i) kept₁ kept₂ (by simp [Insn.succs]) past
    · rw [compares.targets, List.mem_singleton] at named
      exact pair.mayRead (compares.falls i) kept₁ kept₂ (by simp [Insn.succs]) (named ▸ taken)
  · obtain rfl := compares.scratch kind a b tmp t' same
    have targets := compares.targets
    rw [same] at targets
    obtain rfl : t' = t := by simpa [Insn.targets] using targets
    exact ⟨dead, dead'⟩
  · refine .of_site i j good.mapped pair.closed inside (pair.outside fused) (.of_mayRead s.insns i j c)
      fun run run' here alike => fusedBranch_turn lt compares pair.first pair.second pair.between (pair.atFirst fused)
        (pair.emptied fused) exits (fun r isC isDead => ?_) dead dead' here alike
    -- What the comparison reads is not dead before it.
    rw [isC]
    by_contra read
    exact isDead (.reads pair.first (by simpa using read))

/-- A move taken into the resize of what it moved. -/
theorem fuseMoveResize_standsFor (good : s.Good isTarget) {d sr : RegId} {w : Nat} (apart : d ≠ sr)
    (pair : Pair isTarget s.insns i j (.move d sr) (.resize d w)) :
    -- The pair writes `d` alone, so another register read later may be read before the pair too.
    (s.fuse i j (.moveResize d sr w)).Good isTarget ∧
      StandsFor H D (s.fuse i j (.moveResize d sr w)).insns s.insns := by
  refine ⟨good.fuse pair (fun r read => .reads pair.first (by simpa [Insn.insnReadsReg, Insn.insnReadRegs] using read))
    (by simp [Insn.targets]) (fun r kept later => ?_) (by simp), ?_⟩
  · have other : r ≠ d := fun isD => kept ⟨by rw [isD]; rfl, by simp⟩
    have past : MayRead s.insns r (j + 1) := later.resolve_right (by simp [Insn.targets])
    refine pair.mayRead (by simp [Insn.succs]) ?_ ?_ (by simp [Insn.succs]) past
    · rintro ⟨dest, -⟩
      exact other (Option.some.inj dest).symm
    · rintro ⟨dest, -⟩
      cases dest
  · exact .of_site i j good.mapped pair.closed pair.inside (pair.outside _) (fun _ _ _ _ _ isDead => isDead.elim)
      fun run run' here alike => moveResize_turn pair.lt apart pair.first pair.second pair.between (pair.atFirst _)
        (pair.emptied _) here alike

/-- A resize taken into the move of what it resized. -/
theorem fuseResizeMove_standsFor (good : s.Good isTarget) {d a : RegId} {w : Nat} (apart : d ≠ a)
    (pair : Pair isTarget s.insns i j (.resize a w) (.move d a)) (dead : ¬ MayRead s.insns a (j + 1)) :
    (s.fuse i j (.moveResize d a w)).Good isTarget ∧
      StandsFor H D (s.fuse i j (.moveResize d a w)).insns s.insns := by
  -- The resize reads its own register, and nothing reads it after the pair.
  have reads : MayRead s.insns a i := .reads pair.first (by simp [Insn.insnReadsReg, Insn.insnReadRegs])
  refine ⟨good.fuse pair (fun r read => .reads pair.first (by simpa [Insn.insnReadsReg, Insn.insnReadRegs] using read))
    (by simp [Insn.targets]) (fun r kept later => ?_) (by simp), ?_⟩
  · have other : r ≠ d := fun isD => kept ⟨by rw [isD]; rfl, by simp⟩
    have past : MayRead s.insns r (j + 1) := later.resolve_right (by simp [Insn.targets])
    refine pair.mayRead (by simp [Insn.succs]) ?_ ?_ (by simp [Insn.succs]) past
    · rintro ⟨dest, -⟩
      cases dest
    · rintro ⟨dest, -⟩
      exact other (Option.some.inj dest).symm
  · exact .of_site i j good.mapped pair.closed pair.inside (pair.outside _) (.of_mayRead s.insns i j a)
      fun run run' here alike => resizeMove_turn pair.lt apart pair.first pair.second pair.between (pair.atFirst _)
        (pair.emptied _) (not_not.mpr reads) dead here alike

/-- A pair fused where a search finds no read. -/
theorem fuseDead_standsFor (good : s.Good isTarget) {starts : List Nat} {r : RegId}
    (each : (∀ pc ∈ starts, ¬ MayRead s.insns r pc) → ∀ L : RegLiveness,
      (Searching.fuse { s with liveness := L } i j fused).Good isTarget ∧
        StandsFor H D (Searching.fuse { s with liveness := L } i j fused).insns s.insns) :
    (s.fuseDead i j starts r fused).Good isTarget ∧ StandsFor H D (s.fuseDead i j starts r fused).insns s.insns := by
  unfold Searching.fuseDead
  dsimp only
  split
  · exact ⟨good.searched _, .refl⟩
  · rename_i unread
    exact each (s.liveness.not_mayRead good.scratch (by simpa using unread)) _

/-- One pair. -/
theorem fusePair_standsFor (good : s.Good isTarget) (pair : Pair isTarget s.insns i j first second) :
    (fusePair s i j first second).Good isTarget ∧ StandsFor H D (fusePair s i j first second).insns s.insns := by
  -- Three pairs fuse: a comparison with its branch, a move with a resize, and a resize with a move.
  unfold fusePair
  split
  · rename_i c t
    split
    · rename_i fused becomes
      refine fuseDead_standsFor good fun unread L => ?_
      exact fuseBranch_standsFor (good.searched L) pair becomes (unread _ (by simp)) (unread _ (by simp))
    · exact ⟨good, .refl⟩
  · rename_i rd w
    split
    · rename_i d sr
      split
      · rename_i fits
        obtain ⟨rfl, apart⟩ := fits
        exact fuseMoveResize_standsFor good apart pair
      · exact ⟨good, .refl⟩
    · exact ⟨good, .refl⟩
  · rename_i d ms
    split
    · rename_i a w
      split
      · rename_i fits
        obtain ⟨rfl, apart⟩ := fits
        refine fuseDead_standsFor good fun unread L => ?_
        exact fuseResizeMove_standsFor (good.searched L) apart pair (unread _ (by simp))
      · exact ⟨good, .refl⟩
    · exact ⟨good, .refl⟩
  · exact ⟨good, .refl⟩

/-- One position of the pass keeps what it needs, and the runs. -/
theorem fuseCompareAt_standsFor (s : Searching Stmt Expr) (i : Nat) (good : s.Good isTarget) :
    (fuseCompareAt isTarget s i).Good isTarget ∧ StandsFor H D (fuseCompareAt isTarget s i).insns s.insns := by
  -- Each guard that fails leaves the body as it is.
  unfold fuseCompareAt
  split
  · exact ⟨good, .refl⟩
  · rename_i first held
    split
    · exact ⟨good, .refl⟩
    · obtain ⟨after, between⟩ := nextReal_spec isTarget s.insns (i + 1)
      generalize nextReal isTarget s.insns (i + 1) = j at after between
      dsimp only
      split
      · exact ⟨good, .refl⟩
      · rename_i free
        split
        · exact ⟨good, .refl⟩
        · rename_i second held'
          refine fusePair_standsFor good ⟨after, held, held', fun k later below => (between k later below).1,
            fun k later le => ?_⟩
          rcases Nat.lt_or_eq_of_le le with below | rfl
          · exact (between k later below).2
          · simpa using free

end Step

/-- Comparisons taken into their branches, and moves into their resizes: the rewritten stream stands for the one it
comes
from, where the register of a fused branch already in it is not read after the branch. -/
theorem fuseCmpBranchMoveResize_standsFor (H : Host Stmt Expr ι W) (D : Numbering ι) {insns : List (Insn Stmt Expr)}
    (scratch : ScratchUnread insns) : StandsFor H D (fuseCmpBranchMoveResize insns) insns :=
  (StandsFor.foldl Searching.insns (Searching.Good (branchTargetMap insns)) fuseCompareAt_standsFor _
    ⟨branchTargetMap_mapped insns, scratch⟩).2

/-- A comparison is branched on, and a register moved and resized. -/
theorem fuseCmpBranchMoveResize_standsFor_lt : StandsFor (default : Host Unit Unit Unit Unit) noSignals
    (fuseCmpBranchMoveResize [.lt 1 0 2, .branchIfFalse 1 4, .move 3 0, .resize 3 8, .nbaAssign 0 3 8])
    [.lt 1 0 2, .branchIfFalse 1 4, .move 3 0, .resize 3 8, .nbaAssign 0 3 8] :=
  fuseCmpBranchMoveResize_standsFor default noSignals (Unfused.scratchUnread (by simp [Unfused]))

end Xezim.Bytecode
