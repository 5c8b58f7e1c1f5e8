import Xezim.Bytecode.DeadRegs
import Xezim.Bytecode.Facts

/-! Reads of a copy made reads of the register it was copied from, along the straight run after the copy. -/

namespace Xezim.Bytecode

open Lockstep Traced

open Arrays (ArrayOperand resolveBytecodeArrayElem bytecodeArrayFirstId)

variable {Stmt Expr ι W : Type}

/-- One register read in the place of another. -/
def swapReg (old new r : RegId) : RegId := if r = old then new else r

namespace Insn

/-- `replace_read_reg`: every source operand that is one register made another one; nothing for an instruction reading
the register whose sources are not rewritten. -/
def replaceReadReg (old new : RegId) : Insn Stmt Expr → Option (Insn Stmt Expr)
  | pow d l r => some (pow d (swapReg old new l) (swapReg old new r))
  | add d l r => some (add d (swapReg old new l) (swapReg old new r))
  | sub d l r => some (sub d (swapReg old new l) (swapReg old new r))
  | mul d l r => some (mul d (swapReg old new l) (swapReg old new r))
  | div d l r => some (div d (swapReg old new l) (swapReg old new r))
  | mod d l r => some (mod d (swapReg old new l) (swapReg old new r))
  | bitAnd d l r => some (bitAnd d (swapReg old new l) (swapReg old new r))
  | bitOr d l r => some (bitOr d (swapReg old new l) (swapReg old new r))
  | bitXor d l r => some (bitXor d (swapReg old new l) (swapReg old new r))
  | bitXnor d l r => some (bitXnor d (swapReg old new l) (swapReg old new r))
  | logAnd d l r => some (logAnd d (swapReg old new l) (swapReg old new r))
  | logOr d l r => some (logOr d (swapReg old new l) (swapReg old new r))
  | eq d l r => some (eq d (swapReg old new l) (swapReg old new r))
  | neq d l r => some (neq d (swapReg old new l) (swapReg old new r))
  | caseEq d l r => some (caseEq d (swapReg old new l) (swapReg old new r))
  | casezEq d l r => some (casezEq d (swapReg old new l) (swapReg old new r))
  | casexEq d l r => some (casexEq d (swapReg old new l) (swapReg old new r))
  | lt d l r => some (lt d (swapReg old new l) (swapReg old new r))
  | leq d l r => some (leq d (swapReg old new l) (swapReg old new r))
  | gt d l r => some (gt d (swapReg old new l) (swapReg old new r))
  | geq d l r => some (geq d (swapReg old new l) (swapReg old new r))
  | shl d l r => some (shl d (swapReg old new l) (swapReg old new r))
  | shr d l r => some (shr d (swapReg old new l) (swapReg old new r))
  | aShr d l r => some (aShr d (swapReg old new l) (swapReg old new r))
  | cmpBranch kind l r tmp t => some (cmpBranch kind (swapReg old new l) (swapReg old new r) tmp t)
  | bitSelect d b i => some (bitSelect d (swapReg old new b) (swapReg old new i))
  | bitNot d s => some (bitNot d (swapReg old new s))
  | logNot d s => some (logNot d (swapReg old new s))
  | negate d s => some (negate d (swapReg old new s))
  | reduceAnd d s => some (reduceAnd d (swapReg old new s))
  | reduceOr d s => some (reduceOr d (swapReg old new s))
  | reduceXor d s => some (reduceXor d (swapReg old new s))
  | move d s => some (move d (swapReg old new s))
  | moveResize d s w => some (moveResize d (swapReg old new s) w)
  | replicate d s n => some (replicate d (swapReg old new s) n)
  | binOpConst d s k kind => some (binOpConst d (swapReg old new s) k kind)
  | cmpBranchConst kind s k tmp t => some (cmpBranchConst kind (swapReg old new s) k tmp t)
  | bitSelectConst d b i => some (bitSelectConst d (swapReg old new b) i)
  | rangeSelectConst d b l r => some (rangeSelectConst d (swapReg old new b) l r)
  | caseLut d s lut => some (caseLut d (swapReg old new s) lut)
  | caseJump s cj => some (caseJump (swapReg old new s) cj)
  | caseMaskJump s mj => some (caseMaskJump (swapReg old new s) mj)
  | branchIfFalse c t => some (branchIfFalse (swapReg old new c) t)
  | branchUnlessZero c t => some (branchUnlessZero (swapReg old new c) t)
  | loadSignalRangeDyn d sig lo w => some (loadSignalRangeDyn d sig (swapReg old new lo) w)
  | loadArrayElem d array i => some (loadArrayElem d array (swapReg old new i))
  | nbaAssign sig v w => some (nbaAssign sig (swapReg old new v) w)
  | blockingAssign sig v w => some (blockingAssign sig (swapReg old new v) w)
  | nbaAssignRange sig hi lo v => some (nbaAssignRange sig hi lo (swapReg old new v))
  | blockingAssignRange sig hi lo v => some (blockingAssignRange sig hi lo (swapReg old new v))
  | blockingAssignString sig v => some (blockingAssignString sig (swapReg old new v))
  | waitDelayReg r => some (waitDelayReg (swapReg old new r))
  | rangeSelect d b l r => some (rangeSelect d (swapReg old new b) (swapReg old new l) (swapReg old new r))
  | rangeSelectW d b i w up => some (rangeSelectW d (swapReg old new b) (swapReg old new i) w up)
  | select d c t e => some (select d (swapReg old new c) (swapReg old new t) (swapReg old new e))
  | concat d parts => some (concat d (parts.map (swapReg old new)))
  | nbaAssignRangeDyn sig hi lo v =>
    some (nbaAssignRangeDyn sig (swapReg old new hi) (swapReg old new lo) (swapReg old new v))
  | blockingAssignRangeDyn sig hi lo v =>
    some (blockingAssignRangeDyn sig (swapReg old new hi) (swapReg old new lo) (swapReg old new v))
  | nbaAssignBitDyn sig i v => some (nbaAssignBitDyn sig (swapReg old new i) (swapReg old new v))
  | blockingAssignBitDyn sig i v => some (blockingAssignBitDyn sig (swapReg old new i) (swapReg old new v))
  | nbaAssignArray array i v w => some (nbaAssignArray array (swapReg old new i) (swapReg old new v) w)
  | blockingAssignArray array i v w => some (blockingAssignArray array (swapReg old new i) (swapReg old new v) w)
  | nbaAssignArrayRange array i hi lo v =>
    some (nbaAssignArrayRange array (swapReg old new i) (swapReg old new hi) (swapReg old new lo) (swapReg old new v))
  | blockingAssignArrayRange array i hi lo v => some (blockingAssignArrayRange array (swapReg old new i)
      (swapReg old new hi) (swapReg old new lo) (swapReg old new v))
  | insn => if insn.insnReadsReg old then none else some insn

/-- A copy of a register onto itself. -/
def isSelfMove (r : RegId) : Insn Stmt Expr → Bool
  | move a b => a == b && a == r
  | _ => false

/-- A jump, and a branch that may fall through or not. -/
def isJump : Insn Stmt Expr → Bool
  | jump _ => true
  | _ => false

def isBranch : Insn Stmt Expr → Bool
  | cmpBranch _ _ _ _ _ | cmpBranchConst _ _ _ _ _ | branchIfFalse _ _ | branchUnlessZero _ _
  | branchIfSignalFalse _ _ _ | caseJump _ _ | caseMaskJump _ _ => true
  | _ => false

end Insn

section Pass

/-- What ends the run after a copy before it looks at reads. -/
def endsCopy (md ms : RegId) (insn : Insn Stmt Expr) : Bool :=
  insn.isOpaqueInsn || insn.inPlaceReg == some md || insn.inPlaceReg == some ms || insn.isSelfMove md

/-- An instruction with the copy's register replaced, where it reads it. -/
def forwardRead (md ms : RegId) (insn : Insn Stmt Expr) : Option (Insn Stmt Expr) :=
  if insn.insnReadsReg md then insn.replaceReadReg md ms else some insn

/-- The run after a copy, from a position on: the stream with the reads replaced, and whether the copy is buried. -/
def forwardRun (isTarget : Nat → Bool) (md ms : RegId) (insns : List (Insn Stmt Expr)) (j : Nat) (escaped : Bool) :
    List (Insn Stmt Expr) × Bool :=
  match _held : insns[j]? with
  | none => (insns, false)
  | some insn =>
    if isTarget j || endsCopy md ms insn then (insns, false)
    else match forwardRead md ms insn with
      | none => (insns, false)
      | some insn' =>
        if insn'.destReg = some md then (insns.set j insn', !escaped)
        else if insn'.destReg = some ms ∨ insn'.isJump then (insns.set j insn', false)
        else forwardRun isTarget md ms (insns.set j insn') (j + 1) (escaped || insn'.isBranch)
termination_by insns.length - j
decreasing_by
  have inside := (List.getElem?_eq_some_iff.mp _held).1
  simp only [List.length_set]
  omega

/-- One position of `forward_copies`: the copy goes once nothing can read it. -/
def forwardCopyAt (isTarget : Nat → Bool) (insns : List (Insn Stmt Expr)) (i : Nat) : List (Insn Stmt Expr) :=
  match insns[i]? with
  | some (.move md ms) =>
    if md = ms then insns
    else
      let run := forwardRun isTarget md ms insns (i + 1) false
      if !run.2 && run.1.zipIdx.any fun p => p.2 != i && p.1.insnReadsReg md then run.1 else run.1.set i .nop
  | _ => insns

/-- `forward_copies`. -/
def forwardCopies (insns : List (Insn Stmt Expr)) : List (Insn Stmt Expr) :=
  (List.range (insns.length - 1)).foldl (forwardCopyAt (branchTargetMap insns)) insns

end Pass

section Tracking

variable {α β : Type} {old new : RegId}

/-- From machines where two registers hold the same, a computation does what another one does, and writes no register
that the other one does not, but for the first of the two. -/
def Tracks (old new : RegId) (m m' : Exec ι W α) : Prop :=
  ∀ vm, vm.regs old = vm.regs new → (m' vm).value = (m vm).value ∧ (m' vm).state = (m vm).state ∧
    ∀ r, r ≠ old → .writeReg r ∈ (m' vm).log → .writeReg r ∈ (m vm).log

theorem Tracks.refl (m : Exec ι W α) : Tracks old new m m := fun _ _ => ⟨rfl, rfl, fun _ _ written => written⟩

/-- A sequence whose first part leaves the two registers the same. -/
theorem Tracks.bind {m m' : Exec ι W α} {f f' : α → Exec ι W β} (first : Tracks old new m m')
    (keeps : ∀ vm, vm.regs old = vm.regs new → (m vm).state.regs old = (m vm).state.regs new)
    (rest : ∀ x, Tracks old new (f x) (f' x)) : Tracks old new (m >>= f) (m' >>= f') := by
  intro vm same
  -- The two machines are in step after the first part, so the second parts agree too.
  obtain ⟨value, state, writes⟩ := first vm same
  obtain ⟨value', state', writes'⟩ := rest (m vm).value (m vm).state (keeps vm same)
  refine ⟨?_, ?_, fun r other written => ?_⟩
  · simpa only [bind_run, value, state] using value'
  · simpa only [bind_run, value, state] using state'
  · simp only [bind_run, value, state, List.mem_append] at written ⊢
    exact written.imp (writes r other) (writes' r other)

/-- A read of either register. -/
theorem Tracks.read (r : RegId) {f f' : Value → Exec ι W β} (rest : ∀ v, Tracks old new (f v) (f' v)) :
    Tracks old new (readReg r >>= f) (readReg (swapReg old new r) >>= f') := by
  refine .bind (fun vm same => ⟨?_, rfl, fun q _ written => ?_⟩) (fun _ same => same) rest
  · -- The register read in its place holds the same.
    simp only [readReg, swapReg, bind_run, note_run, get_run, pure_run]
    split
    · rename_i isOld
      rw [isOld, same]
    · rfl
  · simp [readReg] at written

/-- What comes before is done alike and touches no register. -/
theorem Tracks.after {m : Exec ι W α} {f f' : α → Exec ι W β} (quiet : ∀ vm, (m vm).state.regs = vm.regs)
    (rest : ∀ x, Tracks old new (f x) (f' x)) : Tracks old new (m >>= f) (m >>= f') :=
  .bind (.refl m) (fun vm same => by simpa only [quiet vm] using same) rest

theorem Tracks.fall {pc : Nat} {arm arm' : Exec ι W Unit} (tracks : Tracks old new arm arm') :
    Tracks old new (fall pc arm) (fall pc arm') := by
  intro vm same
  obtain ⟨-, state, writes⟩ := tracks vm same
  refine ⟨rfl, by simpa [Bytecode.fall] using state, fun r other written => ?_⟩
  simp only [Bytecode.fall, bind_run, pure_run, List.append_nil] at written ⊢
  exact writes r other written

variable {H : Host Stmt Expr ι W} {D : Numbering ι}

theorem unArm_tracks (f : Value → Value) (d s : RegId) :
    Tracks old new (unArm f d s : Exec ι W Unit) (unArm f d (swapReg old new s)) :=
  .read s fun _ => .refl _

theorem binArm_tracks (f : Value → Value → Value) (d l r : RegId) :
    Tracks old new (binArm f d l r : Exec ι W Unit) (binArm f d (swapReg old new l) (swapReg old new r)) :=
  .read l fun _ => .read r fun _ => .refl _

theorem storeSigArm_tracks (f : W → ι → Value → W) (sig : SigId) (v : RegId) :
    Tracks old new (storeSigArm D f sig v : Exec ι W Unit) (storeSigArm D f sig (swapReg old new v)) :=
  .read v fun _ => .refl _

theorem storeElemArm_tracks (array : ArrayOperand) (idx : RegId) {store store' : SigId → Exec ι W Unit}
    (each : ∀ eid, Tracks old new (store eid) (store' eid)) :
    Tracks old new (storeElemArm H D array idx store) (storeElemArm H D array (swapReg old new idx) store') := by
  refine .read idx fun iv => ?_
  cases (H.toIndex iv).bind (resolveBytecodeArrayElem D.toArrayDesign array) with
  | none => exact .refl _
  | some eid => exact each eid

theorem elemRangeArm_tracks (f : W → ι → Value → Value → Value → W) (hi lo v : RegId) (eid : SigId) :
    Tracks old new (elemRangeArm D f hi lo v eid : Exec ι W Unit)
      (elemRangeArm D f (swapReg old new hi) (swapReg old new lo) (swapReg old new v) eid) :=
  .read hi fun _ => .read lo fun _ => .read v fun _ => .refl _

theorem rangeDynArm_tracks (f : W → ι → Int → Int → Value → W) (sig : SigId) (hi lo v : RegId) :
    Tracks old new (rangeDynArm H D f sig hi lo v)
      (rangeDynArm H D f sig (swapReg old new hi) (swapReg old new lo) (swapReg old new v)) := by
  refine .read hi fun h => .read lo fun l => ?_
  -- Both bounds have to be indices before the value is read.
  cases H.toIndex h with
  | none => exact .refl _
  | some x =>
    cases H.toIndex l with
    | none => exact .refl _
    | some y =>
      refine .after (fun vm => rfl) fun dropped => ?_
      cases dropped with
      | true => exact .refl _
      | false => exact .read v fun _ => .refl _

theorem bitDynArm_tracks (f : W → ι → Nat → Value → W) (sig : SigId) (idx v : RegId) :
    Tracks old new (bitDynArm H D f sig idx v)
      (bitDynArm H D f sig (swapReg old new idx) (swapReg old new v)) := by
  refine .read idx fun iv => ?_
  cases H.dynBitIndex iv with
  | none => exact .refl _
  | some i => exact .read v fun _ => .refl _

/-- A move of one of the two registers onto the other leaves what is there; a register is moved onto itself in neither
stream's run, or in the second one's only. -/
theorem moveArm_tracks (d s : RegId) (apart : s = old → d ≠ old) :
    Tracks old new (moveArm d s : Exec ι W Unit) (moveArm d (swapReg old new s)) := by
  -- A move from the copied register reads the copy instead.
  by_cases isOld : s = old
  · subst isOld
    intro vm same
    have other : d ≠ s := apart rfl
    -- The destination may be the copy itself, which then keeps its value.
    by_cases onto : d = new
    · subst onto
      simp [moveArm, swapReg, other, readReg, writeReg, same]
    · simp [moveArm, swapReg, other, onto, readReg, writeReg, same]
  · rw [swapReg, if_neg isOld]
    exact .refl _

theorem replicateArm_tracks (d s : RegId) (n : Nat) :
    Tracks old new (replicateArm H d s n : Exec ι W Unit) (replicateArm H d (swapReg old new s) n) := by
  by_cases none : n = 0
  · simp only [replicateArm, if_pos none]
    exact .refl _
  · by_cases one : n = 1
    · -- One copy is a move, and may be one onto either of the two registers.
      simp only [replicateArm, if_neg none, if_pos one]
      by_cases isOld : s = old
      · subst isOld
        intro vm same
        by_cases onOld : d = s
        · subst onOld
          by_cases sameReg : d = new <;> simp [swapReg, sameReg, readReg, writeReg, ← same]
        · by_cases onto : d = new
          · subst onto
            simp [swapReg, onOld, readReg, writeReg, same]
          · simp [swapReg, onOld, onto, readReg, writeReg, same]
      · rw [swapReg, if_neg isOld]
        exact .refl _
    · simp only [replicateArm, if_neg none, if_neg one]
      exact .read s fun _ => .refl _

theorem selectPick_tracks (d c t e : RegId) : Tracks old new (selectPick H d c t e : Exec ι W Unit)
    (selectPick H d (swapReg old new c) (swapReg old new t) (swapReg old new e)) := by
  refine .read c fun cv => ?_
  -- An unknown condition reads both branches, and a known one reads its own.
  by_cases unknown : H.hasUnknown cv = true
  · simp only [if_pos unknown]
    exact .read t fun _ => .read e fun _ => .refl _
  · simp only [if_neg unknown]
    by_cases holds : H.isTrue cv = true
    · simp only [if_pos holds]
      exact .read t fun _ => .refl _
    · simp only [if_neg holds]
      exact .read e fun _ => .refl _

/-- A select whose branches are one register, or neither of the two, widens neither of the two. -/
theorem selectArm_tracks (d c t e : RegId)
    (apart : t = e ∨ (old ≠ t ∧ old ≠ e) ∧ new ≠ t ∧ new ≠ e) :
    Tracks old new (selectArm H d c t e : Exec ι W Unit)
      (selectArm H d (swapReg old new c) (swapReg old new t) (swapReg old new e)) := by
  rcases apart with rfl | ⟨⟨oldT, oldE⟩, newT, newE⟩
  · -- Nothing is widened.
    intro vm same
    have picked := selectPick_tracks (H := H) d c t t vm same
    simpa [selectArm, selectWiden_same] using picked
  · have pick : Tracks old new (selectPick H d c t e : Exec ι W Unit) (selectPick H d (swapReg old new c)
        (swapReg old new t) (swapReg old new e)) := selectPick_tracks d c t e
    have keptT : swapReg old new t = t := if_neg (Ne.symm oldT)
    have keptE : swapReg old new e = e := if_neg (Ne.symm oldE)
    rw [keptT, keptE] at pick ⊢
    refine .bind (.refl _) (fun vm same => ?_) fun _ => pick
    have frame (r : RegId) (apartT : r ≠ t) (apartE : r ≠ e) :
        (selectWiden H t e vm : Outcome (Vm W) (Access ι) Unit).state.regs r = vm.regs r :=
      (selectWiden_honest t e).frame vm r fun written => by
        have logged := (selectWiden_logs (P := fun a => a = .readReg t ∨ a = .readReg e ∨ a = .writeReg t ∨ a =
          .writeReg e)
          (H := H) (by simp) (by simp) vm).1 _ (regCells_writtenIn.mp written)
        simp [apartT, apartE] at logged
    rw [frame old oldT oldE, frame new newT newE, same]

theorem loadArrayElemArm_tracks (d : RegId) (array : ArrayOperand) (idx : RegId) :
    Tracks old new (loadArrayElemArm H D d array idx) (loadArrayElemArm H D d array (swapReg old new idx)) :=
  .read idx fun _ => .refl _

/-- Registers read one after the other, each as the register in its place. -/
theorem readAll_tracks (regs : List RegId) {f f' : List Value → Exec ι W β}
    (rest : ∀ vs, Tracks old new (f vs) (f' vs)) :
    Tracks old new (regs.mapM readReg >>= f) ((regs.map (swapReg old new)).mapM readReg >>= f') := by
  induction regs generalizing f f' with
  | nil => simpa using rest []
  | cons r regs ih =>
    simp only [List.map_cons, List.mapM_cons, bind_assoc, pure_bind]
    exact .read r fun v => ih fun vs => rest (v :: vs)

end Tracking

section Replacing

variable {H : Host Stmt Expr ι W} {D : Numbering ι} {old new : RegId} {insn insn' : Insn Stmt Expr}

/-- An instruction with one register read for another does the same where the two hold the same, unless it widens or
copies onto itself one of them. -/
theorem replaceReadReg_tracks (H : Host Stmt Expr ι W) (D : Numbering ι) (pc : Nat)
    (replaced : insn.replaceReadReg old new = some insn') (notSelf : insn ≠ .move old old)
    (clear : ¬ insn.UnreportedWrite old) (clear' : ¬ insn.UnreportedWrite new) :
    Tracks old new (execInsn H D pc insn) (execInsn H D pc insn') := by
  cases insn with
  | add d l r | sub d l r | mul d l r | div d l r | mod d l r | bitAnd d l r | bitOr d l r | bitXor d l r
  | bitXnor d l r | logAnd d l r | logOr d l r | eq d l r | neq d l r | caseEq d l r | casezEq d l r
  | casexEq d l r | lt d l r | leq d l r | gt d l r | geq d l r | shl d l r | shr d l r | aShr d l r | pow d l r =>
    cases replaced
    exact (binArm_tracks _ d l r).fall
  | bitNot d s | negate d s | logNot d s | reduceAnd d s | reduceOr d s | reduceXor d s | moveResize d s _
  | binOpConst d s _ _ | bitSelectConst d s _ | rangeSelectConst d s _ _ | caseLut d s _ =>
    cases replaced
    exact (unArm_tracks _ d s).fall
  -- Branches.
  | cmpBranch kind l r tmp t =>
    cases replaced
    exact .read l fun _ => .read r fun _ => .refl _
  | caseJump s cj | caseMaskJump s mj | branchIfFalse s t | branchUnlessZero s t | cmpBranchConst kind s k tmp t
  | waitDelayReg s =>
    cases replaced
    exact .read s fun _ => .refl _
  -- Selects.
  | bitSelect d b i =>
    cases replaced
    refine .fall (.read i fun iv => ?_)
    cases (H.toIndex iv).filter (0 ≤ ·) with
    | none => exact .refl _
    | some n => exact .read b fun _ => .refl _
  | rangeSelect d b l r =>
    cases replaced
    refine .fall (.read l fun av => .read r fun bv => ?_)
    cases H.toIndex av with
    | none => exact .refl _
    | some x =>
      cases H.toIndex bv with
      | none => exact .refl _
      | some y => exact .read b fun _ => .refl _
  | rangeSelectW d b i w up =>
    cases replaced
    refine .fall (.read i fun iv => ?_)
    cases H.toIndex iv with
    | none => exact .refl _
    | some n => exact .read b fun _ => .refl _
  | select d c t e =>
    cases replaced
    refine (selectArm_tracks d c t e ?_).fall
    by_cases same : t = e
    · exact .inl same
    · refine .inr ?_
      simpa [Insn.UnreportedWrite, same] using And.intro clear clear'
  | loadSignalRangeDyn d sig lo w =>
    cases replaced
    exact .fall (.read lo fun _ => .refl _)
  | loadArrayElem d array i =>
    cases replaced
    exact (loadArrayElemArm_tracks d array i).fall
  -- Moves and copies.
  | move d s =>
    cases replaced
    refine (moveArm_tracks d s fun isOld onOld => notSelf ?_).fall
    rw [isOld, onOld]
  | replicate d s n =>
    cases replaced
    exact (replicateArm_tracks d s n).fall
  | concat d parts =>
    cases replaced
    exact .fall (readAll_tracks parts fun _ => .refl _)
  -- Stores.
  | nbaAssign sig v w | blockingAssignRange sig hi lo v =>
    cases replaced
    exact (storeSigArm_tracks _ sig v).fall
  | nbaAssignRange sig hi lo v | blockingAssign sig v w | blockingAssignString sig v =>
    cases replaced
    refine .fall (.after (fun _ => rfl) fun skipped => ?_)
    cases skipped with
    | true => exact .refl _
    | false => exact storeSigArm_tracks _ sig v
  | nbaAssignRangeDyn sig hi lo v | blockingAssignRangeDyn sig hi lo v =>
    cases replaced
    exact (rangeDynArm_tracks _ sig hi lo v).fall
  | nbaAssignBitDyn sig i v | blockingAssignBitDyn sig i v =>
    cases replaced
    exact (bitDynArm_tracks _ sig i v).fall
  | nbaAssignArray array i v w | blockingAssignArray array i v w =>
    cases replaced
    exact (storeElemArm_tracks array i fun eid => storeSigArm_tracks _ eid v).fall
  | nbaAssignArrayRange array i hi lo v | blockingAssignArrayRange array i hi lo v =>
    cases replaced
    exact (storeElemArm_tracks array i fun eid => elemRangeArm_tracks _ hi lo v eid).fall
  -- No other instruction is changed.
  | _ =>
    simp only [Insn.replaceReadReg] at replaced
    split at replaced
    · cases replaced
    · cases replaced
      exact .refl _

/-- A replaced read changes neither what the instruction writes nor where it goes. -/
theorem replaceReadReg_keeps (replaced : insn.replaceReadReg old new = some insn') :
    insn'.destReg = insn.destReg ∧ insn'.inPlaceReg = insn.inPlaceReg ∧
      insn'.isOpaqueInsn = insn.isOpaqueInsn ∧ insn'.targets = insn.targets := by
  -- Only the operands are renamed, never the destination or the targets.
  cases insn <;> first
    | cases replaced
      exact ⟨rfl, rfl, rfl, rfl⟩
    | simp only [Insn.replaceReadReg] at replaced
      split at replaced
      · cases replaced
      · cases replaced
        exact ⟨rfl, rfl, rfl, rfl⟩

theorem swapReg_ne (apart : old ≠ new) (r : RegId) : swapReg old new r ≠ old := by
  unfold swapReg
  split
  · exact Ne.symm apart
  · assumption

/-- What was replaced is read no more. -/
theorem replaceReadReg_unread (replaced : insn.replaceReadReg old new = some insn') (apart : old ≠ new) :
    insn'.insnReadsReg old = false := by
  -- Every operand that was the old register is the new one now.
  have gone (r : RegId) : old ≠ swapReg old new r := (swapReg_ne apart r).symm
  cases insn <;> first
    | cases replaced
      simp [Insn.insnReadsReg, Insn.insnReadRegs, gone, swapReg_ne apart]
    | simp only [Insn.replaceReadReg] at replaced
      split at replaced
      · cases replaced
      · rename_i unread
        cases replaced
        exact Bool.eq_false_of_not_eq_true unread

/-- Nor does it change the writes that are not reported, if the register is none of them. -/
theorem replaceReadReg_unreported (replaced : insn.replaceReadReg old new = some insn')
    (clear : ¬ insn.UnreportedWrite old) (q : RegId) : insn'.UnreportedWrite q ↔ insn.UnreportedWrite q := by
  -- A select writes a register that it does not report only where its branches differ.
  cases insn with
  | select d c t e =>
    cases replaced
    by_cases same : t = e
    · simp [Insn.UnreportedWrite, same]
    · have apart : old ≠ t ∧ old ≠ e := by simpa [Insn.UnreportedWrite, same] using clear
      simp [Insn.UnreportedWrite, swapReg, Ne.symm apart.1, Ne.symm apart.2]
  | _ => first
    | cases replaced
      exact Iff.rfl
    | simp only [Insn.replaceReadReg] at replaced
      split at replaced
      · cases replaced
      · cases replaced
        exact Iff.rfl

/-- A move among the replaced instructions was one, onto the same register. -/
theorem replaceReadReg_move {d s' : RegId} (replaced : insn.replaceReadReg old new = some (.move d s')) :
    ∃ s, insn = .move d s ∧ s' = swapReg old new s := by
  -- Renaming makes no move of another instruction.
  cases insn <;> first
    | cases replaced
      exact ⟨_, rfl, rfl⟩
    | cases replaced
    | simp only [Insn.replaceReadReg] at replaced
      split at replaced
      · cases replaced
      · cases replaced

/-- A fused branch among them was one. -/
theorem replaceReadReg_fused {kind : CmpKind} {a b tmp : RegId} {t : Nat}
    (replaced : insn.replaceReadReg old new = some (.cmpBranch kind a b tmp t)) :
    ∃ a' b', insn = .cmpBranch kind a' b' tmp t := by
  -- Renaming makes no fused branch of another instruction.
  cases insn <;> first
    | cases replaced
      exact ⟨_, _, rfl⟩
    | cases replaced
    | simp only [Insn.replaceReadReg] at replaced
      split at replaced
      · cases replaced
      · cases replaced

end Replacing

section Site

variable {H : Host Stmt Expr ι W} {D : Numbering ι} {isTarget : Nat → Bool} {insns : List (Insn Stmt Expr)}
  {i j : Nat} {md ms : RegId} {escaped : Bool} {insn insn' : Insn Stmt Expr}

/-- No instruction writes a register of a copy beyond what is reported of it: no select widens one, no load of a class
or a collection goes into one, and no store to a collection settles beside a copy. -/
def CopiesReported (insns : List (Insn Stmt Expr)) : Prop :=
  ∀ md ms, .move md ms ∈ insns → md ≠ ms → ∀ insn ∈ insns, ¬ insn.UnreportedWrite md ∧ ¬ insn.UnreportedWrite ms

/-- What the pass keeps: the map covers the targets, no fused branch stands in the stream, and the writes of the copies'
registers are reported. -/
structure Forwarding (isTarget : Nat → Bool) (insns : List (Insn Stmt Expr)) : Prop where
  mapped : Mapped isTarget insns
  unfused : Unfused insns
  reported : CopiesReported insns

/-- An instruction that leaves both registers of a copy alone, and exports neither. -/
structure Untouched (md ms : RegId) (insn : Insn Stmt Expr) : Prop where
  notOpaque : insn.isOpaqueInsn = false
  notInPlace : insn.inPlaceReg ≠ some md ∧ insn.inPlaceReg ≠ some ms
  notDest : insn.destReg ≠ some md ∧ insn.destReg ≠ some ms
  notSelf : insn ≠ .move md md

/-- The run after a copy up to a position: nothing enters it, nothing in it touches the copy's registers or reads the
copy any more, and nothing leaves it before it has escaped. -/
structure CopyRun (isTarget : Nat → Bool) (insns : List (Insn Stmt Expr)) (i j : Nat) (md ms : RegId) (escaped : Bool) :
    Prop where
  copy : insns[i]? = some (.move md ms)
  apart : md ≠ ms
  lt : i < j
  interior : ∀ p, i < p → p < j → isTarget p = false ∧ ∃ insn, insns[p]? = some insn ∧ Untouched md ms insn ∧
    insn.insnReadsReg md = false ∧ (escaped = false → insn.targets = [])

/-- An instruction that is neither a branch nor a jump names no target. -/
theorem Insn.targets_of_straight (notBranch : insn.isBranch = false) (notJump : insn.isJump ≠ true) :
    insn.targets = [] := by
  cases insn <;> first
    | rfl
    | exact absurd rfl notJump
    | exact absurd notBranch (by simp [isBranch])

theorem endsCopy_false (goesOn : endsCopy md ms insn = false) : insn.isOpaqueInsn = false ∧
    (insn.inPlaceReg ≠ some md ∧ insn.inPlaceReg ≠ some ms) ∧ insn ≠ .move md md := by
  simp only [endsCopy, Bool.or_eq_false_iff, beq_eq_false_iff_ne] at goesOn
  obtain ⟨⟨⟨notOpaque, notMd⟩, notMs⟩, notSelf⟩ := goesOn
  refine ⟨notOpaque, ⟨notMd, notMs⟩, fun self => ?_⟩
  rw [self] at notSelf
  simp [Insn.isSelfMove] at notSelf

/-- What a replaced instruction keeps of the one it comes from. -/
theorem forwardRead_keeps (read : forwardRead md ms insn = some insn') (apart : md ≠ ms) :
    insn'.destReg = insn.destReg ∧ insn'.inPlaceReg = insn.inPlaceReg ∧
      insn'.isOpaqueInsn = insn.isOpaqueInsn ∧ insn'.targets = insn.targets ∧ insn'.insnReadsReg md = false := by
  unfold forwardRead at read
  split at read
  · obtain ⟨dest, inPlace, isOpaque, targets⟩ := replaceReadReg_keeps read
    exact ⟨dest, inPlace, isOpaque, targets, replaceReadReg_unread read apart⟩
  · rename_i unread
    cases read
    exact ⟨rfl, rfl, rfl, rfl, Bool.eq_false_of_not_eq_true unread⟩

/-- What the pass needs is kept. -/
theorem Forwarding.set_read (good : Forwarding isTarget insns) (copy : insns[i]? = some (.move md ms))
    (apart : md ≠ ms) (held : insns[j]? = some insn) (notSelf : insn ≠ .move md md)
    (read : forwardRead md ms insn = some insn') : Forwarding isTarget (insns.set j insn') := by
  have there : insn ∈ insns := List.mem_of_getElem? held
  have clear := good.reported md ms (List.mem_of_getElem? copy) apart
  unfold forwardRead at read
  split at read
  · have unreported := replaceReadReg_unreported read (clear insn there).1
    refine ⟨good.mapped.set ?_, good.unfused.set ?_, ?_⟩
    · rw [(replaceReadReg_keeps read).2.2.2]
      exact fun t named inside => good.mapped.held held named inside
    · rintro kind a b tmp t rfl
      obtain ⟨a', b', fused⟩ := replaceReadReg_fused read
      exact good.unfused insn there kind a' b' tmp t fused
    · -- A copy in the new stream is one of the old one, or copies the same register's source.
      rintro d s member other x xMember
      obtain ⟨y, yMember, same⟩ : ∃ y ∈ insns, ∀ q, x.UnreportedWrite q ↔ y.UnreportedWrite q := by
        rcases List.mem_or_eq_of_mem_set xMember with old | rfl
        · exact ⟨x, old, fun _ => Iff.rfl⟩
        · exact ⟨insn, there, unreported⟩
      rw [same, same]
      rcases List.mem_or_eq_of_mem_set member with old | fresh
      · exact good.reported d s old other y yMember
      · rw [← fresh] at read
        obtain ⟨s', rfl, rfl⟩ := replaceReadReg_move read
        by_cases wasMd : s' = md
        · have notMd : d ≠ md := by
            rintro rfl
            exact notSelf (by rw [wasMd])
          have source := good.reported d s' there (by rw [wasMd]; exact notMd) y yMember
          rw [swapReg, if_pos wasMd]
          exact ⟨source.1, (clear y yMember).2⟩
        · rw [swapReg, if_neg wasMd] at other ⊢
          exact good.reported d s' there other y yMember
  · -- Nothing was replaced.
    cases read
    obtain ⟨inside, same⟩ := List.getElem?_eq_some_iff.mp held
    rw [← same, List.set_getElem_self]
    exact good

/-- Along the run after a copy the two registers hold the same, and the copy's register is not exported. -/
theorem CopyRun.holds (good : Forwarding isTarget insns) (run : CopyRun isTarget insns i j md ms escaped)
    (free : isTarget j = false) (inside : j < insns.length) {here next : Run W}
    (same : i < here.pc → here.pc ≤ j → here.vm.regs md = here.vm.regs ms ∧ ¬ here.exported md)
    (went : blockStep H D insns here = .inl next) (later : i < next.pc) (le : next.pc ≤ j) :
    next.vm.regs md = next.vm.regs ms ∧ ¬ next.exported md := by
  obtain ⟨insn, held, leads, regs, marks⟩ := blockStep_goes went
  have closed (k : Nat) (after : i < k) (before : k ≤ j) : isTarget k = false := by
    rcases Nat.lt_or_eq_of_le before with below | rfl
    · exact (run.interior k after below).1
    · exact free
  -- The run is entered from the copy only, and goes on from one position to the next.
  have falls : next.pc = here.pc + 1 := by
    rcases Insn.succs_targets leads with falls | named
    · exact falls
    · have target := good.mapped.held held named (by omega)
      simp [closed next.pc later le] at target
  rcases Nat.eq_or_lt_of_le (show i ≤ here.pc by omega) with atCopy | after
  · obtain rfl : insn = .move md ms := by
      have copy := run.copy
      rw [atCopy, held] at copy
      simpa using copy
    have moved := (move_computes (H := H) (D := D) run.apart).blockStep here held
    rw [moved] at went
    cases went
    simp [Run.put, Vm.put_other _ _ run.apart.symm]
  · -- Any other instruction of the run leaves both registers alone.
    obtain ⟨-, other, there, untouched, -, -⟩ := run.interior here.pc after (by omega)
    obtain rfl : insn = other := by simpa [held] using there
    obtain ⟨equal, notExported⟩ := same after (by omega)
    have clear := good.reported md ms (List.mem_of_getElem? run.copy) run.apart insn (List.mem_of_getElem? held)
    have keptMd := execInsn_frame H D here.pc here.vm untouched.notDest.1 untouched.notInPlace.1 untouched.notOpaque
      clear.1
    have keptMs := execInsn_frame H D here.pc here.vm untouched.notDest.2 untouched.notInPlace.2 untouched.notOpaque
      clear.2
    rw [regs, marks, keptMd.2, keptMs.2]
    refine ⟨equal, ?_⟩
    rintro (self | before)
    · exact untouched.notSelf self
    · exact notExported before.1

/-- A read replaced in the run after a copy. -/
theorem CopyRun.replace (H : Host Stmt Expr ι W) (D : Numbering ι) (good : Forwarding isTarget insns)
    (run : CopyRun isTarget insns i j md ms escaped) (free : isTarget j = false) (held : insns[j]? = some insn)
    (notSelf : insn ≠ .move md md) (read : forwardRead md ms insn = some insn') :
    StandsFor H D (insns.set j insn') insns := by
  have inside : j < insns.length := (List.getElem?_eq_some_iff.mp held).1
  refine .of_facts (fun here => i < here.pc → here.pc ≤ j → here.vm.regs md = here.vm.regs ms ∧ ¬ here.exported md)
    (fun vm waits later _ => absurd later (Nat.not_lt_zero i))
    (fun here next same went later le => run.holds good free inside same went later le) fun here same => ?_
  by_cases atJ : here.pc = j
  · -- The replaced instruction does the same, as the two registers hold the same there.
    refine .inr ⟨insn, insn', by rw [atJ, held], by rw [atJ, List.getElem?_set_self inside], ?_⟩
    obtain ⟨equal, notExported⟩ := same (by rw [atJ]; exact run.lt) (Nat.le_of_eq atJ)
    have clear := good.reported md ms (List.mem_of_getElem? run.copy) run.apart insn (List.mem_of_getElem? held)
    unfold forwardRead at read
    split at read
    · rename_i reads
      obtain ⟨value, state, writes⟩ := replaceReadReg_tracks H D here.pc read notSelf clear.1 clear.2 here.vm equal
      refine ⟨value, state, fun r exported => ?_⟩
      rcases exported with self | ⟨before, unwritten⟩
      · -- A copy onto itself of another register does not read the copy's.
        rw [self] at reads notSelf
        obtain rfl : md = r := by simpa [Insn.insnReadsReg, Insn.insnReadRegs] using reads
        exact absurd rfl notSelf
      · refine .inr ⟨before, fun written => unwritten (writes r ?_ written)⟩
        rintro rfl
        exact notExported before
    · cases read
      exact .refl _
  · cases there : insns[here.pc]? with
    | none => exact .inl ⟨rfl, by rw [List.getElem?_set_ne (Ne.symm atJ), there]⟩
    | some x => exact .inr ⟨x, x, rfl, by rw [List.getElem?_set_ne (Ne.symm atJ), there], .refl _⟩

/-- One position further on. -/
theorem CopyRun.extend (run : CopyRun isTarget insns i j md ms escaped) (free : isTarget j = false)
    (held : insns[j]? = some insn) (goesOn : endsCopy md ms insn = false)
    (read : forwardRead md ms insn = some insn') (notMd : insn'.destReg ≠ some md)
    (notMs : ¬ (insn'.destReg = some ms ∨ insn'.isJump = true)) :
    CopyRun isTarget (insns.set j insn') i (j + 1) md ms (escaped || insn'.isBranch) := by
  have inside : j < insns.length := (List.getElem?_eq_some_iff.mp held).1
  obtain ⟨dest, inPlace, isOpaque, targets, unread⟩ := forwardRead_keeps read run.apart
  obtain ⟨notOpaque, notInPlace, notSelf⟩ := endsCopy_false goesOn
  have lt := run.lt
  refine ⟨?_, run.apart, Nat.lt_succ_of_lt lt, fun p after below => ?_⟩
  · rw [List.getElem?_set_ne (by omega)]
    exact run.copy
  · rcases Nat.lt_or_eq_of_le (Nat.le_of_lt_succ below) with before | rfl
    · obtain ⟨closed, x, there, untouched, silent, straight⟩ := run.interior p after before
      refine ⟨closed, x, ?_, untouched, silent, fun stays => straight (Bool.or_eq_false_iff.mp stays).1⟩
      rwa [List.getElem?_set_ne (by omega)]
    · refine ⟨free, insn', List.getElem?_set_self inside, ⟨by rw [isOpaque, notOpaque],
        by rw [inPlace]; exact notInPlace, ⟨notMd, fun isMs => notMs (.inl isMs)⟩, ?_⟩, unread, fun stays => ?_⟩
      · -- A copy onto itself would read the copy's register.
        rintro rfl
        simp [Insn.insnReadsReg, Insn.insnReadRegs] at unread
      · have notBranch := (Bool.or_eq_false_iff.mp stays).2
        have notJump : insn'.isJump ≠ true := fun isJump => notMs (.inr isJump)
        exact Insn.targets_of_straight notBranch notJump

/-- The copy's register is overwritten further on, before anything could leave the run or read it. -/
def Buried (insns : List (Insn Stmt Expr)) (i : Nat) (md : RegId) : Prop :=
  ∃ last, i < last ∧ ∀ p, i < p → p ≤ last → ∃ insn, insns[p]? = some insn ∧ insn.insnReadsReg md = false ∧
    ((p < last ∧ insn.targets = []) ∨ p = last ∧ insn.Overwrites md)

/-- The run after a copy: the rewritten stream stands for the other one, holds the copy still, and where the run says
so the copy is buried. -/
theorem forwardRun_spec (H : Host Stmt Expr ι W) (D : Numbering ι) (good : Forwarding isTarget insns)
    (run : CopyRun isTarget insns i j md ms escaped) :
    StandsFor H D (forwardRun isTarget md ms insns j escaped).1 insns ∧
      Forwarding isTarget (forwardRun isTarget md ms insns j escaped).1 ∧
      (forwardRun isTarget md ms insns j escaped).1[i]? = some (.move md ms) ∧
      ((forwardRun isTarget md ms insns j escaped).2 = true →
        Buried (forwardRun isTarget md ms insns j escaped).1 i md) := by
  fun_induction forwardRun isTarget md ms insns j escaped with
  | case1 insns j escaped outside => exact ⟨.refl, good, run.copy, by simp⟩
  | case2 insns j escaped insn held stops => exact ⟨.refl, good, run.copy, by simp⟩
  | case3 insns j escaped insn held stops unknown => exact ⟨.refl, good, run.copy, by simp⟩
  | case4 insns j escaped insn held goesOn insn' read dest =>
    -- The copy's register is overwritten here.
    obtain ⟨free, goesOn⟩ := Bool.or_eq_false_iff.mp (Bool.eq_false_of_not_eq_true goesOn)
    have notSelf := (endsCopy_false goesOn).2.2
    have lt := run.lt
    have inside : j < insns.length := (List.getElem?_eq_some_iff.mp held).1
    have kept := good.set_read run.copy run.apart held notSelf read
    refine ⟨run.replace H D good free held notSelf read, kept, ?_, fun buried => ?_⟩
    · rw [List.getElem?_set_ne (by omega)]
      exact run.copy
    · refine ⟨j, lt, fun p after le => ?_⟩
      rcases Nat.lt_or_eq_of_le le with below | rfl
      · obtain ⟨-, x, there, -, silent, straight⟩ := run.interior p after below
        refine ⟨x, by rwa [List.getElem?_set_ne (by omega)], silent, .inl ⟨below, straight ?_⟩⟩
        simpa using buried
      · refine ⟨insn', List.getElem?_set_self inside, (forwardRead_keeps read run.apart).2.2.2.2, .inr ⟨rfl, dest, ?_⟩⟩
        intro kind a b tmp t fused
        exact kept.unfused insn' (List.mem_of_getElem? (List.getElem?_set_self inside)) kind a b tmp t fused
  | case5 insns j escaped insn held goesOn insn' read notMd ends =>
    obtain ⟨free, goesOn⟩ := Bool.or_eq_false_iff.mp (Bool.eq_false_of_not_eq_true goesOn)
    have notSelf := (endsCopy_false goesOn).2.2
    have lt := run.lt
    refine ⟨run.replace H D good free held notSelf read, good.set_read run.copy run.apart held notSelf read, ?_,
      by simp⟩
    rw [List.getElem?_set_ne (by omega)]
    exact run.copy
  | case6 insns j escaped insn held goesOn insn' read notMd notMs ih =>
    obtain ⟨free, goesOn⟩ := Bool.or_eq_false_iff.mp (Bool.eq_false_of_not_eq_true goesOn)
    have notSelf := (endsCopy_false goesOn).2.2
    obtain ⟨stands, rest⟩ := ih (good.set_read run.copy run.apart held notSelf read)
      (run.extend free held goesOn read notMd notMs)
    exact ⟨stands.trans (run.replace H D good free held notSelf read), rest⟩

/-- Taking the copy away, where its register is dead after it. -/
theorem dropCopy_standsFor (H : Host Stmt Expr ι W) (D : Numbering ι) (good : Forwarding isTarget insns)
    (copy : insns[i]? = some (.move md ms)) (apart : md ≠ ms)
    (dead : Buried insns i md ∨ ∀ p insn, p ≠ i → insns[p]? = some insn → insn.insnReadsReg md = false) :
    StandsFor H D (insns.set i .nop) insns := by
  have inside : i < insns.length := (List.getElem?_eq_some_iff.mp copy).1
  -- Where the register is dead: up to where it is overwritten, or everywhere.
  obtain ⟨deadAt, away, after⟩ : ∃ deadAt : Nat → Prop, DeadAway insns i i (fun p r => r = md ∧ deadAt p) ∧
      deadAt (i + 1) := by
    rcases dead with ⟨last, lt, upTo⟩ | unread
    · refine ⟨fun p => i < p ∧ p ≤ last, ?_, Nat.lt_succ_self i, lt⟩
      rintro p insn - held r ⟨rfl, after, le⟩
      obtain ⟨x, there, silent, ends⟩ := upTo p after le
      obtain rfl : insn = x := by simpa [held] using there
      refine ⟨silent, fun t next => ?_⟩
      rcases ends with ⟨below, straight⟩ | ⟨-, overwrites⟩
      · rcases Insn.succs_targets next with rfl | named
        · exact .inl ⟨rfl, by omega, by omega⟩
        · simp [straight] at named
      · exact .inr overwrites
    · refine ⟨fun _ => True, ?_, trivial⟩
      rintro p insn away held r ⟨rfl, -⟩
      exact ⟨unread p insn (by omega) held, fun _ _ => .inl ⟨rfl, trivial⟩⟩
  refine .of_site i i good.mapped (fun k later le => by omega) inside
    (fun p away => List.getElem?_set_ne (by omega)) away fun run run' here alike => ?_
  subst here
  have step := (move_computes (H := H) (D := D) apart).blockStep run copy
  have emptied : (insns.set run.pc .nop)[run'.pc]? = some .nop := by
    rw [alike.pc]
    exact List.getElem?_set_self inside
  have step' := blockStep_nop (H := H) (D := D) run' emptied
  refine .on (.one step) (.one step') ⟨.inr (Nat.lt_succ_self _), ?_⟩
  have moved : Alike (· = md) (run.put md (run.vm.regs ms)) (run'.moveTo (run'.pc + 1)) :=
    (alike.mono fun r isDead => isDead.1).putLeft rfl
  exact moved.mono fun r isMd => ⟨isMd, after⟩

/-- Emptying a place keeps what the pass needs. -/
theorem Forwarding.set_nop (good : Forwarding isTarget insns) (k : Nat) : Forwarding isTarget (insns.set k .nop) := by
  refine ⟨good.mapped.set (by simp [Insn.targets]), good.unfused.set (by simp), ?_⟩
  intro md ms member apart x xMember
  rcases List.mem_or_eq_of_mem_set member with before | fresh
  · rcases List.mem_or_eq_of_mem_set xMember with old | rfl
    · exact good.reported md ms before apart x old
    · simp [Insn.UnreportedWrite]
  · cases fresh

/-- One position of the pass keeps what it needs, and the runs. -/
theorem forwardCopyAt_standsFor (insns : List (Insn Stmt Expr)) (i : Nat) (good : Forwarding isTarget insns) :
    Forwarding isTarget (forwardCopyAt isTarget insns i) ∧ StandsFor H D (forwardCopyAt isTarget insns i) insns := by
  unfold forwardCopyAt
  split
  · -- A copy of a register onto itself is left where it is.
    rename_i md ms copy
    split
    · exact ⟨good, .refl⟩
    · rename_i apart
      have fresh : CopyRun isTarget insns i (i + 1) md ms false :=
        ⟨copy, apart, Nat.lt_succ_self i, fun p after below => by omega⟩
      -- The reads after the copy are forwarded one by one.
      obtain ⟨stands, kept, copied, buried⟩ := forwardRun_spec H D good fresh
      generalize forwardRun isTarget md ms insns (i + 1) false = found at stands kept copied buried
      dsimp only
      split
      · exact ⟨kept, stands⟩
      · -- No read of the copied register is left, so the copy itself can go.
        rename_i gone
        refine ⟨kept.set_nop i, (dropCopy_standsFor H D kept copied apart ?_).trans stands⟩
        by_cases isBuried : found.2 = true
        · exact .inl (buried isBuried)
        · refine .inr fun p insn other held => ?_
          -- The scan found no other read of it.
          by_contra reads
          refine gone ?_
          simp only [isBuried, Bool.not_false, Bool.true_and]
          refine List.any_eq_true.mpr ⟨(insn, p), List.mem_zipIdx_iff_getElem?.mpr held, ?_⟩
          simpa [other] using reads
  · exact ⟨good, .refl⟩

end Site

/-- Reads of copies forwarded to what was copied, and the copies nothing reads any more taken away: the rewritten stream
stands for the one it comes from, where no fused branch is in it yet and the writes of the copies' registers are
reported. -/
theorem forwardCopies_standsFor (H : Host Stmt Expr ι W) (D : Numbering ι) {insns : List (Insn Stmt Expr)}
    (unfused : Unfused insns) (reported : CopiesReported insns) : StandsFor H D (forwardCopies insns) insns :=
  (StandsFor.foldl id (Forwarding (branchTargetMap insns)) forwardCopyAt_standsFor _
    ⟨branchTargetMap_mapped insns, unfused, reported⟩).2

/-- A copy is added to itself and the sum stored. -/
theorem forwardCopies_standsFor_add : StandsFor (default : Host Unit Unit Unit Unit) noSignals
    (forwardCopies [.move 1 0, .add 2 1 1, .nbaAssign 0 2 8]) [.move 1 0, .add 2 1 1, .nbaAssign 0 2 8] :=
  forwardCopies_standsFor default noSignals (by simp [Unfused]) (by simp [CopiesReported, Insn.UnreportedWrite])

end Xezim.Bytecode
