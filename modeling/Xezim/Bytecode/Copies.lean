import Xezim.Bytecode.Peephole

/-! Copies of registers taken away at their producer, or at the assignment that stores them. -/

namespace Xezim.Bytecode

open Lockstep Traced

open Arrays (ArrayOperand resolveBytecodeArrayElem bytecodeArrayFirstId)

variable {Stmt Expr ι W : Type}

namespace Insn

/-- The destination of an instruction that only produces it. -/
def producerDest : Insn Stmt Expr → Option RegId
  | loadConst d _ | loadSignal d _ | loadSignalSigned d _ | loadSignalBit d _ _ | loadSignalRange d _ _ _
  | loadArrayElem d _ _ | add d _ _ | sub d _ _ | mul d _ _ | bitAnd d _ _ | bitOr d _ _ | bitXor d _ _
  | bitXnor d _ _ | bitNot d _ | negate d _ | logAnd d _ _ | logOr d _ _ | logNot d _ | eq d _ _ | neq d _ _
  | caseEq d _ _ | casezEq d _ _ | casexEq d _ _ | lt d _ _ | leq d _ _ | gt d _ _ | geq d _ _ | shl d _ _
  | shr d _ _ | aShr d _ _ | reduceAnd d _ | reduceOr d _ | reduceXor d _ | select d _ _ _ | concat d _
  | replicate d _ _ | binOpConst d _ _ _ | bitSelect d _ _ | bitSelectConst d _ _ | rangeSelect d _ _ _
  | rangeSelectW d _ _ _ _ | rangeSelectConst d _ _ _ | caseLut d _ _ => some d
  | _ => none

/-- A producer given another destination. -/
def withDest (d : RegId) : Insn Stmt Expr → Insn Stmt Expr
  | loadConst _ k => loadConst d k
  | loadSignal _ s => loadSignal d s
  | loadSignalSigned _ s => loadSignalSigned d s
  | loadSignalBit _ s i => loadSignalBit d s i
  | loadSignalRange _ s l r => loadSignalRange d s l r
  | loadArrayElem _ array i => loadArrayElem d array i
  | add _ l r => add d l r
  | sub _ l r => sub d l r
  | mul _ l r => mul d l r
  | bitAnd _ l r => bitAnd d l r
  | bitOr _ l r => bitOr d l r
  | bitXor _ l r => bitXor d l r
  | bitXnor _ l r => bitXnor d l r
  | bitNot _ s => bitNot d s
  | negate _ s => negate d s
  | logAnd _ l r => logAnd d l r
  | logOr _ l r => logOr d l r
  | logNot _ s => logNot d s
  | eq _ l r => eq d l r
  | neq _ l r => neq d l r
  | caseEq _ l r => caseEq d l r
  | casezEq _ l r => casezEq d l r
  | casexEq _ l r => casexEq d l r
  | lt _ l r => lt d l r
  | leq _ l r => leq d l r
  | gt _ l r => gt d l r
  | geq _ l r => geq d l r
  | shl _ l r => shl d l r
  | shr _ l r => shr d l r
  | aShr _ l r => aShr d l r
  | reduceAnd _ s => reduceAnd d s
  | reduceOr _ s => reduceOr d s
  | reduceXor _ s => reduceXor d s
  | select _ c t e => select d c t e
  | concat _ parts => concat d parts
  | replicate _ s n => replicate d s n
  | binOpConst _ s k kind => binOpConst d s k kind
  | bitSelect _ b i => bitSelect d b i
  | bitSelectConst _ b i => bitSelectConst d b i
  | rangeSelect _ b l r => rangeSelect d b l r
  | rangeSelectW _ b i w up => rangeSelectW d b i w up
  | rangeSelectConst _ b l r => rangeSelectConst d b l r
  | caseLut _ s lut => caseLut d s lut
  | insn => insn

/-- The register whose value an assignment to a whole signal or to a constant range stores. -/
def assignValue : Insn Stmt Expr → Option RegId
  | blockingAssign _ v _ | nbaAssign _ v _ | blockingAssignRange _ _ _ v | nbaAssignRange _ _ _ v => some v
  | _ => none

/-- Such an assignment storing another register. -/
def withAssignValue (v : RegId) : Insn Stmt Expr → Insn Stmt Expr
  | blockingAssign s _ w => blockingAssign s v w
  | nbaAssign s _ w => nbaAssign s v w
  | blockingAssignRange s hi lo _ => blockingAssignRange s hi lo v
  | nbaAssignRange s hi lo _ => nbaAssignRange s hi lo v
  | insn => insn

end Insn

section Passes

/-- `reg_read_after`: some instruction after a position may read the register. -/
def regReadAfter (insns : List (Insn Stmt Expr)) (j : Nat) (r : RegId) : Bool :=
  (insns.drop (j + 1)).any fun insn => insn.insnReadsReg r

/-- The copied register has no other reader than the copy: none further on where all branches go forward, none anywhere
else where one may go back. -/
def onlyCopied (forward : Bool) (insns : List (Insn Stmt Expr)) (i : Nat) (r : RegId) : Bool :=
  if forward then (insns.drop (i + 2)).all fun insn => !insn.insnReadsReg r
  else insns.zipIdx.all fun p => p.2 == i + 1 || !p.1.insnReadsReg r

/-- One position of `propagate_copies`. -/
def propagateCopyAt (isTarget : Nat → Bool) (forward : Bool) (insns : List (Insn Stmt Expr)) (i : Nat) :
    List (Insn Stmt Expr) :=
  match insns[i]?, insns[i + 1]? with
  | some producer, some (.move md ms) =>
    if isTarget (i + 1) || md == ms then insns
    else if producer.insnReadsReg md || producer.insnReadsReg ms then insns
    else if !onlyCopied forward insns i ms then insns
    else if producer.producerDest = some ms then (insns.set i (producer.withDest md)).set (i + 1) .nop
    else insns
  | _, _ => insns

/-- `propagate_copies`. -/
def propagateCopies (insns : List (Insn Stmt Expr)) : List (Insn Stmt Expr) :=
  (List.range (insns.length - 1)).foldl (propagateCopyAt (branchTargetMap insns) (!hasBackwardBranch insns)) insns

/-- One position of `forward_move_into_assign`. -/
def forwardMoveAt (isTarget : Nat → Bool) (insns : List (Insn Stmt Expr)) (i : Nat) : List (Insn Stmt Expr) :=
  match insns[i]? with
  | some (.move d s) =>
    if d = s then insns
    else
      let j := nextReal isTarget insns (i + 1)
      if isTarget j then insns
      else match insns[j]? with
        | none => insns
        | some assign =>
          if assign.assignValue ≠ some d then insns
          else if regReadAfter insns j d then insns
          else (insns.set j (assign.withAssignValue s)).set i .nop
  | _ => insns

/-- `forward_move_into_assign`. -/
def forwardMoveIntoAssign (insns : List (Insn Stmt Expr)) : List (Insn Stmt Expr) :=
  if hasBackwardBranch insns then insns
  else (List.range (insns.length - 1)).foldl (forwardMoveAt (branchTargetMap insns)) insns

end Passes

section Producers

variable {H : Host Stmt Expr ι W} {D : Numbering ι} {insn : Insn Stmt Expr} {d : RegId}

theorem Insn.withDest_self (producer : insn.producerDest = some d) : insn.withDest d = insn := by
  cases insn <;> cases producer <;> rfl

/-- A producer stays one under another destination. -/
theorem Insn.producerDest_withDest (producer : insn.producerDest = some d) (d' : RegId) :
    (insn.withDest d').producerDest = some d' := by
  cases insn <;> cases producer <;> rfl

/-- No producer copies a register onto itself. -/
theorem Insn.ne_move_of_producer (producer : insn.producerDest = some d) (r : RegId) : insn ≠ .move r r := by
  intro same
  rw [same] at producer
  cases producer

theorem Insn.targets_of_producer (producer : insn.producerDest = some d) : insn.targets = [] := by
  cases insn <;> cases producer <;> rfl

/-- Another destination leaves the registers read as they are. -/
theorem Insn.withDest_reads (d : RegId) (insn : Insn Stmt Expr) : (insn.withDest d).insnReadRegs =
    insn.insnReadRegs := by
  cases insn <;> rfl

theorem Insn.withDest_targets (d : RegId) (insn : Insn Stmt Expr) : (insn.withDest d).targets = insn.targets := by
  cases insn <;> rfl

/-- An arm computes a value whatever register it writes it to. -/
def Splits (arm : RegId → Exec ι W Unit) : Prop := ∃ m : Exec ι W Value, ∀ d, arm d = m >>= writeReg d

theorem Splits.write (v : Value) : Splits fun d => (writeReg d v : Exec ι W Unit) :=
  ⟨pure v, fun _ => by simp⟩

/-- What comes before is done whatever the register. -/
theorem Splits.bind {α : Type} (m : Exec ι W α) {arm : α → RegId → Exec ι W Unit} (each : ∀ x, Splits (arm x)) :
    Splits fun d => m >>= fun x => arm x d := by
  choose rest same using each
  exact ⟨m >>= rest, fun d => by simp only [same, bind_assoc]⟩

theorem unArm_splits (f : Value → Value) (s : RegId) : Splits fun d => (unArm f d s : Exec ι W Unit) :=
  .bind _ fun _ => .write _

theorem binArm_splits (f : Value → Value → Value) (l r : RegId) :
    Splits fun d => (binArm f d l r : Exec ι W Unit) :=
  .bind _ fun _ => .bind _ fun _ => .write _

theorem loadSigArm_splits (f : Value → Value) (sig : SigId) : Splits fun d => loadSigArm H D f d sig :=
  .bind _ fun _ => .write _

theorem loadArrayElemArm_splits (array : ArrayOperand) (idx : RegId) :
    Splits fun d => loadArrayElemArm H D d array idx := by
  refine .bind _ fun ir => ?_
  cases resolveBytecodeArrayElem D.toArrayDesign array (elemIndex H ir) with
  | some eid => exact .bind _ fun _ => .write _
  | none =>
    cases bytecodeArrayFirstId D.toArrayDesign array with
    | some first => exact .bind _ fun _ => .write _
    | none => exact .bind _ fun _ => .write _

/-- A select ends by writing what it picked. -/
theorem selectArm_splits (cond thenR elseR : RegId) :
    Splits fun d => (selectArm H d cond thenR elseR : Exec ι W Unit) := by
  refine .bind _ fun _ => .bind _ fun c => ?_
  by_cases unknown : H.hasUnknown c = true
  · simp only [if_pos unknown]
    exact .bind _ fun _ => .bind _ fun _ => .write _
  · simp only [if_neg unknown]
    by_cases holds : H.isTrue c = true
    · simp only [if_pos holds]
      exact .bind _ fun _ => .write _
    · simp only [if_neg holds]
      exact .bind _ fun _ => .write _

/-- A producer computes its value whatever its destination, and then writes it there, if it does not read the register
it writes. -/
theorem producer_splits (H : Host Stmt Expr ι W) (D : Numbering ι) (producer : insn.producerDest = some d) :
    ∃ m : Exec ι W Value, ∀ d' pc, insn.insnReadsReg d' = false →
      execInsn H D pc (insn.withDest d') = fall pc (m >>= writeReg d') := by
  -- An arm that splits is that of the instruction under every destination.
  have of {arm : RegId → Exec ι W Unit} (splits : Splits arm)
      (exec : ∀ d' pc, execInsn H D pc (insn.withDest d') = fall pc (arm d')) :
      ∃ m : Exec ι W Value, ∀ d' pc, insn.insnReadsReg d' = false →
        execInsn H D pc (insn.withDest d') = fall pc (m >>= writeReg d') := by
    obtain ⟨m, same⟩ := splits
    exact ⟨m, fun d' pc _ => by rw [exec, same]⟩
  cases insn with
  | add _ l r | sub _ l r | mul _ l r | bitAnd _ l r | bitOr _ l r | bitXor _ l r | bitXnor _ l r | logAnd _ l r
  | logOr _ l r | eq _ l r | neq _ l r | caseEq _ l r | casezEq _ l r | casexEq _ l r | lt _ l r | leq _ l r
  | gt _ l r | geq _ l r | shl _ l r | shr _ l r | aShr _ l r => exact of (binArm_splits _ l r) fun _ _ => rfl
  | bitNot _ s | negate _ s | logNot _ s | reduceAnd _ s | reduceOr _ s | reduceXor _ s | binOpConst _ s _ _
  | bitSelectConst _ s _ | rangeSelectConst _ s _ _ | caseLut _ s _ => exact of (unArm_splits _ s) fun _ _ => rfl
  | loadSignal _ sig | loadSignalSigned _ sig | loadSignalBit _ sig _ | loadSignalRange _ sig _ _ =>
    exact of (loadSigArm_splits _ sig) fun _ _ => rfl
  | loadConst _ k => exact of ⟨pure k, fun d' => by simp⟩ fun _ _ => rfl
  | loadArrayElem _ array idx => exact of (loadArrayElemArm_splits array idx) fun _ _ => rfl
  | select _ c t e => exact of (selectArm_splits c t e) fun _ _ => rfl
  | concat _ parts => exact of (.bind (parts.mapM readReg) fun vs => .write (H.concat vs)) fun _ _ => rfl
  | bitSelect _ b i =>
    refine of (.bind (readReg i) fun iv => ?_) fun _ _ => rfl
    cases (H.toIndex iv).filter (0 ≤ ·) with
    | none => exact .write _
    | some n => exact .bind (readReg b) fun _ => .write _
  | rangeSelect _ b l r =>
    refine of (.bind (readReg l) fun av => .bind (readReg r) fun bv => ?_) fun _ _ => rfl
    cases H.toIndex av with
    | none => exact .write _
    | some x =>
      cases H.toIndex bv with
      | none => exact .write _
      | some y => exact .bind (readReg b) fun _ => .write _
  | rangeSelectW _ b i w up =>
    refine of (.bind (readReg i) fun iv => ?_) fun _ _ => rfl
    cases H.toIndex iv with
    | none => exact .write _
    | some n => exact .bind (readReg b) fun _ => .write _
  | replicate _ s n =>
    -- One copy onto another register moves it.
    by_cases none : n = 0
    · exact of (.write (H.fromU64 0 0)) fun _ _ => by simp only [execInsn, Insn.withDest, replicateArm, if_pos none]
    · by_cases one : n = 1
      · refine ⟨readReg s, fun d' pc unread => ?_⟩
        have other : d' ≠ s := by simpa [Insn.insnReadsReg, Insn.insnReadRegs] using unread
        simp only [execInsn, Insn.withDest, replicateArm, if_neg none, if_pos one, if_neg other]
      · refine of (.bind (readReg s) fun v => .write (H.replicate v n)) fun _ _ => ?_
        simp only [execInsn, Insn.withDest, replicateArm, if_neg none, if_neg one]
  | _ => cases producer

end Producers

section Propagate

variable {H : Host Stmt Expr ι W} {D : Numbering ι} {insns out : List (Insn Stmt Expr)}

/-- A producer with its copy, and the producer of the copy's destination, are run alike up to the register copied from,
dead after the copy. -/
theorem propagate_turn {i : Nat} {producer : Insn Stmt Expr} {md ms : RegId} (held : insns[i]? = some producer)
    (produces : producer.producerDest = some ms) (copy : insns[i + 1]? = some (.move md ms)) (apart : md ≠ ms)
    (unread : producer.insnReadsReg md = false) (unread' : producer.insnReadsReg ms = false)
    (direct : out[i]? = some (producer.withDest md)) (gone : out[i + 1]? = some .nop) {dead : Nat → Prop}
    (after : dead (i + 2)) {run run' : Run W} (here : run.pc = i)
    (alike : Alike (fun r => r = ms ∧ dead i) run run') :
    Together H D insns out (InStep (fun pc r => r = ms ∧ dead pc) fun pc => pc ≤ i ∨ i + 1 < pc) run run' := by
  subst here
  obtain ⟨m, splits⟩ := producer_splits H D produces
  have toMs := splits ms run.pc unread'
  rw [Insn.withDest_self produces] at toMs
  -- The producer itself agrees in both runs, so what it computes does.
  obtain ⟨-, log, agree⟩ := execInsn_agreeOff H D run.pc alike.vm fun r isOff => by
    rw [isOff.1.1]
    exact unread'
  simp only [toMs, fall, bind_run, pure_run] at log agree
  have sameLog : (m run'.vm).log = (m run.vm).log := by simpa [writeReg] using log
  have sameValue : (m run'.vm).value = (m run.vm).value := by
    have written := agree.regs ms fun off => off.2 (by simp [writeReg])
    simpa [writeReg] using written
  have others (r : RegId) (other : r ≠ ms) : (m run'.vm).state.regs r = (m run.vm).state.regs r := by
    have same := agree.regs r fun off => other off.1.1.1
    simpa [writeReg, Function.update_of_ne other] using same
  -- What the producer and its copy leave, and what the direct producer leaves.
  have step := blockStep_fall run held toMs (Insn.ne_move_of_producer produces)
  have step' := blockStep_fall run' (alike.pc.symm ▸ direct) (splits md run'.pc unread)
    (Insn.ne_move_of_producer (Insn.producerDest_withDest produces md))
  refine .on (.cons step (.one ((move_computes apart).blockStep _ copy))) (.cons step' (.one (blockStep_nop _ ?_)))
    ⟨.inr (Nat.lt_succ_self _), ?_⟩
  · simpa only [alike.pc] using gone
  · refine ⟨congrArg (· + 2) alike.pc, alike.waits, ⟨agree.world, agree.numRegs, fun r notOff => ?_⟩,
      fun r exported => ?_⟩
    · by_cases atMd : r = md
      · subst atMd
        simp [writeReg, sameValue]
      · by_cases atMs : r = ms
        · -- The register copied from is dead by now.
          refine absurd ⟨⟨atMs, after⟩, fun exported => exported.1.2 ?_⟩ notOff
          simp [writeReg, atMs]
        · simpa [writeReg, Vm.put_other, atMd, atMs, Function.update_of_ne] using others r atMs
    · obtain ⟨⟨before, unwritten⟩, notMd⟩ := exported
      refine ⟨alike.exported r before, ?_⟩
      simp only [bind_run, writeReg, note_run, modify_run, List.append_nil, List.mem_append, not_or, sameLog,
        List.mem_cons, List.not_mem_nil, or_false, Access.writeReg.injEq] at unwritten ⊢
      exact ⟨unwritten.1, notMd⟩

/-- A register copied only there is dead after the copy. -/
theorem onlyCopied_dead {forward : Bool} {i : Nat} {r : RegId} (only : onlyCopied forward insns i r = true)
    (goes : forward = true → GoesForward insns) :
    ∃ dead : Nat → Prop, DeadAway insns i (i + 1) (fun pc q => q = r ∧ dead pc) ∧ dead (i + 2) := by
  cases forward with
  | true =>
    -- Nothing further on reads it, and no branch goes back.
    refine ⟨fun pc => i + 2 ≤ pc, ?_, Nat.le_refl _⟩
    rintro pc insn - held q ⟨rfl, later⟩
    refine ⟨?_, fun t next => .inl ⟨rfl, ?_⟩⟩
    · have member : insn ∈ insns.drop (i + 2) := by
        refine List.mem_of_getElem? (i := pc - (i + 2)) ?_
        rw [List.getElem?_drop, Nat.add_sub_cancel' later]
        exact held
      have all : ∀ x ∈ insns.drop (i + 2), x.insnReadsReg q = false := by simpa [onlyCopied] using only
      exact all insn member
    · have := (goes rfl).lt held next
      omega
  | false =>
    refine ⟨fun _ => True, ?_, trivial⟩
    rintro pc insn away held q ⟨rfl, -⟩
    refine ⟨?_, fun _ _ => .inl ⟨rfl, trivial⟩⟩
    have apart : pc ≠ i + 1 := by omega
    have all : ∀ x k, (x, k) ∈ insns.zipIdx → k = i + 1 ∨ x.insnReadsReg q = false := by simpa [onlyCopied] using only
    exact (all insn pc (List.mem_zipIdx_iff_getElem?.mpr held)).resolve_left apart

/-- One position of the pass keeps the runs. -/
theorem propagateCopyAt_standsFor {isTarget : Nat → Bool} {forward : Bool} (cur : List (Insn Stmt Expr)) (i : Nat)
    (good : Mapped isTarget cur ∧ (forward = true → GoesForward cur)) :
    (Mapped isTarget (propagateCopyAt isTarget forward cur i) ∧
        (forward = true → GoesForward (propagateCopyAt isTarget forward cur i))) ∧
      StandsFor H D (propagateCopyAt isTarget forward cur i) cur := by
  unfold propagateCopyAt
  split
  · rename_i producer md ms held copy
    split
    · exact ⟨good, .refl⟩
    · rename_i notTarget
      split
      · exact ⟨good, .refl⟩
      · rename_i unread
        split
        · exact ⟨good, .refl⟩
        · rename_i only
          split
          · rename_i produces
            obtain ⟨unreadMd, unreadMs⟩ : producer.insnReadsReg md = false ∧ producer.insnReadsReg ms = false := by
              simpa using unread
            obtain ⟨free, apart⟩ : isTarget (i + 1) = false ∧ md ≠ ms := by simpa using notTarget
            obtain ⟨dead, away, after⟩ := onlyCopied_dead (by simpa using only) good.2
            have inside : i + 1 < cur.length := (List.getElem?_eq_some_iff.mp copy).1
            have straight : (producer.withDest md).targets = [] := by
              rw [Insn.withDest_targets]
              exact Insn.targets_of_producer produces
            refine ⟨⟨(good.1.set (by simp [straight])).set (by simp [Insn.targets]), fun forward =>
              ((good.2 forward).set straight).set rfl⟩, ?_⟩
            refine .of_site i (i + 1) good.1 (fun k later le => ?_) inside (fun pc away => ?_) away
              fun run run' here alike =>
                propagate_turn held produces copy apart unreadMd unreadMs ?_ ?_ after here alike
            · obtain rfl : k = i + 1 := by omega
              exact free
            · rw [List.getElem?_set_ne (by omega), List.getElem?_set_ne (by omega)]
            · rw [List.getElem?_set_ne (by omega), List.getElem?_set_self (by omega)]
            · rw [List.getElem?_set_self (by simpa using inside)]
          · exact ⟨good, .refl⟩
  · exact ⟨good, .refl⟩

end Propagate

section Forward

variable {H : Host Stmt Expr ι W} {D : Numbering ι} {insns out : List (Insn Stmt Expr)}

theorem Insn.withAssignValue_self {insn : Insn Stmt Expr} {v : RegId} (stores : insn.assignValue = some v) :
    insn.withAssignValue v = insn := by
  cases insn <;> cases stores <;> rfl

/-- Such an assignment names no target, whatever it stores. -/
theorem Insn.targets_withAssignValue {insn : Insn Stmt Expr} {v : RegId} (stores : insn.assignValue = some v)
    (u : RegId) : (insn.withAssignValue u).targets = [] := by
  cases insn <;> cases stores <;> rfl

/-- What such an assignment does to the simulator follows from the value it stores, whatever register holds it; it
writes no register. -/
theorem assign_stores (H : Host Stmt Expr ι W) (D : Numbering ι) {insn : Insn Stmt Expr} {v : RegId}
    (stores : insn.assignValue = some v) :
    ∃ (store : W → Value → W) (arm : RegId → Exec ι W Unit), ∀ u,
      (∀ pc, execInsn H D pc (insn.withAssignValue u) = fall pc (arm u)) ∧
      ∀ vm, (arm u vm).state = { vm with world := store vm.world (vm.regs u) } ∧ ∀ r, .writeReg r ∉ (arm u vm).log := by
  cases insn with
  | nbaAssign sig _ w =>
    refine ⟨fun x k => H.nbaAssign x (D.ref sig) k w, fun u => storeSigArm D
      (fun s x val => H.nbaAssign s x val w) sig u,
      fun u => ⟨fun _ => rfl, fun vm => ⟨rfl, ?_⟩⟩⟩
    simp [storeSigArm, readReg, writeSig, world, setWorld]
  | blockingAssignRange sig hi lo _ =>
    refine ⟨fun x k => H.blockingAssignRange x (D.ref sig) hi lo k,
      fun u => storeSigArm D (fun w x val => H.blockingAssignRange w x hi lo val) sig u,
      fun u => ⟨fun _ => rfl, fun vm => ⟨rfl, ?_⟩⟩⟩
    simp [storeSigArm, readReg, writeSig, world, setWorld]
  | blockingAssign sig _ w =>
    -- A forced signal is left as it is.
    refine ⟨fun x k => if H.isForced x (D.ref sig) then x else H.blockingAssign x (D.ref sig) k w, fun u => do
      let forced ← readSig D sig H.isForced
      if forced then pure () else storeSigArm D (fun s x val => H.blockingAssign s x val w) sig u,
      fun u => ⟨fun _ => rfl, fun vm => ?_⟩⟩
    cases forced : H.isForced vm.world (D.ref sig) <;>
      simp [storeSigArm, readReg, readSig, writeSig, world, setWorld, forced]
  | nbaAssignRange sig hi lo _ =>
    refine ⟨fun x k => if H.nbaRangeDropped x (D.ref sig) hi lo then x else H.nbaAssignRange x (D.ref sig) hi lo k,
      fun u => do
        let dropped ← readSig D sig fun w x => H.nbaRangeDropped w x hi lo
        if dropped then pure () else storeSigArm D (fun w x val => H.nbaAssignRange w x hi lo val) sig u,
      fun u => ⟨fun _ => rfl, fun vm => ?_⟩⟩
    cases dropped : H.nbaRangeDropped vm.world (D.ref sig) hi lo <;>
      simp [storeSigArm, readReg, readSig, writeSig, world, setWorld, dropped]
  | _ => cases stores

/-- A copy with the assignment that stores it, and the assignment of the register copied, are run alike up to the copy's
destination, dead after the assignment. -/
theorem forwardMove_turn {i j : Nat} (lt : i < j) {d s : RegId} {assign : Insn Stmt Expr} (apart : d ≠ s)
    (copy : insns[i]? = some (.move d s)) (held : insns[j]? = some assign) (stores : assign.assignValue = some d)
    (between : ∀ k, i < k → k < j → insns[k]? = some .nop) (gone : ∀ k, i ≤ k → k < j → out[k]? = some .nop)
    (direct : out[j]? = some (assign.withAssignValue s)) {run run' : Run W} (here : run.pc = i)
    (alike : Alike (fun r => r = d ∧ j < i) run run') :
    Together H D insns out (InStep (fun pc r => r = d ∧ j < pc) fun pc => pc ≤ i ∨ j < pc) run run' := by
  subst here
  obtain ⟨store, arm, does⟩ := assign_stores H D stores
  have notCopy (u r : RegId) : assign.withAssignValue u ≠ .move r r := by
    cases assign <;> cases stores <;> simp [Insn.withAssignValue]
  -- The copy, the placeholders and the assignment.
  have step := (move_computes (H := H) (D := D) apart).blockStep run copy
  obtain ⟨n, walk⟩ := steps_to H D (run.put d (run.vm.regs s)) j lt fun k atLeast below => between k atLeast below
  have exec : ∀ pc, execInsn H D pc assign = fall pc (arm d) := by
    have same := (does d).1
    rwa [Insn.withAssignValue_self stores] at same
  have notCopy' := notCopy d
  rw [Insn.withAssignValue_self stores] at notCopy'
  have stored := blockStep_fall (H := H) (D := D) (Run.moveTo (run.put d (run.vm.regs s)) j) held (exec j) notCopy'
  -- The placeholders alone, and the assignment of the register copied.
  obtain ⟨n', walk'⟩ := steps_to H D run' j (by rw [alike.pc]; exact Nat.le_of_lt lt) fun k atLeast below =>
    gone k (alike.pc ▸ atLeast) below
  have stored' := blockStep_fall (Run.moveTo run' j) direct ((does s).1 j) (notCopy s)
  have source : run'.vm.regs s = run.vm.regs s := alike.live fun isDead => absurd isDead.2
    (Nat.not_lt.mpr (Nat.le_of_lt lt))
  refine .on (.cons step (walk.trans (.one stored))) (walk'.trans (.one stored')) ⟨.inr (Nat.lt_succ_self j), rfl,
    alike.waits, ?_, fun r exported => ⟨alike.exported r exported.1.1, ((does s).2 _).2 r⟩⟩
  simp only [((does _).2 _).1]
  refine ⟨?_, alike.vm.numRegs, fun r notOff => ?_⟩
  · simp [source, alike.vm.world]
  · -- Only the copy's destination differs, which is dead from here on.
    have other : r ≠ d := fun atD => notOff ⟨⟨atD, Nat.lt_succ_self j⟩, fun exported => exported.1.2 atD⟩
    simpa [Vm.put_other _ _ other] using alike.live fun isDead => other isDead.1

/-- One position of the pass keeps the runs. -/
theorem forwardMoveAt_standsFor {isTarget : Nat → Bool} (cur : List (Insn Stmt Expr)) (i : Nat)
    (good : Mapped isTarget cur ∧ GoesForward cur) :
    (Mapped isTarget (forwardMoveAt isTarget cur i) ∧ GoesForward (forwardMoveAt isTarget cur i)) ∧
      StandsFor H D (forwardMoveAt isTarget cur i) cur := by
  unfold forwardMoveAt
  split
  · rename_i d s copy
    split
    · exact ⟨good, .refl⟩
    · rename_i apart
      obtain ⟨lt, between⟩ := nextReal_spec isTarget cur (i + 1)
      generalize nextReal isTarget cur (i + 1) = j at lt between
      dsimp only
      split
      · exact ⟨good, .refl⟩
      · rename_i free
        split
        · exact ⟨good, .refl⟩
        · rename_i assign held
          split
          · exact ⟨good, .refl⟩
          · rename_i stores
            split
            · exact ⟨good, .refl⟩
            · rename_i unread
              have straight : (assign.withAssignValue s).targets = [] :=
                Insn.targets_withAssignValue (by simpa using stores) s
              have inside : j < cur.length := (List.getElem?_eq_some_iff.mp held).1
              refine ⟨⟨(good.1.set (by simp [straight])).set (by simp [Insn.targets]),
                (good.2.set straight).set rfl⟩, ?_⟩
              have away : DeadAway cur i j fun pc r => r = d ∧ j < pc := by
                -- Nothing after the assignment reads the copy's destination, and no branch goes back.
                rintro pc insn - held r ⟨rfl, later⟩
                refine ⟨?_, fun t next => .inl ⟨rfl, Nat.lt_trans later (good.2.lt held next)⟩⟩
                by_contra reads
                refine unread (List.any_eq_true.mpr ⟨insn, ?_, by simpa using reads⟩)
                refine List.mem_of_getElem? (i := pc - (j + 1)) ?_
                rw [List.getElem?_drop, Nat.add_sub_cancel' later]
                exact held
              refine .of_site i j good.1 (fun k later le => ?_) inside
                (fun pc apart => ?_) away fun run run' here alike => forwardMove_turn lt apart copy held
                  (by simpa using stores) (fun k later below => (between k later below).1) (fun k atLeast below => ?_)
                  ?_ here alike
              · rcases Nat.lt_or_eq_of_le le with below | rfl
                · exact (between k later below).2
                · simpa using free
              · rw [List.getElem?_set_ne (by omega), List.getElem?_set_ne (by omega)]
              · rcases Nat.eq_or_lt_of_le atLeast with rfl | later
                · rw [List.getElem?_set_self (by simp; omega)]
                · rw [List.getElem?_set_ne (by omega), List.getElem?_set_ne (by omega)]
                  exact (between k later below).1
              · rw [List.getElem?_set_ne (by omega), List.getElem?_set_self inside]
  · exact ⟨good, .refl⟩

end Forward

/-- Copies taken away at their producer: the rewritten stream stands for the one it comes from, with branches back or
without. -/
theorem propagateCopies_standsFor (H : Host Stmt Expr ι W) (D : Numbering ι) (insns : List (Insn Stmt Expr)) :
    StandsFor H D (propagateCopies insns) insns := by
  refine (StandsFor.foldl id (fun cur => Mapped (branchTargetMap insns) cur ∧
    ((!hasBackwardBranch insns) = true → GoesForward cur)) propagateCopyAt_standsFor _
    ⟨branchTargetMap_mapped insns, fun forward => goesForward_of_not_backward ?_⟩).2
  simpa using forward

/-- Copies taken away at the assignment that stores them: the rewritten stream stands for the one it comes from. -/
theorem forwardMoveIntoAssign_standsFor (H : Host Stmt Expr ι W) (D : Numbering ι) (insns : List (Insn Stmt Expr)) :
    StandsFor H D (forwardMoveIntoAssign insns) insns := by
  unfold forwardMoveIntoAssign
  split
  · exact .refl
  · rename_i forward
    refine (StandsFor.foldl id (fun cur => Mapped (branchTargetMap insns) cur ∧ GoesForward cur)
      forwardMoveAt_standsFor _ ⟨branchTargetMap_mapped insns, goesForward_of_not_backward ?_⟩).2
    simpa using forward

end Xezim.Bytecode
