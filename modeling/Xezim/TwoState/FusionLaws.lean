import Xezim.TwoState.Fusion
import Xezim.TwoState.LoweredLaws
import Xezim.TwoState.Machine

/-! A fused instruction does what its parts do one after the other. -/

namespace Xezim

open Function

section Masks

/-- A count of ones that misses no position is of ones alone. -/
theorem ones_of_cpopNatRec {x : Word} {k : Nat} (full : x.cpopNatRec k 0 = k) :
    ∀ i < k, x.getLsbD i = true := by
  induction k with
  | zero => intro i below; omega
  | succ k ih =>
    intro i below
    -- The lower positions give at most their number, so the top one gives its own.
    have most : x.cpopNatRec k 0 ≤ 0 + k := BitVec.cpopNatRec_le k
    rw [BitVec.cpopNatRec_succ, BitVec.cpopNatRec_add] at full
    cases top : x.getLsbD k with
    | false => simp [top] at full; omega
    | true =>
      by_cases last : i = k
      · rw [last, top]
      · exact ih (by simp [top] at full; omega) i (by omega)

/-- Positions without ones add nothing to a count. -/
theorem cpopNatRec_of_zeros {x : Word} {k : Nat} (zeros : ∀ i, k ≤ i → x.getLsbD i = false) (j : Nat) :
    x.cpopNatRec (k + j) 0 = x.cpopNatRec k 0 := by
  induction j with
  | zero => rfl
  | succ j ih =>
    rw [← Nat.add_assoc, BitVec.cpopNatRec_succ, zeros (k + j) (by omega)]
    exact ih

/-- As many ones as there are bits below the leading zeros make a run of low ones. -/
theorem eq_xmask_of_cpop {mask : Word} (run : mask.cpop.toNat = 64 - mask.clz.toNat) :
    mask = xmask (64 - mask.clz.toNat) := by
  have below : mask.toNat < 2 ^ (64 - mask.clz.toNat) := BitVec.toNat_lt_two_pow_sub_clz
  generalize hk : 64 - mask.clz.toNat = k at run below ⊢
  have zeros : ∀ i, k ≤ i → mask.getLsbD i = false := by
    intro i le
    exact Nat.testBit_lt_two_pow (lt_of_lt_of_le below (Nat.pow_le_pow_right (by decide) le))
  have full : mask.cpopNatRec k 0 = k := by
    have split := cpopNatRec_of_zeros zeros (64 - k)
    rw [Nat.add_sub_cancel' (by omega), ← BitVec.toNat_cpop, run] at split
    exact split.symm
  apply BitVec.eq_of_getLsbD_eq
  intro i inside
  rw [getLsbD_xmask]
  by_cases low : i < k
  · simp [ones_of_cpopNatRec full i low, low, inside]
  · simp [zeros i (by omega), low]

end Masks

section Outcomes

/-- Renumbering keeps what asks. -/
theorem TsInsn.polls_retarget (f : Nat → Nat) (insn : TsInsn) : (insn.retarget f).polls = insn.polls := by
  cases insn <;> rfl

/-- Go on with a second instruction where the first one falls through. -/
def TsOutcome.andThen (out : TsOutcome) (next : Regs → TsOutcome) : TsOutcome :=
  match out with
  | .next r none => next r
  | out => out

@[simp] theorem TsOutcome.andThen_set (r : Regs) (d : Nat) (v : Word) (next : Regs → TsOutcome) :
    (TsOutcome.set r d v).andThen next = next (setReg r d v) := rfl

@[simp] theorem TsOutcome.andThen_jump (r : Regs) (t : Nat) (next : Regs → TsOutcome) :
    (TsOutcome.jump r t).andThen next = .jump r t := rfl

@[simp] theorem TsOutcome.andThen_load (p : Word × Word) (k : Word → TsOutcome) (next : Regs → TsOutcome) :
    (TsOutcome.load p k).andThen next = .load p fun v => (k v).andThen next := by
  unfold TsOutcome.load
  split <;> rfl

@[simp] theorem setReg_self (r : Regs) (d : Nat) (v : Word) : setReg r d v d = v := by
  simp [setReg]

theorem setReg_of_ne {r : Regs} {d e : Nat} (ne : e ≠ d) (v : Word) : setReg r d v e = r e := by
  simp [setReg, ne]

/-- Register writes to different registers commute. -/
theorem setReg_comm (r : Regs) {d e : Nat} (ne : d ≠ e) (v u : Word) :
    setReg (setReg r d v) e u = setReg (setReg r e u) d v := by
  unfold setReg
  exact update_comm ne v u r

/-- A queued update without x bits as the plain one it performs. -/
def StoreOp.plain : StoreOp → StoreOp
  | .storeNbaXz id v x w => if x = 0#64 then .storeNba id v w else .storeNbaXz id v x w
  | op => op

/-- The outcome with its store call in plain form. -/
def TsOutcome.plain : TsOutcome → TsOutcome
  | .next r op => .next r (op.map StoreOp.plain)
  | out => out

variable [ValueOps] {D : Design}

/-- The plain form of a store call does the same. -/
theorem StoreOp.apply_plain (s : Sim) (op : StoreOp) : op.plain.apply D s = op.apply D s := by
  cases op with
  | storeNbaXz id v x w =>
    by_cases known : x = 0#64
    · simp [StoreOp.plain, StoreOp.apply, tsStoreNbaXz, known]
    · simp [StoreOp.plain, known]
  | _ => rfl

end Outcomes

section Pairs

variable {a b c f g : TsInsn}

/-- The opcodes a pair can start with. -/
def TsInsn.opensPair : TsInsn → Bool
  | .loadSig .. | .sigRange .. | .logNot .. | .logAnd .. | .and .. | .sigBit .. | .brFalse ..
  | .eq .. | .eqC .. | .const .. | .logOr .. | .or .. => true
  | _ => false

/-- No part of a pair asks whether to stop, and the first one is an opcode that a pair can start with. -/
theorem fusePair_opens (fused : fusePair a b = some f) :
    a.opensPair = true ∧ a.polls = false ∧ b.polls = false ∧ f.polls = false := by
  unfold fusePair at fused
  split at fused
  case h_1 =>
    unfold fuseLoadSig at fused
    split at fused <;> (try split at fused) <;> cases fused <;> exact ⟨rfl, rfl, rfl, rfl⟩
  case h_2 =>
    unfold fuseSigRange at fused
    split at fused <;> (try split at fused) <;> cases fused <;> exact ⟨rfl, rfl, rfl, rfl⟩
  case h_13 => cases fused
  all_goals
    split at fused <;> (try split at fused) <;> cases fused <;> exact ⟨rfl, rfl, rfl, rfl⟩

/-- The pair with an element store is a load of its data. -/
theorem fusePair_elemStore {g : TsElemStoreFromSig} (fused : fusePair a b = some (.elemStoreNbaFromSig g)) :
    ∃ op, a = .loadSig g.dl g.sig ∧ b = .elemStoreNba op ∧ op.s = g.dl ∧ g.op = op := by
  unfold fusePair at fused
  split at fused
  case h_1 =>
    unfold fuseLoadSig at fused
    split at fused <;> (try split at fused) <;> cases fused
    exact ⟨_, rfl, rfl, ‹_›, rfl⟩
  case h_2 =>
    unfold fuseSigRange at fused
    split at fused <;> (try split at fused) <;> cases fused
  case h_13 => cases fused
  all_goals
    split at fused <;> (try split at fused) <;> cases fused

/-- The triple is two loads and an element store of the first one's data at the second one's index. -/
theorem fuseTriple_eq (fused : fuseTriple a b c = some (f, g)) :
    ∃ d1 sig1 d2 sig2 op, a = .loadSig d1 sig1 ∧ b = .loadSig d2 sig2 ∧ c = .elemStoreNba op ∧
      op.s = d1 ∧ op.idx = d2 ∧ f = .loadSig d2 sig2 ∧ g = .elemStoreNbaFromSig ⟨sig1, d1, op⟩ := by
  unfold fuseTriple at fused
  split at fused <;> (try split at fused) <;> cases fused
  rename_i rule
  exact ⟨_, _, _, _, _, rfl, rfl, rfl, rule.1, rule.2, rfl, rfl⟩

variable [ValueOps] {s : Sim} {p q u : Bool}

/-- A load and the instruction fused to it, unless that is an element store. -/
theorem fuseLoadSig_step {dl sig : Nat} (fused : fuseLoadSig dl sig b = some f)
    (data : ∀ g, f ≠ .elemStoreNbaFromSig g) (r : Regs) :
    tsStep s p r f = (tsStep s q r (.loadSig dl sig)).andThen fun r => tsStep s u r b := by
  unfold fuseLoadSig at fused
  split at fused <;> try split at fused
  all_goals cases fused
  case h_1.isTrue => exact absurd rfl (data _)
  all_goals simp_all [tsStep]
  case h_5.isTrue.refl => rfl

/-- A part-select and the instruction fused to it. -/
theorem fuseSigRange_step {dr sig lo : Nat} {mask : Word}
    (fused : fuseSigRange dr sig lo mask b = some f) (r : Regs) :
    tsStep s p r f =
      (tsStep s q r (.sigRange dr sig lo mask)).andThen fun r => tsStep s u r b := by
  unfold fuseSigRange at fused
  split at fused <;> try split at fused
  all_goals cases fused
  case h_1.isTrue.refl d k rule =>
    -- The mask is told by its width.
    obtain ⟨rfl, -, run⟩ := rule
    have mask_eq := eq_xmask_of_cpop run
    simp [tsStep, ← mask_eq]
  all_goals simp_all [tsStep]

/-- A fused pair does what its parts do one after the other; an element store aside. -/
theorem fusePair_step (fused : fusePair a b = some f) (data : ∀ g, f ≠ .elemStoreNbaFromSig g)
    (r : Regs) :
    tsStep s p r f = (tsStep s q r a).andThen fun r => tsStep s u r b := by
  unfold fusePair at fused
  split at fused
  case h_1 => exact fuseLoadSig_step fused data r
  case h_2 => exact fuseSigRange_step fused r
  case h_13 => cases fused
  all_goals
    split at fused <;> try split at fused
  all_goals cases fused
  all_goals simp_all [tsStep]
  -- The branches end a turn either way.
  case h_1.refl => split <;> rfl
  all_goals rfl

/-- An opcode that a pair can start with makes no store call. -/
theorem tsStep_opensPair {insn : TsInsn} (opens : insn.opensPair = true) {r r' : Regs}
    {op : Option StoreOp} (stepped : tsStep s p r insn = .next r' op) : op = none := by
  cases insn <;> try cases opens
  all_goals
    simp only [tsStep, TsOutcome.load, TsOutcome.set] at stepped
    first
    | (split at stepped <;> cases stepped; rfl)
    | (cases stepped; rfl)

variable {dl sig : Nat} {op : TsElemOp}

/-- A data load and its element store are the fused store where the data has no x bits. -/
theorem elemStoreNbaFromSig_step (same : op.s = dl) (clean : (s.sigPlanes sig).2 = 0#64) (r : Regs) :
    (tsStep s p r (.elemStoreNbaFromSig ⟨sig, dl, op⟩)).plain =
      (tsStep s p' (setReg r dl (s.sigPlanes sig).1) (.elemStoreNba op)).plain := by
  simp only [tsStep, clean, same, setReg_self]
  split
  · rfl
  · simp [TsOutcome.plain, StoreOp.plain]

/-- Loading a signal without x bits is a register write. -/
theorem loadSig_clean (clean : (s.sigPlanes sig).2 = 0#64) (r : Regs) :
    tsStep s p r (.loadSig dl sig) = .set r dl (s.sigPlanes sig).1 := by
  simp [tsStep, TsOutcome.load, clean]

/-- Loading a signal with x bits stops. -/
theorem loadSig_unknown (unknown : (s.sigPlanes sig).2 ≠ 0#64) (r : Regs) :
    tsStep s p r (.loadSig dl sig) = .xbail := by
  simp [tsStep, TsOutcome.load, unknown]

end Pairs

section Targets

/-- The outcome with its branch target renumbered. -/
def TsOutcome.retarget (f : Nat → Nat) : TsOutcome → TsOutcome
  | .jump r t => .jump r (f t)
  | out => out

@[simp] theorem TsOutcome.retarget_load (f : Nat → Nat) (p : Word × Word) (k : Word → TsOutcome) :
    (TsOutcome.load p k).retarget f = .load p fun v => (k v).retarget f := by
  unfold TsOutcome.load
  split <;> rfl

variable [ValueOps] {s : Sim} {p : Bool} {insn : TsInsn} {r r' : Regs} {t : Nat}

/-- A taken branch goes to one of its targets. -/
theorem tsStep_jump_mem (stepped : tsStep s p r insn = .jump r' t) : t ∈ insn.targets := by
  have noX : (TsOutcome.jump r' t) ≠ .xbail := by simp
  cases insn <;> simp only [tsStep, TsOutcome.set, reduceCtorEq] at stepped
  case brSigFalse sig bit t' =>
    cases bit <;>
    · have loaded := (TsOutcome.of_load stepped noX).2
      split at loaded <;> cases loaded
      simp [TsInsn.targets]
  case loadSigBrNz dl sig t' =>
    have loaded := (TsOutcome.of_load stepped noX).2
    split at loaded <;> cases loaded
    simp [TsInsn.targets]
  case brFalseLoadSig src t' dl sig =>
    split at stepped
    · cases stepped
      simp [TsInsn.targets]
    · cases (TsOutcome.of_load stepped noX).2
  case caseJmp src cj =>
    cases stepped
    simp only [TsInsn.targets, List.mem_cons, List.getD_eq_getElem?_getD]
    cases found : cj.table[(r src).toNat]? with
    | none => simp
    | some t => exact Or.inr (by simpa using List.mem_of_getElem? found)
  case caseMaskJmp src cm =>
    split at stepped <;> cases stepped
    rename_i found
    exact List.mem_of_getElem? found
  -- Everything else falls through or stops, or has one target.
  case sigRangeDyn d sig i w sw m =>
    split at stepped
    · cases stepped
    · cases stepped
    · cases (TsOutcome.of_load stepped noX).2
  case elemLoad op | wNbaFromElem op =>
    split at stepped
    · cases stepped
    · split at stepped <;> cases stepped
  case nbaFromElem op =>
    split at stepped
    · cases stepped
    · split at stepped
      · cases stepped
      · split at stepped <;> cases stepped
  case loadSig2 | sigBit2 | loadSigSigRange =>
    cases (TsOutcome.of_load (TsOutcome.of_load stepped noX).2 noX).2
  all_goals first
    | cases (TsOutcome.of_load stepped noX).2
    | cases stepped; simp [TsInsn.targets]
    | split at stepped <;> cases stepped; simp [TsInsn.targets]
    | split at stepped <;> cases stepped

/-- A straight instruction does not branch. -/
theorem tsStep_straight (straight : insn.isCtrl = false) (f : Nat → Nat) :
    (tsStep s p r insn).retarget f = tsStep s p r insn := by
  cases stepped : tsStep s p r insn with
  | jump r' t =>
    have member := tsStep_jump_mem stepped
    rw [insn.targets_of_straight straight] at member
    cases member
  | _ => rfl

/-- Renumbering the targets of an instruction renumbers where it branches to, a polling jump aside. -/
theorem tsStep_retarget (f : Nat → Nat) (polled : ∀ t, insn ≠ .jmpPoll t) :
    tsStep s p r (insn.retarget f) = (tsStep s p r insn).retarget f := by
  cases insn
  case jmpPoll t => exact absurd rfl (polled t)
  case brSigFalse sig bit t =>
    cases bit <;>
    · simp only [TsInsn.retarget, tsStep, TsOutcome.retarget_load, apply_ite (TsOutcome.retarget f)]
      rfl
  case loadSigBrNz | brFalseLoadSig | eqBrFalse | eqCBrFalse | brFalse | brNz =>
    simp only [TsInsn.retarget, tsStep, TsOutcome.retarget_load, apply_ite (TsOutcome.retarget f)]
    rfl
  case jmp => rfl
  case caseJmp src cj =>
    simp [TsInsn.retarget, tsStep, TsOutcome.retarget, List.getD_eq_getElem?_getD]
  case caseMaskJmp src cm =>
    simp only [TsInsn.retarget, tsStep, List.getElem?_map]
    cases cm.mj.table[(shr (r src &&& cm.mask) cm.lo &&& cm.wmask).toNat]? <;> rfl
  -- No other instruction has a target.
  all_goals exact (tsStep_straight rfl f).symm

end Targets

end Xezim
