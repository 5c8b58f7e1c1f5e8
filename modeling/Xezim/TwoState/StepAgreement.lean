import Xezim.TwoState.KnownLaws
import Xezim.TwoState.LoweredLaws

/-! On known operands one step of the x-plane executor follows one two-state step. -/

namespace Xezim

open Splice KnownBits Function

/-- Two store calls that write the same bits: one call, a known store in the form with a clear
unknown plane, or a save that the other executor leaves out. -/
inductive StoreOp.Agrees : Option StoreOp → Option StoreOp → Prop
  | same (op : Option StoreOp) : Agrees op op
  | store (id : Nat) (v mask : Word) : Agrees (some (.store id v mask)) (some (.storeXz id v 0#64))
  | nba (id : Nat) (v : Word) (w : Nat) :
    Agrees (some (.storeNba id v w)) (some (.storeNbaXz id v 0#64 w))
  | saveSig (sig : Nat) : Agrees (some (.saveSig sig)) none
  | saveSigW (sig : Nat) : Agrees (some (.saveSigW sig)) none

/-- Two simulators alike but for the saves an aborted run would undo. -/
structure Sim.Alike (s sx : Sim) : Prop where
  table : sx.signalTable = s.signalTable
  queue : sx.nbaFast = s.nbaFast
  hits : sx.codeCovHits = s.codeCovHits

/-- The x-plane executor's step follows a two-state step that does not stop. -/
def TsOutcome.FollowedBy : TsOutcome → XOutcome → Prop
  | .next r op, xout => ∃ opx, xout = .next (knownRegs r) opx ∧ StoreOp.Agrees op opx
  | .jump r t, xout => xout = .jump (knownRegs r) t
  | _, _ => True

namespace TsOutcome

variable {r : Regs}

/-- Writing a register on both sides. -/
theorem followedBy_set {d : Nat} {v : Word} {p : Planes 64} (same : p = known v) :
    (TsOutcome.set r d v).FollowedBy (.set (knownRegs r) d p) :=
  ⟨none, by rw [XOutcome.set, same, setX_known], .same none⟩

/-- Making agreeing store calls on both sides. -/
theorem followedBy_next {op opx : Option StoreOp} (agree : StoreOp.Agrees op opx) :
    (TsOutcome.next r op).FollowedBy (.next (knownRegs r) opx) :=
  ⟨opx, rfl, agree⟩

/-- Branching on both sides by tests that mean the same. -/
theorem followedBy_ite {p q : Prop} [Decidable p] [Decidable q] {yes no : TsOutcome}
    {xyes xno : XOutcome} (same : q ↔ p) (left : p → yes.FollowedBy xyes)
    (right : ¬p → no.FollowedBy xno) :
    (if p then yes else no).FollowedBy (if q then xyes else xno) := by
  by_cases taken : p
  · simpa [taken, same] using left taken
  · simpa [taken, same] using right taken

/-- Branching on both sides by tests that mean the opposite. -/
theorem followedBy_iteNot {p q : Prop} [Decidable p] [Decidable q] {yes no : TsOutcome}
    {xyes xno : XOutcome} (opposite : q ↔ ¬p) (left : p → yes.FollowedBy xno)
    (right : ¬p → no.FollowedBy xyes) :
    (if p then yes else no).FollowedBy (if q then xyes else xno) := by
  by_cases taken : p
  · simpa [taken, opposite] using left taken
  · simpa [taken, opposite] using right taken

/-- Branching on the two-state side alone, away from a branch that stops. -/
theorem followedBy_go {p : Prop} [Decidable p] {yes no : TsOutcome} {xout : XOutcome}
    (left : ¬p → no.FollowedBy xout) (stop : p → yes.FollowedBy xout) :
    (if p then yes else no).FollowedBy xout := by
  by_cases taken : p
  · simpa [taken] using stop taken
  · simpa [taken] using left taken

/-- A load goes on only with a known word. -/
theorem followedBy_load {p : Word × Word} {k : Word → TsOutcome} {xout : XOutcome}
    (go : p.2 = 0#64 → (k p.1).FollowedBy xout) : (TsOutcome.load p k).FollowedBy xout := by
  unfold TsOutcome.load
  split
  · trivial
  · rename_i clean
    exact go (by simpa using clean)

end TsOutcome

section Steps

open TsOutcome (followedBy_set followedBy_next followedBy_ite followedBy_iteNot
  followedBy_go followedBy_load)

variable [ValueOps] {D : Design} {s : Sim} {ws : RegWidths} {r : Regs}

/-- A signal read without an x or z bit is a known word. -/
theorem Sim.sigX_of_clean {sig : Nat} (clean : (s.sigPlanes sig).2 = 0#64) :
    s.sigX sig = known (s.sigPlanes sig).1 := pair_of_clean clean

/-- The signals an instruction reads, with the elements its index selects. -/
def TsInsn.reads (s : Sim) (r : Regs) : TsInsn → List Nat
  | .loadSig _ sig | .sigBit _ sig _ | .sigRange _ sig .. | .sigBitW _ sig _ | .sigRangeW _ sig ..
  | .loadSigNot _ _ sig | .sigRangeEqC _ _ sig .. | .loadSigLogAnd _ sig .. | .sigBitNot _ _ sig _
  | .loadSigLogOr _ sig .. | .loadSigAnd _ sig .. | .loadSigRepl _ sig .. | .sigRangeAnd _ sig ..
  | .sigRangeEq _ sig .. | .loadSigBrNz _ sig _ | .brSigFalse sig .. | .sigRangeDyn _ sig .. => [sig]
  | .brFalseLoadSig src _ _ sig => if r src = 0#64 then [] else [sig]
  | .loadSig2 _ sig1 _ sig2 | .sigBit2 _ sig1 _ _ sig2 _ => [sig1, sig2]
  | .loadSigSigRange _ sig _ sig2 .. => [sig, sig2]
  | .elemLoad op =>
    if outside op.lo op.hi (r op.idx).toInt then [] else [elemId op.first op.lo (r op.idx).toInt]
  | .elemStoreNbaFromSig f => [f.sig]
  | .nbaFromElem op | .wNbaFromElem op =>
    let i := (s.sigPlanes op.idxSig).1.toInt
    if outside op.lo op.hi i then [op.idxSig] else [op.idxSig, elemId op.first op.lo i]
  | _ => []

/-- Every signal an instruction reads is free of x and z when it reads it. -/
def TsInsn.ReadsClean (s : Sim) (r : Regs) (insn : TsInsn) : Prop :=
  ∀ sig ∈ insn.reads s r, (s.signalTable sig).Clean

variable [LawfulValueOps]

/-- A clean signal's low word has no unknown bit. -/
theorem Sim.sigPlanes_of_clean {sig : Nat} (clean : (s.signalTable sig).Clean) :
    (s.sigPlanes sig).2 = 0#64 := by
  rw [Sim.sigPlanes, LawfulValueOps.rawBits_eq, Value.planes, clean]

omit [ValueOps] [LawfulValueOps] in
/-- A reduction of a known word of the mask's width compares it with the mask. -/
theorem redAnd_known {w : Nat} {u : Word} (fits : Fits w u) :
    (if ~~~u &&& ~~~0#64 &&& xmask w ≠ 0#64 then (⟨0#64, 0#64⟩ : Planes 64)
      else if 0#64 &&& xmask w ≠ 0#64 then ⟨0#64, 1#64⟩ else ⟨1#64, 0#64⟩) =
    known (ofBool (u == xmask w)) := by
  by_cases same : u = xmask w
  · simp [same, ofBool]
  · have missing : ~~~u &&& xmask w ≠ 0#64 := fun none => same ((not_and_xmask_eq_zero fits).mp none)
    simp [missing, same, ofBool]

-- Both steps are unfolded at one instruction a time.
attribute [local simp] xStep in
/-- One instruction: whatever the two-state executor goes on with, the x-plane executor does. -/
theorem xStep_followsTs {insn : TsInsn} (poll : Bool) (checks : insn.Checks D ws)
    (holds : ws.Holds r) (clean : insn.ReadsClean s r) :
    (tsStep s poll r insn).FollowedBy (xStep D s poll (knownRegs r) insn) := by
  cases insn <;> simp only [tsStep, xStep, knownRegs_apply, known_v, known_x]
  case loadSig d sig =>
    exact followedBy_load fun clean => followedBy_set (Sim.sigX_of_clean clean)
  case const | bit | range | xor | and | or | xorC | maskEq | eqC | eq | neq | add | addC | sub
    | mul | lt | leq | gt | geq | cmpS | logNot | logAnd | logOr | redOr | not | concat2 | concat3
    | mask | repl =>
    exact followedBy_set (by simp [bne])
  case sigBit d sig bit =>
    exact followedBy_load fun clean => followedBy_set (by simp [Sim.sigX_of_clean clean])
  case sigRange d sig lo mask =>
    exact followedBy_load fun clean => followedBy_set (by simp [Sim.sigX_of_clean clean])
  case sigBitW d sig bit =>
    exact followedBy_load fun clean => followedBy_set (pair_of_clean clean)
  case sigRangeW d sig lo w mask =>
    exact followedBy_load fun clean => followedBy_set (by simp [clean])
  case sel d c a b m =>
    refine followedBy_set ?_
    by_cases taken : r c = 0#64
    · simp [taken]
    · simp [taken]
  case shl d a b w mask | shr d a b w =>
    refine followedBy_set ?_
    by_cases far : w ≤ (r b).toNat
    · simp [far]
    · simp [far]
  case bitDyn d src i w =>
    split
    · trivial
    · exact followedBy_set (by simp [*])
  case redAnd d src mask =>
    obtain ⟨w, _, rfl, has⟩ := checks
    exact followedBy_set (redAnd_known (holds.has has))
  case concat d parts =>
    exact followedBy_set (concatPartsX_known checks.1 fun p member => holds.has (checks.2 p member))
  case loadSigNot dl d sig =>
    refine followedBy_load fun clean => ?_
    rw [Sim.sigX_of_clean clean, setX_known]
    exact followedBy_set (by simp [bne])
  case loadSigLogAnd dl sig d a b | loadSigLogOr dl sig d a b | loadSigAnd dl sig d a b =>
    refine followedBy_load fun clean => ?_
    rw [Sim.sigX_of_clean clean, setX_known]
    exact followedBy_set (by simp)
  case loadSigRepl dl sig d w count =>
    refine followedBy_load fun clean => ?_
    rw [Sim.sigX_of_clean clean, setX_known]
    exact followedBy_set (by simp)
  case sigRangeEqC dr d sig lo w k =>
    refine followedBy_load fun clean => ?_
    rw [Sim.sigX_of_clean clean, sliceP_known, setX_known]
    exact followedBy_set (by simp)
  case sigBitNot db d sig bit =>
    refine followedBy_load fun clean => ?_
    rw [Sim.sigX_of_clean clean, sliceP_known, setX_known]
    exact followedBy_set (by simp [bne])
  case sigRangeAnd dr sig lo mask d a b | sigRangeEq dr sig lo mask d a b =>
    refine followedBy_load fun clean => ?_
    rw [Sim.sigX_of_clean clean, sliceP_known, setX_known]
    exact followedBy_set (by simp)
  case logNotAnd dn src d a b | logNotLogAnd dn src d a b =>
    rw [logNot_known, setX_known]
    exact followedBy_set (by simp)
  case constEq dc v d a b =>
    rw [setX_known]
    exact followedBy_set (by simp)
  case andOr d1 a1 b1 d a b =>
    rw [andP_known, setX_known]
    exact followedBy_set (by simp)
  case loadSig2 d1 sig1 d2 sig2 =>
    refine followedBy_load fun clean1 => followedBy_load fun clean2 => ?_
    rw [Sim.sigX_of_clean clean1, Sim.sigX_of_clean clean2, setX_known]
    exact followedBy_set rfl
  case sigBit2 d1 sig1 bit1 d2 sig2 bit2 =>
    refine followedBy_load fun clean1 => followedBy_load fun clean2 => ?_
    rw [Sim.sigX_of_clean clean1, Sim.sigX_of_clean clean2, sliceP_known, sliceP_known, setX_known]
    exact followedBy_set rfl
  case loadSigSigRange dl sig d sig2 lo mask =>
    refine followedBy_load fun clean1 => followedBy_load fun clean2 => ?_
    rw [Sim.sigX_of_clean clean1, Sim.sigX_of_clean clean2, sliceP_known, setX_known]
    exact followedBy_set rfl
  case logAndStore d a b sig mask | logOrStore d a b sig mask =>
    simp only [t3_known, and3_some, or3_some, fromT3_some, setX_known, known_v, known_x,
      BitVec.zero_and]
    exact followedBy_next (.store sig _ mask)
  case andRangeStore d a b sig hi lo | orRangeStore d a b sig hi lo =>
    simp only [andP_known, orP_known, setX_known, known_v, known_x, BitVec.zero_and]
    exact followedBy_next (.same _)
  case store sig src mask =>
    rw [BitVec.zero_and]
    exact followedBy_next (.store sig _ mask)
  case storeNba sig src w mask =>
    rw [BitVec.zero_and]
    exact followedBy_next (.nba sig _ w)
  case rangeStore | rangeStoreNba | rangeStoreW | rangeStoreNbaW =>
    rw [BitVec.zero_and]
    exact followedBy_next (.same _)
  case constStoreNba | constStoreX | rangeStoreX | rangeStoreXW | rangeFillW | rangeFillNbaW
    | rangeFillXW | covHit =>
    exact followedBy_next (.same _)
  case saveSig sig =>
    exact followedBy_next (.saveSig sig)
  case saveSigW sig =>
    exact followedBy_next (.saveSigW sig)
  case loadSigBrNz dl sig t =>
    refine followedBy_load fun clean => ?_
    simp only [Sim.sigX_of_clean clean, setX_known]
    exact followedBy_ite (by simp) (fun _ => rfl) fun _ => followedBy_next (.same none)
  case brFalseLoadSig src t dl sig =>
    exact followedBy_ite (by simp) (fun _ => rfl) fun _ =>
      followedBy_load fun clean => followedBy_set (Sim.sigX_of_clean clean)
  case eqBrFalse d a b t =>
    simp only [eqP_known, setX_known]
    exact followedBy_ite (by simp) (fun _ => rfl) fun _ => followedBy_next (.same none)
  case eqCBrFalse d src k t =>
    simp only [eqP_known, setX_known]
    exact followedBy_ite (by simp) (fun _ => rfl) fun _ => followedBy_next (.same none)
  case brSigFalse sig bit t =>
    cases bit with
    | none =>
      refine followedBy_load fun clean => ?_
      simp only [Sim.sigX_of_clean clean, t3_known]
      by_cases zero : (s.sigPlanes sig).1 = 0#64
      · simp [zero, TsOutcome.FollowedBy]
      · simpa [zero] using followedBy_next (.same none)
    | some bit =>
      refine followedBy_load fun clean => ?_
      simp only [pair_of_clean clean, t3_known]
      by_cases zero : (rawBitsSlice (s.signalTable sig) bit 1).1 = 0#64
      · simp [zero, TsOutcome.FollowedBy]
      · simpa [zero] using followedBy_next (.same none)
  case brFalse src t | brNz src t =>
    exact followedBy_ite (by simp) (fun _ => rfl) fun _ => followedBy_next (.same none)
  case jmp t => rfl
  case jmpPoll t =>
    cases poll with
    | false => rfl
    | true => trivial
  case loopPoll =>
    cases poll with
    | false => exact followedBy_next (.same none)
    | true => trivial
  case caseJmp src cj => rfl
  case caseMaskJmp src cm =>
    simp only [BitVec.zero_and, ne_eq, not_true_eq_false, if_false]
    cases found : cm.mj.table[(shr (r src &&& cm.mask) cm.lo &&& cm.wmask).toNat]? with
    | none => trivial
    | some t => simp [TsOutcome.FollowedBy]
  case sigRangeDyn d sig i w sw mask =>
    cases pastEnd (r i) w sw with
    | none => trivial
    | some past =>
      cases past with
      | true => trivial
      | false => exact followedBy_load fun clean => followedBy_set (by rw [clean]; simp)
  case rangeStoreDyn sig i src w sw mask | rangeStoreNbaDyn sig i src w sw mask =>
    simp only [BitVec.zero_and, ne_eq, not_true_eq_false, if_false]
    cases pastEnd (r i) w sw with
    | none => trivial
    | some past =>
      cases past with
      | true => trivial
      | false => exact followedBy_next (.same _)
  case bitStoreDyn sig i src w =>
    simp only [BitVec.zero_and]
    exact followedBy_ite (by simp) (fun _ => followedBy_next (.same _)) fun _ =>
      followedBy_next (.same none)
  case bitStoreNbaDyn sig i src w =>
    -- The narrow width makes both executors compose within one word.
    have narrow : ¬ w > 64 := by have := checks.2.2.2; omega
    simp only [BitVec.zero_and, bitStoreDynOp, narrow, decide_false]
    exact followedBy_ite (by simp) (fun _ => followedBy_next (.same _)) fun _ =>
      followedBy_next (.same none)
  case elemLoad op =>
    refine followedBy_go (fun inside => followedBy_go (fun clean => ?_) fun _ => trivial)
      fun _ => trivial
    simpa [inside] using followedBy_set (Sim.sigX_of_clean (by simpa using clean))
  case elemStore op =>
    simp only [BitVec.zero_and]
    exact followedBy_iteNot (by simp) (fun _ => followedBy_next (.same none)) fun _ =>
      followedBy_next (.store _ _ op.mask)
  case elemStoreNba op =>
    simp only [BitVec.zero_and]
    exact followedBy_iteNot (by simp) (fun _ => followedBy_next (.same none)) fun _ =>
      followedBy_next (.nba _ _ op.w)
  case elemStoreNbaFromSig f =>
    -- Only this copy passes an unknown bit on instead of stopping at it.
    have known := Sim.sigPlanes_of_clean (clean f.sig (by simp [TsInsn.reads]))
    simp only [Sim.sigX_of_clean known, known, setX_known, BitVec.zero_and, knownRegs_apply,
      known_v, known_x]
    exact followedBy_iteNot (by simp) (fun _ => followedBy_next (.same none)) fun _ =>
      followedBy_next (.same _)
  case nbaFromElem op =>
    by_cases unknown : (s.sigPlanes op.idxSig).2 = 0#64
    · simp only [Sim.sigX_of_clean unknown, unknown, ne_eq, not_true_eq_false, if_false, false_or,
        known_v, known_x]
      refine followedBy_go (fun inside => ?_) fun _ => trivial
      refine followedBy_go (fun clean => ?_) fun _ => trivial
      simp only [inside]
      rw [Sim.sigX_of_clean (by simpa using clean)]
      simpa using followedBy_next (.nba _ _ _)
    · simpa [Sim.sigX, pair, unknown] using followedBy_next (.same _)
  case wNbaFromElem op =>
    by_cases unknown : (s.sigPlanes op.idxSig).2 = 0#64
    · simp only [Sim.sigX_of_clean unknown, unknown, ne_eq, not_true_eq_false, if_false, false_or,
        known_v, known_x]
      refine followedBy_go (fun inside => ?_) fun _ => trivial
      simpa [inside] using followedBy_next (.same _)
    · simpa [Sim.sigX, pair, unknown] using followedBy_next (.same _)
  all_goals trivial

end Steps

section Stores

variable [ValueOps] {D : Design} {s sx : Sim}

omit [ValueOps] in
/-- Agreeing store calls are the same update. -/
theorem StoreOp.Agrees.update {op opx : Option StoreOp} (agree : StoreOp.Agrees op opx) :
    op.bind (StoreOp.update D) = opx.bind (StoreOp.update D) := by
  cases agree with
  | store id v mask => simp [StoreOp.update]
  | _ => rfl

/-- Calls on alike simulators leave them alike. -/
theorem Sim.Alike.apply (alike : s.Alike sx) (op : StoreOp) :
    (op.apply D s).Alike (op.apply D sx) := by
  obtain ⟨table, queue, hits⟩ := alike
  cases s
  cases sx
  cases table
  cases queue
  cases hits
  -- No helper looks at the saves to decide what else to do.
  cases op <;> simp only [StoreOp.apply, tsStore, tsStoreXz, tsRangeStoreXz, tsWideRangeStore,
    tsWideRangeFillXz, tsWideRangeFill, tsStoreNba, tsStoreNbaXz, tsStoreNbaVal, tsRangeStoreNbaXz,
    tsWideRangeStoreNbaXz, tsWideRangeFillNba, tsCovHit, tsSaveSig, tsSaveSigW]
  case covHit | saveSig | saveSigW => exact ⟨rfl, rfl, rfl⟩
  all_goals
    repeat' split
    all_goals exact ⟨rfl, rfl, rfl⟩

/-- A save is all the two-state executor does by it. -/
theorem Sim.Alike.save (alike : s.Alike sx) {op : StoreOp}
    (saves : (∃ sig, op = .saveSig sig) ∨ ∃ sig, op = .saveSigW sig) :
    (op.apply D s).Alike sx := by
  rcases saves with ⟨sig, rfl⟩ | ⟨sig, rfl⟩ <;> exact ⟨alike.table, alike.queue, alike.hits⟩

variable [LawfulValueOps]

/-- Agreeing store calls on alike simulators leave them alike. -/
theorem Sim.Alike.after (alike : s.Alike sx) {op opx : Option StoreOp}
    (agree : StoreOp.Agrees op opx) (ok : s.Ok D) (legal : ∀ o, op = some o → o.Ok D) :
    (op.elim s (StoreOp.apply D s)).Alike (opx.elim sx (StoreOp.apply D sx)) := by
  cases agree with
  | same op =>
    cases op with
    | none => exact alike
    | some o => exact alike.apply o
  | store id v mask =>
    -- Both forms of a known store are the same masked update of the entry.
    have stored := StoreOp.apply_blocking (legal _ rfl) ok.entries (D := D) (s := s) rfl rfl
    obtain ⟨narrow, rfl, small⟩ := legal _ rfl
    have legalX : (StoreOp.storeXz id v 0#64).Ok D := ⟨narrow, small, fits_zero _⟩
    have storedX := StoreOp.apply_blocking legalX ok.entries rfl rfl
    have same : (StoreOp.store id v (xmask (D.signalWidths id))).apply D s =
        (StoreOp.storeXz id v 0#64).apply D s := by
      rw [stored, storedX]
      simp
    simp only [Option.elim_some, same]
    exact alike.apply _
  | nba id v w =>
    have same : (StoreOp.storeNbaXz id v 0#64 w).apply D sx =
        (StoreOp.storeNba id v w).apply D sx := by
      simp [StoreOp.apply, tsStoreNbaXz]
    simp only [Option.elim_some, same]
    exact alike.apply _
  | saveSig sig => exact alike.save (D := D) (.inl ⟨sig, rfl⟩)
  | saveSigW sig => exact alike.save (D := D) (.inr ⟨sig, rfl⟩)

end Stores

end Xezim
