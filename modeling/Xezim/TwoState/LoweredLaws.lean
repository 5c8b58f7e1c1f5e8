import Xezim.TwoState.Lowered
import Xezim.TwoState.ReplicateLaws

/-! Registers of a lowered stream keep the widths it was lowered at, and its stores stay legal. -/

namespace Xezim

open Splice KnownBits Function

/-- A load that falls through read no x or z bit. -/
theorem TsOutcome.of_load {p : Word × Word} {k : Word → TsOutcome} {out : TsOutcome}
    (loaded : TsOutcome.load p k = out) (clean : out ≠ .xbail) : p.2 = 0#64 ∧ k p.1 = out := by
  unfold TsOutcome.load at loaded
  split at loaded
  · exact absurd loaded.symm clean
  · rename_i known
    exact ⟨by simpa using known, loaded⟩

section Fits

variable {w : Nat} {u v : Word}

/-- A masked word occupies no more bits than its mask. -/
theorem fits_bitLen_and (u m : Word) : Fits (bitLen m) (u &&& m) :=
  Fits.and_right (fits_of_toNat_lt (Nat.lt_size_self m.toNat)) u

/-- A word fits in the number of bits it occupies. -/
theorem fits_bitLen (u : Word) : Fits (bitLen u) u := fits_of_toNat_lt (Nat.lt_size_self u.toNat)

/-- A selected bit fits in one bit. -/
theorem fits_and_one (u : Word) : Fits 1 (u &&& 1#64) :=
  Fits.and_right (fits_ofBool true) u

/-- A conjunction fits in the narrower operand's width. -/
theorem fits_and {w' : Nat} (left : Fits w u) (right : Fits w' v) : Fits (min w w') (u &&& v) := by
  rcases Nat.le_total w w' with narrow | narrow
  · rw [Nat.min_eq_left narrow]
    exact left.and_left v
  · rw [Nat.min_eq_right narrow]
    exact right.and_right u

/-- A difference fits wherever both operands do. -/
theorem fits_xor (left : Fits w u) (right : Fits w v) : Fits w (u ^^^ v) := by
  intro i far
  simp [left i far, right i far]

/-- A right shift keeps the width of what it moves. -/
theorem fits_shr (fits : Fits w u) (k : Nat) : Fits w (shr u k) := fits.shiftRight _

end Fits

namespace RegWidths

variable {ws : RegWidths} {r : Regs}

/-- A register holds a word of the width asked for. -/
theorem Holds.has (holds : ws.Holds r) {d w : Nat} (has : ws.Has d w) : Fits w (r d) := by
  obtain ⟨v, defined, narrow⟩ := has
  exact (holds d v defined).mono narrow

/-- A register holds a word of the width known for it. -/
theorem Holds.of (holds : ws.Holds r) (d : Nat) : Fits (ws.of d) (r d) := by
  unfold RegWidths.of
  cases defined : ws d with
  | none => exact fits_full _
  | some w => exact holds d w defined

/-- Two registers hold words of the wider one's width. -/
theorem Holds.max (holds : ws.Holds r) (a b : Nat) :
    Fits (max (ws.of a) (ws.of b)) (r a) ∧ Fits (max (ws.of a) (ws.of b)) (r b) :=
  ⟨(holds.of a).mono (Nat.le_max_left _ _), (holds.of b).mono (Nat.le_max_right _ _)⟩

/-- Defining a register at a width its new content fits in. -/
theorem Holds.set (holds : ws.Holds r) {d w : Nat} {v : Word} (fits : Fits w v) :
    (ws.set d w).Holds (setReg r d v) := by
  intro d' w' defined
  by_cases same : d' = d
  · subst same
    simp only [RegWidths.set, update_self, Option.some.injEq] at defined
    simpa [setReg, ← defined] using fits
  · simp only [RegWidths.set, update_of_ne same] at defined
    simpa [setReg, update_of_ne same] using holds d' w' defined

/-- Forgetting what is known about registers keeps the rest true. -/
theorem Holds.le {ws' : RegWidths} (holds : ws.Holds r) (le : ws'.Le ws) : ws'.Holds r :=
  fun d w defined => holds.has (le d w defined)

end RegWidths

section Reads

variable [ValueOps] [LawfulValueOps] {D : Design} {s : Sim}

/-- A loaded word fits in the signal's width. -/
theorem Sim.EntryOk.fits_sigPlanes {sig : Nat} (ok : s.EntryOk D sig) :
    Fits (min (D.signalWidths sig) 64) (s.sigPlanes sig).1 ∧
      Fits (min (D.signalWidths sig) 64) (s.sigPlanes sig).2 := by
  have plane : ∀ n : Nat, n < 2 ^ D.signalWidths sig →
      Fits (min (D.signalWidths sig) 64) (BitVec.ofNat 64 n) := by
    intro n small i far
    by_cases inside : i < 64
    · rw [BitVec.getLsbD_ofNat, testBit_of_lt small (by omega), Bool.and_false]
    · exact BitVec.getLsbD_of_ge _ i (Nat.le_of_not_lt inside)
  have fits := ok.fits
  rw [Value.Fits, ok.width] at fits
  rw [Sim.sigPlanes, LawfulValueOps.rawBits_eq]
  exact ⟨plane _ fits.1, plane _ fits.2⟩

/-- A slice fits in its length. -/
theorem fits_rawBitsSlice {v : Value} (fits : v.Fits) (lo : Nat) {w : Nat} (word : w ≤ 64) :
    Fits w (rawBitsSlice v lo w).1 ∧ Fits w (rawBitsSlice v lo w).2 := by
  unfold rawBitsSlice
  split
  · exact ⟨(fits_xmask w).and_right _, (fits_xmask w).and_right _⟩
  · rw [LawfulValueOps.slice_planes v lo w word fits]
    have plane : ∀ n : Nat, Fits w (BitVec.ofNat 64 (window n lo w)) := fun n =>
      fits_of_toNat_lt (by
        rw [toNat_ofNat_of_lt (window_lt n lo w) word]
        exact window_lt n lo w)
    exact ⟨plane _, plane _⟩

end Reads

/-- The parts of a concatenation fit in the sum of their widths. -/
theorem fits_concatParts {ws : RegWidths} {r : Regs} (holds : ws.Holds r)
    {parts : List (Nat × Nat)} (has : ∀ p ∈ parts, ws.Has p.1 p.2) :
    Fits (parts.map Prod.snd).sum (concatParts r parts) := by
  cases parts with
  | nil => exact fits_zero _
  | cons first rest =>
    -- The accumulated width grows with every part joined below.
    have general : ∀ (rest : List (Nat × Nat)) (acc : Word) (total : Nat), Fits total acc →
        (∀ p ∈ rest, ws.Has p.1 p.2) →
        Fits (total + (rest.map Prod.snd).sum)
          (rest.foldl (fun acc p => shl acc p.2 ||| r p.1) acc) := by
      intro rest
      induction rest with
      | nil =>
        intro acc total fits _
        simpa using fits
      | cons p rest ih =>
        intro acc total fits has
        have joined : Fits (total + p.2) (shl acc p.2 ||| r p.1) :=
          fits_or (fits_shl fits p.2) ((holds.has (has p (by simp))).mono (by omega))
        have grown := ih _ _ joined fun q member => has q (by simp [member])
        rw [List.foldl_cons, List.map_cons, List.sum_cons, ← Nat.add_assoc]
        exact grown
    have firstFits := holds.has (has first (by simp))
    rw [List.map_cons, List.sum_cons]
    exact general rest (r first.1) first.2 firstFits fun p member => has p (by simp [member])

/-- A slice that passed the bounds test starts and ends inside the signal. -/
theorem pastEnd_false {lo : Word} {w sw : Nat} (tested : pastEnd lo w sw = some false)
    (small : sw < 2 ^ 16) : asU32 lo = lo.toNat ∧ lo.toNat + w ≤ sw := by
  unfold pastEnd at tested
  split at tested
  · simp only [Option.some.injEq, decide_eq_false_iff_not, not_lt] at tested
    exact ⟨Nat.mod_eq_of_lt (by omega), tested⟩
  · cases tested

section Steps

variable [ValueOps] [LawfulValueOps] {D : Design} {s : Sim} {ws : RegWidths} {r r' : Regs}
  {op : Option StoreOp}

/-- What a step that falls through leaves: registers of known widths, and a legal store call. -/
def StepOk (D : Design) (ws : RegWidths) (r : Regs) (op : Option StoreOp) : Prop :=
  ws.Holds r ∧ ∀ o, op = some o → o.Ok D

omit [ValueOps] [LawfulValueOps] in
/-- Writing one register with a word of its width. -/
theorem stepOk_set {d w : Nat} {v : Word} (stepped : TsOutcome.set r d v = .next r' op)
    (holds : ws.Holds r) (fits : Fits w v) : StepOk D (ws.set d w) r' op := by
  cases stepped
  exact ⟨holds.set fits, fun o made => by cases made⟩

omit [ValueOps] [LawfulValueOps] in
/-- Making one legal store call. -/
theorem stepOk_store {o : StoreOp} (stepped : TsOutcome.next r (some o) = .next r' op)
    (holds : ws.Holds r) (ok : o.Ok D) : StepOk D ws r' op := by
  cases stepped
  exact ⟨holds, fun o' made => by cases made; exact ok⟩

omit [ValueOps] [LawfulValueOps] in
/-- Doing nothing. -/
theorem stepOk_skip (stepped : TsOutcome.next r none = .next r' op) (holds : ws.Holds r) :
    StepOk D ws r' op := by
  cases stepped
  exact ⟨holds, fun o made => by cases made⟩

omit [ValueOps] [LawfulValueOps] in
/-- The store call of an in-range slice at a run-time offset is legal. -/
theorem rangeStoreDynOp_ok (nba : Bool) {sig w sw : Nat} {lo v x : Word}
    (tested : pastEnd lo w sw = some false) (some : 1 ≤ w) (short : w ≤ 64)
    (width : sw = D.signalWidths sig) (small : sw < 2 ^ 16) :
    (rangeStoreDynOp nba sig lo v x w sw).Ok D := by
  obtain ⟨same, inside⟩ := pastEnd_false tested small
  unfold rangeStoreDynOp
  by_cases wide : sw > 64
  · cases nba <;> simp only [wide, decide_true, StoreOp.Ok] <;> omega
  · cases nba <;> simp only [wide, decide_false, StoreOp.Ok] <;> omega

omit [ValueOps] [LawfulValueOps] in
/-- The store call of an in-range bit at a run-time position is legal. -/
theorem bitStoreDynOp_ok (nba : Bool) {sig w : Nat} {idx v x : Word} (inside : idx.toNat < w)
    (width : w = D.signalWidths sig) (small : w < 2 ^ 32) :
    (bitStoreDynOp nba sig idx v x w).Ok D := by
  have same : asU32 idx = idx.toNat := Nat.mod_eq_of_lt (by omega)
  unfold bitStoreDynOp
  by_cases wide : w > 64
  · cases nba <;> simp only [wide, decide_true, StoreOp.Ok] <;> omega
  · cases nba <;> simp only [wide, decide_false, StoreOp.Ok] <;> omega

omit [ValueOps] [LawfulValueOps] in
/-- An index that is not outside lies between the bounds. -/
theorem of_outside_eq_false {lo hi i : Int} (inside : outside lo hi i = false) : lo ≤ i ∧ i ≤ hi := by
  simp only [outside, decide_eq_false_iff_not] at inside
  omega

-- The step is unfolded at one instruction a time.
attribute [local simp] tsStep in
/-- An instruction that falls through keeps the registers' widths and makes a legal store. -/
theorem tsStep_next {insn : TsInsn} {poll : Bool} (checks : insn.Checks D ws)
    (holds : ws.Holds r) (entries : ∀ id, s.EntryOk D id)
    (stepped : tsStep s poll r insn = .next r' op) : StepOk D (insn.defs D ws) r' op := by
  have noX : (TsOutcome.next r' op) ≠ .xbail := by simp
  cases insn <;> simp only [tsStep] at stepped
  case loadSig d sig =>
    exact stepOk_set (TsOutcome.of_load stepped noX).2 holds (entries sig).fits_sigPlanes.1
  case const d v =>
    exact stepOk_set stepped holds (fits_bitLen v)
  case sigBit d sig bit =>
    exact stepOk_set (TsOutcome.of_load stepped noX).2 holds (fits_and_one _)
  case sigRange d sig lo m =>
    exact stepOk_set (TsOutcome.of_load stepped noX).2 holds (fits_bitLen_and _ m)
  case sigBitW d sig bit =>
    exact stepOk_set (TsOutcome.of_load stepped noX).2 holds
      (fits_rawBitsSlice (entries sig).fits bit (by decide)).1
  case sigRangeW d sig lo w m =>
    exact stepOk_set (TsOutcome.of_load stepped noX).2 holds (fits_bitLen_and _ m)
  case bit d src bit =>
    exact stepOk_set stepped holds (fits_and_one _)
  case range d src lo m =>
    exact stepOk_set stepped holds (fits_bitLen_and _ m)
  case xor d a b =>
    exact stepOk_set stepped holds (fits_xor (holds.max a b).1 (holds.max a b).2)
  case and d a b =>
    exact stepOk_set stepped holds (fits_and (holds.of a) (holds.of b))
  case or d a b =>
    exact stepOk_set stepped holds (fits_or (holds.max a b).1 (holds.max a b).2)
  case sel d c a b m =>
    refine stepOk_set stepped holds ?_
    split
    · exact (holds.max a b).1
    · exact (holds.max a b).2
  case not d src m =>
    exact stepOk_set stepped holds (fits_bitLen_and _ m)
  case xorC d src k =>
    exact stepOk_set stepped holds (fits_xor ((holds.of src).mono (Nat.le_max_left _ _))
      ((fits_bitLen k).mono (Nat.le_max_right _ _)))
  case maskEq | eqC | eq | neq | lt | leq | gt | geq | cmpS | logNot | logAnd | logOr | redOr
    | redAnd =>
    exact stepOk_set stepped holds (fits_ofBool _)
  case add d a b m | addC d a b m | sub d a b m | mul d a b m =>
    exact stepOk_set stepped holds (fits_bitLen_and _ m)
  case shl d a b w m =>
    refine stepOk_set stepped holds ?_
    split
    · exact fits_zero _
    · exact fits_bitLen_and _ m
  case shr d a b w =>
    refine stepOk_set stepped holds ?_
    split
    · exact fits_zero _
    · exact fits_shr (holds.of a) _
  case bitDyn d src i w =>
    split at stepped
    · cases stepped
    · exact stepOk_set stepped holds (fits_and_one _)
  case loadSigNot dl d sig =>
    exact stepOk_set (TsOutcome.of_load stepped noX).2
      (holds.set (entries sig).fits_sigPlanes.1) (fits_ofBool _)
  case sigRangeEqC dr d sig lo w k =>
    exact stepOk_set (TsOutcome.of_load stepped noX).2
      (holds.set ((fits_xmask w).and_right _)) (fits_ofBool _)
  case loadSigLogAnd dl sig d a b | loadSigLogOr dl sig d a b =>
    exact stepOk_set (TsOutcome.of_load stepped noX).2
      (holds.set (entries sig).fits_sigPlanes.1) (fits_ofBool _)
  case loadSigAnd dl sig d a b =>
    have loaded := holds.set (d := dl) (entries sig).fits_sigPlanes.1
    exact stepOk_set (TsOutcome.of_load stepped noX).2 loaded
      (fits_and (loaded.of a) (loaded.of b))
  case logNotAnd dn src d a b =>
    have negated := holds.set (d := dn) (fits_ofBool (r src == 0#64))
    exact stepOk_set stepped negated (fits_and (negated.of a) (negated.of b))
  case logNotLogAnd dn src d a b =>
    exact stepOk_set stepped (holds.set (fits_ofBool _)) (fits_ofBool _)
  case logAndStore d a b sig m | logOrStore d a b sig m =>
    obtain ⟨_, _, narrow, rfl⟩ := checks
    exact stepOk_store stepped (holds.set (fits_ofBool _))
      ⟨narrow, rfl, (fits_xmask _).and_right _⟩
  case andRangeStore d a b sig hi lo =>
    obtain ⟨_, _, narrow, top⟩ := checks
    exact stepOk_store stepped (holds.set (fits_and (holds.of a) (holds.of b)))
      ⟨narrow, Or.inr top⟩
  case orRangeStore d a b sig hi lo =>
    obtain ⟨_, _, narrow, top⟩ := checks
    exact stepOk_store stepped (holds.set (fits_or (holds.max a b).1 (holds.max a b).2))
      ⟨narrow, Or.inr top⟩
  case sigBitNot db d sig bit =>
    exact stepOk_set (TsOutcome.of_load stepped noX).2 (holds.set (fits_and_one _)) (fits_ofBool _)
  case loadSig2 d1 sig1 d2 sig2 =>
    have second := (TsOutcome.of_load stepped noX).2
    exact stepOk_set (TsOutcome.of_load second noX).2
      (holds.set (entries sig1).fits_sigPlanes.1) (entries sig2).fits_sigPlanes.1
  case sigBit2 d1 sig1 bit1 d2 sig2 bit2 =>
    have second := (TsOutcome.of_load stepped noX).2
    exact stepOk_set (TsOutcome.of_load second noX).2 (holds.set (fits_and_one _)) (fits_and_one _)
  case loadSigRepl dl sig d w count =>
    have loaded := (entries sig).fits_sigPlanes.1
    exact stepOk_set (TsOutcome.of_load stepped noX).2 (holds.set loaded)
      (fits_replicateNarrow (loaded.mono (by have := checks.2; omega)) count)
  case loadSigSigRange dl sig d sig2 lo m =>
    have second := (TsOutcome.of_load stepped noX).2
    exact stepOk_set (TsOutcome.of_load second noX).2
      (holds.set (entries sig).fits_sigPlanes.1) (fits_bitLen_and _ m)
  case sigRangeAnd dr sig lo m d a b =>
    have loaded := holds.set (d := dr) (fits_bitLen_and (shr (s.sigPlanes sig).1 lo) m)
    exact stepOk_set (TsOutcome.of_load stepped noX).2 loaded
      (fits_and (loaded.of a) (loaded.of b))
  case sigRangeEq dr sig lo m d a b =>
    exact stepOk_set (TsOutcome.of_load stepped noX).2 (holds.set (fits_bitLen_and _ m))
      (fits_ofBool _)
  case constEq dc v d a b =>
    exact stepOk_set stepped (holds.set (fits_bitLen v)) (fits_ofBool _)
  case andOr d1 a1 b1 d a b =>
    have first := holds.set (d := d1) (fits_and (holds.of a1) (holds.of b1))
    exact stepOk_set stepped first (fits_or (first.max a b).1 (first.max a b).2)
  case concat d parts =>
    exact stepOk_set stepped holds (fits_concatParts holds checks.2)
  case concat2 d a wa b wb =>
    obtain ⟨_, hasA, hasB⟩ := checks
    exact stepOk_set stepped holds (fits_or (fits_shl (holds.has hasA) wb)
      ((holds.has hasB).mono (by omega)))
  case concat3 d a wa b wb c wc =>
    obtain ⟨_, hasA, hasB, hasC⟩ := checks
    have two : Fits (wa + wb) (shl (r a) wb ||| r b) :=
      fits_or (fits_shl (holds.has hasA) wb) ((holds.has hasB).mono (by omega))
    exact stepOk_set stepped holds (fits_or (fits_shl two wc) ((holds.has hasC).mono (by omega)))
  case mask d m =>
    exact stepOk_set stepped holds (fits_bitLen_and _ m)
  case repl d src w count =>
    exact stepOk_set stepped holds (fits_replicateNarrow (holds.has checks.2) count)
  case loadSigBrNz dl sig t =>
    have loaded := (TsOutcome.of_load stepped noX).2
    split at loaded
    · cases loaded
    · exact stepOk_set loaded holds (entries sig).fits_sigPlanes.1
  case brFalseLoadSig src t dl sig =>
    split at stepped
    · cases stepped
    · exact stepOk_set (TsOutcome.of_load stepped noX).2 holds (entries sig).fits_sigPlanes.1
  case eqBrFalse d a b t | eqCBrFalse d src k t =>
    split at stepped
    · cases stepped
    · exact stepOk_set stepped holds (fits_ofBool _)
  case brSigFalse sig bit t =>
    cases bit <;>
    · have loaded := (TsOutcome.of_load stepped noX).2
      split at loaded
      · exact stepOk_skip loaded holds
      · cases loaded
  case brFalse src t | brNz src t =>
    split at stepped
    · cases stepped
    · exact stepOk_skip stepped holds
  case jmpPoll t => split at stepped <;> cases stepped
  case loopPoll =>
    split at stepped
    · cases stepped
    · exact stepOk_skip stepped holds
  case caseMaskJmp src cm => split at stepped <;> cases stepped
  case sigRangeDyn d sig i w sw m =>
    split at stepped
    · cases stepped
    · cases stepped
    · exact stepOk_set (TsOutcome.of_load stepped noX).2 holds (fits_bitLen_and _ m)
  case rangeStoreDyn sig i src w sw m | rangeStoreNbaDyn sig i src w sw m =>
    obtain ⟨_, _, some, short, width, small⟩ := checks
    split at stepped
    · cases stepped
    · cases stepped
    · rename_i tested
      exact stepOk_store stepped holds (rangeStoreDynOp_ok _ tested some short width small)
  case bitStoreDyn sig i src w =>
    obtain ⟨_, _, width, small⟩ := checks
    split at stepped
    · rename_i inside
      exact stepOk_store stepped holds (bitStoreDynOp_ok _ inside width small)
    · exact stepOk_skip stepped holds
  case bitStoreNbaDyn sig i src w =>
    obtain ⟨_, _, width, narrow⟩ := checks
    split at stepped
    · rename_i inside
      have same : asU32 (r i) = (r i).toNat := Nat.mod_eq_of_lt (by omega)
      refine stepOk_store stepped holds ⟨by omega, by omega⟩
    · exact stepOk_skip stepped holds
  case covHit | saveSig | saveSigW | rangeFillW | rangeFillNbaW | rangeFillXW =>
    exact stepOk_store stepped holds trivial
  case constStoreX sig v x =>
    exact stepOk_store stepped holds checks
  case rangeStoreX p =>
    exact stepOk_store stepped holds ⟨checks.1, Or.inr checks.2⟩
  case rangeStoreXW p =>
    exact stepOk_store stepped holds checks.2
  case store sig src m =>
    obtain ⟨_, narrow, rfl⟩ := checks
    exact stepOk_store stepped holds ⟨narrow, rfl, (fits_xmask _).and_right _⟩
  case storeNba sig src w m =>
    obtain ⟨_, width, _, narrow, rfl⟩ := checks
    exact stepOk_store stepped holds ⟨width, narrow, (fits_xmask _).and_right _⟩
  case constStoreNba sig v w =>
    exact stepOk_store stepped holds checks
  case rangeStoreNba sig hi lo src m =>
    exact stepOk_store stepped holds checks.2
  case rangeStore sig hi lo src m =>
    exact stepOk_store stepped holds ⟨checks.2.1, Or.inr checks.2.2⟩
  case rangeStoreW sig hi lo src m | rangeStoreNbaW sig hi lo src m =>
    exact stepOk_store stepped holds checks.2.2
  case elemLoad op =>
    split at stepped
    · cases stepped
    · split at stepped
      · cases stepped
      · rename_i inside _
        have bounds := of_outside_eq_false (by simpa using inside)
        have fits := (entries (elemId op.first op.lo (r op.idx).toInt)).fits_sigPlanes.1
        rw [checks.2 _ bounds.1 bounds.2] at fits
        exact stepOk_set stepped holds fits
  case elemStore op =>
    split at stepped
    · exact stepOk_skip stepped holds
    · rename_i inside
      have bounds := of_outside_eq_false (by simpa using inside)
      obtain ⟨narrow, mask⟩ := checks.2.2 _ bounds.1 bounds.2
      refine stepOk_store stepped holds ⟨narrow, mask, ?_⟩
      rw [mask]
      exact (fits_xmask _).and_right _
  case elemStoreNba op =>
    obtain ⟨_, _, _, narrow, mask, each⟩ := checks
    split at stepped
    · exact stepOk_skip stepped holds
    · rename_i inside
      have bounds := of_outside_eq_false (by simpa using inside)
      refine stepOk_store stepped holds ⟨each _ bounds.1 bounds.2, narrow, ?_⟩
      rw [mask]
      exact (fits_xmask _).and_right _
  case elemStoreNbaFromSig f =>
    obtain ⟨_, positive, narrow, mask, each⟩ := checks
    have loaded := holds.set (d := f.dl) (entries f.sig).fits_sigPlanes.1
    split at stepped
    · exact stepOk_skip stepped loaded
    · rename_i inside
      have bounds := of_outside_eq_false (by simpa using inside)
      refine stepOk_store stepped loaded ⟨each _ bounds.1 bounds.2, positive, narrow, ?_, ?_⟩ <;>
        rw [mask] <;> exact (fits_xmask _).and_right _
  case nbaFromElem op =>
    obtain ⟨width, positive, narrow⟩ := checks
    have blank := (LawfulValueOps.new_planes (max op.w 1)).1
    split at stepped
    · refine stepOk_store stepped holds ?_
      simp only [StoreOp.Ok, blank]
      omega
    · split at stepped
      · cases stepped
      · split at stepped
        · cases stepped
        · exact stepOk_store stepped holds ⟨width, narrow, (fits_xmask _).and_right _⟩
  case wNbaFromElem op =>
    obtain ⟨width, positive, each⟩ := checks
    have blank := (LawfulValueOps.new_planes (max op.w 1)).1
    split at stepped
    · refine stepOk_store stepped holds ?_
      simp only [StoreOp.Ok, blank]
      omega
    · split at stepped
      · cases stepped
      · rename_i inside
        have bounds := of_outside_eq_false (by simpa using inside)
        refine stepOk_store stepped holds ?_
        simp only [StoreOp.Ok, (entries _).width, each _ bounds.1 bounds.2, width]
  -- Jumps go elsewhere, and the wide bank is not carried here.
  all_goals cases stepped

/-- A taken branch keeps the registers' widths and goes to one of its targets. -/
theorem tsStep_jump {insn : TsInsn} {poll : Bool} {t : Nat} (holds : ws.Holds r)
    (entries : ∀ id, s.EntryOk D id) (stepped : tsStep s poll r insn = .jump r' t) :
    (insn.jumpDefs D ws).Holds r' ∧ t ∈ insn.targets := by
  have noX : (TsOutcome.jump r' t) ≠ .xbail := by simp
  cases insn <;> simp only [tsStep, TsOutcome.set, reduceCtorEq] at stepped
  case loadSigBrNz dl sig t' =>
    have loaded := (TsOutcome.of_load stepped noX).2
    split at loaded
    · cases loaded
      exact ⟨holds.set (entries sig).fits_sigPlanes.1, by simp [TsInsn.targets]⟩
    · cases loaded
  case brFalseLoadSig src t' dl sig =>
    split at stepped
    · cases stepped
      exact ⟨holds, by simp [TsInsn.targets]⟩
    · cases (TsOutcome.of_load stepped noX).2
  case eqBrFalse d a b t' | eqCBrFalse d src k t' =>
    split at stepped
    · cases stepped
      exact ⟨holds.set (fits_ofBool _), by simp [TsInsn.targets]⟩
    · cases stepped
  case brSigFalse sig bit t' =>
    cases bit <;>
    · have loaded := (TsOutcome.of_load stepped noX).2
      split at loaded
      · cases loaded
      · cases loaded
        exact ⟨holds, by simp [TsInsn.targets]⟩
  case brFalse src t' | brNz src t' | jmpPoll t' =>
    split at stepped <;> cases stepped
    exact ⟨holds, by simp [TsInsn.targets]⟩
  case jmp t' =>
    cases stepped
    exact ⟨holds, by simp [TsInsn.targets]⟩
  case caseJmp src cj =>
    cases stepped
    refine ⟨holds, ?_⟩
    simp only [TsInsn.targets, List.mem_cons, List.getD_eq_getElem?_getD]
    cases found : cj.table[(r src).toNat]? with
    | none => simp
    | some t => exact Or.inr (by simpa using List.mem_of_getElem? found)
  case caseMaskJmp src cm =>
    split at stepped <;> cases stepped
    rename_i found
    exact ⟨holds, List.mem_of_getElem? found⟩
  -- Everything else falls through or stops.
  case sigRangeDyn d sig i w sw m =>
    split at stepped
    · cases stepped
    · cases stepped
    · cases (TsOutcome.of_load stepped noX).2
  case elemLoad op | wNbaFromElem op =>
    split at stepped
    · cases stepped
    · split at stepped <;> cases stepped
  case nbaFromElem op =>
    split at stepped
    · cases stepped
    · split at stepped
      · cases stepped
      · split at stepped <;> cases stepped
  case loadSig2 | sigBit2 | loadSigSigRange =>
    cases (TsOutcome.of_load (TsOutcome.of_load stepped noX).2 noX).2
  all_goals first
    | cases (TsOutcome.of_load stepped noX).2
    | split at stepped <;> cases stepped

end Steps

end Xezim
