import Xezim.Comb.Isolated
import Xezim.Comb.Reference

/-! When the two isolated evaluators agree, and what they report. -/

namespace Xezim.Comb

/-- How the conversions treat the type of a value: resizing and dropping x keep its flags, the two resizes differ in
the sign they repeat, and the conversions between real and integral change what they say. -/
class LawfulFit [GateOps] : Prop extends LawfulGateOps, LawfulResize where
  resize_flags (v : Value) (w : Nat) :
    (VmOps.resize v w).isSigned = v.isSigned ∧ (VmOps.resize v w).isReal = v.isReal
  toTwoState_flags (v : Value) :
    (VmOps.toTwoState v).isSigned = v.isSigned ∧ (VmOps.toTwoState v).isReal = v.isReal ∧
      (VmOps.toTwoState v).isFill = v.isFill
  realOf_isReal (v : Value) : (VmOps.realOf v).isReal = true
  intOfReal_isReal (v : Value) (w : Nat) : (VmOps.intOfReal v w).isReal = false

section Steps

variable [GateOps]

/-- A step on one signal: it changes nothing, or it changes that signal and reports it. -/
def Touches (id : Nat) (s s' : Outcome) : Prop :=
  s' = s ∨ ∃ v, v ≠ s.1 id ∧ s' = (Function.update s.1 id v, s.2 ++ [id])

variable [LawfulGateOps]

/-- A stored bit. -/
theorem setBit_touches (s : Outcome) (dst : BitRef) (code : Nat) : Touches dst.sigId s (setBit s dst code) := by
  have flag := LawfulGateOps.setBitCode_changed (s.1 dst.sigId) dst.bit code
  by_cases changed : (GateOps.setBitCode (s.1 dst.sigId) dst.bit code).1 = s.1 dst.sigId
  · -- The value is the one that was there.
    refine .inl ?_
    simp [setBit, flag, changed]
  · refine .inr ⟨_, changed, ?_⟩
    simp [setBit, flag, changed]

/-- A raw copy. -/
theorem copyRaw_touches (D : VmDesign) (src : Word × Word) (dst : Nat) (s : Outcome) :
    Touches dst s (copyRaw D src dst s) := by
  unfold copyRaw
  generalize (if src.2 ≠ 0 ∧ D.signalTwoState dst then (src.1 &&& ~~~src.2, 0) else src) = new
  dsimp only
  split
  · rename_i differ
    rw [LawfulValueOps.rawBits_eq] at differ
    by_cases narrow : (s.1 dst).width ≤ 64
    · -- New planes make a new value.
      rw [LawfulValueOps.setInlineBits_narrow _ _ _ narrow]
      refine .inr ⟨_, ?_, rfl⟩
      intro same
      have planes := congrArg Value.planes same
      simp only [Value.planes, BitVec.ofNat_toNat, BitVec.setWidth_eq] at planes
      exact differ planes
    · rw [LawfulValueOps.setInlineBits_wide _ _ _ (by omega)]
      exact .inl rfl
  · exact .inl rfl

omit [GateOps] [LawfulGateOps] in
/-- A stored value. -/
theorem storeValue_touches (dst : Nat) (v : Value) (s : Outcome) : Touches dst s (storeValue dst v s) := by
  unfold storeValue
  split
  · rename_i differ
    exact .inr ⟨v, differ.symm, rfl⟩
  · exact .inl rfl

/-- An inline copy that handles. -/
theorem copyInline_touches {D : VmDesign} {dst src width : Nat} {s s' : Outcome}
    (handled : copyInline D dst src width s = some s') : Touches dst s s' := by
  unfold copyInline at handled
  split at handled
  · dsimp only at handled
    split at handled
    · exact .inl (Option.some.inj handled).symm
    · rename_i differ
      rw [LawfulValueOps.rawBits_eq, LawfulValueOps.rawBits_eq] at differ
      obtain ⟨v, stored, rfl⟩ := Option.map_eq_some_iff.mp handled
      refine .inr ⟨v, ?_, rfl⟩
      rintro rfl
      by_cases narrow : (s.1 dst).width ≤ 64
      · -- The stored value has the planes of the source.
        rw [LawfulValueOps.setInlineBits_narrow _ _ _ narrow] at stored
        have planes := congrArg Value.planes (Option.some.inj stored)
        simp only [LawfulValueOps.rawBits_eq, Value.planes, BitVec.ofNat_toNat, BitVec.setWidth_eq] at planes
        exact differ planes
      · rw [LawfulValueOps.setInlineBits_wide _ _ _ (by omega)] at stored
        simp at stored
  · simp at handled

/-- What is reported is what changed, each signal once. -/
structure Reports (view : View) (s : Outcome) : Prop where
  once : s.2.Nodup
  changed : ∀ id, id ∈ s.2 ↔ s.1 id ≠ view id

omit [GateOps] [LawfulGateOps] in
/-- At first there is nothing to report. -/
theorem reports_start (view : View) : Reports view (view, []) := ⟨List.nodup_nil, by simp⟩

omit [GateOps] [LawfulGateOps] in
/-- A step on a signal not reported yet. -/
theorem Reports.step {view : View} {s s' : Outcome} {id : Nat} (reports : Reports view s) (fresh : id ∉ s.2)
    (touches : Touches id s s') : Reports view s' ∧ ∀ other, other ≠ id → (other ∈ s'.2 ↔ other ∈ s.2) := by
  rcases touches with rfl | ⟨v, differs, rfl⟩
  · exact ⟨reports, fun _ _ => Iff.rfl⟩
  · -- The net was not reported yet, so it still shows the value of the view.
    have old : s.1 id = view id := by
      by_contra changed
      exact fresh ((reports.changed id).mpr changed)
    refine ⟨⟨?_, ?_⟩, ?_⟩
    · -- The report is added once, and it is there exactly where the value changed.
      rw [List.nodup_append]
      refine ⟨reports.once, by simp, ?_⟩
      rintro a listed b here rfl
      rw [List.mem_singleton] at here
      exact fresh (here ▸ listed)
    · intro other
      by_cases here : other = id
      · subst here
        simp [old ▸ differs]
      · simp [here, reports.changed other]
    · intro other here
      simp [here]

omit [GateOps] [LawfulGateOps] in
/-- Steps on different signals, one after the other. -/
theorem Reports.fold {α : Type} {view : View} (id : α → Nat) {step : Outcome → α → Outcome}
    (touches : ∀ s a, Touches (id a) s (step s a)) (l : List α) {s : Outcome} (reports : Reports view s)
    (single : (l.map id).Nodup) (fresh : ∀ a ∈ l, id a ∉ s.2) : Reports view (l.foldl step s) := by
  induction l generalizing s with
  | nil => exact reports
  -- Each destination occurs once, so none of them is reported before its own turn.
  | cons a l ih =>
    rw [List.map_cons, List.nodup_cons] at single
    obtain ⟨kept, others⟩ := reports.step (fresh a List.mem_cons_self) (touches s a)
    refine ih kept single.2 ?_
    intro b inTail reported
    have differ : id b ≠ id a := fun same => single.1 (same ▸ List.mem_map_of_mem inTail)
    exact fresh b (List.mem_cons_of_mem a inTail) ((others _ differ).mp reported)

end Steps

section Agreement

variable [GateOps]

/-- The two evaluators leave the same view and report the same ids, an id is reported precisely when its signal
changed, and the gates compute what the serial evaluator computes from the same bits. -/
structure IsolatedAgrees (D : VmDesign) (gateDriven : Nat → Bool) (item : CombItem) (view : View) : Prop where
  same : evalCombItemIsolated D gateDriven item (view, []) =
    evalCombEntryIsolated D gateDriven (fun _ => false) item (view, [])
  reported : Reports view (evalCombItemIsolated D gateDriven item (view, []))
  gates : ∀ v op, isolatedGate v gateDriven op = fusedGateEval v gateDriven op
  bufs : ∀ v dst src invert, isolatedGate v gateDriven (.buf1 dst src invert) =
    (dst, fusedBufDstBit gateDriven dst (fusedBufSrcBit v src invert) invert)
  ands : ∀ v commonCode branch invert, isolatedAndBranch v commonCode branch invert =
    fusedAndBranchBit v commonCode branch invert

/-- The inline branch handles a direct copy: both signals are of its width, the destination is four-state, and it
holds the planes already or is stored inline. -/
def TakesInline (D : VmDesign) (view : View) (dst src width : Nat) : Prop :=
  (width ≤ 64 ∧ D.signalWidths dst = width ∧ D.signalWidths src = width ∧ D.signalTwoState dst = false) ∧
    ((view src).planes = (view dst).planes ∨ (view dst).width ≤ 64)

/-- A value keeps its meaning at another width: it is not widened, or its sign bit is known. -/
def SignKnown (v : Value) (w : Nat) : Prop := w ≤ v.width ∨ v.signOf v.xz = false

/-- The source of a copy is of the destination net's type: as real and as signed as the net, and not widened by an
x or z sign into a four-state one; for a real or a string net or a handle also of its width, without x and z when the
net is two-state. -/
def SameType (D : VmDesign) (dst : Nat) (v : Value) : Prop :=
  if D.signalReal dst then
    v.isReal ∧ v.width = D.signalWidths dst ∧ v.isSigned = D.signalSigned dst ∧ (D.signalTwoState dst → v.xz = 0)
  else if D.signalWidths dst = 0 ∨ D.signalIsString dst ∧ v.isReal = false then
    v.width = D.signalWidths dst ∧ (D.signalTwoState dst → v.xz = 0)
  else
    v.isReal = false ∧ v.isSigned = D.signalSigned dst ∧
      (D.signalTwoState dst ∨ SignKnown v (D.signalWidths dst))

/-- The gate algebra is the serial one. -/
theorem isolatedGate_eq (view : View) (gateDriven : Nat → Bool) (op : FusedGate) :
    isolatedGate view gateDriven op = fusedGateEval view gateDriven op := by
  cases op with
  | buf1 dst src invert =>
    -- A z that drives a gate's net is an x, in either order of the tests.
    cases invert <;> cases driven : gateDriven dst.sigId <;>
      by_cases z : codeAt view src = 3 <;> simp [isolatedGate, fusedGateEval, driven, z]
  | _ => rfl

/-- A buffer of a fanout group likewise. -/
theorem isolatedGate_buf (view : View) (gateDriven : Nat → Bool) (dst src : BitRef) (invert : Bool) :
    isolatedGate view gateDriven (.buf1 dst src invert) =
      (dst, fusedBufDstBit gateDriven dst (fusedBufSrcBit view src invert) invert) := by
  cases invert <;> cases driven : gateDriven dst.sigId <;>
    by_cases z : codeAt view src = 3 <;> simp [isolatedGate, fusedBufDstBit, fusedBufSrcBit, driven, z]

omit [GateOps] in
/-- Storing two values is the same step only when they are one value. -/
theorem storeValue_inj {dst : Nat} {v w : Value} {s : Outcome} (same : storeValue dst v s = storeValue dst w s) :
    v = w := by
  unfold storeValue at same
  split at same <;> rename_i first <;> split at same <;> rename_i second
  · -- Both stored: the signal holds both.
    have views := congrFun (congrArg Prod.fst same) dst
    simpa using views
  · simpa using congrArg (fun s => s.2.length) same
  · simpa using (congrArg (fun s => s.2.length) same).symm
  · rw [← not_not.mp first, ← not_not.mp second]

variable [LawfulFit]

/-- The inline branch handles a copy in the cases named. -/
theorem copyInline_isSome {D : VmDesign} {view : View} {dst src width : Nat} :
    (copyInline D dst src width (view, [])).isSome ↔ TakesInline D view dst src width := by
  unfold copyInline TakesInline
  rw [LawfulValueOps.rawBits_eq, LawfulValueOps.rawBits_eq]
  -- The copy in place is taken where the planes are equal or the destination is narrow.
  split
  · rename_i guarded
    by_cases equal : (view src).planes = (view dst).planes
    · simp [guarded, equal]
    · by_cases narrow : (view dst).width ≤ 64
      · simp [guarded, equal, narrow, LawfulValueOps.setInlineBits_narrow _ _ _ narrow]
      · simp [guarded, equal, narrow, LawfulValueOps.setInlineBits_wide (view dst) _ _ (by omega)]
  · rename_i unguarded
    simp [unguarded]

/-- A value without x and z is two-state already. -/
theorem toTwoState_self {v : Value} (known : v.xz = 0) : VmOps.toTwoState v = v := by
  obtain ⟨width, xz, bits⟩ := LawfulVmOps.toTwoState_eq v
  obtain ⟨signed, real, fill⟩ := LawfulFit.toTwoState_flags v
  -- A known value has no bit to clear.
  have val : (VmOps.toTwoState v).val = v.val := by
    refine Nat.eq_of_testBit_eq fun i => ?_
    rw [bits i, known]
    simp
  calc VmOps.toTwoState v
      = ⟨(VmOps.toTwoState v).width, (VmOps.toTwoState v).val, (VmOps.toTwoState v).xz,
          (VmOps.toTwoState v).isSigned, (VmOps.toTwoState v).isReal, (VmOps.toTwoState v).isFill⟩ := rfl
    _ = ⟨v.width, v.val, v.xz, v.isSigned, v.isReal, v.isFill⟩ := by rw [width, val, xz, signed, real, fill, known]

/-- Dropping x and z leaves a value alone precisely when it has none. -/
theorem toTwoState_eq_self {two : Bool} {v : Value} :
    (if two = true then VmOps.toTwoState v else v) = v ↔ (two = true → v.xz = 0) := by
  cases two with
  | false => simp
  | true =>
    simp only [if_true, true_implies]
    refine ⟨fun same => ?_, toTwoState_self⟩
    rw [← same]
    exact (LawfulVmOps.toTwoState_eq v).2.1

/-- Dropping x and z keeps the type of a value. -/
theorem ite_toTwoState_type (two : Bool) (v : Value) :
    (if two = true then VmOps.toTwoState v else v).isReal = v.isReal ∧
      (if two = true then VmOps.toTwoState v else v).isSigned = v.isSigned ∧
      (if two = true then VmOps.toTwoState v else v).width = v.width := by
  cases two with
  | false => exact ⟨rfl, rfl, rfl⟩
  | true =>
    have flags := LawfulFit.toTwoState_flags v
    exact ⟨flags.2.1, flags.1, (LawfulVmOps.toTwoState_eq v).1⟩

/-- Resizing where the width differs keeps whether a value is real and signed, and gives it the width. -/
theorem ite_resize_type (v : Value) (w : Nat) :
    (if v.width ≠ w then VmOps.resize v w else v).isReal = v.isReal ∧
      (if v.width ≠ w then VmOps.resize v w else v).isSigned = v.isSigned ∧
      (if v.width ≠ w then VmOps.resize v w else v).width = w := by
  split
  · have flags := LawfulFit.resize_flags v w
    exact ⟨flags.2, flags.1, LawfulVmOps.resize_width v w⟩
  · rename_i same
    exact ⟨rfl, rfl, not_not.mp same⟩

/-- The static copy keeps whether the source is real and signed, at the destination's width. -/
theorem resizedCopy_type (D : VmDesign) (dst w : Nat) (v : Value) :
    (resizedCopy D dst w v).isReal = v.isReal ∧ (resizedCopy D dst w v).isSigned = v.isSigned ∧
      (resizedCopy D dst w v).width = w := by
  have cut := ite_resize_type v w
  have drop := ite_toTwoState_type (D.signalTwoState dst) (if v.width ≠ w then VmOps.resize v w else v)
  exact ⟨drop.1.trans cut.1, drop.2.1.trans cut.2.1, drop.2.2.trans cut.2.2⟩

omit [LawfulFit] in
/-- The static copy of a value of the right width. -/
theorem resizedCopy_of_width {D : VmDesign} {dst w : Nat} {v : Value} (width : v.width = w) :
    resizedCopy D dst w v = if D.signalTwoState dst = true then VmOps.toTwoState v else v := by
  simp [resizedCopy, width]

/-- The static copy is the source itself precisely when it has the width, and no x and z to drop. -/
theorem resizedCopy_eq_self {D : VmDesign} {dst w : Nat} {v : Value} :
    resizedCopy D dst w v = v ↔ v.width = w ∧ (D.signalTwoState dst → v.xz = 0) := by
  constructor
  · intro same
    -- At its own width a value is only read as one of two states.
    have width : v.width = w := by rw [← (resizedCopy_type D dst w v).2.2, same]
    rw [resizedCopy_of_width width] at same
    exact ⟨width, toTwoState_eq_self.mp same⟩
  · rintro ⟨width, known⟩
    rw [resizedCopy_of_width width]
    exact toTwoState_eq_self.mpr known

omit [GateOps] [LawfulFit] in
/-- Stamping a value with a signedness leaves it alone precisely when it has that one. -/
theorem stamp_eq_self {v : Value} {signed : Bool} : v = { v with isSigned := signed } ↔ v.isSigned = signed := by
  constructor
  · intro same
    rw [same]
  · rintro rfl
    rfl

omit [GateOps] [LawfulFit] in
/-- Two resized values with the same bits above the old width are one. -/
theorem widens_unique {v r r' : Value} {w : Nat} {val xz val' xz' : Bool} (first : v.Widens w val xz r)
    (second : v.Widens w val' xz' r') (same : w ≤ v.width ∨ val = val' ∧ xz = xz') : r = r' := by
  obtain ⟨⟨width, signed, real, fill⟩, bits⟩ := first
  obtain ⟨⟨width', signed', real', fill'⟩, bits'⟩ := second
  -- A bit of the result is one of the source, or one of those above it.
  have planes (i : Nat) : r.val.testBit i = r'.val.testBit i ∧ r.xz.testBit i = r'.xz.testBit i := by
    rw [(bits i).1, (bits' i).1, (bits i).2, (bits' i).2]
    rcases same with narrow | ⟨rfl, rfl⟩
    · by_cases inside : i < w
      · simp [show i < v.width by omega]
      · simp [inside]
    · exact ⟨rfl, rfl⟩
  have val : r.val = r'.val := Nat.eq_of_testBit_eq fun i => (planes i).1
  have xz : r.xz = r'.xz := Nat.eq_of_testBit_eq fun i => (planes i).2
  calc r = ⟨r.width, r.val, r.xz, r.isSigned, r.isReal, r.isFill⟩ := rfl
    _ = ⟨r'.width, r'.val, r'.xz, r'.isSigned, r'.isReal, r'.isFill⟩ := by
      rw [width, val, xz, signed, real, fill, width', signed', real', fill']

/-- Dropping x and z leaves nothing of an x or z sign, so the two resizes agree on a two-state net. -/
theorem toTwoState_widens {v r r' : Value} {w : Nat} (first : v.Widens w (v.signOf v.val && !v.signOf v.xz) false r)
    (second : v.Widens w (v.signOf v.val) (v.signOf v.xz) r') : VmOps.toTwoState r = VmOps.toTwoState r' := by
  obtain ⟨⟨width, signed, real, fill⟩, bits⟩ := first
  obtain ⟨⟨width', signed', real', fill'⟩, bits'⟩ := second
  obtain ⟨twoWidth, twoXz, twoVal⟩ := LawfulVmOps.toTwoState_eq r
  obtain ⟨twoWidth', twoXz', twoVal'⟩ := LawfulVmOps.toTwoState_eq r'
  obtain ⟨twoSigned, twoReal, twoFill⟩ := LawfulFit.toTwoState_flags r
  obtain ⟨twoSigned', twoReal', twoFill'⟩ := LawfulFit.toTwoState_flags r'
  have val : (VmOps.toTwoState r).val = (VmOps.toTwoState r').val := by
    refine Nat.eq_of_testBit_eq fun i => ?_
    rw [twoVal, twoVal', (bits i).1, (bits i).2, (bits' i).1, (bits' i).2]
    -- Beyond its width the value is extended by its sign, and reading it as one of two states drops the
    -- unknown bits.
    by_cases low : i < v.width
    · simp [low]
    · by_cases inside : i < w <;> simp [low, inside]
  calc VmOps.toTwoState r
      = ⟨(VmOps.toTwoState r).width, (VmOps.toTwoState r).val, (VmOps.toTwoState r).xz,
          (VmOps.toTwoState r).isSigned, (VmOps.toTwoState r).isReal, (VmOps.toTwoState r).isFill⟩ := rfl
    _ = ⟨(VmOps.toTwoState r').width, (VmOps.toTwoState r').val, (VmOps.toTwoState r').xz,
          (VmOps.toTwoState r').isSigned, (VmOps.toTwoState r').isReal, (VmOps.toTwoState r').isFill⟩ := by
      rw [val, twoWidth, twoWidth', width, width', twoXz, twoXz', twoSigned, twoSigned', signed, signed', twoReal,
        twoReal', real, real', twoFill, twoFill', fill, fill']

/-- Between integral types the static copy and the fitted value agree precisely when the signedness is the net's and
no x or z sign is to be repeated. -/
theorem resizedCopy_integral (D : VmDesign) (dst : Nat) {v : Value} (bits : v.isReal = false ∧ v.isFill = false) :
    resizedCopy D dst (D.signalWidths dst) v =
        { (if D.signalTwoState dst = true then VmOps.toTwoState (VmOps.resizeForAssign v (D.signalWidths dst))
            else VmOps.resizeForAssign v (D.signalWidths dst)) with isSigned := D.signalSigned dst } ↔
      v.isSigned = D.signalSigned dst ∧ (D.signalTwoState dst = true ∨ SignKnown v (D.signalWidths dst)) := by
  have type := resizedCopy_type D dst (D.signalWidths dst) v
  generalize D.signalWidths dst = w at *
  by_cases width : v.width = w
  · -- Neither resizes, and the signedness is what is left to compare.
    subst width
    rw [LawfulResize.resizeForAssign_self v bits, resizedCopy_of_width rfl, and_iff_left (.inr (.inl (le_refl _))),
      ← (ite_toTwoState_type (D.signalTwoState dst) v).2.1]
    exact stamp_eq_self
  have resized := LawfulResize.resize_widens v w bits width
  have assigned := LawfulResize.resizeForAssign_widens v w bits width
  have static : resizedCopy D dst w v =
      if D.signalTwoState dst = true then VmOps.toTwoState (VmOps.resize v w) else VmOps.resize v w := by
    simp [resizedCopy, width]
  constructor
  · intro same
    refine ⟨?_, or_iff_not_imp_left.mpr fun fourState => or_iff_not_imp_left.mpr fun widened => ?_⟩
    · rw [← type.2.1, same]
    · -- The bit above the old width is known after one resize, and the sign's after the other.
      have planes := congrArg (fun r : Value => r.xz.testBit v.width) (static.symm.trans same)
      simp only [fourState, Bool.false_eq_true, if_false, (resized.2 _).2, (assigned.2 _).2, lt_irrefl] at planes
      simpa [show v.width < w by omega] using planes.symm
  · rintro ⟨signed, kept⟩
    have stamp : D.signalSigned dst = (if D.signalTwoState dst = true then
        VmOps.toTwoState (VmOps.resizeForAssign v w) else VmOps.resizeForAssign v w).isSigned := by
      rw [(ite_toTwoState_type _ _).2.1, assigned.1.2.1, signed]
    rw [static, stamp]
    rcases kept with twoState | known
    · simp only [twoState, if_true]
      exact toTwoState_widens resized assigned
    · have same : VmOps.resize v w = VmOps.resizeForAssign v w :=
        widens_unique resized assigned (known.imp_right fun known => ⟨by simp [known], known.symm⟩)
      rw [same]

/-- The two conversions of a direct copy agree precisely when the source has the destination's type. -/
theorem resizedCopy_eq_fit (D : VmDesign) (dst : Nat) {v : Value} (sized : v.isFill = false) :
    resizedCopy D dst (D.signalWidths dst) v = fitValueToSignal D dst v ↔ SameType D dst v := by
  have type := resizedCopy_type D dst (D.signalWidths dst) v
  unfold fitValueToSignal SameType
  dsimp only
  split
  · -- A real net.
    rename_i realNet
    cases real : v.isReal with
    | false =>
      -- The fitted value is real and the resized one is not.
      refine iff_of_false ?_ (by simp)
      intro same
      have contradiction := congrArg Value.isReal same
      rw [type.1, real] at contradiction
      simp only [Bool.false_eq_true, if_false, LawfulFit.realOf_isReal] at contradiction
    | true =>
      simp only [if_true, true_and]
      constructor
      · intro same
        have signed : v.isSigned = D.signalSigned dst := by
          rw [← type.2.1, same]
        have stamped : { v with isSigned := D.signalSigned dst } = v := (stamp_eq_self.mpr signed).symm
        rw [stamped] at same
        have kept := resizedCopy_eq_self.mp same
        exact ⟨kept.1, signed, kept.2⟩
      · rintro ⟨width, signed, known⟩
        rw [← stamp_eq_self.mpr signed]
        exact resizedCopy_eq_self.mpr ⟨width, known⟩
  · -- A handle or a string is taken as it is.
    by_cases whole : D.signalWidths dst = 0 ∨ D.signalIsString dst = true ∧ v.isReal = false
    · rw [if_pos whole]
      have fit : ∀ x : Value, (if D.signalWidths dst = 0 then v
          else if D.signalIsString dst = true ∧ v.isReal = false then v else x) = v := by
        intro x
        rcases whole with handle | string
        · rw [if_pos handle]
        · rw [if_pos string, ite_self]
      rw [fit]
      exact resizedCopy_eq_self
    · rw [if_neg whole, if_neg (fun handle => whole (.inl handle)), if_neg (fun string => whole (.inr string))]
      cases real : v.isReal with
      | true =>
        -- The fitted value is integral and the resized one is not.
        refine iff_of_false ?_ (by simp)
        intro same
        have contradiction := congrArg Value.isReal same
        rw [type.1, real] at contradiction
        simp only [if_true, (ite_toTwoState_type _ _).1, LawfulFit.intOfReal_isReal, Bool.true_eq_false]
          at contradiction
      | false =>
        simp only [Bool.false_eq_true, if_false, true_and]
        exact resizedCopy_integral D dst ⟨real, sized⟩

/-- A direct copy agrees precisely when it is handled inline or the source has the destination's type. -/
theorem directCopy_same (D : VmDesign) (gateDriven : Nat → Bool) {view : View}
    (sized : ∀ id, (view id).isFill = false) (dst src : Nat) :
    evalCombItemIsolated D gateDriven (.directCopy dst src (D.signalWidths dst)) (view, []) =
        evalCombEntryIsolated D gateDriven (fun _ => false) (.directCopy dst src (D.signalWidths dst)) (view, []) ↔
      TakesInline D view dst src (D.signalWidths dst) ∨ SameType D dst (view src) := by
  rw [← copyInline_isSome, ← resizedCopy_eq_fit D dst (sized src)]
  simp only [evalCombItemIsolated, evalCombEntryIsolated, Bool.false_eq_true, if_false]
  cases handled : copyInline D dst src (D.signalWidths dst) (view, []) with
  | some s => simp
  | none =>
    simp only [Option.isSome_none, Bool.false_eq_true, false_or]
    exact ⟨storeValue_inj, fun same => by rw [same]⟩

/-- Every evaluation reports what it changed. -/
theorem evalCombItemIsolated_reports (D : VmDesign) (gateDriven : Nat → Bool) (view : View) {item : CombItem}
    (single : item.dstIds.Nodup) : Reports view (evalCombItemIsolated D gateDriven item (view, [])) := by
  have start := reports_start view
  -- An item stores to each of its destinations once.
  cases item with
  | noop | other => exact start
  | fastDirectCopy dst src => exact (start.step (by simp) (copyRaw_touches D _ dst _)).1
  | fastDirectFanout src dsts =>
    exact start.fold (fun dst => dst) (fun s dst => copyRaw_touches D _ dst s) dsts
      (by rw [List.map_id']; exact single) (by simp)
  | directCopy dst src width =>
    simp only [evalCombItemIsolated]
    cases handled : copyInline D dst src width (view, []) with
    | some s => exact (start.step (by simp) (copyInline_touches handled)).1
    | none => exact (start.step (by simp) (storeValue_touches dst _ _)).1
  | fusedGate op =>
    exact (start.step (by simp) (setBit_touches _ (isolatedGate view gateDriven op).1 _)).1
  | fusedBufFanout src dsts invert =>
    exact start.fold BitRef.sigId (fun s dst => setBit_touches s dst _) dsts single (by simp)
  | fusedAndFanout common branches invert =>
    exact start.fold (fun b : FusedAndBranch => b.dst.sigId) (fun s b => setBit_touches s b.dst _) branches
      single (by simp)

/-- The isolated evaluators agree on an item precisely when it is no direct copy that has to be converted from
another type. -/
theorem isolatedAgrees_iff (D : VmDesign) (gateDriven : Nat → Bool) (item : ParItem D)
    (view : {view : View // ∀ id, (view id).isFill = false}) :
    IsolatedAgrees D gateDriven item.item view.1 ↔
      ∀ dst src width, item.item = .directCopy dst src width →
        TakesInline D view.1 dst src width ∨ SameType D dst (view.1 src) := by
  constructor
  · rintro agrees dst src width isCopy
    obtain rfl := item.widths dst src width isCopy
    -- Only a copy can differ, and the condition speaks of copies.
    have same := agrees.same
    rw [isCopy] at same
    exact (directCopy_same D gateDriven view.2 dst src).mp same
  · intro condition
    refine ⟨?_, evalCombItemIsolated_reports D gateDriven view.1 item.single, fun v => isolatedGate_eq v gateDriven,
      fun v => isolatedGate_buf v gateDriven, fun _ _ _ _ => rfl⟩
    cases isItem : item.item with
    | directCopy dst src width =>
      -- The copy is made in place, or the value has the destination's own type.
      have allowed := condition dst src width isItem
      obtain rfl := item.widths dst src width isItem
      exact (directCopy_same D gateDriven view.2 dst src).mpr allowed
    | other => exact absurd isItem item.evaluated
    | _ => simp [evalCombItemIsolated, evalCombEntryIsolated]

end Agreement

section Samples

attribute [local instance] referenceGateOps

/-- The reference conversions treat types as described. -/
theorem referenceGateOps_fit : LawfulFit where
  toLawfulGateOps := referenceGateOps_lawful
  toLawfulResize := referenceVmOps_resize
  resize_flags v w := by
    simp only [VmOps.resize, resizeValue, extendValue]
    split
    · exact ⟨rfl, rfl⟩
    · split <;> exact ⟨rfl, rfl⟩
  toTwoState_flags _ := ⟨rfl, rfl, rfl⟩
  realOf_isReal _ := rfl
  intOfReal_isReal _ _ := rfl

/-- Signal 0 is an unsigned byte and signal 1 a signed nibble. -/
def byteAndNibble : VmDesign where
  signalWidths id := if id = 0 then 8 else 4
  signalSigned id := id = 1
  signalTwoState _ := false

/-- `assign b = a;` from the nibble to the byte. -/
def widenNibble : ParItem byteAndNibble where
  item := .directCopy 0 1 8
  evaluated := nofun
  single := by decide
  widths dst src width isCopy := by
    cases isCopy
    rfl

/-- The nibble is -1 and the byte 0. -/
def minusOneView : {view : View // ∀ id, (view id).isFill = false} :=
  ⟨fun id => if id = 1 then ⟨4, 15, 0, true, false, false⟩ else ⟨8, 0, 0, false, false, false⟩, fun id => by
    dsimp only
    split <;> rfl⟩

/-- The static evaluator leaves the byte signed. -/
theorem widenNibble_disagrees :
    ¬ IsolatedAgrees byteAndNibble (fun _ => false) widenNibble.item minusOneView.1 := by
  intro agrees
  have byte := congrArg (fun s : Outcome => (s.1 0).isSigned) agrees.same
  exact absurd byte (by decide)

/-- Between nibbles of one type the evaluators agree. -/
theorem copyNibble_agrees : IsolatedAgrees byteAndNibble (fun _ => false) (.directCopy 1 2 4) minusOneView.1 := by
  have := referenceGateOps_fit
  refine (isolatedAgrees_iff byteAndNibble (fun _ => false) ⟨.directCopy 1 2 4, nofun, by decide, ?_⟩
    minusOneView).mpr ?_
  · intro dst src width isCopy
    cases isCopy
    rfl
  · intro dst src width isCopy
    cases isCopy
    exact .inl ⟨by decide, .inr (by decide)⟩

end Samples

end Xezim.Comb
