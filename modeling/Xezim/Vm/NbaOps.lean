import Xezim.Vm.NbaLaws

/-! The nonblocking writes of all executors as one kind of step, the masked update of each, and what
a step has to do to the bits still pending. -/

namespace Xezim

open Splice Function

/-- One nonblocking write as an executor makes it, its operands read and its element resolved. -/
inductive NbaOp where
  | assign (id : Nat) (v : Value) (width : Nat)
  | assignConst (id : Nat) (k : Value)
  | range (id hi lo : Nat) (v : Value)
  | rangeDyn (id : Nat) (hiV loV v : Value)
  | bitDyn (id : Nat) (idxV v : Value)
  | array (eid : Nat) (v : Value) (width : Nat)
  | arrayRange (eid : Nat) (hiV loV v : Value)
  | arrayRead (id : Nat) (elem : Int → Option Nat) (idxSig width : Nat)
  /-- A store call of the two-state executors, `ts_store_nba_wide` among them. -/
  | ts (op : StoreOp)
  | tsWide2 (id lo : Nat) (words : List Word) (w : Nat)
  | jit4s (id : Nat) (v x : Word) (width : Nat)
  | jit (id : Nat) (v : Word) (width : Nat)
  | jitFast (id : Nat) (v : Word)
  | jitRange (id hi lo : Nat) (v x : Word)
  | jitBit (id idx : Nat) (v x : Word)

/-- A value holding bits rather than a real number goes to a signal declared as bits. -/
def VmDesign.Vector (D : VmDesign) (id : Nat) : Prop :=
  D.signalReal id = false ∧ D.signalIsString id = false

/-- The width of a signal or packed cell. -/
def VmDesign.cellWidth (D : VmDesign) (id : Nat) : Nat :=
  if isPackedId id then D.packedWidth id else D.signalWidths id

section Ops

variable [VmOps] (D : VmDesign) (s : VmSim)

/-- Carry out a nonblocking write. -/
def NbaOp.apply : NbaOp → VmSim
  | .assign id v width => nbaAssign s id v width
  | .assignConst id k => nbaAssignConst s id k
  | .range id hi lo v => nbaAssignRange D s id hi lo v
  | .rangeDyn id hiV loV v => nbaAssignRangeDyn D s id hiV loV v
  | .bitDyn id idxV v => nbaAssignBitDyn s id idxV v
  | .array eid v width => nbaAssignArray s eid v width
  | .arrayRange eid hiV loV v => nbaAssignArrayRange D s eid hiV loV v
  | .arrayRead id elem idxSig width => nbaAssignArrayRead s id elem idxSig width
  | .ts op => s.onSignals fun s => op.apply D.toDesign s
  | .tsWide2 id lo words w => tsWideRangeStore2Nba D s id lo words w
  | .jit4s id v x width => jitScheduleNba4s D s id v x width
  | .jit id v width => jitScheduleNba D s id v width
  | .jitFast id v => jitScheduleNbaFast D s id v
  | .jitRange id hi lo v x => jitScheduleNbaRange D s id hi lo v x
  | .jitBit id idx v x => jitScheduleNbaBit s id idx v x

/-- The update of a whole signal by a value. -/
def wholeUpdate (id : Nat) (v : Value) : Update :=
  ⟨true, id, 0, D.signalWidths id, v.val, v.xz⟩

/-- The update of the bits `low..=high` of a signal or packed cell by the low bits of a value. -/
def rangeUpdate (id low high : Nat) (v : Value) : Update :=
  ⟨true, id, low, high + 1 - low, v.val, v.xz⟩

/-- The bits a nonblocking write is asked to put where, by its operands. -/
def NbaOp.update : NbaOp → Option Update
  | .assign id v width => some (wholeUpdate D id (VmOps.resizeForAssign v width))
  | .assignConst id k => some (wholeUpdate D id k)
  | .range id hi lo v =>
    let low := min hi lo
    let high := min (max hi lo) (D.signalWidths id - 1)
    if oobWriteDiscard D (max hi lo : Nat) low (D.signalWidths id) ∨ high < low then none
    else some (rangeUpdate id low high (VmOps.resize v (high - low + 1)))
  | .rangeDyn id hiV loV v =>
    (dynWindow D id hiV loV v).map fun p =>
      if p.low = 0 ∧ p.highEff + 1 ≥ D.signalWidths id then
        wholeUpdate D id (VmOps.resizeForAssign p.val (D.signalWidths id))
      else rangeUpdate id p.low p.highEff p.val
  | .bitDyn id idxV v =>
    (dynBitIndex idxV).map fun idx =>
      let bit := VmOps.getBit v 0
      ⟨true, id, idx, 1, bit.1.toNat, bit.2.toNat⟩
  | .array eid v width =>
    let val := VmOps.resize v width
    if isPackedId eid then some ⟨true, eid, 0, 64, val.val, val.xz⟩ else some (wholeUpdate D eid val)
  | .arrayRange eid hiV loV v =>
    let hi : Nat := (WordRead.toU64 hiV).getD 0 % 2 ^ 32
    let lo : Nat := (WordRead.toU64 loV).getD 0 % 2 ^ 32
    let low : Nat := min hi lo
    let high : Nat := max hi lo
    let highEff := min high (D.cellWidth eid - 1)
    let val := VmOps.resize v ((high - low + 1) % 2 ^ 32)
    if oobWriteDiscard D high low (D.cellWidth eid) then none
    else if isPackedId eid = false ∧ low = 0 ∧ highEff + 1 ≥ D.signalWidths eid then
      some (wholeUpdate D eid (VmOps.resizeForAssign val (D.signalWidths eid)))
    else some (rangeUpdate eid low highEff val)
  | .arrayRead id elem idxSig width => some (wholeUpdate D id (arrayReadValue s elem idxSig width))
  | .ts op => op.update D.toDesign
  | .tsWide2 id lo words w => some ⟨true, id, lo, w, wordsPlane words, 0⟩
  | .jit4s id v x width =>
    let p := tsScrubTwoState D.toDesign id v x
    let w := jitWidth D id width
    some (wholeUpdate D id (jitFit D id (ValueOps.fromInline (p.1 &&& xmask w) (p.2 &&& xmask w) w) w))
  | .jit id v width =>
    let w := jitWidth D id width
    some (wholeUpdate D id (jitFit D id (ValueOps.fromU64 v w) w))
  | .jitFast id v => some (wholeUpdate D id (ValueOps.fromU64 v (D.signalWidths id)))
  | .jitRange id hi lo v x =>
    let low := min hi lo
    let high := max hi lo
    if oobWriteDiscard D high low (D.signalWidths id) then none
    else some (rangeUpdate id low (min high (D.signalWidths id - 1))
      (ValueOps.fromInline v x (high - low + 1)))
  | .jitBit id idx v x =>
    some ⟨true, id, idx, 1, (v.getLsbD 0).toNat, (x.getLsbD 0).toNat⟩

end Ops

/-- The bit of a signal or packed cell at present. -/
def VmSim.bit (s : VmSim) (id i : Nat) : LogicBit :=
  if isPackedId id then ((s.packed id).1.getLsbD i, (s.packed id).2.getLsbD i)
  else (s.signalTable id).bit i

/-- The planes a packed cell will have once the queue is applied. -/
def VmSim.packedPending (s : VmSim) (id : Nat) : Word × Word :=
  (packedQueued s.packedNba id).getD (s.packed id)

/-- The bit of a signal or packed cell as queued, or its present one when nothing is queued. -/
def VmSim.pendingBit (s : VmSim) (id i : Nat) : LogicBit :=
  if isPackedId id then ((s.packedPending id).1.getLsbD i, (s.packedPending id).2.getLsbD i)
  else (s.pending id).bit i

/-- A bit after an update of its signal. -/
def Update.bit (u : Update) (old : LogicBit) (i : Nat) : LogicBit :=
  if u.lo ≤ i ∧ i < u.lo + u.len then (u.val.testBit (i - u.lo), u.xz.testBit (i - u.lo)) else old

/-- A bit after masked updates applied in order. -/
def lastWrite (id i : Nat) (old : LogicBit) (us : List Update) : LogicBit :=
  us.foldl (fun b u => if u.id = id then u.bit b i else b) old

/-- The bit a destination keeps of a written one: a two-state one reads x and z as zero, or in a
packed cell by its value plane. -/
def VmDesign.landing (D : VmDesign) (id : Nat) (b : LogicBit) : LogicBit :=
  if isPackedId id then (b.1, b.2 && !D.packedTwoState id)
  else if D.signalTwoState id then (b.1 && !b.2, false)
  else b

/-- Widths as the design stores them: 32 bits for a signal, a word for a packed cell. -/
structure VmDesign.Ok (D : VmDesign) : Prop where
  short : ∀ id, D.signalWidths id < 2 ^ 32
  cell : ∀ id, 1 ≤ D.packedWidth id ∧ D.packedWidth id ≤ 64

section Soundness

variable [VmOps] (D : VmDesign)

/-- The signal table and the packed cells hold values of their declarations. -/
structure TablesOk (t : Nat → Value) (cells : Nat → Word × Word) : Prop where
  width : ∀ id, (t id).width = D.signalWidths id
  fits : ∀ id, (t id).Fits
  plain : ∀ id, D.Vector id → (t id).Plain
  known : ∀ id, D.signalTwoState id = true → (t id).xz = 0
  cut : ∀ id, packedSetRaw D id (cells id).1 (cells id).2 = cells id

/-- The tables are sound, and the queues hold at most one live value of a destination. -/
structure VmSim.Ok (s : VmSim) : Prop where
  tables : TablesOk D s.signalTable s.packed
  queue : s.toSim.QueueOk D.toDesign
  plain : s.toSim.PlainOn D.Vector
  once : (s.packedNba.map Prod.fst).Nodup

/-- What a nonblocking write relies on: it names a signal or a packed cell at its declared width,
and puts bits, not a real number, into a vector. -/
def NbaOp.Ok : NbaOp → Prop
  | .assign id v width =>
    isPackedId id = false ∧ width = D.signalWidths id ∧ (D.Vector id → v.isReal = false)
  | .assignConst id k =>
    isPackedId id = false ∧ k.width = D.signalWidths id ∧ (D.Vector id → k.Plain)
  | .range id _ _ _ | .bitDyn id _ _ | .jit id _ _ | .jitFast id _ | .jitBit id _ _ _ =>
    isPackedId id = false
  | .rangeDyn id _ _ v => isPackedId id = false ∧ (D.Vector id → v.isReal = false)
  | .array eid v width =>
    width = D.cellWidth eid ∧ (isPackedId eid = false → D.Vector eid → v.isReal = false)
  | .arrayRange eid _ _ v => isPackedId eid = false → D.Vector eid → v.isReal = false
  | .arrayRead id elem _ width =>
    isPackedId id = false ∧ width = D.signalWidths id ∧ 1 ≤ width ∧
      ∀ i eid, elem i = some eid → isPackedId eid = false → D.Vector eid
  | .ts op =>
    op.Ok D.toDesign ∧
      (∀ u, op.update D.toDesign = some u → u.nba = true ∧ isPackedId u.id = false) ∧
      ∀ id val, op = .storeNbaVal id val → D.Vector id → val.Plain
  | .tsWide2 id _ words w => isPackedId id = false ∧ w ≤ 64 * words.length
  | .jit4s id _ _ width => isPackedId id = false ∧ jitWidth D id width ≤ 64
  | .jitRange id hi lo _ _ => isPackedId id = false ∧ hi < 2 ^ 32 ∧ lo < 2 ^ 32

/-- A step the code orders rightly. A run-time range that covers the signal and repeats its table
value must not follow a queued value that differs, as that arm looks nothing up in the queue; and a
native range must not span all the positions that 32 bits count. -/
def NbaOp.Ordered (s : VmSim) : NbaOp → Prop
  | .rangeDyn id hiV loV v => ∀ p, dynWindow D id hiV loV v = some p → p.low = 0 →
      p.highEff + 1 ≥ D.signalWidths id →
      s.signalTable id =
        { VmOps.resizeForAssign p.val (D.signalWidths id) with isSigned := D.signalSigned id } →
      ∀ i, i < D.signalWidths id → (s.pending id).bit i = (s.signalTable id).bit i
  | .jitRange _ hi lo _ _ => max hi lo - min hi lo + 1 < 2 ^ 32
  | _ => True

/-- A step's effect on what is pending: the masked update it was asked for, if any. -/
structure VmSim.Step (before after : VmSim) (u : Option Update) : Prop where
  table : after.signalTable = before.signalTable
  cells : after.packed = before.packed
  forces : after.forced = before.forced
  ok : after.Ok D
  bits : ∀ id i, i < D.cellWidth id →
    after.pendingBit id i = lastWrite id i (before.pendingBit id i) u.toList

variable {D} {s : VmSim}

omit [VmOps] in
/-- A step that does nothing. -/
theorem VmSim.Ok.idle (ok : s.Ok D) : s.Step D s none :=
  ⟨rfl, rfl, rfl, ok, fun _ _ _ => rfl⟩

omit [VmOps] in
/-- An update of a pending value in the signal queue is a step of the simulator. -/
theorem VmSim.Ok.step (ok : s.Ok D) {f : Sim → Sim} {u : Update}
    (queued : s.toSim.Queued D.toDesign (f s.toSim) u) (plain : (f s.toSim).PlainOn D.Vector)
    (table : isPackedId u.id = false) : s.Step D (s.onSignals f) (some u) := by
  refine ⟨queued.table, rfl, rfl, ⟨?_, queued.queue, plain, ok.once⟩, fun id i inside => ?_⟩
  · rw [show (s.onSignals f).signalTable = s.signalTable from queued.table]
    exact ok.tables
  · show VmSim.pendingBit _ id i = if u.id = id then u.bit _ i else _
    by_cases packed : isPackedId id = true
    · have other : u.id ≠ id := by
        rintro rfl
        rw [table] at packed
        cases packed
      simp only [if_neg other, VmSim.pendingBit, if_pos packed]
      rfl
    · simp only [VmDesign.cellWidth, if_neg packed] at inside
      simp only [VmSim.pendingBit, if_neg packed]
      by_cases same : u.id = id
      · subst same
        obtain ⟨val, unk⟩ := queued.shows i inside
        show Value.bit ((f s.toSim).pending u.id) i = _
        simp only [Value.bit, val, unk, if_true, Update.bit]
        split <;> rfl
      · rw [if_neg same]
        show Value.bit ((f s.toSim).pending id) i = _
        rw [queued.others id fun eq => same eq.symm]

end Soundness

end Xezim
