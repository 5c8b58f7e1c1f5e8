import Xezim.Arrays.IndexLaws

/-! What the lowered array code does, one instruction at a time. -/

namespace Xezim.Arrays

open Function KnownBits

section Calls

variable [VmOps]

/-- The store call of an element store in a two-state executor. -/
def tsStoreCall (nba : Bool) (v : Word) (w eid : Nat) : StoreOp :=
  if nba then .storeNba eid (v &&& xmask w) w else .store eid (v &&& xmask w) (xmask w)

/-- The store call of an element store in the x-plane executor. -/
def xStoreCall (nba : Bool) (p : Planes 64) (w eid : Nat) : StoreOp :=
  if nba then .storeNbaXz eid (p.v &&& xmask w) (p.x &&& xmask w) w
  else .storeXz eid (p.v &&& xmask w) (p.x &&& xmask w)

/-- The store call of an array read that found nothing. -/
def missCall (dst w : Nat) : StoreOp := .storeNbaVal dst { ValueOps.new (max w 1) with isSigned := false }

/-- A run of lowered code ends with the given store calls. -/
def EndsWith {ρ : Type} (halt : Halt ρ) (ops : List StoreOp) : Prop := ∃ c, halt = .done c ∧ c.ops = ops

/-- A run of lowered code ends with a register written and no store call. -/
def EndsLoading {ρ α : Type} (halt : Halt ρ) (read : ρ → α) (v : α) : Prop :=
  ∃ c, halt = .done c ∧ read c.regs = v ∧ c.ops = []

end Calls

section Insns

variable (span : ArraySpan)

/-- The instruction of an element store. -/
def elemStoreInsn (nba : Bool) (idx val w : Nat) : TsInsn :=
  if nba then .elemStoreNba (tsElemOp span idx val w (xmask w)) else .elemStore (tsElemOp span idx val w (xmask w))

/-- The instruction of a store to one element. -/
def constStoreInsn (nba : Bool) (val w eid : Nat) : TsInsn :=
  if nba then .storeNba eid val w (xmask w) else .store eid val (xmask w)

/-- The operands of an array read. -/
def readOp (dst idxSig w : Nat) : TsNbaFromElem :=
  { dst, first := span.first, lo := span.lo, hi := span.hi, idxSig, w }

/-- The instruction of an array read, for wide and for narrow elements. -/
def readInsn (wide : Bool) (dst idxSig w : Nat) : TsInsn :=
  if wide then .wNbaFromElem (readOp span dst idxSig w) else .nbaFromElem (readOp span dst idxSig w)

end Insns

section Code

variable {D : ArrayDesign} {array : ArrayOperand} {span : ArraySpan}

/-- The span of an array that lowers is the declared one. -/
theorem arraySpan_eq (declared : Declares D array span) {a : ArraySpan} (lowers : arraySpan D array = some a) :
    a = span := by
  unfold arraySpan at lowers
  rw [declared.spanOf] at lowers
  exact (Option.some.inj (Option.filter_eq_some_iff.mp lowers).1).symm

/-- The code of an element store is the store of a constant element, no code at all, or the element instruction. -/
theorem lowerArrayStore_eq (declared : Declares D array span) {R : LowerRegs} {nba : Bool} {idx val w : Nat}
    {code : List TsInsn} (lowers : lowerArrayStore D R nba array idx val w = some code) :
    (∃ k, R.rc idx = some k ∧ code = (span.elem k.toInt).toList.map (constStoreInsn nba val w)) ∨ code =
      [elemStoreInsn span nba idx val w] := by
  unfold lowerArrayStore at lowers
  obtain ⟨a, spans, rest⟩ := Option.bind_eq_some_iff.mp lowers
  obtain rfl := arraySpan_eq declared spans
  obtain ⟨vw, _, rest⟩ := Option.bind_eq_some_iff.mp rest
  split at rest
  · cases rest
  · split at rest
    · cases rest
    · split at rest
      · rename_i k constant
        exact Or.inl ⟨k, constant, (Option.some.inj rest).symm⟩
      · obtain ⟨_, _, rest⟩ := Option.bind_eq_some_iff.mp rest
        exact Or.inr (Option.some.inj rest).symm

/-- The code of an array load is the load of a constant element, or the element instruction. -/
theorem lowerLoadArrayElem_eq (declared : Declares D array span) {R : LowerRegs} {d idx : Nat} {code : List TsInsn}
    (lowers : lowerLoadArrayElem D R d array idx = some code) :
    (∃ k eid, R.rc idx = some k ∧ span.elem k.toInt = some eid ∧
        code = [if D.signalWidths span.first > 64 then .wLoadSig d eid else .loadSig d eid]) ∨
      code = [if D.signalWidths span.first > 64 then .wElemLoad (tsElemOp span idx d 0 0#64)
        else .elemLoad (tsElemOp span idx d 0 0#64)] := by
  unfold lowerLoadArrayElem at lowers
  rw [declared.spanOf] at lowers
  simp only [Option.bind_eq_bind, Option.bind_some] at lowers
  split at lowers
  · cases lowers
  · split at lowers
    · cases lowers
    · split at lowers
      · cases lowers
      · split at lowers
        · rename_i k constant
          obtain ⟨eid, names, rest⟩ := Option.bind_eq_some_iff.mp lowers
          split at rest
          · cases rest
          · exact Or.inl ⟨k, eid, constant, names, (Option.some.inj rest).symm⟩
        · obtain ⟨_, _, rest⟩ := Option.bind_eq_some_iff.mp lowers
          exact Or.inr (Option.some.inj rest).symm

/-- The code of an array read is the element instruction. -/
theorem lowerArrayRead_eq (declared : Declares D array span) {dst idxSig w : Nat} {code : List TsInsn}
    (lowers : lowerArrayRead D dst array idxSig w = some code) :
    code = [readInsn span (decide (D.signalWidths span.first > 64)) dst idxSig w] := by
  unfold lowerArrayRead at lowers
  rw [declared.spanOf] at lowers
  simp only [Option.bind_eq_bind, Option.bind_some] at lowers
  split at lowers
  · cases lowers
  · split at lowers
    · cases lowers
    · split at lowers
      · rename_i wide
        rw [decide_eq_true wide]
        split at lowers
        · cases lowers
        · exact (Option.some.inj lowers).symm
      · rename_i narrow
        rw [decide_eq_false narrow]
        split at lowers
        · cases lowers
        · exact (Option.some.inj lowers).symm

end Code

section Steps

variable [VmOps] (D : ArrayDesign) (span : ArraySpan)

/-- An element store goes to the element its index register names. -/
theorem tsStep_elemStore (s : Sim) (poll : Bool) (r : Regs) (nba : Bool) (idx val w : Nat) :
    tsStep s poll r (elemStoreInsn span nba idx val w) =
      .next r ((span.elem (r idx).toInt).map (tsStoreCall nba (r val) w)) := by
  -- The two kinds of store differ in the call alone.
  rw [elem_eq_elemId]
  cases nba <;> by_cases out : outside span.lo span.hi (r idx).toInt = true <;>
    simp [elemStoreInsn, tsStep, tsElemOp, tsStoreCall, out]

/-- On planes an element store goes to the element a known index register names. -/
theorem xStep_elemStore (s : Sim) (poll : Bool) (r : XRegs) (nba : Bool) (idx val w : Nat) :
    xStep D.toDesign s poll r (elemStoreInsn span nba idx val w) =
      .next r (if (r idx).x = 0#64 then (span.elem (r idx).v.toInt).map (xStoreCall nba (r val) w) else none) := by
  rw [elem_eq_elemId]
  cases nba <;> by_cases clean : (r idx).x = 0#64 <;>
    by_cases out : outside span.lo span.hi (r idx).v.toInt = true <;>
      simp [elemStoreInsn, xStep, tsElemOp, xStoreCall, clean, out]

/-- An element load shows a known element and gives up otherwise. -/
theorem tsStep_elemLoad (s : Sim) (poll : Bool) (r : Regs) (idx d w : Nat) (mask : Word) :
    tsStep s poll r (.elemLoad (tsElemOp span idx d w mask)) =
      match span.elem (r idx).toInt with
      | some eid => if (s.sigPlanes eid).2 ≠ 0#64 then .bail else .set r d (s.sigPlanes eid).1
      | none => .bail := by
  rw [elem_eq_elemId]
  by_cases out : outside span.lo span.hi (r idx).toInt = true
  · simp [tsStep, tsElemOp, out]
  · simp only [tsStep, tsElemOp, out, Bool.false_eq_true, if_false]
    rfl

/-- On planes an element load shows the element, or x. -/
theorem xStep_elemLoad (s : Sim) (poll : Bool) (r : XRegs) (idx d w : Nat) (mask : Word) :
    xStep D.toDesign s poll r (.elemLoad (tsElemOp span idx d w mask)) =
      .set r d (match if (r idx).x = 0#64 then span.elem (r idx).v.toInt else none with
      | some eid => s.sigX eid
      | none => ⟨0#64, xmask (D.signalWidths span.first)⟩) := by
  rw [elem_eq_elemId]
  simp only [xStep, tsElemOp]
  by_cases clean : (r idx).x = 0#64 <;> by_cases out : outside span.lo span.hi (r idx).v.toInt = true <;>
    simp [clean, out]

/-- What an array read of an element queues, if the element's bits allow it. -/
def readCall (wide : Bool) (s : Sim) (dst w eid : Nat) : Option StoreOp :=
  if wide then some (.storeNbaVal dst { s.signalTable eid with isSigned := false })
  else if (s.sigPlanes eid).2 ≠ 0#64 then none
  else some (.storeNba dst ((s.sigPlanes eid).1 &&& xmask w) w)

/-- An array read queues its element, or x for an unknown index. -/
theorem tsStep_read (s : Sim) (poll : Bool) (r : Regs) (wide : Bool) (dst idxSig w : Nat) :
    tsStep s poll r (readInsn span wide dst idxSig w) =
      if (s.sigPlanes idxSig).2 ≠ 0#64 then .next r (some (missCall dst w))
      else
        match (span.elem (s.sigPlanes idxSig).1.toInt).bind (readCall wide s dst w) with
        | some op => .next r (some op)
        | none => .bail := by
  rw [elem_eq_elemId]
  by_cases unknown : (s.sigPlanes idxSig).2 = 0#64
  · by_cases out : outside span.lo span.hi (s.sigPlanes idxSig).1.toInt = true
    · cases wide <;> simp [readInsn, tsStep, readOp, unknown, out]
    · cases wide
      · -- A narrow element with x bits gives the block back.
        by_cases clean : (s.sigPlanes (elemId span.first span.lo (s.sigPlanes idxSig).1.toInt)).2 = 0#64 <;>
          simp [readInsn, tsStep, readOp, readCall, unknown, out, clean]
      · simp [readInsn, tsStep, readOp, readCall, unknown, out]
  · cases wide <;> simp [readInsn, tsStep, readOp, missCall, unknown]

/-- What an array read of an element queues on planes. -/
def xReadCall (wide : Bool) (s : Sim) (dst w eid : Nat) : StoreOp :=
  if wide then .storeNbaVal dst { s.signalTable eid with isSigned := false }
  else .storeNbaXz dst ((s.sigX eid).v &&& xmask w) ((s.sigX eid).x &&& xmask w) w

/-- On planes an array read queues its element, or x. -/
theorem xStep_read (s : Sim) (poll : Bool) (r : XRegs) (wide : Bool) (dst idxSig w : Nat) :
    xStep D.toDesign s poll r (readInsn span wide dst idxSig w) =
      .next r (some (match if (s.sigX idxSig).x = 0#64 then span.elem (s.sigX idxSig).v.toInt else none with
      | some eid => xReadCall wide s dst w eid
      | none => missCall dst w)) := by
  rw [elem_eq_elemId]
  cases wide <;> by_cases clean : (s.sigX idxSig).x = 0#64 <;>
    by_cases out : outside span.lo span.hi (s.sigX idxSig).v.toInt = true <;>
      simp [readInsn, xStep, readOp, xReadCall, missCall, clean, out]

end Steps

section Runs

variable [VmOps] (D : Design)

/-- A run of one instruction that falls through. -/
theorem line_single {insn : TsInsn} (straight : insn.isCtrl = false) (polls : Nat → Bool) {s : Sim} {r r' : Regs}
    {op : Option StoreOp} (step : tsStep s (polls 0) r insn = .next r' op) :
    execTwoStateLine D polls [insn] (Cfg.start r s) = .done ((Cfg.start r s).after D 1 r' op) := by
  have first : tsStep (Cfg.start r s).sim (polls (Cfg.start r s).pcs.length) (Cfg.start r s).regs insn = .next r' op :=
    step
  simp only [execTwoStateLine, straight, Bool.false_eq_true, if_false, first]
  rfl

/-- A run of one instruction that gives up. -/
theorem line_bail {insn : TsInsn} (straight : insn.isCtrl = false) (polls : Nat → Bool) {s : Sim} {r : Regs}
    (step : tsStep s (polls 0) r insn = .bail) : execTwoStateLine D polls [insn] (Cfg.start r s) = .bail := by
  have first : tsStep (Cfg.start r s).sim (polls (Cfg.start r s).pcs.length) (Cfg.start r s).regs insn = .bail := step
  simp only [execTwoStateLine, straight, Bool.false_eq_true, if_false, first]

/-- A run on planes of one instruction that falls through. -/
theorem x_single {insn : TsInsn} (polls : Nat → Bool) {s : Sim} {r r' : XRegs} {op : Option StoreOp}
    (step : xStep D s (polls 0) r insn = .next r' op) :
    execTwoStateX D [insn] polls 1 (Cfg.start r s) = .done ((Cfg.start r s).after D 1 r' op) := by
  have first : xStep D (Cfg.start r s).sim (polls (Cfg.start r s).pcs.length) (Cfg.start r s).regs insn = .next r' op :=
    step
  have here : [insn][(Cfg.start r s).pc]? = some insn := rfl
  rw [execTwoStateX, here]
  simp only [first]
  rfl

end Runs

end Xezim.Arrays
