import Xezim.TwoState.Store

/-! The narrow two-state executors, straight-line and with control flow. -/

namespace Xezim

open Function

/-- One call of a store helper or of a save, with its arguments. -/
inductive StoreOp where
  | store (id : Nat) (v mask : Word)
  | storeXz (id : Nat) (v x : Word)
  | rangeStoreXz (id : Nat) (v x : Word) (lo hi : Nat)
  | wideRangeStore (id lo hi : Nat) (v x : Word)
  | wideRangeFill (id lo hi bit : Nat)
  | wideRangeFillXz (id lo hi vbit : Nat)
  | storeNbaVal (id : Nat) (val : Value)
  | storeNba (id : Nat) (v : Word) (w : Nat)
  | storeNbaXz (id : Nat) (v x : Word) (w : Nat)
  | rangeStoreNbaXz (id lo hi : Nat) (v x : Word)
  | wideRangeStoreNbaXz (id lo hi : Nat) (v x : Word)
  | wideRangeFillNba (id lo hi bit : Nat)
  | covHit (c : Nat)
  | saveSig (sig : Nat)
  | saveSigW (sig : Nat)
  deriving DecidableEq, Repr

section Executors

variable [ValueOps] (D : Design)

/-- What a store call does to the simulator. -/
def StoreOp.apply (s : Sim) : StoreOp → Sim
  | .store id v mask => tsStore D s id v mask
  | .storeXz id v x => tsStoreXz D s id v x
  | .rangeStoreXz id v x lo hi => tsRangeStoreXz D s id v x lo hi
  | .wideRangeStore id lo hi v x => tsWideRangeStore D s id lo hi v x
  | .wideRangeFill id lo hi bit => tsWideRangeFill s id lo hi bit
  | .wideRangeFillXz id lo hi vbit => tsWideRangeFillXz D s id lo hi vbit
  | .storeNbaVal id val => tsStoreNbaVal s id val
  | .storeNba id v w => tsStoreNba s id v w
  | .storeNbaXz id v x w => tsStoreNbaXz s id v x w
  | .rangeStoreNbaXz id lo hi v x => tsRangeStoreNbaXz D s id lo hi v x
  | .wideRangeStoreNbaXz id lo hi v x => tsWideRangeStoreNbaXz D s id lo hi v x
  | .wideRangeFillNba id lo hi bit => tsWideRangeFillNba D s id lo hi bit
  | .covHit c => tsCovHit s c
  | .saveSig sig => tsSaveSig s sig
  | .saveSigW sig => tsSaveSigW D s sig

/-- The two-state register file. -/
abbrev Regs := Nat → Word

/-- How one two-state instruction ends. -/
inductive TsOutcome where
  /-- Fall through with new registers, after at most one store call. -/
  | next (regs : Regs) (op : Option StoreOp)
  /-- Continue at a position of the stream. -/
  | jump (regs : Regs) (t : Nat)
  /-- Return false. -/
  | bail
  /-- Return false after reading an x or z bit. -/
  | xbail
  /-- Suspend, or run a statement of the source language; outside the narrow streams modelled. -/
  | leave
  /-- Panic: an instruction or a table position the executor holds to be impossible. -/
  | unreachable

/-- A register file with one register replaced. -/
def setReg (r : Regs) (d : Nat) (v : Word) : Regs := update r d v

/-- Continue with one register written. -/
def TsOutcome.set (r : Regs) (d : Nat) (v : Word) : TsOutcome := .next (setReg r d v) none

/-- Read both planes of a signal and stop on an x or z bit. -/
def TsOutcome.load (p : Word × Word) (k : Word → TsOutcome) : TsOutcome :=
  if p.2 ≠ 0#64 then .xbail else k p.1

/-- The bit pattern of a part repeated, for the part widths with a constant-time form. -/
def repeatedWord (part : Word) (width : Nat) : Option Word :=
  match width with
  | 1 => some (0#64 - (part &&& 1#64))
  | 2 => some ((part &&& 0x3#64) * 0x5555555555555555#64)
  | 4 => some ((part &&& 0xf#64) * 0x1111111111111111#64)
  | 8 => some ((part &&& 0xff#64) * 0x0101010101010101#64)
  | 16 => some ((part &&& 0xffff#64) * 0x0001000100010001#64)
  | 32 => some ((part &&& 0xffffffff#64) * 0x0000000100000001#64)
  | 64 => some part
  | _ => none

/-- The doubling loop of a replication, `fuel` bounding its turns by the size of `copies`. -/
def replicateLoop : Nat → Word → Word → Nat → Nat → Word
  | 0, acc, _, _, _ => acc
  | fuel + 1, acc, chunk, chunkWidth, copies =>
    if copies = 0 then acc
    else
      let acc := if copies % 2 = 1 then shl acc chunkWidth ||| chunk else acc
      let copies := copies / 2
      if copies ≠ 0 then
        replicateLoop fuel acc (chunk ||| shl chunk chunkWidth) (chunkWidth * 2) copies
      else acc

/-- `{count{part}}` within one word. -/
def replicateNarrow (part : Word) (width count : Nat) : Word :=
  if count = 0 then 0#64
  else if count = 1 then part
  else
    let total := width * count
    match repeatedWord part width with
    | some word => if total ≥ 64 then word else word &&& (shl 1#64 total - 1#64)
    | none => replicateLoop count 0#64 part width count

/-- A word read as signed after moving its sign bit to the top. -/
def signExtend (a : Word) (k : Nat) : Word := (shl a k).sshiftRight (k % 64)

/-- A signed comparison by its kind number. -/
def cmpSigned (kind : Nat) (a b : Word) : Bool :=
  match kind with
  | 0 => a.slt b
  | 1 => a.sle b
  | 2 => b.slt a
  | _ => b.sle a

/-- The parts of a concatenation from the most significant one on. -/
def concatParts (r : Regs) : List (Nat × Nat) → Word
  | [] => 0#64
  | (first, _) :: rest => rest.foldl (fun acc p => shl acc p.2 ||| r p.1) (r first)

/-- The element an in-range index names. -/
def elemId (first : Nat) (lo i : Int) : Nat := first + (i - lo).toNat

/-- Whether an index falls outside the bounds of an array. -/
def outside (lo hi i : Int) : Bool := decide (i < lo ∨ hi < i)

/-- The store call of a slice at a run-time offset that lies inside the signal. -/
def rangeStoreDynOp (nba : Bool) (sig : Nat) (lo : Word) (v x : Word) (w sw : Nat) : StoreOp :=
  let low := asU32 lo
  let high := low + w - 1
  match nba, decide (sw > 64) with
  | false, true => .wideRangeStore sig low high v x
  | false, false => .rangeStoreXz sig v x low high
  | true, true => .wideRangeStoreNbaXz sig low high v x
  | true, false => .rangeStoreNbaXz sig low high v x

/-- The store call of a bit at a run-time position that lies inside the signal. -/
def bitStoreDynOp (nba : Bool) (sig : Nat) (idx : Word) (v x : Word) (w : Nat) : StoreOp :=
  let b := asU32 idx
  match nba, decide (w > 64) with
  | false, true => .wideRangeStore sig b b v x
  | false, false => .rangeStoreXz sig v x b b
  | true, true => .wideRangeStoreNbaXz sig b b v x
  | true, false => .rangeStoreNbaXz sig b b v x

/-- Both planes of a signal's low word. -/
def Sim.sigPlanes (s : Sim) (sig : Nat) : Word × Word := ValueOps.rawBits (s.signalTable sig)

/-- One instruction of the narrow two-state executors; `poll` answers a loop's stop request. -/
def tsStep (s : Sim) (poll : Bool) (r : Regs) : TsInsn → TsOutcome
  | .loadSig d sig => .load (s.sigPlanes sig) fun v => .set r d v
  | .const d v => .set r d v
  | .sigBit d sig bit => .load (s.sigPlanes sig) fun v => .set r d (shr v bit &&& 1#64)
  | .sigRange d sig lo mask => .load (s.sigPlanes sig) fun v => .set r d (shr v lo &&& mask)
  | .sigBitW d sig bit => .load (rawBitsSlice (s.signalTable sig) bit 1) fun v => .set r d v
  | .sigRangeW d sig lo w mask =>
    .load (rawBitsSlice (s.signalTable sig) lo w) fun v => .set r d (v &&& mask)
  | .bit d src bit => .set r d (shr (r src) bit &&& 1#64)
  | .range d src lo mask => .set r d (shr (r src) lo &&& mask)
  | .xor d a b => .set r d (r a ^^^ r b)
  | .and d a b => .set r d (r a &&& r b)
  | .or d a b => .set r d (r a ||| r b)
  | .sel d c a b _ => .set r d (if r c ≠ 0#64 then r a else r b)
  | .not d src mask => .set r d (~~~(r src) &&& mask)
  | .xorC d src k => .set r d (r src ^^^ k)
  | .maskEq d src mask v => .set r d (ofBool (r src &&& mask == v))
  | .eqC d src k => .set r d (ofBool (r src == k))
  | .add d a b mask => .set r d ((r a + r b) &&& mask)
  | .addC d src k mask => .set r d ((r src + k) &&& mask)
  | .shl d a b w mask =>
    .set r d (if (r b).toNat ≥ w then 0#64 else shl (r a) (r b).toNat &&& mask)
  | .shr d a b w => .set r d (if (r b).toNat ≥ w then 0#64 else shr (r a) (r b).toNat)
  | .sub d a b mask => .set r d ((r a - r b) &&& mask)
  | .eq d a b => .set r d (ofBool (r a == r b))
  | .neq d a b => .set r d (ofBool (r a != r b))
  | .cmpS d a b kind sa sb =>
    .set r d (ofBool (cmpSigned kind (signExtend (r a) sa) (signExtend (r b) sb)))
  | .bitStoreNbaDyn sig i src w =>
    -- The executors' own helper composes within one word, whatever the declared width.
    if (r i).toNat < w then
      .next r (some (.rangeStoreNbaXz sig (asU32 (r i)) (asU32 (r i)) (r src &&& 1#64) 0#64))
    else .next r none
  | .bitDyn d src i w =>
    if (r i).toNat ≥ w then .bail else .set r d (shr (r src) (r i).toNat &&& 1#64)
  | .loadSigNot dl d sig =>
    .load (s.sigPlanes sig) fun v => .set (setReg r dl v) d (ofBool (v == 0#64))
  | .sigRangeEqC dr d sig lo w k =>
    .load (s.sigPlanes sig) fun v =>
      let rv := shr v lo &&& xmask w
      .set (setReg r dr rv) d (ofBool (rv == k))
  | .loadSigLogAnd dl sig d a b =>
    .load (s.sigPlanes sig) fun v =>
      let r := setReg r dl v
      .set r d (ofBool (r a != 0#64 && r b != 0#64))
  | .logNotAnd dn src d a b =>
    let r := setReg r dn (ofBool (r src == 0#64))
    .set r d (r a &&& r b)
  | .logNotLogAnd dn src d a b =>
    let r := setReg r dn (ofBool (r src == 0#64))
    .set r d (ofBool (r a != 0#64 && r b != 0#64))
  | .logAndStore d a b sig mask =>
    let rv := ofBool (r a != 0#64 && r b != 0#64)
    .next (setReg r d rv) (some (.store sig (rv &&& mask) mask))
  | .andRangeStore d a b sig hi lo =>
    let rv := r a &&& r b
    .next (setReg r d rv) (some (.rangeStoreXz sig (rv &&& xmask (hi - lo + 1)) 0#64 lo hi))
  | .sigBitNot db d sig bit =>
    .load (s.sigPlanes sig) fun v =>
      let bv := shr v bit &&& 1#64
      .set (setReg r db bv) d (ofBool (bv == 0#64))
  | .loadSig2 d1 sig1 d2 sig2 =>
    .load (s.sigPlanes sig1) fun v =>
      .load (s.sigPlanes sig2) fun v2 => .set (setReg r d1 v) d2 v2
  | .sigBit2 d1 sig1 bit1 d2 sig2 bit2 =>
    .load (s.sigPlanes sig1) fun v =>
      .load (s.sigPlanes sig2) fun v2 =>
        .set (setReg r d1 (shr v bit1 &&& 1#64)) d2 (shr v2 bit2 &&& 1#64)
  | .loadSigLogOr dl sig d a b =>
    .load (s.sigPlanes sig) fun v =>
      let r := setReg r dl v
      .set r d (ofBool (r a != 0#64 || r b != 0#64))
  | .loadSigAnd dl sig d a b =>
    .load (s.sigPlanes sig) fun v =>
      let r := setReg r dl v
      .set r d (r a &&& r b)
  | .loadSigRepl dl sig d w count =>
    .load (s.sigPlanes sig) fun v => .set (setReg r dl v) d (replicateNarrow v w count)
  | .loadSigSigRange dl sig d sig2 lo mask =>
    .load (s.sigPlanes sig) fun v =>
      .load (s.sigPlanes sig2) fun v2 => .set (setReg r dl v) d (shr v2 lo &&& mask)
  | .sigRangeAnd dr sig lo mask d a b =>
    .load (s.sigPlanes sig) fun v =>
      let r := setReg r dr (shr v lo &&& mask)
      .set r d (r a &&& r b)
  | .sigRangeEq dr sig lo mask d a b =>
    .load (s.sigPlanes sig) fun v =>
      let r := setReg r dr (shr v lo &&& mask)
      .set r d (ofBool (r a == r b))
  | .constEq dc v d a b =>
    let r := setReg r dc v
    .set r d (ofBool (r a == r b))
  | .logOrStore d a b sig mask =>
    let rv := ofBool (r a != 0#64 || r b != 0#64)
    .next (setReg r d rv) (some (.store sig (rv &&& mask) mask))
  | .andOr d1 a1 b1 d a b =>
    let r := setReg r d1 (r a1 &&& r b1)
    .set r d (r a ||| r b)
  | .orRangeStore d a b sig hi lo =>
    let rv := r a ||| r b
    .next (setReg r d rv) (some (.rangeStoreXz sig (rv &&& xmask (hi - lo + 1)) 0#64 lo hi))
  | .loadSigBrNz dl sig t =>
    .load (s.sigPlanes sig) fun v =>
      if v ≠ 0#64 then .jump (setReg r dl v) t else .set r dl v
  | .brFalseLoadSig src t dl sig =>
    if r src = 0#64 then .jump r t else .load (s.sigPlanes sig) fun v => .set r dl v
  | .eqBrFalse d a b t =>
    let rv := ofBool (r a == r b)
    if rv = 0#64 then .jump (setReg r d rv) t else .set r d rv
  | .eqCBrFalse d src k t =>
    let rv := ofBool (r src == k)
    if rv = 0#64 then .jump (setReg r d rv) t else .set r d rv
  | .lt d a b => .set r d (ofBool (decide (r a < r b)))
  | .leq d a b => .set r d (ofBool (decide (r a ≤ r b)))
  | .gt d a b => .set r d (ofBool (decide (r a > r b)))
  | .geq d a b => .set r d (ofBool (decide (r a ≥ r b)))
  | .logNot d src => .set r d (ofBool (r src == 0#64))
  | .redOr d src => .set r d (ofBool (r src != 0#64))
  | .redAnd d src mask => .set r d (ofBool (r src == mask))
  | .covHit c => .next r (some (.covHit c))
  | .waitEdge .. | .waitDelayRaw .. | .fallback _ => .leave
  | .saveSig sig => .next r (some (.saveSig sig))
  | .saveSigW sig => .next r (some (.saveSigW sig))
  | .bitStoreDyn sig i src w =>
    if (r i).toNat < w then
      .next r (some (bitStoreDynOp false sig (r i) (r src &&& 1#64) 0#64 w))
    else .next r none
  | .sigRangeDyn d sig i w sw mask =>
    match pastEnd (r i) w sw with
    | none => .unreachable
    | some true => .bail
    | some false =>
      .load (rawBitsSlice (s.signalTable sig) ((r i).toNat % 2 ^ 16) w) fun v => .set r d (v &&& mask)
  | .rangeStoreDyn sig i src w sw mask =>
    match pastEnd (r i) w sw with
    | none => .unreachable
    | some true => .bail
    | some false => .next r (some (rangeStoreDynOp false sig (r i) (r src &&& mask) 0#64 w sw))
  | .rangeStoreNbaDyn sig i src w sw mask =>
    match pastEnd (r i) w sw with
    | none => .unreachable
    | some true => .bail
    | some false => .next r (some (rangeStoreDynOp true sig (r i) (r src &&& mask) 0#64 w sw))
  | .wNbaFromElem op =>
    let index := s.sigPlanes op.idxSig
    if index.2 ≠ 0#64 then
      .next r (some (.storeNbaVal op.dst
        { ValueOps.new (max op.w 1) with isSigned := false }))
    else if outside op.lo op.hi index.1.toInt then .bail
    else .next r (some (.storeNbaVal op.dst
      { s.signalTable (elemId op.first op.lo index.1.toInt) with isSigned := false }))
  | .rangeFillXW sig hi lo v => .next r (some (.wideRangeFillXz sig lo hi v))
  | .loopPoll => if poll then .bail else .next r none
  | .constStoreX sig v x => .next r (some (.storeXz sig v x))
  | .rangeFillW sig hi lo bit => .next r (some (.wideRangeFill sig lo hi bit))
  | .rangeFillNbaW sig hi lo bit => .next r (some (.wideRangeFillNba sig lo hi bit))
  | .rangeStoreNbaW sig hi lo src mask =>
    .next r (some (.wideRangeStoreNbaXz sig lo hi (r src &&& mask) 0#64))
  | .rangeStoreW sig hi lo src mask =>
    .next r (some (.wideRangeStore sig lo hi (r src &&& mask) 0#64))
  | .rangeStoreXW p => .next r (some (.wideRangeStore p.sig p.lo p.hi p.v p.x))
  | .rangeStoreX p => .next r (some (.rangeStoreXz p.sig p.v p.x p.lo p.hi))
  | .logAnd d a b => .set r d (ofBool (r a != 0#64 && r b != 0#64))
  | .logOr d a b => .set r d (ofBool (r a != 0#64 || r b != 0#64))
  | .concat d parts => .set r d (concatParts r parts)
  | .concat2 d a _ b wb => .set r d (shl (r a) wb ||| r b)
  | .concat3 d a _ b wb c wc => .set r d (shl (shl (r a) wb ||| r b) wc ||| r c)
  | .mask d mask => .set r d (r d &&& mask)
  | .mul d a b mask => .set r d ((r a * r b) &&& mask)
  | .repl d src w count => .set r d (replicateNarrow (r src) w count)
  | .brSigFalse sig none t =>
    .load (s.sigPlanes sig) fun v => if v ≠ 0#64 then .next r none else .jump r t
  | .brSigFalse sig (some bit) t =>
    .load (rawBitsSlice (s.signalTable sig) bit 1) fun v =>
      if v ≠ 0#64 then .next r none else .jump r t
  | .brFalse src t => if r src = 0#64 then .jump r t else .next r none
  | .brNz src t => if r src ≠ 0#64 then .jump r t else .next r none
  | .jmp t => .jump r t
  | .jmpPoll t => if poll then .bail else .jump r t
  | .caseJmp src cj => .jump r (cj.table.getD (r src).toNat cj.default)
  | .caseMaskJmp src cm =>
    -- The window is fully known here, so the wildcard chain is never taken.
    match cm.mj.table[(shr (r src &&& cm.mask) cm.lo &&& cm.wmask).toNat]? with
    | some t => .jump r t
    | none => .unreachable
  | .elemLoad op =>
    let i := (r op.idx).toInt
    if outside op.lo op.hi i then .bail
    else
      let p := s.sigPlanes (elemId op.first op.lo i)
      if p.2 ≠ 0#64 then .bail else .set r op.s p.1
  | .elemStoreNbaFromSig f =>
    let p := s.sigPlanes f.sig
    let r := setReg r f.dl p.1
    let i := (r f.op.idx).toInt
    if outside f.op.lo f.op.hi i then .next r none
    else .next r (some (.storeNbaXz (elemId f.op.first f.op.lo i)
      (p.1 &&& f.op.mask) (p.2 &&& f.op.mask) f.op.w))
  | .elemStoreNba op =>
    let i := (r op.idx).toInt
    if outside op.lo op.hi i then .next r none
    else .next r (some (.storeNba (elemId op.first op.lo i) (r op.s &&& op.mask) op.w))
  | .elemStore op =>
    let i := (r op.idx).toInt
    if outside op.lo op.hi i then .next r none
    else .next r (some (.store (elemId op.first op.lo i) (r op.s &&& op.mask) op.mask))
  | .nbaFromElem op =>
    let index := s.sigPlanes op.idxSig
    if index.2 ≠ 0#64 then
      .next r (some (.storeNbaVal op.dst
        { ValueOps.new (max op.w 1) with isSigned := false }))
    else if outside op.lo op.hi index.1.toInt then .bail
    else
      let p := s.sigPlanes (elemId op.first op.lo index.1.toInt)
      if p.2 ≠ 0#64 then .bail
      else .next r (some (.storeNba op.dst (p.1 &&& xmask op.w) op.w))
  | .store sig src mask => .next r (some (.store sig (r src &&& mask) mask))
  | .rangeStore sig hi lo src mask =>
    .next r (some (.rangeStoreXz sig (r src &&& mask) 0#64 lo hi))
  | .storeNba sig src w mask => .next r (some (.storeNba sig (r src &&& mask) w))
  | .constStoreNba sig v w => .next r (some (.storeNba sig v w))
  | .rangeStoreNba sig hi lo src mask =>
    .next r (some (.rangeStoreNbaXz sig lo hi (r src &&& mask) 0#64))
  | .wRedOr .. | .wRedAnd .. | .wSel .. | .wElemLoad .. | .wLoadSig .. | .wConst .. | .wXor ..
  | .wAnd .. | .wOr .. | .wNot .. | .wRange .. | .rangeFromW .. | .bitFromW .. | .wConcat ..
  | .wMask .. | .wFromN .. | .nFromW .. | .wStore .. | .wStoreNba .. | .wRangeStore ..
  | .wRangeStoreNba .. | .wSigRange .. | .wRepl .. => .unreachable

/-- A control instruction, which the straight-line executor holds to be impossible. -/
def TsInsn.isCtrl : TsInsn → Bool
  | .brSigFalse .. | .brFalse .. | .brNz .. | .loadSigBrNz .. | .brFalseLoadSig .. | .eqBrFalse ..
  | .eqCBrFalse .. | .jmp .. | .jmpPoll .. | .caseJmp .. | .caseMaskJmp .. => true
  | _ => false

/-- Where a run stands: its position, its registers, the simulator, and what it did so far. -/
structure Cfg (ρ : Type) where
  pc : Nat
  regs : ρ
  sim : Sim
  /-- The positions executed, oldest first. -/
  pcs : List Nat
  /-- The store calls made, oldest first. -/
  ops : List StoreOp

/-- A run about to start. -/
def Cfg.start {ρ : Type} (regs : ρ) (s : Sim) : Cfg ρ :=
  { pc := 0, regs, sim := s, pcs := [], ops := [] }

/-- The configuration after an instruction left registers and possibly a store call. -/
def Cfg.after {ρ : Type} (c : Cfg ρ) (pc : Nat) (regs : ρ) (op : Option StoreOp) : Cfg ρ :=
  { pc, regs
    sim := op.elim c.sim (StoreOp.apply D c.sim)
    pcs := c.pcs ++ [c.pc]
    ops := c.ops ++ op.toList }

/-- How a run ends. -/
inductive Halt (ρ : Type) where
  /-- The stream was run to its end. -/
  | done (c : Cfg ρ)
  /-- A loop's stop request ended the run early. -/
  | stopped (c : Cfg ρ)
  | bail
  | xbail
  | leave
  | unreachable
  | outOfFuel

/-- `exec_two_state_ctrl`: run a stream by position; `polls` answers each step's stop request. -/
def execTwoStateCtrl (insns : List TsInsn) (polls : Nat → Bool) : Nat → Cfg Regs → Halt Regs
  | 0, c => if insns.length ≤ c.pc then .done c else .outOfFuel
  | fuel + 1, c =>
    match insns[c.pc]? with
    | none => .done c
    | some insn =>
      match tsStep c.sim (polls c.pcs.length) c.regs insn with
      | .next r op => execTwoStateCtrl insns polls fuel (c.after D (c.pc + 1) r op)
      | .jump r t => execTwoStateCtrl insns polls fuel (c.after D t r none)
      | .bail => .bail
      | .xbail => .xbail
      | .leave => .leave
      | .unreachable => .unreachable

/-- `exec_two_state_line`: run the instructions of a straight-line stream one after another. -/
def execTwoStateLine (polls : Nat → Bool) : List TsInsn → Cfg Regs → Halt Regs
  | [], c => .done c
  | insn :: rest, c =>
    if insn.isCtrl then .unreachable
    else
      match tsStep c.sim (polls c.pcs.length) c.regs insn with
      | .next r op => execTwoStateLine polls rest (c.after D (c.pc + 1) r op)
      | .bail => .bail
      | .xbail => .xbail
      | .leave => .leave
      | .jump .. | .unreachable => .unreachable

-- The equations are generated here, once for every module that unfolds them.
attribute [local grind =] tsStep

end Executors

end Xezim
