import Xezim.TwoState.Exec

/-! The x-plane executor, which runs a lowered stream on a value and an unknown plane. -/

namespace Xezim

open Function KnownBits

/-- The truth of a pair of planes: a known one is true, otherwise any unknown bit is unknown. -/
def t3 (p : Planes 64) : Option Bool :=
  if p.v &&& ~~~p.x ≠ 0#64 then some true
  else if p.x ≠ 0#64 then none
  else some false

/-- A truth value as planes. -/
def fromT3 : Option Bool → Planes 64
  | some true => ⟨1#64, 0#64⟩
  | some false => ⟨0#64, 0#64⟩
  | none => ⟨0#64, 1#64⟩

/-- Three-valued conjunction. -/
def and3 : Option Bool → Option Bool → Option Bool
  | some false, _ => some false
  | _, some false => some false
  | some true, some true => some true
  | _, _ => none

/-- Three-valued disjunction. -/
def or3 : Option Bool → Option Bool → Option Bool
  | some true, _ => some true
  | _, some true => some true
  | some false, some false => some false
  | _, _ => none

/-- Three-valued negation. -/
def not3 (a : Option Bool) : Option Bool := a.map (!·)

/-- Bitwise conjunction on planes. -/
def andP (a b : Planes 64) : Planes 64 :=
  let any := a.x ||| b.x
  ⟨a.v &&& b.v &&& ~~~any, any &&& ~~~((~~~a.v &&& ~~~a.x) ||| (~~~b.v &&& ~~~b.x))⟩

/-- Bitwise disjunction on planes. -/
def orP (a b : Planes 64) : Planes 64 :=
  let known1 := (a.v &&& ~~~a.x) ||| (b.v &&& ~~~b.x)
  ⟨known1, (a.x ||| b.x) &&& ~~~known1⟩

/-- Bitwise difference on planes. -/
def xorP (a b : Planes 64) : Planes 64 :=
  let rx := a.x ||| b.x
  ⟨(a.v ^^^ b.v) &&& ~~~rx, rx⟩

/-- Equality on planes: a known mismatch is false, any other unknown bit leaves it unknown. -/
def eqP (a b : Planes 64) : Planes 64 :=
  if a.x ||| b.x = 0#64 then ⟨ofBool (a.v == b.v), 0#64⟩
  else if (a.v ^^^ b.v) &&& ~~~a.x &&& ~~~b.x ≠ 0#64 then ⟨0#64, 0#64⟩
  else ⟨0#64, 1#64⟩

/-- Inequality on planes. -/
def neP (a b : Planes 64) : Planes 64 :=
  let p := eqP a b
  if p.x ≠ 0#64 then ⟨0#64, 1#64⟩ else ⟨p.v ^^^ 1#64, 0#64⟩

/-- A selection with an unknown selector: agreeing known bits stay, the others are unknown. -/
def mergeP (a b : Planes 64) (mask : Word) : Planes 64 :=
  let agree := ~~~a.x &&& ~~~b.x &&& ~~~(a.v ^^^ b.v)
  ⟨a.v &&& agree, ~~~agree &&& mask⟩

/-- A known word as planes. -/
def known (v : Word) : Planes 64 := ⟨v, 0#64⟩

/-- The planes of a window moved down to bit zero. -/
def sliceP (p : Planes 64) (lo : Nat) (mask : Word) : Planes 64 :=
  ⟨shr p.v lo &&& mask, shr p.x lo &&& mask⟩

/-- An operation that an unknown operand bit makes unknown in all of its result. -/
def strict2 (a b : Planes 64) (mask : Word) (f : Word → Word → Word) : Planes 64 :=
  if a.x ||| b.x ≠ 0#64 then ⟨0#64, mask⟩ else ⟨f a.v b.v, 0#64⟩

/-- The register file of the x-plane executor. -/
abbrev XRegs := Nat → Planes 64

/-- How one instruction of the x-plane executor ends. -/
inductive XOutcome where
  /-- Fall through with new registers, after at most one store call. -/
  | next (regs : XRegs) (op : Option StoreOp)
  /-- Continue at a position of the stream. -/
  | jump (regs : XRegs) (t : Nat)
  /-- Return true early on a stop request. -/
  | stop
  /-- Return false: an instruction the executor does not carry. -/
  | unsupported
  /-- Panic: a position outside a table. -/
  | unreachable

/-- A register file with one register's planes replaced. -/
def setX (r : XRegs) (d : Nat) (p : Planes 64) : XRegs := update r d p

/-- Continue with one register written. -/
def XOutcome.set (r : XRegs) (d : Nat) (p : Planes 64) : XOutcome := .next (setX r d p) none

/-- The parts of a concatenation; a full-word later part follows only empty ones and replaces. -/
def concatPartsX (r : XRegs) : List (Nat × Nat) → Planes 64
  | [] => ⟨0#64, 0#64⟩
  | (first, _) :: rest =>
    rest.foldl (fun acc p =>
      if p.2 ≥ 64 then r p.1
      else ⟨shl acc.v p.2 ||| (r p.1).v, shl acc.x p.2 ||| (r p.1).x⟩) (r first)

section Executor

variable [ValueOps] (D : Design)

/-- A pair of planes as the executor's own register content. -/
def pair (p : Word × Word) : Planes 64 := ⟨p.1, p.2⟩

/-- Both planes of a narrow signal. -/
def Sim.sigX (s : Sim) (sig : Nat) : Planes 64 := pair (s.sigPlanes sig)

/-- One instruction of the x-plane executor. -/
def xStep (s : Sim) (poll : Bool) (r : XRegs) : TsInsn → XOutcome
  | .loadSig d sig => .set r d (s.sigX sig)
  | .const d v => .set r d (known v)
  | .sigBit d sig bit => .set r d (sliceP (s.sigX sig) bit 1#64)
  | .sigRange d sig lo mask => .set r d (sliceP (s.sigX sig) lo mask)
  | .sigBitW d sig bit => .set r d (pair (rawBitsSlice (s.signalTable sig) bit 1))
  | .sigRangeW d sig lo w mask =>
    let p := rawBitsSlice (s.signalTable sig) lo w
    .set r d ⟨p.1 &&& mask, p.2 &&& mask⟩
  | .bit d src bit => .set r d (sliceP (r src) bit 1#64)
  | .range d src lo mask => .set r d (sliceP (r src) lo mask)
  | .xor d a b => .set r d (xorP (r a) (r b))
  | .and d a b => .set r d (andP (r a) (r b))
  | .or d a b => .set r d (orP (r a) (r b))
  | .sel d c a b m =>
    .set r d (if (r c).x ≠ 0#64 then mergeP (r a) (r b) m
      else if (r c).v ≠ 0#64 then r a else r b)
  | .not d src mask => .set r d ⟨~~~(r src).v &&& ~~~(r src).x &&& mask, (r src).x &&& mask⟩
  | .xorC d src k => .set r d ⟨((r src).v ^^^ k) &&& ~~~(r src).x, (r src).x⟩
  | .maskEq d src mask v =>
    .set r d (eqP ⟨(r src).v &&& mask, (r src).x &&& mask⟩ (known v))
  | .eqC d src k => .set r d (eqP (r src) (known k))
  | .add d a b mask => .set r d (strict2 (r a) (r b) mask fun u v => (u + v) &&& mask)
  | .addC d src k mask =>
    .set r d (if (r src).x ≠ 0#64 then ⟨0#64, mask⟩ else known (((r src).v + k) &&& mask))
  | .sub d a b mask => .set r d (strict2 (r a) (r b) mask fun u v => (u - v) &&& mask)
  | .mul d a b mask => .set r d (strict2 (r a) (r b) mask fun u v => (u * v) &&& mask)
  | .shl d a b w mask =>
    .set r d (if (r b).x ≠ 0#64 then ⟨0#64, mask⟩
      else
        let amt := (r b).v.toNat
        if amt ≥ w then ⟨0#64, 0#64⟩ else ⟨shl (r a).v amt &&& mask, shl (r a).x amt &&& mask⟩)
  | .shr d a b w =>
    .set r d (if (r b).x ≠ 0#64 then ⟨0#64, xmask w⟩
      else
        let amt := (r b).v.toNat
        if amt ≥ w then ⟨0#64, 0#64⟩ else ⟨shr (r a).v amt, shr (r a).x amt⟩)
  | .eq d a b => .set r d (eqP (r a) (r b))
  | .neq d a b => .set r d (neP (r a) (r b))
  | .lt d a b => .set r d (strict2 (r a) (r b) 1#64 fun u v => ofBool (decide (u < v)))
  | .leq d a b => .set r d (strict2 (r a) (r b) 1#64 fun u v => ofBool (decide (u ≤ v)))
  | .gt d a b => .set r d (strict2 (r a) (r b) 1#64 fun u v => ofBool (decide (u > v)))
  | .geq d a b => .set r d (strict2 (r a) (r b) 1#64 fun u v => ofBool (decide (u ≥ v)))
  | .cmpS d a b kind sa sb =>
    .set r d (strict2 (r a) (r b) 1#64 fun u v =>
      ofBool (cmpSigned kind (signExtend u sa) (signExtend v sb)))
  | .loadSigNot dl d sig =>
    let p := s.sigX sig
    .set (setX r dl p) d (fromT3 (not3 (t3 p)))
  | .sigRangeEqC dr d sig lo w k =>
    let p := sliceP (s.sigX sig) lo (xmask w)
    .set (setX r dr p) d (eqP p (known k))
  | .loadSigLogAnd dl sig d a b =>
    let r := setX r dl (s.sigX sig)
    .set r d (fromT3 (and3 (t3 (r a)) (t3 (r b))))
  | .logNotAnd dn src d a b =>
    let r := setX r dn (fromT3 (not3 (t3 (r src))))
    .set r d (andP (r a) (r b))
  | .logNotLogAnd dn src d a b =>
    let r := setX r dn (fromT3 (not3 (t3 (r src))))
    .set r d (fromT3 (and3 (t3 (r a)) (t3 (r b))))
  | .logAndStore d a b sig mask =>
    let p := fromT3 (and3 (t3 (r a)) (t3 (r b)))
    .next (setX r d p) (some (.storeXz sig (p.v &&& mask) (p.x &&& mask)))
  | .andRangeStore d a b sig hi lo =>
    let mask := xmask (hi - lo + 1)
    let p := andP (r a) (r b)
    .next (setX r d p) (some (.rangeStoreXz sig (p.v &&& mask) (p.x &&& mask) lo hi))
  | .sigBitNot db d sig bit =>
    let p := sliceP (s.sigX sig) bit 1#64
    .set (setX r db p) d (fromT3 (not3 (t3 p)))
  | .loadSig2 d1 sig1 d2 sig2 => .set (setX r d1 (s.sigX sig1)) d2 (s.sigX sig2)
  | .sigBit2 d1 sig1 bit1 d2 sig2 bit2 =>
    .set (setX r d1 (sliceP (s.sigX sig1) bit1 1#64)) d2 (sliceP (s.sigX sig2) bit2 1#64)
  | .loadSigBrNz dl sig t =>
    let p := s.sigX sig
    let r := setX r dl p
    if t3 p = some true then .jump r t else .next r none
  | .brFalseLoadSig src t dl sig =>
    if t3 (r src) ≠ some true then .jump r t else .set r dl (s.sigX sig)
  | .eqBrFalse d a b t =>
    let p := eqP (r a) (r b)
    let r := setX r d p
    if t3 p ≠ some true then .jump r t else .next r none
  | .eqCBrFalse d src k t =>
    let p := eqP (r src) (known k)
    let r := setX r d p
    if t3 p ≠ some true then .jump r t else .next r none
  | .loadSigLogOr dl sig d a b =>
    let r := setX r dl (s.sigX sig)
    .set r d (fromT3 (or3 (t3 (r a)) (t3 (r b))))
  | .loadSigAnd dl sig d a b =>
    let r := setX r dl (s.sigX sig)
    .set r d (andP (r a) (r b))
  | .loadSigRepl dl sig d w count =>
    let p := s.sigX sig
    .set (setX r dl p) d ⟨replicateNarrow p.v w count, replicateNarrow p.x w count⟩
  | .loadSigSigRange dl sig d sig2 lo mask =>
    .set (setX r dl (s.sigX sig)) d (sliceP (s.sigX sig2) lo mask)
  | .sigRangeAnd dr sig lo mask d a b =>
    let r := setX r dr (sliceP (s.sigX sig) lo mask)
    .set r d (andP (r a) (r b))
  | .sigRangeEq dr sig lo mask d a b =>
    let r := setX r dr (sliceP (s.sigX sig) lo mask)
    .set r d (eqP (r a) (r b))
  | .constEq dc v d a b =>
    let r := setX r dc (known v)
    .set r d (eqP (r a) (r b))
  | .logOrStore d a b sig mask =>
    let p := fromT3 (or3 (t3 (r a)) (t3 (r b)))
    .next (setX r d p) (some (.storeXz sig (p.v &&& mask) (p.x &&& mask)))
  | .andOr d1 a1 b1 d a b =>
    let r := setX r d1 (andP (r a1) (r b1))
    .set r d (orP (r a) (r b))
  | .orRangeStore d a b sig hi lo =>
    let mask := xmask (hi - lo + 1)
    let p := orP (r a) (r b)
    .next (setX r d p) (some (.rangeStoreXz sig (p.v &&& mask) (p.x &&& mask) lo hi))
  | .logNot d src => .set r d (fromT3 (not3 (t3 (r src))))
  | .logAnd d a b => .set r d (fromT3 (and3 (t3 (r a)) (t3 (r b))))
  | .logOr d a b => .set r d (fromT3 (or3 (t3 (r a)) (t3 (r b))))
  | .redOr d src => .set r d (fromT3 (t3 (r src)))
  | .redAnd d src mask =>
    .set r d (if ~~~(r src).v &&& ~~~(r src).x &&& mask ≠ 0#64 then ⟨0#64, 0#64⟩
      else if (r src).x &&& mask ≠ 0#64 then ⟨0#64, 1#64⟩
      else ⟨1#64, 0#64⟩)
  | .concat d parts => .set r d (concatPartsX r parts)
  | .concat2 d a _ b wb =>
    .set r d ⟨shl (r a).v wb ||| (r b).v, shl (r a).x wb ||| (r b).x⟩
  | .concat3 d a _ b wb c wc =>
    .set r d ⟨shl (shl (r a).v wb ||| (r b).v) wc ||| (r c).v,
      shl (shl (r a).x wb ||| (r b).x) wc ||| (r c).x⟩
  | .mask d mask => .set r d ⟨(r d).v &&& mask, (r d).x &&& mask⟩
  | .repl d src w count =>
    .set r d ⟨replicateNarrow (r src).v w count, replicateNarrow (r src).x w count⟩
  | .bitDyn d src i w =>
    .set r d (if (r i).x ≠ 0#64 ∨ (r i).v.toNat ≥ w then ⟨0#64, 1#64⟩
      else sliceP (r src) (r i).v.toNat 1#64)
  | .brSigFalse sig none t => if t3 (s.sigX sig) ≠ some true then .jump r t else .next r none
  | .brSigFalse sig (some bit) t =>
    if t3 (pair (rawBitsSlice (s.signalTable sig) bit 1)) ≠ some true then .jump r t
    else .next r none
  | .brFalse src t => if t3 (r src) ≠ some true then .jump r t else .next r none
  | .brNz src t => if t3 (r src) = some true then .jump r t else .next r none
  | .jmp t => .jump r t
  | .jmpPoll t => if poll then .stop else .jump r t
  | .caseJmp src cj =>
    .jump r (if (r src).x ≠ 0#64 then cj.default
      else cj.table.getD (r src).v.toNat cj.default)
  | .caseMaskJmp src cm =>
    if (r src).x &&& cm.mask ≠ 0#64 then .jump r cm.mj.xzPath
    else
      match cm.mj.table[(shr ((r src).v &&& cm.mask) cm.lo &&& cm.wmask).toNat]? with
      | some t => .jump r t
      | none => .unreachable
  | .sigRangeDyn d sig i w sw mask =>
    if (r i).x ≠ 0#64 then .set r d ⟨0#64, mask⟩
    else
      match pastEnd (r i).v w sw with
      | none => .unreachable
      | some true => .set r d ⟨0#64, mask⟩
      | some false =>
        let p := rawBitsSlice (s.signalTable sig) ((r i).v.toNat % 2 ^ 16) w
        .set r d ⟨p.1 &&& mask, p.2 &&& mask⟩
  | .rangeStoreDyn sig i src w sw mask =>
    if (r i).x ≠ 0#64 then .next r none
    else
      match pastEnd (r i).v w sw with
      | none => .unreachable
      | some true => .next r none
      | some false => .next r (some (rangeStoreDynOp false sig (r i).v
          ((r src).v &&& mask) ((r src).x &&& mask) w sw))
  | .rangeStoreNbaDyn sig i src w sw mask =>
    if (r i).x ≠ 0#64 then .next r none
    else
      match pastEnd (r i).v w sw with
      | none => .unreachable
      | some true => .next r none
      | some false => .next r (some (rangeStoreDynOp true sig (r i).v
          ((r src).v &&& mask) ((r src).x &&& mask) w sw))
  | .bitStoreDyn sig i src w =>
    if (r i).x = 0#64 ∧ (r i).v.toNat < w then
      .next r (some (bitStoreDynOp false sig (r i).v ((r src).v &&& 1#64) ((r src).x &&& 1#64) w))
    else .next r none
  | .bitStoreNbaDyn sig i src w =>
    if (r i).x = 0#64 ∧ (r i).v.toNat < w then
      .next r (some (bitStoreDynOp true sig (r i).v ((r src).v &&& 1#64) ((r src).x &&& 1#64) w))
    else .next r none
  | .store sig src mask =>
    .next r (some (.storeXz sig ((r src).v &&& mask) ((r src).x &&& mask)))
  | .rangeStore sig hi lo src mask =>
    .next r (some (.rangeStoreXz sig ((r src).v &&& mask) ((r src).x &&& mask) lo hi))
  | .storeNba sig src w mask =>
    .next r (some (.storeNbaXz sig ((r src).v &&& mask) ((r src).x &&& mask) w))
  | .constStoreNba sig v w => .next r (some (.storeNba sig v w))
  | .rangeStoreNba sig hi lo src mask =>
    .next r (some (.rangeStoreNbaXz sig lo hi ((r src).v &&& mask) ((r src).x &&& mask)))
  | .rangeStoreW sig hi lo src mask =>
    .next r (some (.wideRangeStore sig lo hi ((r src).v &&& mask) ((r src).x &&& mask)))
  | .rangeStoreNbaW sig hi lo src mask =>
    .next r (some (.wideRangeStoreNbaXz sig lo hi ((r src).v &&& mask) ((r src).x &&& mask)))
  | .constStoreX sig v x => .next r (some (.storeXz sig v x))
  | .rangeStoreX p => .next r (some (.rangeStoreXz p.sig p.v p.x p.lo p.hi))
  | .rangeStoreXW p => .next r (some (.wideRangeStore p.sig p.lo p.hi p.v p.x))
  | .rangeFillW sig hi lo bit => .next r (some (.wideRangeFill sig lo hi bit))
  | .rangeFillNbaW sig hi lo bit => .next r (some (.wideRangeFillNba sig lo hi bit))
  | .rangeFillXW sig hi lo v => .next r (some (.wideRangeFillXz sig lo hi v))
  | .elemLoad op =>
    let i := (r op.idx).v.toInt
    .set r op.s (if (r op.idx).x ≠ 0#64 ∨ outside op.lo op.hi i = true then
        ⟨0#64, xmask (D.signalWidths op.first)⟩
      else s.sigX (elemId op.first op.lo i))
  | .elemStore op =>
    let i := (r op.idx).v.toInt
    if (r op.idx).x = 0#64 ∧ outside op.lo op.hi i = false then
      .next r (some (.storeXz (elemId op.first op.lo i)
        ((r op.s).v &&& op.mask) ((r op.s).x &&& op.mask)))
    else .next r none
  | .elemStoreNba op =>
    let i := (r op.idx).v.toInt
    if (r op.idx).x = 0#64 ∧ outside op.lo op.hi i = false then
      .next r (some (.storeNbaXz (elemId op.first op.lo i)
        ((r op.s).v &&& op.mask) ((r op.s).x &&& op.mask) op.w))
    else .next r none
  | .elemStoreNbaFromSig f =>
    let p := s.sigX f.sig
    let r := setX r f.dl p
    let i := (r f.op.idx).v.toInt
    if (r f.op.idx).x = 0#64 ∧ outside f.op.lo f.op.hi i = false then
      .next r (some (.storeNbaXz (elemId f.op.first f.op.lo i)
        (p.v &&& f.op.mask) (p.x &&& f.op.mask) f.op.w))
    else .next r none
  | .nbaFromElem op =>
    let index := s.sigX op.idxSig
    if index.x ≠ 0#64 ∨ outside op.lo op.hi index.v.toInt = true then
      .next r (some (.storeNbaVal op.dst
        { ValueOps.new (max op.w 1) with isSigned := false }))
    else
      let p := s.sigX (elemId op.first op.lo index.v.toInt)
      .next r (some (.storeNbaXz op.dst (p.v &&& xmask op.w) (p.x &&& xmask op.w) op.w))
  | .wNbaFromElem op =>
    let index := s.sigX op.idxSig
    if index.x ≠ 0#64 ∨ outside op.lo op.hi index.v.toInt = true then
      .next r (some (.storeNbaVal op.dst
        { ValueOps.new (max op.w 1) with isSigned := false }))
    else
      .next r (some (.storeNbaVal op.dst
        { s.signalTable (elemId op.first op.lo index.v.toInt) with isSigned := false }))
  -- The saves serve a later abort, and this executor never aborts.
  | .saveSig _ | .saveSigW _ => .next r none
  | .covHit c => .next r (some (.covHit c))
  | .loopPoll => if poll then .stop else .next r none
  | .fallback _ | .waitEdge .. | .waitDelayRaw .. | .wRedOr .. | .wRedAnd .. | .wSel ..
  | .wLoadSig .. | .wConst .. | .wXor .. | .wAnd .. | .wOr .. | .wNot .. | .wRange ..
  | .rangeFromW .. | .bitFromW .. | .wConcat .. | .wMask .. | .wFromN .. | .nFromW ..
  | .wStore .. | .wStoreNba .. | .wRangeStore .. | .wRangeStoreNba .. | .wSigRange ..
  | .wRepl .. | .wElemLoad .. => .unsupported

/-- `exec_two_state_x`: run a stream by position on planes. -/
def execTwoStateX (insns : List TsInsn) (polls : Nat → Bool) : Nat → Cfg XRegs → Halt XRegs
  | 0, c => if insns.length ≤ c.pc then .done c else .outOfFuel
  | fuel + 1, c =>
    match insns[c.pc]? with
    | none => .done c
    | some insn =>
      match xStep D c.sim (polls c.pcs.length) c.regs insn with
      | .next r op => execTwoStateX insns polls fuel (c.after D (c.pc + 1) r op)
      | .jump r t => execTwoStateX insns polls fuel (c.after D t r none)
      | .stop => .stopped c
      | .unsupported => .leave
      | .unreachable => .unreachable

-- The equations are generated here, once for every module that unfolds them.
attribute [local grind =] xStep

end Executor

end Xezim
