import Xezim.TwoState.Exec

/-! Fusing adjacent instructions of a lowered stream and renumbering its branch targets. -/

namespace Xezim

/-- The branch targets that keep a pair apart; those of opcodes only fusion itself emits are not looked at. -/
def TsInsn.marked : TsInsn → List Nat
  | .brSigFalse _ _ t | .brFalse _ t | .brNz _ t | .eqCBrFalse _ _ _ t | .jmp t => [t]
  | .caseMaskJmp _ cm => cm.mj.table ++ [cm.mj.xzPath]
  | .caseJmp _ cj => cj.table ++ [cj.default]
  | _ => []

/-- `is_tgt`: some branch of the stream leads to a position. -/
def isTgt (insns : List TsInsn) (t : Nat) : Bool := insns.any fun insn => insn.marked.contains t

/-- Two instructions where the first is a load of a whole signal. -/
def fuseLoadSig (dl sig : Nat) : TsInsn → Option TsInsn
  | .elemStoreNba op => if op.s = dl then some (.elemStoreNbaFromSig ⟨sig, dl, op⟩) else none
  | .logNot d s => if s = dl then some (.loadSigNot dl d sig) else none
  | .logAnd d a b => if a = dl ∨ b = dl then some (.loadSigLogAnd dl sig d a b) else none
  | .loadSig d2 sig2 => some (.loadSig2 dl sig d2 sig2)
  | .brNz s t => if s = dl then some (.loadSigBrNz dl sig t) else none
  | .logOr d a b => if a = dl ∨ b = dl then some (.loadSigLogOr dl sig d a b) else none
  | .and d a b => if a = dl ∨ b = dl then some (.loadSigAnd dl sig d a b) else none
  | .repl d s w count => if s = dl then some (.loadSigRepl dl sig d w count) else none
  | .sigRange d sig2 lo mask => some (.loadSigSigRange dl sig d sig2 lo mask)
  | _ => none

/-- Two instructions where the first is a constant part-select of a signal. -/
def fuseSigRange (dr sig lo : Nat) (mask : Word) : TsInsn → Option TsInsn
  | .eqC d s k =>
    -- Only a mask that is a run of low ones can be told by its width.
    if s = dr ∧ lo < 64 ∧ mask.cpop.toNat = 64 - mask.clz.toNat then
      some (.sigRangeEqC dr d sig lo (64 - mask.clz.toNat) k)
    else none
  | .and d a b => if a = dr ∨ b = dr then some (.sigRangeAnd dr sig lo mask d a b) else none
  | .eq d a b => if a = dr ∨ b = dr then some (.sigRangeEq dr sig lo mask d a b) else none
  | _ => none

/-- The pair rules: the instruction that does what two adjacent ones do. -/
def fusePair (first second : TsInsn) : Option TsInsn :=
  match first with
  | .loadSig dl sig => fuseLoadSig dl sig second
  | .sigRange dr sig lo mask => fuseSigRange dr sig lo mask second
  | .logNot dn s =>
    match second with
    | .and d a b => if a = dn ∨ b = dn then some (.logNotAnd dn s d a b) else none
    | .logAnd d a b => if a = dn ∨ b = dn then some (.logNotLogAnd dn s d a b) else none
    | _ => none
  | .logAnd d a b =>
    match second with
    | .store sig s mask => if s = d then some (.logAndStore d a b sig mask) else none
    | _ => none
  | .and d a b =>
    match second with
    | .rangeStore sig hi lo s mask =>
      if s = d ∧ mask = xmask (hi - lo + 1) then some (.andRangeStore d a b sig hi lo) else none
    | .or d2 a2 b2 => if a2 = d ∨ b2 = d then some (.andOr d a b d2 a2 b2) else none
    | _ => none
  | .sigBit db sig bit =>
    match second with
    | .logNot d s => if s = db then some (.sigBitNot db d sig bit) else none
    | .sigBit d2 sig2 bit2 => some (.sigBit2 db sig bit d2 sig2 bit2)
    | _ => none
  | .brFalse s t =>
    match second with
    | .loadSig dl sig => some (.brFalseLoadSig s t dl sig)
    | _ => none
  | .eq d a b =>
    match second with
    | .brFalse s t => if s = d then some (.eqBrFalse d a b t) else none
    | _ => none
  | .eqC d s k =>
    match second with
    | .brFalse condition t => if condition = d then some (.eqCBrFalse d s k t) else none
    | _ => none
  | .const dc v =>
    match second with
    | .eq d a b => if a = dc ∨ b = dc then some (.constEq dc v d a b) else none
    | _ => none
  | .logOr d a b =>
    match second with
    | .store sig s mask => if s = d then some (.logOrStore d a b sig mask) else none
    | _ => none
  | .or d a b =>
    match second with
    | .rangeStore sig hi lo s mask =>
      if s = d ∧ mask = xmask (hi - lo + 1) then some (.orRangeStore d a b sig hi lo) else none
    | _ => none
  | _ => none

/-- The triple rule: the data load folds into the element store, the index load stays. -/
def fuseTriple : TsInsn → TsInsn → TsInsn → Option (TsInsn × TsInsn)
  | .loadSig d1 sig1, .loadSig d2 sig2, .elemStoreNba op =>
    if op.s = d1 ∧ op.idx = d2 then
      some (.loadSig d2 sig2, .elemStoreNbaFromSig ⟨sig1, d1, op⟩)
    else none
  | _, _, _ => none

/-- One turn of the fusing loop: what it takes from the stream and what it pushes. -/
inductive FuseTurn where
  | keep (a : TsInsn)
  | pair (a b f : TsInsn)
  | triple (a b c f g : TsInsn)

/-- The instructions a turn consumes. -/
def FuseTurn.taken : FuseTurn → List TsInsn
  | .keep a => [a]
  | .pair a b _ => [a, b]
  | .triple a b c _ _ => [a, b, c]

/-- The instructions a turn pushes. -/
def FuseTurn.pushed : FuseTurn → List TsInsn
  | .keep a => [a]
  | .pair _ _ f => [f]
  | .triple _ _ _ f g => [f, g]

/-- What a turn writes to `new_of`, `j` instructions being pushed so far. -/
def FuseTurn.newOf (j : Nat) : FuseTurn → List Nat
  | .keep _ => [j]
  | .pair .. => [j, j]
  | .triple .. => [j, j, j + 1]

/-- Whether a turn sets `any`. -/
def FuseTurn.fuses : FuseTurn → Bool
  | .keep _ => false
  | _ => true

/-- The turn that starts at a position: the triple rule before the pair rules, and neither into a
branch target. -/
def fuseTurn (tgt : Nat → Bool) (i : Nat) (a : TsInsn) : List TsInsn → FuseTurn
  | b :: c :: _ =>
    match (if tgt (i + 1) = false ∧ tgt (i + 2) = false then fuseTriple a b c else none) with
    | some (f, g) => .triple a b c f g
    | none =>
      match (if tgt (i + 1) = false then fusePair a b else none) with
      | some f => .pair a b f
      | none => .keep a
  | [b] =>
    match (if tgt (i + 1) = false then fusePair a b else none) with
    | some f => .pair a b f
    | none => .keep a
  | [] => .keep a

/-- The loop over the rest of the stream from a position on; `fuel` bounds its turns by their number. -/
def fuseFrom (tgt : Nat → Bool) : Nat → Nat → List TsInsn → List FuseTurn
  | _, _, [] => []
  | 0, _, _ :: _ => []
  | fuel + 1, i, a :: rest =>
    let turn := fuseTurn tgt i a rest
    turn :: fuseFrom tgt fuel (i + turn.taken.length) ((a :: rest).drop turn.taken.length)

/-- `new_of` from a turn on, its last entry the length of the fused stream. -/
def newOfFrom (j : Nat) : List FuseTurn → List Nat
  | [] => [j]
  | turn :: rest => turn.newOf j ++ newOfFrom (j + turn.pushed.length) rest

/-- An instruction with its branch targets renumbered. -/
def TsInsn.retarget (f : Nat → Nat) : TsInsn → TsInsn
  | .brSigFalse sig b t => .brSigFalse sig b (f t)
  | .brFalse s t => .brFalse s (f t)
  | .brNz s t => .brNz s (f t)
  | .loadSigBrNz dl sig t => .loadSigBrNz dl sig (f t)
  | .brFalseLoadSig s t dl sig => .brFalseLoadSig s (f t) dl sig
  | .eqBrFalse d a b t => .eqBrFalse d a b (f t)
  | .eqCBrFalse d s k t => .eqCBrFalse d s k (f t)
  | .jmp t => .jmp (f t)
  | .caseMaskJmp s cm =>
    .caseMaskJmp s { cm with mj := { table := cm.mj.table.map f, xzPath := f cm.mj.xzPath } }
  | .caseJmp s cj => .caseJmp s { table := cj.table.map f, default := f cj.default }
  | insn => insn

/-- The loop over a whole stream. -/
def fuseTurns (insns : List TsInsn) : List FuseTurn := fuseFrom (isTgt insns) insns.length 0 insns

/-- Where a target of the stream lies in the fused one. -/
def newTarget (insns : List TsInsn) (t : Nat) : Nat :=
  (newOfFrom 0 (fuseTurns insns)).getD (min t insns.length) 0

/-- `fuse_ts_pairs`. -/
def fuseTsPairs (insns : List TsInsn) : List TsInsn :=
  if insns.length < 2 then insns
  else if (fuseTurns insns).any FuseTurn.fuses then
    ((fuseTurns insns).flatMap FuseTurn.pushed).map (TsInsn.retarget (newTarget insns))
  else insns

end Xezim
