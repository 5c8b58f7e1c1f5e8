import Mathlib.Data.Nat.Size
import Xezim.TwoState.QueueLaws

/-! What lowering guarantees about a stream: defined registers, their widths, and legal stores. -/

namespace Xezim

open Splice KnownBits Function

/-- The width each defined register was lowered at. -/
abbrev RegWidths := Nat → Option Nat

/-- A register is defined and its content fits in `w` bits. -/
def RegWidths.Has (ws : RegWidths) (r w : Nat) : Prop := ∃ v, ws r = some v ∧ v ≤ w

/-- A register's width, a whole word where nothing is known. -/
def RegWidths.of (ws : RegWidths) (r : Nat) : Nat := (ws r).getD 64

/-- One register defined at a width. -/
def RegWidths.set (ws : RegWidths) (d w : Nat) : RegWidths := update ws d (some w)

/-- The number of bits a word occupies. -/
def bitLen (m : Word) : Nat := m.toNat.size

/-- Every element of a span satisfies a condition on its signal. -/
def EachElem (first : Nat) (lo hi : Int) (p : Nat → Prop) : Prop :=
  ∀ i, lo ≤ i → i ≤ hi → p (elemId first lo i)

section Lowering

variable (D : Design)

/-- The operands an instruction reads are defined, fit where it needs them to, and its stores stay
inside their destinations. -/
def TsInsn.Checks (ws : RegWidths) : TsInsn → Prop
  | .loadSig .. | .const .. | .sigBit .. | .sigRange .. | .sigBitW .. | .loadSigNot ..
  | .sigRangeEqC .. | .sigBitNot .. | .loadSig2 .. | .sigBit2 .. | .loadSigSigRange ..
  | .loadSigBrNz .. | .jmp _ | .jmpPoll _ | .loopPoll | .brSigFalse .. | .rangeFillW ..
  | .rangeFillNbaW .. | .rangeFillXW .. | .covHit _ | .saveSig _ | .saveSigW _ => True
  | .sigRangeW _ _ _ w _ => w ≤ 64
  | .bit _ s _ | .range _ s _ _ | .not _ s _ | .xorC _ s _ | .eqC _ s _ | .maskEq _ s _ _
  | .addC _ s _ _ | .logNot _ s | .redOr _ s | .brFalse s _ | .brNz s _ | .caseJmp s _
  | .caseMaskJmp s _ | .eqCBrFalse _ s _ _ | .brFalseLoadSig s _ _ _ => ws.Has s 64
  | .mask d _ => ws.Has d 64
  | .xor _ a b | .and _ a b | .or _ a b | .add _ a b _ | .sub _ a b _ | .mul _ a b _
  | .shl _ a b _ _ | .eq _ a b | .neq _ a b | .lt _ a b | .leq _ a b | .gt _ a b | .geq _ a b
  | .cmpS _ a b .. | .logAnd _ a b | .logOr _ a b | .eqBrFalse _ a b _ =>
    ws.Has a 64 ∧ ws.Has b 64
  | .sel _ c a b m => ws.Has c 64 ∧ ∃ w, w ≤ 64 ∧ m = xmask w ∧ ws.Has a w ∧ ws.Has b w
  | .shr _ a b w => w ≤ 64 ∧ ws.Has a w ∧ ws.Has b 64
  | .redAnd _ s m => ∃ w, w ≤ 64 ∧ m = xmask w ∧ ws.Has s w
  | .concat _ parts => (parts.map Prod.snd).sum ≤ 64 ∧ ∀ p ∈ parts, ws.Has p.1 p.2
  | .concat2 _ a wa b wb => wa + wb ≤ 64 ∧ ws.Has a wa ∧ ws.Has b wb
  | .concat3 _ a wa b wb c wc => wa + wb + wc ≤ 64 ∧ ws.Has a wa ∧ ws.Has b wb ∧ ws.Has c wc
  | .repl _ s w count => w * count ≤ 64 ∧ ws.Has s w
  | .bitDyn _ s i _ => ws.Has s 64 ∧ ws.Has i 64
  | .loadSigLogAnd dl sig _ a b | .loadSigLogOr dl sig _ a b | .loadSigAnd dl sig _ a b =>
    (ws.set dl (min (D.signalWidths sig) 64)).Has a 64 ∧
      (ws.set dl (min (D.signalWidths sig) 64)).Has b 64
  | .logNotAnd dn s _ a b | .logNotLogAnd dn s _ a b =>
    ws.Has s 64 ∧ (ws.set dn 1).Has a 64 ∧ (ws.set dn 1).Has b 64
  | .logAndStore _ a b sig m | .logOrStore _ a b sig m =>
    ws.Has a 64 ∧ ws.Has b 64 ∧ D.signalWidths sig ≤ 64 ∧ m = xmask (D.signalWidths sig)
  | .andRangeStore _ a b sig hi _ | .orRangeStore _ a b sig hi _ =>
    ws.Has a 64 ∧ ws.Has b 64 ∧ D.signalWidths sig ≤ 64 ∧ hi < D.signalWidths sig
  | .loadSigRepl _ sig _ w count => w * count ≤ 64 ∧ D.signalWidths sig ≤ w
  | .sigRangeAnd dr _ _ m _ a b | .sigRangeEq dr _ _ m _ a b =>
    (ws.set dr (bitLen m)).Has a 64 ∧ (ws.set dr (bitLen m)).Has b 64
  | .constEq dc v _ a b => (ws.set dc (bitLen v)).Has a 64 ∧ (ws.set dc (bitLen v)).Has b 64
  | .andOr d1 a1 b1 _ a b =>
    ws.Has a1 64 ∧ ws.Has b1 64 ∧
      (ws.set d1 (min (ws.of a1) (ws.of b1))).Has a 64 ∧
      (ws.set d1 (min (ws.of a1) (ws.of b1))).Has b 64
  | .sigRangeDyn _ _ i w _ _ => ws.Has i 64 ∧ w ≤ 64
  | .rangeStoreDyn sig i s w sw _ | .rangeStoreNbaDyn sig i s w sw _ =>
    ws.Has i 64 ∧ ws.Has s 64 ∧ 1 ≤ w ∧ w ≤ 64 ∧ sw = D.signalWidths sig ∧ sw < 2 ^ 16
  | .bitStoreDyn sig i s w => ws.Has i 64 ∧ ws.Has s 64 ∧ w = D.signalWidths sig ∧ w < 2 ^ 32
  | .bitStoreNbaDyn sig i s w => ws.Has i 64 ∧ ws.Has s 64 ∧ w = D.signalWidths sig ∧ w ≤ 64
  | .store sig s m =>
    ws.Has s 64 ∧ D.signalWidths sig ≤ 64 ∧ m = xmask (D.signalWidths sig)
  | .rangeStore sig hi _ s _ => ws.Has s 64 ∧ D.signalWidths sig ≤ 64 ∧ hi < D.signalWidths sig
  | .storeNba sig s w m =>
    ws.Has s 64 ∧ w = D.signalWidths sig ∧ 1 ≤ w ∧ w ≤ 64 ∧ m = xmask w
  | .constStoreNba sig v w => w = D.signalWidths sig ∧ w ≤ 64 ∧ Fits w v
  | .rangeStoreNba sig hi _ s _ => ws.Has s 64 ∧ D.signalWidths sig ≤ 64 ∧ hi < 64
  | .rangeStoreW _ hi lo s _ | .rangeStoreNbaW _ hi lo s _ => ws.Has s 64 ∧ lo ≤ hi ∧ hi + 1 - lo ≤ 64
  | .constStoreX sig v x =>
    D.signalWidths sig ≤ 64 ∧ Fits (D.signalWidths sig) v ∧ Fits (D.signalWidths sig) x
  | .rangeStoreX p => D.signalWidths p.sig ≤ 64 ∧ p.hi < D.signalWidths p.sig
  | .rangeStoreXW p => p.lo ≤ p.hi ∧ p.hi + 1 - p.lo ≤ 64
  | .elemLoad op =>
    ws.Has op.idx 64 ∧
      EachElem op.first op.lo op.hi fun id => D.signalWidths id = D.signalWidths op.first
  | .elemStore op =>
    ws.Has op.idx 64 ∧ ws.Has op.s 64 ∧ EachElem op.first op.lo op.hi fun id =>
      D.signalWidths id ≤ 64 ∧ op.mask = xmask (D.signalWidths id)
  | .elemStoreNba op =>
    ws.Has op.idx 64 ∧ ws.Has op.s 64 ∧ 1 ≤ op.w ∧ op.w ≤ 64 ∧ op.mask = xmask op.w ∧
      EachElem op.first op.lo op.hi fun id => op.w = D.signalWidths id
  | .elemStoreNbaFromSig f =>
    (ws.set f.dl (min (D.signalWidths f.sig) 64)).Has f.op.idx 64 ∧
      1 ≤ f.op.w ∧ f.op.w ≤ 64 ∧ f.op.mask = xmask f.op.w ∧
      EachElem f.op.first f.op.lo f.op.hi fun id => f.op.w = D.signalWidths id
  | .nbaFromElem op => op.w = D.signalWidths op.dst ∧ 1 ≤ op.w ∧ op.w ≤ 64
  | .wNbaFromElem op =>
    op.w = D.signalWidths op.dst ∧ 1 ≤ op.w ∧
      EachElem op.first op.lo op.hi fun id => D.signalWidths id = op.w
  | .waitEdge .. | .waitDelayRaw .. | .fallback _ | .wRedOr .. | .wRedAnd .. | .wSel ..
  | .wElemLoad .. | .wLoadSig .. | .wConst .. | .wXor .. | .wAnd .. | .wOr .. | .wNot ..
  | .wRange .. | .rangeFromW .. | .bitFromW .. | .wConcat .. | .wMask .. | .wFromN ..
  | .nFromW .. | .wStore .. | .wStoreNba .. | .wRangeStore .. | .wRangeStoreNba ..
  | .wSigRange .. | .wRepl .. => False

/-- The register widths after an instruction that falls through. -/
def TsInsn.defs (ws : RegWidths) : TsInsn → RegWidths
  | .loadSig d sig => ws.set d (min (D.signalWidths sig) 64)
  | .const d v => ws.set d (bitLen v)
  | .sigRange d _ _ m | .sigRangeW d _ _ _ m | .range d _ _ m | .not d _ m
  | .add d _ _ m | .addC d _ _ m | .sub d _ _ m | .mul d _ _ m
  | .shl d _ _ _ m | .mask d m | .sigRangeDyn d _ _ _ _ m => ws.set d (bitLen m)
  | .sigBit d .. | .sigBitW d .. | .bit d .. | .maskEq d .. | .eqC d .. | .eq d .. | .neq d ..
  | .lt d .. | .leq d .. | .gt d .. | .geq d .. | .cmpS d .. | .logNot d _ | .logAnd d ..
  | .logOr d .. | .redOr d _ | .redAnd d .. | .bitDyn d .. | .logAndStore d .. | .logOrStore d ..
  | .eqBrFalse d .. | .eqCBrFalse d .. => ws.set d 1
  | .xor d a b | .or d a b | .sel d _ a b _ | .orRangeStore d a b .. =>
    ws.set d (max (ws.of a) (ws.of b))
  | .and d a b | .andRangeStore d a b .. => ws.set d (min (ws.of a) (ws.of b))
  | .xorC d s k => ws.set d (max (ws.of s) (bitLen k))
  | .shr d a .. => ws.set d (ws.of a)
  | .concat d parts => ws.set d (parts.map Prod.snd).sum
  | .concat2 d _ wa _ wb => ws.set d (wa + wb)
  | .concat3 d _ wa _ wb _ wc => ws.set d (wa + wb + wc)
  | .repl d _ w count => ws.set d (w * count)
  | .loadSigNot dl d sig => (ws.set dl (min (D.signalWidths sig) 64)).set d 1
  | .sigRangeEqC dr d _ _ w _ => (ws.set dr w).set d 1
  | .loadSigLogAnd dl sig d _ _ | .loadSigLogOr dl sig d _ _ =>
    (ws.set dl (min (D.signalWidths sig) 64)).set d 1
  | .loadSigAnd dl sig d a b =>
    let ws := ws.set dl (min (D.signalWidths sig) 64)
    ws.set d (min (ws.of a) (ws.of b))
  | .logNotAnd dn _ d a b =>
    let ws := ws.set dn 1
    ws.set d (min (ws.of a) (ws.of b))
  | .logNotLogAnd dn _ d _ _ => (ws.set dn 1).set d 1
  | .sigBitNot db d _ _ => (ws.set db 1).set d 1
  | .loadSig2 d1 sig1 d2 sig2 =>
    (ws.set d1 (min (D.signalWidths sig1) 64)).set d2 (min (D.signalWidths sig2) 64)
  | .sigBit2 d1 _ _ d2 _ _ => (ws.set d1 1).set d2 1
  | .loadSigBrNz dl sig _ | .brFalseLoadSig _ _ dl sig => ws.set dl (min (D.signalWidths sig) 64)
  | .loadSigRepl dl sig d w count => (ws.set dl (min (D.signalWidths sig) 64)).set d (w * count)
  | .loadSigSigRange dl sig d _ _ m =>
    (ws.set dl (min (D.signalWidths sig) 64)).set d (bitLen m)
  | .sigRangeAnd dr _ _ m d a b =>
    let ws := ws.set dr (bitLen m)
    ws.set d (min (ws.of a) (ws.of b))
  | .sigRangeEq dr _ _ m d _ _ => (ws.set dr (bitLen m)).set d 1
  | .constEq dc v d _ _ => (ws.set dc (bitLen v)).set d 1
  | .andOr d1 a1 b1 d a b =>
    let ws := ws.set d1 (min (ws.of a1) (ws.of b1))
    ws.set d (max (ws.of a) (ws.of b))
  | .elemLoad op => ws.set op.s (min (D.signalWidths op.first) 64)
  | .elemStoreNbaFromSig f => ws.set f.dl (min (D.signalWidths f.sig) 64)
  | _ => ws

/-- The register widths at the target of a taken branch. -/
def TsInsn.jumpDefs (ws : RegWidths) : TsInsn → RegWidths
  | .brFalseLoadSig .. => ws
  | insn => insn.defs D ws

/-- A straight-line stream is lowered from the given register widths on. -/
def LineOk : RegWidths → List TsInsn → Prop
  | _, [] => True
  | ws, insn :: rest => insn.Checks D ws ∧ LineOk (insn.defs D ws) rest

/-- The register widths a straight-line stream ends with. -/
def lineDefs (ws : RegWidths) (insns : List TsInsn) : RegWidths :=
  insns.foldl (fun ws insn => insn.defs D ws) ws

/-- Every register known in `ws'` is known in `ws`, at most as wide. -/
def RegWidths.Le (ws' ws : RegWidths) : Prop := ∀ r w, ws' r = some w → ws.Has r w

/-- The positions a branch can continue at on known operands. -/
def TsInsn.targets : TsInsn → List Nat
  | .brSigFalse _ _ t | .brFalse _ t | .brNz _ t | .loadSigBrNz _ _ t | .brFalseLoadSig _ t _ _
  | .eqBrFalse _ _ _ t | .eqCBrFalse _ _ _ t | .jmp t | .jmpPoll t => [t]
  | .caseJmp _ cj => cj.default :: cj.table
  | .caseMaskJmp _ cm => cm.mj.table
  | _ => []

/-- A stream with control flow is lowered: register widths at each position that every
instruction meets and every edge respects. -/
structure FlowOk (insns : List TsInsn) (widths : Nat → RegWidths) : Prop where
  checks : ∀ (pc : Nat) (insn : TsInsn), insns[pc]? = some insn → insn.Checks D (widths pc)
  falls : ∀ (pc : Nat) (insn : TsInsn), insns[pc]? = some insn →
    (widths (pc + 1)).Le (insn.defs D (widths pc))
  jumps : ∀ (pc : Nat) (insn : TsInsn), insns[pc]? = some insn →
    ∀ t ∈ insn.targets, (widths t).Le (insn.jumpDefs D (widths pc))

/-- Only a control instruction has a target. -/
theorem TsInsn.targets_of_straight (insn : TsInsn) (straight : insn.isCtrl = false) :
    insn.targets = [] := by
  cases insn <;> first | rfl | cases straight

/-- A straight-line stream is lowered as a stream whose every edge falls through. -/
theorem LineOk.flowOk {insns : List TsInsn} {ws : RegWidths} (line : LineOk D ws insns)
    (straight : ∀ insn ∈ insns, insn.isCtrl = false) :
    FlowOk D insns fun pc => lineDefs D ws (insns.take pc) where
  checks pc insn here := by
    induction insns generalizing ws pc with
    | nil => simp at here
    | cons first rest ih =>
      cases pc with
      | zero =>
        simp only [List.getElem?_cons_zero, Option.some.injEq] at here
        subst here
        exact line.1
      | succ pc =>
        exact ih line.2 (fun i member => straight i (by simp [member])) pc (by simpa using here)
  falls pc insn here := by
    have bound := (List.getElem?_eq_some_iff.mp here).1
    have present := (List.getElem?_eq_some_iff.mp here).2
    intro r w defined
    refine ⟨w, ?_, Nat.le_refl w⟩
    rw [← defined, List.take_succ_eq_append_getElem bound, present, lineDefs, lineDefs,
      List.foldl_append]
    rfl
  jumps pc insn here t target := by
    rw [insn.targets_of_straight (straight insn (List.mem_of_getElem? here))] at target
    cases target

/-- Every defined register holds a word that fits in its width. -/
def RegWidths.Holds (ws : RegWidths) (r : Regs) : Prop := ∀ d w, ws d = some w → Fits w (r d)

end Lowering

end Xezim
