import Xezim.Value

/-! The lowered two-state instruction set. -/

namespace Xezim

/-- A dynamic array-element access: the element span, its index bounds, and both registers. -/
structure TsElemOp where
  first : Nat
  lo : Int
  hi : Int
  idx : Nat
  s : Nat
  w : Nat
  mask : Word
  deriving DecidableEq, Repr

/-- A dynamic element write whose data comes straight from a signal. -/
structure TsElemStoreFromSig where
  sig : Nat
  dl : Nat
  op : TsElemOp
  deriving DecidableEq, Repr

/-- A nonblocking write of an array element addressed by a signal. -/
structure TsNbaFromElem where
  dst : Nat
  first : Nat
  lo : Int
  hi : Int
  idxSig : Nat
  w : Nat
  deriving DecidableEq, Repr

/-- A range store of a folded constant with x bits. -/
structure TsRangeStoreX where
  sig : Nat
  hi : Nat
  lo : Nat
  v : Word
  x : Word
  deriving DecidableEq, Repr

/-- A dense jump table and its fallback target. -/
structure CaseJumpData where
  table : List Nat
  default : Nat
  deriving DecidableEq, Repr

/-- A bucket table over a window of the selector, with the target of an x or z window. -/
structure CaseMaskJumpData where
  table : List Nat
  xzPath : Nat
  deriving DecidableEq, Repr

/-- A windowed table jump: the tested bits, where the window starts, and its buckets. -/
structure TsCaseMaskJmp where
  mask : Word
  lo : Nat
  wmask : Word
  mj : CaseMaskJumpData
  deriving DecidableEq, Repr

/-- One two-state instruction; branch targets are positions in the lowered stream. -/
inductive TsInsn where
  | loadSig (d sig : Nat)
  | const (d : Nat) (v : Word)
  | sigBit (d sig bit : Nat)
  | sigRange (d sig lo : Nat) (mask : Word)
  | sigBitW (d sig bit : Nat)
  | sigRangeW (d sig lo w : Nat) (mask : Word)
  | bit (d s bit : Nat)
  | range (d s lo : Nat) (mask : Word)
  | xor (d a b : Nat)
  | and (d a b : Nat)
  | or (d a b : Nat)
  | sel (d c a b : Nat) (m : Word)
  | not (d s : Nat) (mask : Word)
  | xorC (d s : Nat) (k : Word)
  | eqC (d s : Nat) (k : Word)
  | add (d a b : Nat) (mask : Word)
  | sub (d a b : Nat) (mask : Word)
  | eq (d a b : Nat)
  | maskEq (d s : Nat) (mask v : Word)
  | neq (d a b : Nat)
  -- Fused pairs: each is its two components run back to back.
  | loadSigNot (dl d sig : Nat)
  | sigRangeEqC (dr d sig lo w : Nat) (k : Word)
  | loadSigLogAnd (dl sig d a b : Nat)
  | logNotAnd (dn s d a b : Nat)
  | logNotLogAnd (dn s d a b : Nat)
  | logAndStore (d a b sig : Nat) (mask : Word)
  | andRangeStore (d a b sig hi lo : Nat)
  | sigBitNot (db d sig bit : Nat)
  | loadSig2 (d1 sig1 d2 sig2 : Nat)
  | sigBit2 (d1 sig1 bit1 d2 sig2 bit2 : Nat)
  | loadSigBrNz (dl sig t : Nat)
  | brFalseLoadSig (s t dl sig : Nat)
  | eqBrFalse (d a b t : Nat)
  | eqCBrFalse (d s : Nat) (k : Word) (t : Nat)
  | loadSigLogOr (dl sig d a b : Nat)
  | loadSigAnd (dl sig d a b : Nat)
  | loadSigRepl (dl sig d w count : Nat)
  | loadSigSigRange (dl sig d sig2 lo : Nat) (mask : Word)
  | sigRangeAnd (dr sig lo : Nat) (mask : Word) (d a b : Nat)
  | sigRangeEq (dr sig lo : Nat) (mask : Word) (d a b : Nat)
  | constEq (dc : Nat) (v : Word) (d a b : Nat)
  | logOrStore (d a b sig : Nat) (mask : Word)
  | andOr (d1 a1 b1 d a b : Nat)
  | orRangeStore (d a b sig hi lo : Nat)
  | lt (d a b : Nat)
  | cmpS (d a b kind sa sb : Nat)
  | bitStoreNbaDyn (sig i s w : Nat)
  | bitDyn (d s i w : Nat)
  | leq (d a b : Nat)
  | gt (d a b : Nat)
  | geq (d a b : Nat)
  | logNot (d s : Nat)
  | logAnd (d a b : Nat)
  | logOr (d a b : Nat)
  | concat (d : Nat) (parts : List (Nat × Nat))
  | concat2 (d a wa b wb : Nat)
  | concat3 (d a wa b wb c wc : Nat)
  | mask (d : Nat) (mask : Word)
  | brSigFalse (sig : Nat) (bit : Option Nat) (t : Nat)
  | brFalse (s t : Nat)
  | brNz (s t : Nat)
  | jmp (t : Nat)
  | jmpPoll (t : Nat)
  | loopPoll
  | caseJmp (s : Nat) (cj : CaseJumpData)
  | caseMaskJmp (s : Nat) (mj : TsCaseMaskJmp)
  | redOr (d s : Nat)
  | wRedOr (d s : Nat)
  | wRedAnd (d s w : Nat)
  | redAnd (d s : Nat) (mask : Word)
  | bitStoreDyn (sig i s w : Nat)
  | sigRangeDyn (d sig i w sw : Nat) (mask : Word)
  | rangeStoreDyn (sig i s w sw : Nat) (mask : Word)
  | rangeStoreNbaDyn (sig i s w sw : Nat) (mask : Word)
  | saveSigW (sig : Nat)
  | wSel (d c a b : Nat)
  | rangeFillXW (sig hi lo v : Nat)
  | constStoreX (sig : Nat) (v x : Word)
  | rangeStoreX (p : TsRangeStoreX)
  | store (sig s : Nat) (mask : Word)
  | storeNba (sig s w : Nat) (mask : Word)
  | constStoreNba (sig : Nat) (v : Word) (w : Nat)
  | rangeStoreNba (sig hi lo s : Nat) (mask : Word)
  | rangeStore (sig hi lo s : Nat) (mask : Word)
  | rangeStoreW (sig hi lo s : Nat) (mask : Word)
  | rangeStoreNbaW (sig hi lo s : Nat) (mask : Word)
  | rangeFillW (sig hi lo bit : Nat)
  | rangeFillNbaW (sig hi lo bit : Nat)
  | rangeStoreXW (p : TsRangeStoreX)
  | elemLoad (op : TsElemOp)
  | wElemLoad (op : TsElemOp)
  | elemStoreNba (op : TsElemOp)
  | elemStoreNbaFromSig (f : TsElemStoreFromSig)
  | elemStore (op : TsElemOp)
  | nbaFromElem (op : TsNbaFromElem)
  | wNbaFromElem (op : TsNbaFromElem)
  -- The wide bank, 65 to 512 bits.
  | wLoadSig (d sig : Nat)
  | wConst (d : Nat) (v : List Word)
  | wXor (d a b : Nat)
  | wAnd (d a b : Nat)
  | wOr (d a b : Nat)
  | wNot (d s w : Nat)
  | wRange (d s lo w : Nat)
  | rangeFromW (d s lo : Nat) (mask : Word)
  | bitFromW (d s bit : Nat)
  | wConcat (d : Nat) (parts : List (Nat × Nat × Bool))
  | wMask (d w : Nat)
  | wFromN (r : Nat)
  | nFromW (r : Nat) (mask : Word)
  | wStore (sig s : Nat)
  | wStoreNba (sig s w : Nat)
  | wRangeStore (sig lo s w : Nat)
  | wRangeStoreNba (sig lo s w : Nat)
  | mul (d a b : Nat) (mask : Word)
  | wSigRange (d sig lo w : Nat)
  | addC (d s : Nat) (k mask : Word)
  | shl (d a b w : Nat) (mask : Word)
  | shr (d a b w : Nat)
  | repl (d s w count : Nat)
  | wRepl (d s w count : Nat)
  | fallback (statement : Nat)
  | saveSig (sig : Nat)
  | waitEdge (ix resume : Nat)
  | waitDelayRaw (raw : Word) (resume : Nat)
  | covHit (c : Nat)

/-- Whether the x-plane executor carries an instruction. -/
def tsxInsnOk : TsInsn → Bool
  | .fallback _ | .waitEdge .. | .waitDelayRaw .. | .wRedOr .. | .wRedAnd .. | .wSel ..
  | .wLoadSig .. | .wConst .. | .wXor .. | .wAnd .. | .wOr .. | .wNot .. | .wRange ..
  | .rangeFromW .. | .bitFromW .. | .wConcat .. | .wMask .. | .wFromN .. | .nFromW ..
  | .wStore .. | .wStoreNba .. | .wRangeStore .. | .wRangeStoreNba .. | .wSigRange ..
  | .wRepl .. | .wElemLoad .. => false
  | _ => true

end Xezim
