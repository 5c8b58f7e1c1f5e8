import Xezim.Lib.Splice
import Xezim.Lib.KnownBits

/-! Machine words, four-state values, and what the simulator relies on about them. -/

namespace Xezim

open Splice KnownBits

/-- One 64-bit machine word. -/
abbrev Word := BitVec 64

/-- A left shift of a word, its amount taken modulo the word length as a release build does. -/
def shl (a : Word) (k : Nat) : Word := a <<< (k % 64)

/-- A right shift of a word, its amount taken modulo the word length as a release build does. -/
def shr (a : Word) (k : Nat) : Word := a >>> (k % 64)

/-- The mask of the low `w` bits, the whole word from 64 on. -/
def xmask (w : Nat) : Word := if w ≥ 64 then BitVec.allOnes 64 else BitVec.ofNat 64 (2 ^ w) - 1#64

/-- A truth value as the word the executors store for it. -/
def ofBool (b : Bool) : Word := if b then 1#64 else 0#64

/-- The observable content of a four-state value: its two bit planes and its flags. -/
structure Value where
  /-- Declared number of bits. -/
  width : Nat
  /-- The value plane; under an unknown bit it tells z from x. -/
  val : Nat
  /-- The unknown plane, set for x and for z. -/
  xz : Nat
  /-- Declared signed. -/
  isSigned : Bool
  /-- A real number, whose bit planes hold its encoding. -/
  isReal : Bool
  /-- An unsized fill literal, which takes the width of its context. -/
  isFill : Bool
  deriving DecidableEq, Repr

namespace Value

/-- Both planes stay below the declared width. -/
def Fits (v : Value) : Prop := v.val < 2 ^ v.width ∧ v.xz < 2 ^ v.width

/-- No bit is x or z. -/
def Clean (v : Value) : Prop := v.xz = 0

/-- The low word of both planes. -/
def planes (v : Value) : Word × Word := (BitVec.ofNat 64 v.val, BitVec.ofNat 64 v.xz)

/-- The value with `len` bits from `lo` overwritten in both planes, as far as it reaches. -/
def write (v : Value) (lo len a x : Nat) : Value :=
  { v with
    val := splice v.val lo (min len (v.width - lo)) a
    xz := splice v.xz lo (min len (v.width - lo)) x }

/-- Every known bit of `abs` is known and equal in `con`. -/
def Covers (abs con : Value) : Prop :=
  abs.width = con.width ∧ ∀ i, i < abs.width → abs.xz.testBit i = false →
    con.xz.testBit i = false ∧ con.val.testBit i = abs.val.testBit i

/-- `con` is `abs` with each x and z bit replaced by a zero or a one. -/
def Completes (con abs : Value) : Prop :=
  con.Clean ∧ con.width = abs.width ∧
    ∀ i, i < abs.width → abs.xz.testBit i = false → con.val.testBit i = abs.val.testBit i

end Value

/-- `Value::to_u64`, as the core library provides it. -/
class WordRead where
  toU64 : Value → Option Nat

/-- Its documented behaviour: of a known bit vector it answers the low word, of wide storage too. -/
class LawfulWordRead [WordRead] : Prop where
  toU64_known (v : Value) (known : v.xz = 0) (bits : v.isReal = false) : WordRead.toU64 v = some (v.val % 2 ^ 64)

/-- The value methods the executors call, as the core library provides them. -/
class ValueOps where
  /-- `Value::raw_bits`: the low word of both planes. -/
  rawBits : Value → Word × Word
  /-- `Value::set_inline_bits`: overwrite both planes, refused by wide storage. -/
  setInlineBits : Value → Word → Word → Option Value
  /-- `Value::from_inline`: a value of the given width from two planes. -/
  fromInline : Word → Word → Nat → Value
  /-- `Value::from_u64`: a known unsigned value of the given width. -/
  fromU64 : Word → Nat → Value
  /-- `Value::new`: an all-x value of the given width. -/
  new : Nat → Value
  /-- `Value::splice_bits64`: overwrite a window of both planes and say whether a bit moved. -/
  spliceBits64 : Value → Nat → Word → Word → Nat → Value × Bool
  /-- `Value::slice_bits_swar`: a window of both planes, zeros past the width. -/
  sliceBitsSwar : Value → Nat → Nat → Word × Word

/-- The documented behaviour of those methods on the arguments the executors give them. -/
class LawfulValueOps [ValueOps] : Prop where
  rawBits_eq (v : Value) : ValueOps.rawBits v = v.planes
  setInlineBits_narrow (v : Value) (a x : Word) (narrow : v.width ≤ 64) :
    ValueOps.setInlineBits v a x = some { v with val := a.toNat, xz := x.toNat }
  setInlineBits_wide (v : Value) (a x : Word) (wide : 64 < v.width) :
    ValueOps.setInlineBits v a x = none
  fromInline_width (a x : Word) (w : Nat) : (ValueOps.fromInline a x w).width = w
  fromInline_planes (a x : Word) (w : Nat) (narrow : w ≤ 64) :
    (ValueOps.fromInline a x w).val = a.toNat ∧ (ValueOps.fromInline a x w).xz = x.toNat
  fromU64_width (a : Word) (w : Nat) : (ValueOps.fromU64 a w).width = w
  fromU64_planes (a : Word) (w : Nat) (fits : a.toNat < 2 ^ w) :
    (ValueOps.fromU64 a w).val = a.toNat ∧ (ValueOps.fromU64 a w).xz = 0
  new_planes (w : Nat) :
    (ValueOps.new w).width = w ∧ (ValueOps.new w).val = 0 ∧ (ValueOps.new w).xz = ones w
  splice_planes (v : Value) (lo : Nat) (a x : Word) (n : Nat) (word : n ≤ 64) :
    ValueOps.spliceBits64 v lo a x n =
      (v.write lo n a.toNat x.toNat, decide (v.write lo n a.toNat x.toNat ≠ v))
  slice_planes (v : Value) (lo n : Nat) (word : n ≤ 64) (fits : v.Fits) :
    ValueOps.sliceBitsSwar v lo n =
      (BitVec.ofNat 64 (window v.val lo n), BitVec.ofNat 64 (window v.xz lo n))

end Xezim
