import Xezim.Soa.Packed

/-! The signal store of parallel arrays, with its planes for narrow signals and packed bytes for wide ones. -/

namespace Xezim.Soa

/-- `FLAG_SIGNED`. -/
def flagSigned : Byte := 0b001

/-- `FLAG_TWO_STATE`. -/
def flagTwoState : Byte := 0b010

/-- `FLAG_REAL`. -/
def flagReal : Byte := 0b100

/-- `INLINE_SENTINEL`, the largest index of a `u32`. -/
def inlineSentinel : Nat := 2 ^ 32 - 1

/-- The flags a value declares. -/
def valueFlags (v : Value) : Byte :=
  let f : Byte := 0
  let f := if v.isSigned then f ||| flagSigned else f
  if v.isReal then f ||| flagReal else f

/-- `InlineSignalArray`. -/
structure InlineSignalArray where
  valBits : List Word
  xzBits : List Word
  widths : List Nat
  flags : List Byte

namespace InlineSignalArray

variable (a : InlineSignalArray) (idx : Nat)

/-- `from_values`. -/
def fromValues [ValueOps] (values : List Value) : InlineSignalArray where
  valBits := values.map fun v => if v.width ≤ 64 then (ValueOps.rawBits v).1 &&& xmask v.width else 0
  xzBits := values.map fun v => if v.width ≤ 64 then (ValueOps.rawBits v).2 &&& xmask v.width else 0
  widths := values.map fun v => v.width
  flags := values.map valueFlags

/-- `get_bits`. -/
def getBits : Word × Word := (a.valBits[idx]?.getD 0, a.xzBits[idx]?.getD 0)

/-- `get_width`. -/
def getWidth : Nat := a.widths[idx]?.getD 0

/-- `mask_of`. -/
def maskOf : Word := xmask (a.getWidth idx)

/-- `is_signed`. -/
def isSigned : Bool := a.flags[idx]?.getD 0 &&& flagSigned ≠ 0

/-- `is_two_state`. -/
def isTwoState : Bool := a.flags[idx]?.getD 0 &&& flagTwoState ≠ 0

/-- `is_real`. -/
def isReal : Bool := a.flags[idx]?.getD 0 &&& flagReal ≠ 0

/-- `has_xz`. -/
def hasXz : Bool := a.xzBits[idx]?.getD 0 ≠ 0

/-- `write_bits`: the array after, and whether the signal changed. -/
def writeBits (val xz : Word) : InlineSignalArray × Bool :=
  let mask := a.maskOf idx
  let (newVal, newXz) := if a.isTwoState idx then (val &&& ~~~xz &&& mask, 0) else (val &&& mask, xz &&& mask)
  if a.getBits idx = (newVal, newXz) then (a, false)
  else ({ a with valBits := a.valBits.set idx newVal, xzBits := a.xzBits.set idx newXz }, true)

/-- `write_transient_value`. -/
def writeTransientValue [ValueOps] (v : Value) : InlineSignalArray × Bool :=
  a.writeBits idx (ValueOps.rawBits v).1 (ValueOps.rawBits v).2

/-- `to_transient_value`. -/
def toTransientValue [ValueOps] : Value :=
  { ValueOps.fromInline (a.getBits idx).1 (a.getBits idx).2 (a.getWidth idx) with
    isSigned := a.isSigned idx
    isReal := a.isReal idx }

end InlineSignalArray

/-- `PackedWideSignalArray`. -/
structure PackedWideSignalArray where
  data : List (List Byte)
  widths : List Nat
  flags : List Byte
  len : Nat

namespace PackedWideSignalArray

variable (a : PackedWideSignalArray) (wideIdx : Nat)

/-- The bits of a value up to a width, as both writers collect them. -/
def collectBits [VmOps] (v : Value) (w : Nat) : List LogicBit := (List.range w).map (VmOps.getBit v)

/-- `from_wide_values`. -/
def fromWideValues [VmOps] (values : List Value) : PackedWideSignalArray :=
  let wide := values.filter fun v => 64 < v.width
  { data := wide.map fun v => logicBitsToPacked (collectBits v v.width)
    widths := wide.map fun v => v.width
    flags := wide.map valueFlags
    len := wide.length }

/-- `get_low_bits`. -/
def getLowBits : Word × Word :=
  if a.len ≤ wideIdx then (0, 0)
  else decodePackedLowBits (a.data[wideIdx]?.getD []) (a.widths[wideIdx]?.getD 0)

/-- `to_transient_value`. -/
def toTransientValue [VmOps] : Value :=
  let width := a.widths[wideIdx]?.getD 0
  let bits := packedToLogicBits (a.data[wideIdx]?.getD []) width
  let val : Value :=
    { ValueOps.new width with
      isSigned := a.flags[wideIdx]?.getD 0 &&& flagSigned ≠ 0
      isReal := a.flags[wideIdx]?.getD 0 &&& flagReal ≠ 0 }
  bits.zipIdx.foldl (fun val entry => VmOps.setBit val entry.2 entry.1) val

/-- `write_wide_value`: the array after, and whether the signal changed. -/
def writeWideValue [VmOps] (v : Value) : PackedWideSignalArray × Bool :=
  let newBytes := logicBitsToPacked (collectBits v (a.widths[wideIdx]?.getD 0))
  let newBytes := if a.flags[wideIdx]?.getD 0 &&& flagTwoState ≠ 0 then newBytes.map foldByte else newBytes
  if a.data[wideIdx]?.getD [] = newBytes then (a, false) else ({ a with data := a.data.set wideIdx newBytes }, true)

/-- `has_xz`. -/
def hasXz : Bool := (a.data[wideIdx]?.getD []).any fun byte => byte &&& 0xAA ≠ 0

end PackedWideSignalArray

/-- `SoaSignalStore`. -/
structure SoaSignalStore where
  inline : InlineSignalArray
  wide : PackedWideSignalArray
  /-- `wide_map`, of `u32` indices. -/
  wideMap : List Nat
  totalLen : Nat
  generation : BitVec 64

namespace SoaSignalStore

variable (s : SoaSignalStore) (id : Nat)

/-- One round of the routing loop of `from_values`: the wide values so far and the map so far. -/
def routeValue (acc : List Value × List Nat) (v : Value) : List Value × List Nat :=
  if 64 < v.width then (acc.1 ++ [v], acc.2 ++ [acc.1.length % 2 ^ 32]) else (acc.1, acc.2 ++ [inlineSentinel])

/-- `from_values`. -/
def fromValues [VmOps] (values : List Value) : SoaSignalStore :=
  let (wideValues, wideMap) := values.foldl routeValue ([], [])
  { inline := InlineSignalArray.fromValues values
    wide := PackedWideSignalArray.fromWideValues wideValues
    wideMap
    totalLen := values.length
    generation := 1 }

/-- The route of a signal. -/
def route : Nat := s.wideMap[id]?.getD inlineSentinel

/-- `get_inline_bits`. -/
def getInlineBits : Word × Word :=
  if s.route id ≠ inlineSentinel then s.wide.getLowBits (s.route id) else s.inline.getBits id

/-- `has_xz`. -/
def hasXz : Bool := if s.route id ≠ inlineSentinel then s.wide.hasXz (s.route id) else s.inline.hasXz id

/-- `write_bits`: the store after, and whether the value changed. -/
def writeBits (val xz : Word) : SoaSignalStore × Bool :=
  let (inline, changed) := s.inline.writeBits id val xz
  ({ s with inline, generation := if changed then s.generation + 1 else s.generation }, changed)

/-- `write_value`. -/
def writeValue [VmOps] (v : Value) : SoaSignalStore × Bool :=
  if s.route id ≠ inlineSentinel then
    let (wide, changed) := s.wide.writeWideValue (s.route id) v
    ({ s with wide, generation := if changed then s.generation + 1 else s.generation }, changed)
  else
    let (inline, changed) := s.inline.writeTransientValue id v
    ({ s with inline, generation := if changed then s.generation + 1 else s.generation }, changed)

/-- `read_transient_value`. -/
def readTransientValue [VmOps] : Value :=
  if s.route id ≠ inlineSentinel then s.wide.toTransientValue (s.route id) else s.inline.toTransientValue id

/-- A signal declared two-state, in both arrays. -/
def declareTwoState : SoaSignalStore :=
  { s with
    inline := { s.inline with flags := s.inline.flags.modify id (· ||| flagTwoState) }
    wide :=
      if s.route id ≠ inlineSentinel then
        { s.wide with flags := s.wide.flags.modify (s.route id) (· ||| flagTwoState) }
      else s.wide }

/-- One round of the loop of `from_values_with_two_state`. -/
def foldInitial [VmOps] (values : List Value) (isTwoState : Bool) : SoaSignalStore :=
  if isTwoState then
    match values[id]? with
    | some v => ((s.declareTwoState id).writeValue id v).1
    | none => s
  else s

/-- `from_values_with_two_state`. -/
def fromValuesWithTwoState [VmOps] (values : List Value) (twoState : List Bool) : SoaSignalStore :=
  let store := (twoState.take values.length).zipIdx.foldl (fun s entry => s.foldInitial entry.2 values entry.1)
    (fromValues values)
  { store with generation := 1 }

/-- `sync_from_aos`. -/
def syncFromAos [VmOps] (aos : List Value) : SoaSignalStore :=
  (aos.zipIdx.take s.totalLen).foldl (fun s entry => (s.writeValue entry.2 entry.1).1) s

/-- `sync_signal_from_aos`. -/
def syncSignalFromAos [VmOps] (v : Value) : SoaSignalStore × Bool := s.writeValue id v

end SoaSignalStore

/-- A call of the store. -/
inductive Call where
  | writeBits (id : Nat) (val xz : Word)
  | writeValue (id : Nat) (v : Value)
  | syncFromAos (aos : List Value)
  | syncSignalFromAos (id : Nat) (v : Value)

/-- The store after a call, and what the call returns. -/
def SoaSignalStore.call [VmOps] (s : SoaSignalStore) : Call → SoaSignalStore × Option Bool
  | .writeBits id val xz => ((s.writeBits id val xz).1, some (s.writeBits id val xz).2)
  | .writeValue id v => ((s.writeValue id v).1, some (s.writeValue id v).2)
  | .syncFromAos aos => (s.syncFromAos aos, none)
  | .syncSignalFromAos id v => ((s.syncSignalFromAos id v).1, some (s.syncSignalFromAos id v).2)

/-- The store after some calls. -/
def SoaSignalStore.run [VmOps] (s : SoaSignalStore) (calls : List Call) : SoaSignalStore :=
  calls.foldl (fun s c => (s.call c).1) s

end Xezim.Soa
