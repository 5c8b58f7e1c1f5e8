import Xezim.Vm.Blocking
import Xezim.Vm.NbaOps

/-! Unpacked arrays as compiled code addresses them: their elements and the readings of an index. -/

namespace Xezim.Arrays

/-- A declared array: the id of its lowest element, and its index bounds, which are 64-bit numbers. -/
structure ArraySpan where
  first : Nat
  lo : Int
  hi : Int
  lo_min : -2 ^ 63 ≤ lo
  hi_max : hi < 2 ^ 63
  deriving DecidableEq

/-- The right bound of the sample arrays is an index. -/
theorem hi_max_three : (3 : Int) < 2 ^ 63 := by decide

/-- The element of a declared array at an index, none outside its bounds. -/
def ArraySpan.elem (a : ArraySpan) (idx : Int) : Option Nat :=
  if a.lo ≤ idx ∧ idx ≤ a.hi then some (a.first + (idx - a.lo).toNat) else none

/-- `ArrayOperand`. -/
inductive ArrayOperand
  | dense (name : String) (span : ArraySpan)
  | named (name : String)
  deriving DecidableEq

/-- The declarations of the design that array accesses consult. -/
structure ArrayDesign extends VmDesign where
  /-- `array_first_id`: the first id and the bounds of an array. -/
  arrayFirstId : String → Option ArraySpan := fun _ => none
  /-- `signal_name_to_id`, its stored and its virtual names. -/
  signalNameToId : String → Option Nat := fun _ => none
  /-- Number of signals: the length of `signal_widths` and of its sibling tables. -/
  signalCount : Nat := 0
  /-- Signedness of the packed memory a cell belongs to. -/
  packedSigned : Nat → Bool := fun _ => false

/-- The name of an array element. -/
def elemName (name : String) (idx : Int) : String := name ++ "[" ++ toString idx ++ "]"

section Resolve

variable (D : ArrayDesign)

/-- `resolve_bytecode_array_elem`. -/
def resolveBytecodeArrayElem : ArrayOperand → Int → Option Nat
  | .dense _ span, idx => span.elem idx
  | .named name, idx =>
    ((D.arrayFirstId name).bind (·.elem idx)).or (D.signalNameToId (elemName name idx))

/-- `bytecode_array_first_id`. -/
def bytecodeArrayFirstId : ArrayOperand → Option Nat
  | .dense _ span => some span.first
  | .named name => (D.arrayFirstId name).map (·.first)

/-- `bytecode_array_elem_width`; a packed cell has no slot in the signal table. -/
def bytecodeArrayElemWidth (table : Nat → Value) (array : ArrayOperand) : Nat :=
  match bytecodeArrayFirstId D array with
  | some first => if isPackedId first then 1 else max (table first).width 1
  | none => 1

/-- The width an element outside the bounds reads as. -/
def missWidth (table : Nat → Value) (array : ArrayOperand) : Nat :=
  match (bytecodeArrayFirstId D array).filter isPackedId with
  | some first => D.packedWidth first
  | none => bytecodeArrayElemWidth D table array

/-- An operand names a declared array. The name map makes up the names of its elements, so none is stored for an
index outside its bounds. -/
structure Declares (array : ArrayOperand) (span : ArraySpan) : Prop where
  span_eq : match array with
    | .dense _ declared => declared = span
    | .named name => D.arrayFirstId name = some span
  unnamed : ∀ name, array = .named name → ∀ idx, span.elem idx = none → D.signalNameToId (elemName name idx) = none

end Resolve

/-- The number an index stands for, none for one with an x or z bit. -/
def indexOf (v : Value) : Option Int :=
  if v.xz ≠ 0 then none
  else if v.isSigned ∧ v.val.testBit (v.width - 1) then some (v.val - 2 ^ v.width)
  else some v.val

/-- A 64-bit word reinterpreted as signed, as a cast makes it of an index's low word. -/
def rawIndex (v : Value) : Int := (BitVec.ofNat 64 v.val).toInt

/-- A number that a signed 64-bit word can hold. -/
def Fits64 (i : Int) : Prop := -2 ^ 63 ≤ i ∧ i < 2 ^ 63

instance (i : Int) : Decidable (Fits64 i) := inferInstanceAs (Decidable (_ ∧ _))

/-- The documented behaviour of the index conversions: `to_index` answers the number a value stands for, which a
signed 64-bit word can hold, and nothing for an unknown one. -/
class LawfulIndexOps [VmOps] : Prop extends LawfulWordRead where
  toIndex_unknown (v : Value) (unknown : v.xz ≠ 0) : VmOps.toIndex v = none
  toIndex_known (v : Value) (bits : v.isReal = false) (i : Int) (number : indexOf v = some i) (fits : Fits64 i) :
    VmOps.toIndex v = some i

end Xezim.Arrays
