import Xezim.Comb.Gate
import Xezim.Lib.FourState

/-! Continuous assignments recognised as one-bit gates, and the bits they denote in the design. -/

namespace Xezim.Comb

open FourState

/-- `NumberBase`. -/
inductive NumberBase
  | binary
  | octal
  | hex
  | decimal
  deriving DecidableEq

/-- The radix of a base. -/
def NumberBase.radix : NumberBase → Nat
  | binary => 2
  | octal => 8
  | hex => 16
  | decimal => 10

/-- `NumberLiteral::Integer`, with the characters of its value. -/
structure NumberLiteral where
  size : Option Nat
  signed : Bool
  base : NumberBase
  value : List Char
  deriving DecidableEq

/-- The expressions of a select: literals in parentheses, and all others. -/
inductive Index
  | paren (inner : Index)
  | number (literal : NumberLiteral)
  | other
  deriving DecidableEq

/-- `HierPathSegment`. -/
structure HierPathSegment where
  name : String
  selects : List Index
  deriving DecidableEq

/-- `HierarchicalIdentifier`. -/
structure HierarchicalIdentifier where
  path : List HierPathSegment
  deriving DecidableEq

/-- The unary operators. -/
inductive UnaryOp
  | bitNot
  | other
  deriving DecidableEq

/-- The binary operators. -/
inductive BinaryOp
  | bitAnd
  | bitOr
  | bitXor
  | other
  deriving DecidableEq

/-- The expressions of an assignment. -/
inductive Expression
  | paren (inner : Expression)
  | ident (h : HierarchicalIdentifier)
  | index (base : Expression) (index : Index)
  | unary (op : UnaryOp) (operand : Expression)
  | binary (op : BinaryOp) (left right : Expression)
  | conditional (condition thenExpr elseExpr : Expression)
  | other

/-- What the recogniser reads of the elaborated module and of the signal tables. -/
structure GateTables where
  /-- A name of a one-dimensional unpacked array. -/
  arrays : String → Bool
  packedSignalElemWidths : String → Option Nat
  packedFullDims : String → Option (List (Int × Int))
  ascendingPacked : String → Option (Int × Int)
  packages : String → Bool
  /-- The cell of a contested package variable. -/
  pkgVarStorage : String → String → Option String
  signalNameToId : String → Option Nat
  signalWidths : Nat → Nat
  sdfDelays : Nat → Nat

/-- The value of a digit. -/
def digitValue (radix : Nat) (c : Char) : Option Nat :=
  let d :=
    if '0' ≤ c ∧ c ≤ '9' then some (c.toNat - '0'.toNat)
    else if 'a' ≤ c ∧ c ≤ 'z' then some (c.toNat - 'a'.toNat + 10)
    else if 'A' ≤ c ∧ c ≤ 'Z' then some (c.toNat - 'A'.toNat + 10)
    else none
  d.filter (· < radix)

/-- The number some digits spell. -/
def spelled (radix : Nat) (digits : List Char) : Option Nat :=
  digits.foldlM (fun acc c => (digitValue radix c).map (acc * radix + ·)) 0

/-- `u64::from_str_radix`. -/
def fromStrRadix (radix : Nat) (s : List Char) : Option Nat :=
  let digits := if s.head? = some '+' then s.tail else s
  if digits = [] then none else (spelled radix digits).filter (· < 2 ^ 64)

/-- `try_const_u64`. -/
def tryConstU64 : Index → Option Nat
  | .paren inner => tryConstU64 inner
  | .number l => fromStrRadix l.base.radix (l.value.filter (· ≠ '_'))
  | .other => none

/-- A segment with its constant selects. -/
def HierPathSegment.rendered (s : HierPathSegment) : String :=
  s.name ++ String.join ((s.selects.filterMap tryConstU64).map fun ix => "[" ++ toString ix ++ "]")

/-- `resolve_hier_name_static`. -/
def resolveHierNameStatic (h : HierarchicalIdentifier) : String :=
  let rooted := 1 < h.path.length ∧ h.path.head?.map HierPathSegment.name = some "$root"
  match if rooted then h.path.tail else h.path with
  | [] => ""
  | [s] => s.name
  | path => ".".intercalate (path.map HierPathSegment.rendered)

/-- A wrapped `i64`. -/
def wrapI64 (n : Int) : Int := n.bmod (2 ^ 64)

/-- The position of a label under a declared range, counted from the low bit. -/
def physicalBit (dim : Option (Int × Int)) (bit : Nat) : Int :=
  match dim with
  | some (l, r) => if l < r then wrapI64 (r - wrapI64 bit) else wrapI64 (wrapI64 bit - min l r)
  | none => wrapI64 bit

/-- `unparen`. -/
def unparen : Expression → Expression
  | .paren inner => unparen inner
  | e => e

/-- The gate of a binary operator. -/
def gateBin : BinaryOp → Option GateBin
  | .bitAnd => some .and
  | .bitOr => some .or
  | .bitXor => some .xor
  | .other => none

section Recogniser

variable (t : GateTables) (scopeHint : Option String)

/-- A name under the scope hint. -/
def scopedSpelling (name : String) : Option String := scopeHint.map fun s => s ++ "." ++ name

/-- The cell of `pkg::name`. -/
def packageCell (h : HierarchicalIdentifier) : Option Nat :=
  match h.path with
  | [pkg, member] =>
    if pkg.selects.isEmpty && member.selects.isEmpty && t.packages pkg.name then
      (t.pkgVarStorage pkg.name member.name).bind t.signalNameToId
    else none
  | _ => none

/-- `resolve_ident_id`. -/
def resolveIdentId (h : HierarchicalIdentifier) : Option Nat :=
  let name := resolveHierNameStatic h
  (t.signalNameToId name).or ((packageCell t h).or ((scopedSpelling scopeHint name).bind t.signalNameToId))

/-- The last segment of a name. -/
def leafName (h : HierarchicalIdentifier) : Option String := h.path.getLast?.map HierPathSegment.name

/-- The spellings a range is looked up under, in order. -/
def spellings (h : HierarchicalIdentifier) : List String :=
  let name := resolveHierNameStatic h
  name :: (scopedSpelling scopeHint name).toList ++ (leafName h).toList

/-- The range on file for a name: its first packed dimension, or an ascending range. -/
def filedRange (h : HierarchicalIdentifier) : Option (Int × Int) :=
  (((spellings scopeHint h).findSome? t.packedFullDims).bind List.head?).or
    ((spellings scopeHint h).findSome? t.ascendingPacked)

/-- The element width on file for a name. -/
def filedElemWidth (h : HierarchicalIdentifier) : Option Nat :=
  (t.packedSignalElemWidths (resolveHierNameStatic h)).or ((leafName h).bind t.packedSignalElemWidths)

/-- A name is on file as an array. -/
def filedArray (h : HierarchicalIdentifier) : Bool :=
  let name := resolveHierNameStatic h
  t.arrays name || (scopedSpelling scopeHint name).any t.arrays

/-- `try_resolve_bit_ref`. -/
def tryResolveBitRef : Expression → Option BitRef
  | .paren inner => tryResolveBitRef inner
  | .ident h => do
    let id ← resolveIdentId t scopeHint h
    if t.signalWidths id = 1 then some ⟨id, 0⟩ else none
  | .index (.ident h) index =>
    if filedArray t scopeHint h then none
    else if (filedElemWidth t h).any (1 < ·) then none
    else do
      let id ← resolveIdentId t scopeHint h
      let bit ← tryConstU64 index
      let phys := physicalBit (filedRange t scopeHint h) bit
      if 0 ≤ phys ∧ (phys % 2 ^ 32).toNat < t.signalWidths id then some ⟨id, (phys % 2 ^ 32).toNat⟩ else none
  | _ => none

/-- `try_build_fused_gate`. -/
def tryBuildFusedGate (lhs rhs : Expression) : Option FusedGate := do
  let dst ← tryResolveBitRef t scopeHint lhs
  if t.sdfDelays dst.sigId ≠ 0 then none
  else
    match unparen rhs with
    | .conditional condition thenExpr elseExpr => do
      let s ← tryResolveBitRef t scopeHint condition
      let b ← tryResolveBitRef t scopeHint thenExpr
      let e ← tryResolveBitRef t scopeHint elseExpr
      return .mux2 dst s b e
    | .unary .bitNot operand =>
      match unparen operand with
      | .binary op left right => do
        let gop ← gateBin op
        let a ← tryResolveBitRef t scopeHint left
        let b ← tryResolveBitRef t scopeHint right
        return .bin2 dst a b gop true
      | _ => do
        let src ← tryResolveBitRef t scopeHint operand
        return .buf1 dst src true
    | .binary op left right => do
      let gop ← gateBin op
      let a ← tryResolveBitRef t scopeHint left
      let b ← tryResolveBitRef t scopeHint right
      return .bin2 dst a b gop false
    | r => do
      let src ← tryResolveBitRef t scopeHint r
      return .buf1 dst src false

end Recogniser

/-- What a signal is declared as. -/
inductive Shape
  /-- A packed value with its ranges, outermost first; a scalar has none. -/
  | packed (dims : List (Int × Int))
  /-- An unpacked array, a string or another value whose selects are no bits. -/
  | collection

/-- The number of labels of a range. -/
def labels (dim : Int × Int) : Nat := (dim.1 - dim.2).natAbs + 1

/-- The number of bits of some packed ranges together. -/
def bitCount (dims : List (Int × Int)) : Nat := (dims.map labels).prod

/-- A design: the signals its names denote where an assignment stands, and their declarations. -/
structure Design (t : GateTables) where
  denotes : HierarchicalIdentifier → Option Nat
  shape : Nat → Shape
  /-- A packed signal has the width of its ranges. -/
  wide : ∀ id dims, shape id = .packed dims → t.signalWidths id = bitCount dims

/-- The offset of a label from the low bit, none outside the range. -/
def declaredOffset (dim : Int × Int) (label : Int) : Option Nat :=
  if dim.2 ≤ dim.1 then if dim.2 ≤ label ∧ label ≤ dim.1 then some (label - dim.2).toNat else none
  else if dim.1 ≤ label ∧ label ≤ dim.2 then some (dim.2 - label).toNat
  else none

/-- The integer a literal denotes: a sized one is truncated to its size and read with its sign. -/
def NumberLiteral.denoted (l : NumberLiteral) : Option Int := do
  let n ← spelled l.base.radix (l.value.filter (· ≠ '_'))
  match l.size with
  | none => return n
  | some size => return if l.signed then (n : Int).bmod (2 ^ size) else (n : Int) % 2 ^ size

/-- The integer an index denotes. -/
def Index.denoted : Index → Option Int
  | .paren inner => inner.denoted
  | .number l => l.denoted
  | .other => none

/-- A one-bit operand of an assignment: a whole signal or a select of one. -/
def Expression.leaves : Expression → List Expression
  | .paren inner => inner.leaves
  | .unary _ operand => operand.leaves
  | .binary _ left right => left.leaves ++ right.leaves
  | .conditional condition thenExpr elseExpr => condition.leaves ++ thenExpr.leaves ++ elseExpr.leaves
  | leaf => [leaf]

/-- The bit of a code. -/
def logicOfCode (c : Nat) : Logic := if c = 0 then .zero else if c = 1 then .one else if c = 2 then .x else .z

/-- The code of a bit. -/
def codeOf : Logic → Nat
  | .zero => 0
  | .one => 1
  | .x => 2
  | .z => 3

/-- The bit of a view at a position. -/
def logicAt (view : View) (b : BitRef) : Logic := logicOfCode (planeCode (view b.sigId) b.bit)

namespace Design

variable {t : GateTables} (d : Design t)

/-- The bit an operand denotes: none where it is no single bit of a vector, and no position where its label is outside
the declared range. -/
def place : Expression → Option (Option BitRef)
  | .paren inner => place inner
  | .ident h => do
    let id ← d.denotes h
    match d.shape id with
    | .packed dims => if bitCount dims = 1 then some (some ⟨id, 0⟩) else none
    | .collection => none
  | .index (.ident h) index => do
    let id ← d.denotes h
    let label ← index.denoted
    match d.shape id with
    | .packed (dim :: inner) => if bitCount inner = 1 then some ((declaredOffset dim label).map (⟨id, ·⟩)) else none
    | _ => none
  | _ => none

/-- The bit an expression of one-bit operands takes in a view. -/
def evaluate (view : View) : Expression → Option Logic
  | .paren inner => evaluate view inner
  | .unary .bitNot operand => (evaluate view operand).map Logic.not
  | .binary op left right => do
    let a ← evaluate view left
    let b ← evaluate view right
    match op with
    | .bitAnd => some (a.and b)
    | .bitOr => some (a.or b)
    | .bitXor => some (a.xor b)
    | .other => none
  | .conditional condition thenExpr elseExpr => do
    let s ← evaluate view condition
    let a ← evaluate view thenExpr
    let b ← evaluate view elseExpr
    return s.cond a b
  | leaf => (d.place leaf).map fun p => FourState.read (logicAt view) p

/-- A view with the declared widths. -/
def Sees (_ : Design t) (view : View) : Prop := ∀ id, (view id).width = t.signalWidths id

/-- A gate stands for an assignment: it drives the bit the left side denotes, takes no element for a bit, and
computes in
every view the bit the right side stores. -/
structure Exact [GateOps] (gateDriven : Nat → Bool) (lhs rhs : Expression) (gate : FusedGate) : Prop where
  drives : d.place lhs = some (some gate.dst)
  bits : ∀ leaf ∈ lhs.leaves ++ rhs.leaves, (d.place leaf).isSome
  computes : ∀ view, d.Sees view → ∃ v, d.evaluate view rhs = some v ∧
    fusedGateEval view gateDriven gate = (gate.dst, codeOf v)

end Design

end Xezim.Comb
