import Xezim.Lib.Checked
import Xezim.Vm.Ops

/-! Event terms that watch one bit, or a constant part, of a vector. -/

namespace Xezim.EventBits

open Checked

/-- A signed 64-bit integer. -/
abbrev I64 := { n : Int // InI64 n }

/-- `RangeKind`. -/
inductive RangeKind where
  | constant
  | indexedUp
  | indexedDown
  deriving DecidableEq

/-- The binary operators of a constant index. -/
inductive BinaryOp where
  | add
  | sub
  | mul
  | other
  deriving DecidableEq

/-- An identifier: the flat name it resolves to statically, whether it has a root, and whether a segment, or the last
one, carries selects. -/
structure HierarchicalIdentifier where
  raw : String
  hasRoot : Bool
  anySelects : Bool
  lastSelects : Bool
  deriving DecidableEq

/-- The expressions of a constant index. -/
inductive Index where
  | paren (inner : Index)
  | number (digits : Nat)
  | ident (h : HierarchicalIdentifier)
  | minus (operand : Index)
  | binary (op : BinaryOp) (left right : Index)
  deriving DecidableEq

/-- The expressions an event term is made of: parentheses, vectors, constant selects and concatenations. -/
inductive Expression where
  | paren (inner : Expression)
  | ident (h : HierarchicalIdentifier)
  | index (base : Expression) (index : Index)
  | rangeSelect (base : Expression) (kind : RangeKind) (left right : Index)
  | concatenation (parts : List Expression)

/-- What the module records of a signal. -/
structure Signal where
  width : Nat
  isReal : Bool
  /-- The width is a `u32`. -/
  small : width < 2 ^ 32

/-- What the fold reads of the elaborated module. -/
structure ElaboratedModule where
  name : String
  signals : String → Option Signal
  /-- The name is in one of the collections whose selects do not address single bits. -/
  notBits : String → Bool
  packedFullDims : String → Option (List (I64 × I64))
  ascendingPacked : String → Option (I64 × I64)
  parameters : String → Option Value

/-- The span of a declared range. -/
def span (dim : Int × Int) : Outcome Int := do
  let d ← sub dim.1 dim.2
  let a ← inRange (d.natAbs : Int)
  add a 1

/-- `vector_decl_dim`. -/
def vectorDeclDim (m : ElaboratedModule) (name : String) (width : Nat) : Outcome (Int × Int) :=
  if width = 0 || m.notBits name then .miss
  else
    match m.packedFullDims name with
    | some [(l, r)] => do
      let s ← span (l, r)
      Outcome.require (s = width)
      return (l, r)
    | some _ => .miss
    | none =>
      match m.ascendingPacked name with
      | some (lo, hi) => do
        let s ← span (lo, hi)
        Outcome.require (s = width)
        return (lo, hi)
      | none => return (width - 1, 0)

/-- `label_to_phys`. -/
def labelToPhys (dim : Int × Int) (label : Int) : Outcome Int :=
  if dim.1 ≥ dim.2 then sub label dim.2 else sub dim.2 label

/-- `phys_to_label`. -/
def physToLabel (dim : Int × Int) (phys : Int) : Outcome Int :=
  if dim.1 ≥ dim.2 then add dim.2 phys else sub dim.2 phys

/-- `select_label_span`. -/
def selectLabelSpan (dim : Int × Int) (kind : RangeKind) (left right : Int) : Outcome (Int × Int) :=
  let desc := decide (dim.1 ≥ dim.2)
  match kind with
  | .constant => if desc && left < right || !desc && left > right then .miss else .hit (min left right, max left right)
  | .indexedUp =>
    if right > 0 then do
      let hi ← checked (left + (right - 1))
      return (left, hi)
    else .miss
  | .indexedDown =>
    if right > 0 then do
      let lo ← checked (left - (right - 1))
      return (lo, left)
    else .miss

/-- `part_select_labels`. -/
def partSelectLabels (dim : Int × Int) (kind : RangeKind) (left right : Int) : Outcome (Int × Int) := do
  let (lo, hi) ← selectLabelSpan dim kind left right
  let d ← sub hi lo
  let w ← add d 1
  return (if dim.1 ≥ dim.2 then lo else hi, w)

/-- The range of a value without a name. -/
def unnamed : Int × Int := (maxI64, 0)

/-- The positive numbers `i64::try_from` accepts. -/
def toI64 (n : Nat) : Option Int := if (n : Int) ≤ maxI64 then some n else none

/-- A plain vector a select can address bit-wise. -/
structure VecRef where
  name : String
  dim : Int × Int
  width : Nat
  deriving DecidableEq

section Resolution

variable [VmOps] (m : ElaboratedModule) (scope : String)

/-- A scoped name. -/
def scopedName (raw : String) : String := scope ++ "." ++ raw

/-- `const_index`. -/
def constIndex : Index → Option Int
  | .paren inner => constIndex inner
  | .number digits => if digits < 2 ^ 64 then toI64 digits else none
  | .ident h =>
    if h.hasRoot || h.anySelects then none
    else do
      let v ← (if scope ≠ "" then m.parameters (scopedName scope h.raw) else none).or (m.parameters h.raw)
      if v.xz ≠ 0 then none else do
        let n ← WordRead.toU64 v
        toI64 n
  | .minus _ => none
  | .binary op left right => do
    let l ← constIndex left
    let r ← constIndex right
    match op with
    | .add => if InI64 (l + r) then some (l + r) else none
    | .sub => if InI64 (l - r) then some (l - r) else none
    | .mul => if InI64 (l * r) then some (l * r) else none
    | .other => none

/-- A signal that is no real. -/
def hitSignal (name : String) : Option Signal := (m.signals name).filter fun s => !s.isReal

/-- The plain vector of a flat name. -/
def vectorOf (name : String) : Outcome VecRef := do
  let s ← Outcome.ofOption (m.signals name)
  let dim ← vectorDeclDim m name s.width
  return ⟨name, dim, s.width⟩

/-- The flat name `resolve_vector` settles on. -/
def resolveName (h : HierarchicalIdentifier) : Option String :=
  let top := m.name ++ "."
  let stripped := if top.isPrefixOf h.raw then some (h.raw.drop top.length).toString else none
  let inScope := if !h.hasRoot && scope ≠ "" then some (scopedName scope h.raw) else none
  match inScope.bind (hitSignal m), hitSignal m h.raw with
  | some _, some _ => if inScope ≠ some h.raw then none else inScope
  | some _, none => inScope
  | none, some _ => some h.raw
  | none, none => stripped.filter fun s => (hitSignal m s).isSome

/-- `resolve_vector`, on an identifier. -/
def resolveVector (h : HierarchicalIdentifier) : Outcome VecRef :=
  if h.lastSelects then .miss
  else do
    let name ← Outcome.ofOption (resolveName m scope h)
    vectorOf m name

mutual

/-- `value_width`. -/
def valueWidth : Expression → Outcome Int
  | .paren inner => valueWidth inner
  | .ident h => do
    let v ← resolveVector m scope h
    return v.width
  | .index _ index => do
    let _ ← Outcome.ofOption (constIndex m scope index)
    return 1
  | .rangeSelect _ kind left right => do
    let l ← Outcome.ofOption (constIndex m scope left)
    let r ← Outcome.ofOption (constIndex m scope right)
    let labels ← partSelectLabels unnamed kind l r
    return labels.2
  | .concatenation parts => sumWidths 0 parts

/-- The sum of the widths of some parts, added to the sum so far. -/
def sumWidths (acc : Int) : List Expression → Outcome Int
  | [] => .hit acc
  | p :: parts => do
    let w ← valueWidth p
    let acc ← add acc w
    sumWidths acc parts

end

/-- What a search through the parts of a concatenation comes to: the bit, or the position beyond them. -/
inductive Found (α : Type) where
  | bit (b : α)
  | beyond (rem : Int)

/-- A bit of a net: its flat name, its declared range and the physical position. -/
abbrev NetBit := String × (Int × Int) × Int

/-- The bit of a vector at a physical position, when the position is inside it. -/
def VecRef.bitAt (v : VecRef) (phys : Int) : Outcome NetBit := do
  Outcome.require (0 ≤ phys ∧ phys < v.width)
  return (v.name, v.dim, phys)

mutual

/-- `bit_at`. -/
def bitAt : Expression → Int → Outcome NetBit
  | .paren inner, pos => if pos < 0 then .miss else bitAt inner pos
  | .ident h, pos =>
    if pos < 0 then .miss
    else do
      let v ← resolveVector m scope h
      Outcome.require (pos < v.width)
      return (v.name, v.dim, pos)
  | .index base index, pos =>
    if pos < 0 then .miss
    else do
      let k ← Outcome.ofOption (constIndex m scope index)
      if pos ≠ 0 then .miss
      else
        match base with
        | .ident h => do
          let v ← resolveVector m scope h
          if v.dim.1 < v.dim.2 then .miss
          else do
            let phys ← labelToPhys v.dim k
            v.bitAt phys
        | base => bitAt base k
  | .rangeSelect base kind left right, pos =>
    if pos < 0 then .miss
    else do
      let l ← Outcome.ofOption (constIndex m scope left)
      let r ← Outcome.ofOption (constIndex m scope right)
      match base with
      | .ident h => do
        let v ← resolveVector m scope h
        if v.dim.1 < v.dim.2 then .miss
        else do
          let (lsb, w) ← partSelectLabels v.dim kind l r
          if pos ≥ w then .miss
          else do
            let label ← add lsb pos
            let phys ← labelToPhys v.dim label
            v.bitAt phys
      | base => do
        let (lsb, w) ← partSelectLabels unnamed kind l r
        if pos ≥ w ∨ lsb < 0 then .miss
        else do
          let at' ← add lsb pos
          bitAt base at'
  | .concatenation parts, pos =>
    if pos < 0 then .miss
    else do
      let found ← bitAtParts parts pos
      match found with
      | .bit b => return b
      | .beyond _ => .miss

/-- The loop of `bit_at` over the parts of a concatenation, the last one first. -/
def bitAtParts : List Expression → Int → Outcome (Found NetBit)
  | [], rem => .hit (.beyond rem)
  | p :: parts, rem => do
    let found ← bitAtParts parts rem
    match found with
    | .bit b => return .bit b
    | .beyond rem => do
      let w ← valueWidth m scope p
      if rem < w then do
        let b ← bitAt p rem
        return .bit b
      else do
        let rem ← sub rem w
        return .beyond rem

end

/-- `int_literal`. -/
def intLiteral (v : Int) : Index := if v < 0 then .minus (.number v.natAbs) else .number v.natAbs

/-- `rooted_ident`. -/
def rootedIdent (name : String) : Expression := .ident ⟨name, true, false, false⟩

/-- The term inside its parentheses. -/
def stripParens : Expression → Expression
  | .paren inner => stripParens inner
  | e => e

/-- A term that is no select, or one that has its own handling. -/
def keeps (edge : Bool) : Expression → Bool
  | .index (.ident _) _ => true
  | .index _ _ => false
  | .rangeSelect (.ident _) _ _ _ => !edge
  | .rangeSelect _ _ _ _ => false
  | .concatenation _ => false
  | _ => true

/-- The loop of `fold_event_expr`: the next `count` positions from `pos` on follow the first one. -/
def followsFirst (e : Expression) (name : String) (p0 : Int) : Nat → Int → Outcome Unit
  | 0, _ => .hit ()
  | count + 1, pos => do
    let b ← bitAt m scope e pos
    if b.1 ≠ name then .miss
    else do
      let next ← add p0 pos
      if b.2.2 ≠ next then .miss else followsFirst e name p0 count (pos + 1)

/-- The number of bits `fold_event_expr` folds: only the lowest one matters for an edge. -/
def foldWidth (e : Expression) (edge : Bool) : Outcome Int := if edge then .hit 1 else valueWidth m scope e

/-- `fold_event_expr`. -/
def foldEventExpr (e : Expression) (edge : Bool) : Outcome Expression :=
  let e := stripParens e
  if keeps edge e then .miss
  else do
    let w ← foldWidth m scope e edge
    if w < 1 then .miss
    else do
      let (name, dim, p0) ← bitAt m scope e 0
      followsFirst m scope e name p0 (w - 1).toNat 1
      if w = 1 then do
        let label ← physToLabel dim p0
        return .index (rootedIdent name) (intLiteral label)
      else do
        let top ← add p0 w
        let last ← sub top 1
        let left ← physToLabel dim last
        let right ← physToLabel dim p0
        return .rangeSelect (rootedIdent name) .constant (intLiteral left) (intLiteral right)

-- The equations are generated here, once for every module that unfolds them.
attribute [local grind =] bitAt

end Resolution

end Xezim.EventBits
