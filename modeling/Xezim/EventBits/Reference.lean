import Xezim.EventBits.Fold

/-! The bits an event term denotes: declared labels on named vectors, positions from the lowest bit on other values, and
concatenations with the last operand lowest. -/

namespace Xezim.EventBits

open Checked

variable [VmOps] (m : ElaboratedModule) (scope : String)

/-- The integer a constant index denotes. -/
def Index.value : Index → Option Int
  | .paren inner => inner.value
  | .number digits => some digits
  | .ident h =>
    if h.hasRoot || h.anySelects then none
    else do
      let v ← (if scope ≠ "" then m.parameters (scopedName scope h.raw) else none).or (m.parameters h.raw)
      if v.xz ≠ 0 then none else do
        let n ← WordRead.toU64 v
        return n
  | .minus operand => do
    let n ← operand.value
    return -n
  | .binary op left right => do
    let l ← left.value
    let r ← right.value
    match op with
    | .add => some (l + r)
    | .sub => some (l - r)
    | .mul => some (l * r)
    | .other => none

/-- The lowest and highest label a constant select covers: `[l:r]` runs in the declared direction, `b +: w` covers `w`
labels from `b` on and `b -: w` the `w` labels up to `b`. -/
def covered (descending : Bool) (kind : RangeKind) (left right : Int) : Option (Int × Int) :=
  match kind with
  | .constant =>
    if descending then (if right ≤ left then some (right, left) else none)
    else if left ≤ right then some (left, right)
    else none
  | .indexedUp => if 0 < right then some (left, left + right - 1) else none
  | .indexedDown => if 0 < right then some (left - right + 1, left) else none

/-- The number of bits a constant select covers. -/
def coveredWidth (kind : RangeKind) (left right : Int) : Option Int :=
  match kind with
  | .constant => some ((left - right).natAbs + 1)
  | .indexedUp => if 0 < right then some right else none
  | .indexedDown => if 0 < right then some right else none

/-- The vector an identifier names. -/
def named (h : HierarchicalIdentifier) : Option VecRef :=
  match resolveVector m scope h with
  | .hit v => some v
  | _ => none

mutual

/-- The width of a value. -/
def width : Expression → Option Int
  | .paren inner => width inner
  | .ident h => (named m scope h).map fun v => (v.width : Int)
  | .index _ _ => some 1
  | .rangeSelect _ kind left right => do
    let l ← left.value m scope
    let r ← right.value m scope
    coveredWidth kind l r
  | .concatenation parts => widths parts

/-- The width of some parts together. -/
def widths : List Expression → Option Int
  | [] => some 0
  | p :: parts => do
    let w ← width p
    let rest ← widths parts
    return w + rest

end

/-- A vector is declared with its left label highest. -/
def VecRef.descending (v : VecRef) : Bool := v.dim.2 ≤ v.dim.1

section Bits

variable {β : Type} (nets : String → Int → β)

/-- The bit of a vector at a physical position, none outside it. -/
def VecRef.physical (v : VecRef) (phys : Int) : Option β :=
  if 0 ≤ phys ∧ phys < v.width then some (nets v.name phys) else none

/-- The bit of a vector with a declared label. -/
def VecRef.labelled (v : VecRef) (label : Int) : Option β :=
  v.physical nets (if v.descending then label - v.dim.2 else v.dim.2 - label)

mutual

/-- The bit of a value at a position from its lowest bit on, none where the value has no bit of a net. -/
def bitOf : Expression → Int → Option β
  | .paren inner, pos => bitOf inner pos
  | .ident h, pos => do
    let v ← named m scope h
    v.physical nets pos
  | .index base index, pos => do
    let k ← index.value m scope
    if pos ≠ 0 then none
    else
      match base with
      | .ident h => do
        let v ← named m scope h
        v.labelled nets k
      | base => bitOf base k
  | .rangeSelect base kind left right, pos => do
    let l ← left.value m scope
    let r ← right.value m scope
    match base with
    | .ident h => do
      let v ← named m scope h
      let (lo, hi) ← covered v.descending kind l r
      if pos < 0 ∨ hi - lo < pos then none
      else v.labelled nets (if v.descending then lo + pos else hi - pos)
    | base => do
      let (lo, hi) ← covered true kind l r
      if pos < 0 ∨ hi - lo < pos then none else bitOf base (lo + pos)
  | .concatenation parts, pos =>
    match bitOfParts parts pos with
    | some (.inl b) => some b
    | _ => none

/-- The bit of some parts at a position, or the position beyond them; the last part is lowest. -/
def bitOfParts : List Expression → Int → Option (β ⊕ Int)
  | [], pos => some (.inr pos)
  | p :: parts, pos => do
    let found ← bitOfParts parts pos
    match found with
    | .inl b => return .inl b
    | .inr rem => do
      let w ← width m scope p
      if rem < w then do
        let b ← bitOf p rem
        return .inl b
      else return .inr (rem - w)

end

-- The equations are generated here, once for every module that unfolds them.
attribute [local grind =] bitOf

end Bits

end Xezim.EventBits
