import Xezim.Lib.PackedLayout
import Xezim.Sensitivity.Selection

/-! The bits of a packed variable that a chain of selects denotes: a select of the variable or of an element of it goes
by the declared labels, a select of a part of a vector counts from the part's lowest bit. -/

namespace Xezim.Sensitivity

open Checked PackedLayout

variable {Literal Operator DataType : Type}

/-- The values of index expressions when a select is carried out, none where one has unknown bits. -/
abbrev Indices (Literal Operator : Type) : Type := Expression Literal Operator → Option Int

namespace RangeKind

/-- The lowest label a range select picks. -/
def lowest : RangeKind → Int → Int → Int
  | constant, a, b => min a b
  | indexedUp, a, _ => a
  | indexedDown, a, b => a - (b - 1)

/-- The highest label a range select picks. -/
def highest : RangeKind → Int → Int → Int
  | constant, a, b => max a b
  | indexedUp, a, b => a + (b - 1)
  | indexedDown, a, _ => a

/-- The labels a range select picks. -/
def Picks (kind : RangeKind) (a b j : Int) : Prop := kind.lowest a b ≤ j ∧ j ≤ kind.highest a b

instance (kind : RangeKind) (a b j : Int) : Decidable (kind.Picks a b j) :=
  inferInstanceAs (Decidable (_ ∧ _))

/-- The labels that a range select picks of dimension `d`, in its direction. -/
def span (kind : RangeKind) (d : Dim) (a b : Int) : Dim :=
  if d.1 < d.2 then (kind.lowest a b, kind.highest a b) else (kind.highest a b, kind.lowest a b)

/-- What a range select leaves of the labels of an element: a part of an array keeps its labels, the bits of a part of
a vector are counted from its lowest one. -/
def cut (kind : RangeKind) (a b : Int) : List (Dim × Int) → Option (List (Dim × Int))
  | [] => none
  | [(d, j)] =>
    if kind.Picks a b j then some [(((kind.span d a b).count - 1, 0), (kind.span d a b).pos j)] else none
  | (d, j) :: next :: js => if kind.Picks a b j then some ((kind.span d a b, j) :: next :: js) else none

end RangeKind

/-- The labels a chain of selects has not fixed of an element it selects, each with the dimension the next select
reads it by; none of any other element. -/
def remaining (ρ : Indices Literal Operator) :
    Expression Literal Operator → List (Dim × Int) → Option (List (Dim × Int))
  | .paren inner, is => remaining ρ inner is
  | .ident _, is => some is
  | .index base index, is => match remaining ρ base is with
    | some ((_, j) :: js) => if ρ index = some j then some js else none
    | _ => none
  | .rangeSelect base kind left right, is => match remaining ρ base is, ρ left, ρ right with
    | some js, some a, some b => kind.cut a b js
    | _, _, _ => none
  | _, _ => none

/-- A chain of selects touches a bit of a variable with dimensions `ds`. -/
def Touches (ds : List Dim) (ρ : Indices Literal Operator) (expr : Expression Literal Operator) (bit : Nat) : Prop :=
  ∃ is, Labels ds is ∧ (remaining ρ expr (ds.zip is)).isSome ∧ address ds is = bit

/-- The dimensions of a variable of `w` bits with outermost dimension `d`. -/
def soleDims (d : Dim) (w : Nat) : Option (List Dim) :=
  if 0 < w ∧ d.count ∣ w then
    if w / d.count = 1 then some [d] else some [d, ((w / d.count : Nat) - 1, 0)]
  else none

/-- The outermost dimension of a variable of `w` bits without recorded dimensions. -/
def outermost (module : ElaboratedModule DataType) (name : String) (w : UInt32) : Dim :=
  match module.ascendingPacked name with
  | some (l, r) => (l.1, r.1)
  | none => (w.toNat - 1, 0)

section Chains

variable (core : Elaborator Literal Operator DataType) (module : ElaboratedModule DataType)

/-- The dimensions of a packed variable as the module records them. -/
def declaredDims (name : String) : Option (List Dim) :=
  if isCollection module name then none
  else match fullDims module name with
    | [] => match signalWidth core module name with
      | some w => soleDims (outermost module name w) w.toNat
      | none => none
    | ds => some ds

/-- The dimensions of the variable at the root of a chain of selects. -/
def rootDims : Expression Literal Operator → Option (List Dim)
  | .paren inner => rootDims inner
  | .ident path => declaredDims core module (resolveHierNameStatic path)
  | .index base _ => rootDims base
  | .rangeSelect base _ _ _ => rootDims base
  | _ => none

/-- Constant index expressions have their values at every time. -/
def Agrees (ρ : Indices Literal Operator) : Prop :=
  ∀ index v, constantArrayIndex core module index = some v → ρ index = some v.1

/-- The bounds of a range select in exact integers, in the direction of the dimension. -/
def RangeKind.bounds (kind : RangeKind) (d : Dim) (a b : Int) : Option Dim :=
  match kind with
  | constant => some (a, b)
  | indexedUp => if 0 < b then some (if d.2 ≤ d.1 then (a + (b - 1), a) else (a, a + (b - 1))) else none
  | indexedDown => if 0 < b then some (if d.2 ≤ d.1 then (a, a - (b - 1)) else (a - (b - 1), a)) else none

/-- The part of a dimension that a range select picks: none unless it lies inside, in its direction. -/
def RangeKind.part (kind : RangeKind) (d : Dim) (a b : Int) : Option Dim :=
  (kind.bounds d a b).filter fun p => d.Within p

/-- The dimensions of one element of the first dimension. -/
def indexLeaves : List Dim → I64 → Option (List Dim)
  | d :: rest, i => if d.Has i.1 then some rest else none
  | [], _ => none

/-- The dimensions of a part of the first dimension. -/
def rangeLeaves (kind : RangeKind) : List Dim → I64 × I64 → Option (List Dim)
  | d :: rest, (a, b) => (kind.part d a.1 b.1).map (· :: rest)
  | [], _ => none

/-- The dimensions that a chain of constant selects inside its variable leaves to the next one. A variable of 2^64
bits or more is never selected from. -/
def leaves (ds : List Dim) : Expression Literal Operator → Option (List Dim)
  | .paren inner => leaves ds inner
  | .ident _ => if elements ds < sizeU64 then some ds else none
  | .index base index =>
    (leaves ds base).bind fun fs => (constantArrayIndex core module index).bind fun i => indexLeaves fs i
  | .rangeSelect base kind left right =>
    (leaves ds base).bind fun fs =>
      (both (constantArrayIndex core module left) (constantArrayIndex core module right)).bind fun ab =>
        rangeLeaves kind fs ab
  | _ => none

/-- An index less than 2^63 labels away from the right bound of its dimension. -/
def IndexNear : List Dim → I64 → Prop
  | d :: _, i => d.Has i.1 → d.pos i.1 < 2 ^ 63
  | [], _ => True

/-- A part that ends less than 2^63 labels away from the right bound of its dimension. -/
def RangeNear (kind : RangeKind) : List Dim → I64 × I64 → Prop
  | d :: _, (a, b) => ∀ p, kind.part d a.1 b.1 = some p → d.pos p.2 < 2 ^ 63
  | [], _ => True

/-- Every constant select of a chain ends less than 2^63 labels away from the right bound of the labels left to it. -/
def Near (ds : List Dim) : Expression Literal Operator → Prop
  | .paren inner => Near ds inner
  | .index base index => Near ds base ∧
    ∀ fs i, leaves core module ds base = some fs → constantArrayIndex core module index = some i → IndexNear fs i
  | .rangeSelect base kind left right => Near ds base ∧
    ∀ fs ab, leaves core module ds base = some fs →
      both (constantArrayIndex core module left) (constantArrayIndex core module right) = some ab →
      RangeNear kind fs ab
  | _ => True

/-- Whether the last select of a chain is a part-select. -/
def endsInPart : Expression Literal Operator → Bool
  | .paren inner => endsInPart inner
  | .rangeSelect _ _ _ _ => true
  | _ => false

/-- An index of a part of a vector is its own place, counted from the part's lowest bit. -/
def IndexCounts (part : Bool) : List Dim → I64 → Prop
  | [p], i => part = true → p.Has i.1 → (p.pos i.1 : Int) = i.1
  | _, _ => True

/-- The lowest label of a part of a part of a vector is its own place, counted from the outer part's lowest bit. -/
def RangeCounts (part : Bool) (kind : RangeKind) : List Dim → I64 × I64 → Prop
  | [p], (a, b) => part = true → ∀ q, kind.part p a.1 b.1 = some q → (p.pos q.2 : Int) = min q.1 q.2
  | _, _ => True

/-- Every constant select of a part of a vector means the same by the part's labels and counted from its lowest bit. -/
def Counts (ds : List Dim) : Expression Literal Operator → Prop
  | .paren inner => Counts ds inner
  | .index base index => Counts ds base ∧
    ∀ fs i, leaves core module ds base = some fs → constantArrayIndex core module index = some i →
      IndexCounts (endsInPart base) fs i
  | .rangeSelect base kind left right => Counts ds base ∧
    ∀ fs ab, leaves core module ds base = some fs →
      both (constantArrayIndex core module left) (constantArrayIndex core module right) = some ab →
      RangeCounts (endsInPart base) kind fs ab
  | _ => True

/-- The selection of a chain denotes the bits the chain touches, and finding and noting it wraps nowhere. -/
structure Denotes (ds : List Dim) (expr : Expression Literal Operator) : Prop where
  noWrap : ∀ origins write, collectPackedAccess core module origins expr write ≠ .overflow
  exact : ∀ s, packedSensitivitySelection core module expr = .hit s → s.dynamic = false →
    ∀ ρ, Agrees core module ρ → ∀ bit, Touches ds ρ expr bit ↔ s.offset ≤ bit ∧ bit < s.offset + s.width
  covers : ∀ s, packedSensitivitySelection core module expr = .hit s → s.dynamic = true →
    ∀ ρ, Agrees core module ρ → ∀ bit, Touches ds ρ expr bit → s.offset ≤ bit ∧ bit < s.offset + s.width

/-- A chain of selects and every chain under it are denoted by their selections. -/
def DenotesThroughout (ds : List Dim) : Expression Literal Operator → Prop
  | .paren inner => DenotesThroughout ds inner ∧ Denotes core module ds (.paren inner)
  | .index base index => DenotesThroughout ds base ∧ Denotes core module ds (.index base index)
  | .rangeSelect base kind left right =>
    DenotesThroughout ds base ∧ Denotes core module ds (.rangeSelect base kind left right)
  | expr => Denotes core module ds expr

-- The equations are generated here, once for every module that unfolds them.
attribute [local grind =] remaining

end Chains

end Xezim.Sensitivity
