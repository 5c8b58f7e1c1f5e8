import Xezim.EventBits.Reference

/-! When the fold of an event term finds the right bits, and when its arithmetic overflows. -/

namespace Xezim.EventBits

open Checked

variable [VmOps] (m : ElaboratedModule) (scope : String)

/-- The expressions a term is made of, itself included. -/
inductive Part : Expression → Expression → Prop
  | self (e : Expression) : Part e e
  | paren {e inner : Expression} : Part e inner → Part e (.paren inner)
  | index {e base : Expression} (i : Index) : Part e base → Part e (.index base i)
  | rangeSelect {e base : Expression} (kind : RangeKind) (l r : Index) : Part e base → Part e
    (.rangeSelect base kind l r)
  | concatenation {e p : Expression} {parts : List Expression} : p ∈ parts → Part e p → Part e (.concatenation parts)

/-- A term denotes the bits of another from its lowest on, as many as `count` says. -/
def SameBits (f e : Expression) (count : Int) : Prop :=
  ∀ (β : Type) (nets : String → Int → β) (pos : Int), 0 ≤ pos → pos < count →
    ∃ b, bitOf m scope nets f pos = some b ∧ bitOf m scope nets e pos = some b

/-- The functions of the fold are right about a term, and none of their arithmetic overflows. -/
structure Sound (e : Expression) : Prop where
  width_safe : valueWidth m scope e ≠ .overflow
  width_right : ∀ w, valueWidth m scope e = .hit w → width m scope e = some w
  bit_safe : ∀ pos, InI64 pos → bitAt m scope e pos ≠ .overflow
  bit_right : ∀ pos net dim phys, InI64 pos → bitAt m scope e pos = .hit (net, dim, phys) →
    ∀ (β : Type) (nets : String → Int → β), bitOf m scope nets e pos = some (nets net phys)
  fold_safe : ∀ edge, foldEventExpr m scope e edge ≠ .overflow
  edge_right : ∀ f, foldEventExpr m scope e true = .hit f →
    width m scope f = some 1 ∧ SameBits m scope f e 1
  level_right : ∀ f, foldEventExpr m scope e false = .hit f →
    ∃ w, width m scope e = some w ∧ width m scope f = some w ∧ SameBits m scope f e w

mutual

/-- The width of a term where the fold knows it, over the integers. -/
def knownWidth : Expression → Option Int
  | .paren inner => knownWidth inner
  | .ident h => (named m scope h).map fun v => (v.width : Int)
  | .index _ index => (constIndex m scope index).map fun _ => 1
  | .rangeSelect _ kind left right => do
    let l ← constIndex m scope left
    let r ← constIndex m scope right
    let (lo, hi) ← covered true kind l r
    if InI64 lo ∧ InI64 hi then some (hi - lo + 1) else none
  | .concatenation parts => knownWidths parts

/-- The known widths of some parts together. -/
def knownWidths : List Expression → Option Int
  | [] => some 0
  | p :: parts => do
    let w ← knownWidth p
    let rest ← knownWidths parts
    return w + rest

end

/-- The recorded range a flat name is looked up by has fewer labels than a signed 64-bit integer counts. -/
def RangeFits (name : String) : Prop :=
  ∀ s, m.signals name = some s → s.width ≠ 0 → m.notBits name = false →
    match m.packedFullDims name with
    | some [(l, r)] => (l.val - r.val).natAbs < maxI64
    | some _ => True
    | none =>
      match m.ascendingPacked name with
      | some (l, r) => (l.val - r.val).natAbs < maxI64
      | none => True

/-- The label of a select is within a signed 64-bit integer of the right label of the vector. -/
def LabelFits (v : VecRef) (label : Int) : Prop := v.dim.2 ≤ v.dim.1 → InI64 (label - v.dim.2)

/-- The labels a constant part-select covers can be counted. -/
def CountFits (kind : RangeKind) (l r : Int) : Prop := kind = .constant → l - r < maxI64

/-- The labels and widths of a term stay in the range of its arithmetic: the vectors it names have ranges that can be
counted, a select on a vector has labels near enough to its right label, a part-select covers fewer than `2 ^ 63`
labels, and the parts of a concatenation of known width have fewer than `2 ^ 63` bits together. -/
inductive Fits : Expression → Prop
  | paren {inner : Expression} : Fits inner → Fits (.paren inner)
  | ident {h : HierarchicalIdentifier}
      (range : h.lastSelects = false → ∀ name, resolveName m scope h = some name → RangeFits m name) : Fits (.ident h)
  | index {base : Expression} {i : Index} (inBase : Fits base)
      (label : ∀ h v k, base = .ident h → named m scope h = some v → constIndex m scope i = some k → LabelFits v k) :
      Fits (.index base i)
  | rangeSelect {base : Expression} {kind : RangeKind} {left right : Index} (inBase : Fits base)
      (count : ∀ l r, constIndex m scope left = some l → constIndex m scope right = some r → CountFits kind l r)
      (labels : ∀ h v l r lo hi, base = .ident h → named m scope h = some v → constIndex m scope left = some l →
        constIndex m scope right = some r → covered true kind l r = some (lo, hi) → InI64 lo → InI64 hi →
        LabelFits v lo ∧ LabelFits v hi) :
      Fits (.rangeSelect base kind left right)
  | concatenation {parts : List Expression} (inParts : ∀ p ∈ parts, Fits p)
      (total : ∀ n w, knownWidths m scope (parts.take n) = some w → w ≤ maxI64) : Fits (.concatenation parts)

end Xezim.EventBits
