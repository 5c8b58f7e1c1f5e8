import Xezim.Lib.Checked
import Mathlib.Tactic.Common

/-! The static packed selections from which an implicit sensitivity list is built. -/

namespace Xezim.Sensitivity

open Checked

/-- An `i64`. -/
abbrev I64 : Type := { n : Int // InI64 n }

/-- One segment of a hierarchical identifier. -/
structure Segment where
  name : String
  /-- What `try_const_u64` answers on each of its selects. -/
  selects : List (Option Nat)
  deriving DecidableEq

/-- The kinds of a range select. -/
inductive RangeKind where
  | constant
  | indexedUp
  | indexedDown
  deriving DecidableEq

/-- Expressions, over the literals and operators that only constant evaluation reads. -/
inductive Expression (Literal Operator : Type) where
  | number (literal : Literal)
  | ident (path : List Segment)
  | paren (inner : Expression Literal Operator)
  | unary (op : Operator) (operand : Expression Literal Operator)
  | binary (op : Operator) (left right : Expression Literal Operator)
  | conditional (condition thenExpr elseExpr : Expression Literal Operator)
  | index (base index : Expression Literal Operator)
  | rangeSelect (base : Expression Literal Operator) (kind : RangeKind) (left right : Expression Literal Operator)
  | other

/-- What the elaborated module records of its variables. -/
structure ElaboratedModule (DataType : Type) where
  arrays : String → Bool
  arrays2d : String → Bool
  arraysNd : String → Bool
  dynamicArrays : String → Bool
  queueVars : String → Bool
  associativeArrays : String → Bool
  packedFullDims : String → Option (List (I64 × I64))
  /-- The width of a signal. -/
  signals : String → Option UInt32
  varDeclTypes : String → Option DataType
  ascendingPacked : String → Option (I64 × I64)
  /-- Whether a name is a parameter. -/
  parameters : String → Bool

/-- The elaborator's functions, for the module's parameters and typedefs. -/
structure Elaborator (Literal Operator DataType : Type) where
  resolveTypeWidth : DataType → UInt32
  constEvalI64WithParams : Expression Literal Operator → Option I64

/-- A selection of bits of a packed variable. -/
structure PackedSelection where
  name : String
  offset : Nat
  width : Nat
  totalWidth : Nat
  dims : List (Int × Int)
  dynamic : Bool
  deriving DecidableEq

variable {Literal Operator DataType : Type}

/-- One segment of a flat name of several: its constant selects are part of it. -/
def Segment.render (segment : Segment) : String :=
  segment.selects.foldl (fun out select => match select with
    | some ix => out ++ "[" ++ toString ix ++ "]"
    | none => out) segment.name

/-- The flat name of a hierarchical identifier. -/
def resolveHierNameStatic (path : List Segment) : String :=
  -- `$root` names the root scope and contributes nothing.
  let path := if 1 < path.length ∧ (path.head?.map Segment.name) = some "$root" then path.tail else path
  match path with
  | [] => ""
  | [segment] => segment.name
  | segments => ".".intercalate (segments.map Segment.render)

/-- Whether an expression is built from numbers and parameters alone. -/
def isConstant (module : ElaboratedModule DataType) : Expression Literal Operator → Bool
  | .number _ => true
  | .ident path => match path.getLast? with
    | some segment => module.parameters segment.name
    | none => false
  | .paren inner => isConstant module inner
  | .unary _ operand => isConstant module operand
  | .binary _ left right => isConstant module left && isConstant module right
  | .conditional condition thenExpr elseExpr =>
    isConstant module condition && isConstant module thenExpr && isConstant module elseExpr
  | _ => false

/-- The value of a constant index. -/
def constantArrayIndex (core : Elaborator Literal Operator DataType) (module : ElaboratedModule DataType)
    (expr : Expression Literal Operator) : Option I64 :=
  if isConstant module expr then core.constEvalI64WithParams expr else none

/-- The number of elements of a dimension. -/
def absDiffPlusOne (left right : Int) : Outcome Nat := checkedU64 ((left - right).natAbs + 1)

/-- The width of all dimensions together. -/
def productWidth : Nat → List (Int × Int) → Outcome Nat
  | w, [] => pure w
  | w, (l, r) :: dims => do
    let count ← absDiffPlusOne l r
    let w ← checkedU64 (w * count)
    productWidth w dims

/-- Whether a name is an unpacked array, a queue or an associative array. -/
def isCollection (module : ElaboratedModule DataType) (name : String) : Bool :=
  module.arrays name || module.arrays2d name || module.arraysNd name || module.dynamicArrays name ||
    module.queueVars name || module.associativeArrays name

/-- The width of a variable as a signal, else as its declared type has it. -/
def signalWidth (core : Elaborator Literal Operator DataType) (module : ElaboratedModule DataType)
    (name : String) : Option UInt32 :=
  match module.signals name with
  | some w => some w
  | none => (module.varDeclTypes name).map core.resolveTypeWidth

/-- The recorded dimensions of a variable, empty without a record. -/
def fullDims (module : ElaboratedModule DataType) (name : String) : List (Int × Int) :=
  match module.packedFullDims name with
  | some dims => dims.map fun d => (d.1.1, d.2.1)
  | none => []

/-- The one dimension of a variable without recorded ones. -/
def soleDim (module : ElaboratedModule DataType) (name : String) (w : UInt32) : Outcome (Int × Int) :=
  match module.ascendingPacked name with
  | some (l, r) => pure (l.1, r.1)
  | none => do
    let left ← checked (w.toNat - 1)
    pure (left, 0)

/-- The whole of a variable of `width` bits. -/
def wholeSelection (name : String) (width : Nat) (dims : List (Int × Int)) : Outcome PackedSelection := do
  Outcome.require (0 < width)
  pure ⟨name, 0, width, width, dims, false⟩

/-- The selection of a whole variable. -/
def identSelection (core : Elaborator Literal Operator DataType) (module : ElaboratedModule DataType)
    (name : String) : Outcome PackedSelection :=
  if isCollection module name then .miss
  else match fullDims module name with
    | [] => do
      let w ← Outcome.ofOption (signalWidth core module name)
      let dim ← soleDim module name w
      wholeSelection name w.toNat [dim]
    | dims => do
      let width ← productWidth 1 dims
      wholeSelection name width dims

namespace PackedSelection

/-- The distance from the right bound: of the highest label of an ascending dimension, the lowest of a descending. -/
def position (l r hi lo : Int) : Outcome Int := if l < r then sub r hi else sub lo r

/-- `i64` to `u64`. -/
def toU64 (n : Int) : Outcome Nat := do
  Outcome.require (0 ≤ n)
  pure n.toNat

/-- The bits of one element of the first dimension. -/
def elementWidth (selection : PackedSelection) (l r : Int) : Outcome Nat := do
  let count ← absDiffPlusOne l r
  pure (selection.width / count)

/-- The dimension of an element that has bits but no dimension left. -/
def innerDims (dims : List (Int × Int)) (element : Nat) : Outcome (List (Int × Int)) :=
  if dims = [] ∧ 1 < element then do
    let n ← checked element
    let left ← sub n 1
    pure [(left, 0)]
  else pure dims

/-- The element of the first dimension at a constant index. -/
def select (selection : PackedSelection) (index : Int) : Outcome PackedSelection :=
  match selection.dims with
  | [] => .miss
  | (left, right) :: dims => do
    Outcome.require (min left right ≤ index ∧ index ≤ max left right)
    let element ← selection.elementWidth left right
    let pos ← position left right index index
    let pos ← toU64 pos
    let shift ← checkedU64 (pos * element)
    let offset ← inRangeU64 (selection.offset + shift)
    let dims ← innerDims dims element
    pure { selection with offset := offset, width := element, dims := dims }

/-- The bounds of a range select, in the direction of the dimension `[l:r]`. -/
def bounds (kind : RangeKind) (l r a b : Int) : Outcome (Int × Int) :=
  match kind with
  | .constant => pure (a, b)
  | .indexedUp => do
    Outcome.require (0 < b)
    let n ← sub b 1
    let last ← checked (a + n)
    pure (if r ≤ l then (last, a) else (a, last))
  | .indexedDown => do
    Outcome.require (0 < b)
    let n ← sub b 1
    let last ← checked (a - n)
    pure (if r ≤ l then (a, last) else (last, a))

/-- The elements of the first dimension in a constant range. -/
def selectRange (selection : PackedSelection) (kind : RangeKind) (a b : Int) : Outcome PackedSelection :=
  match selection.dims with
  | [] => .miss
  | (l, r) :: dims => do
    let (a, b) ← bounds kind l r a b
    let lo := min a b
    let hi := max a b
    Outcome.require (¬ (lo < min l r ∨ hi > max l r ∨ a ≠ b ∧ decide (a > b) ≠ decide (l > r)))
    let element ← selection.elementWidth l r
    let pos ← position l r hi lo
    let pos ← toU64 pos
    let shift ← checkedU64 (pos * element)
    let offset ← inRangeU64 (selection.offset + shift)
    let count ← absDiffPlusOne lo hi
    let width ← checkedU64 (count * element)
    pure { selection with offset := offset, width := width, dims := (a, b) :: dims }

/-- A select of a selection: a run-time one leaves it as it is, from then on. -/
def step {α : Type} (selection : PackedSelection) (operand : Option α)
    (narrow : PackedSelection → α → Outcome PackedSelection) : Outcome PackedSelection :=
  if selection.dynamic then pure selection
  else match operand with
    | none => pure { selection with dynamic := true }
    | some a => narrow selection a

end PackedSelection

/-- Both operands of a range select, when both are constant. -/
def both (left right : Option I64) : Option (I64 × I64) :=
  match left, right with
  | some a, some b => some (a, b)
  | _, _ => none

/-- The longest static packed prefix of a chain of selects. -/
def packedSensitivitySelection (core : Elaborator Literal Operator DataType)
    (module : ElaboratedModule DataType) : Expression Literal Operator → Outcome PackedSelection
  | .paren inner => packedSensitivitySelection core module inner
  | .ident path => identSelection core module (resolveHierNameStatic path)
  | .index base index => do
    let selection ← packedSensitivitySelection core module base
    selection.step (constantArrayIndex core module index) fun s i => s.select i.1
  | .rangeSelect base kind left right => do
    let selection ← packedSensitivitySelection core module base
    selection.step (both (constantArrayIndex core module left) (constantArrayIndex core module right))
      fun s ab => s.selectRange kind ab.1.1 ab.2.1
  | _ => .miss

/-- The accesses of packed selections of one variable. -/
structure PackedAccesses where
  width : Nat
  reads : List (Nat × Nat)
  writes : List (Nat × Nat)
  deriving DecidableEq

/-- The accesses noted for each variable. -/
abbrev PackedOrigins : Type := String → PackedAccesses

/-- A selection noted as a half-open range of bits, read or written. -/
def notePackedAccess (origins : PackedOrigins) (selection : PackedSelection) (write : Bool) :
    Outcome PackedOrigins := do
  let beyond ← inRangeU64 (selection.offset + selection.width)
  let access := origins selection.name
  pure fun name =>
    if name = selection.name then
      if write then
        ⟨selection.totalWidth, access.reads, access.writes ++ [(selection.offset, beyond)]⟩
      else ⟨selection.totalWidth, access.reads ++ [(selection.offset, beyond)], access.writes⟩
    else origins name

/-- An access to a chain of selects: nothing is noted where it is no packed selection. -/
def collectPackedAccess (core : Elaborator Literal Operator DataType) (module : ElaboratedModule DataType)
    (origins : PackedOrigins) (expr : Expression Literal Operator) (write : Bool) : Outcome PackedOrigins := do
  let selection ← packedSensitivitySelection core module expr
  notePackedAccess origins selection write

end Xezim.Sensitivity
