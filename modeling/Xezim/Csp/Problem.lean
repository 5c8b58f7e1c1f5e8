import Mathlib.Logic.Function.Basic
import Xezim.Lib.Splice
import Xezim.Value
import Xezim.Csp.Dom

/-! The translated problem of the joint constraint solver, and the object it writes. -/

namespace Xezim

open Splice

/-- `Lin`: `k + Σ c·x` over solver variables. -/
structure Lin where
  t : List (Nat × Int)
  k : Int
  deriving DecidableEq, Repr

/-- `Fit`: a linear form that must stay inside `[lo, hi]` for the linear reading of a constraint to
be its value; leaving it changes an operand by a multiple of `2 ^ modw` when `modw` is not zero. -/
structure Fit where
  lin : Lin
  lo : Int
  hi : Int
  modw : Nat
  deriving DecidableEq, Repr

/-- `Wrap`: a relation compared at `w` bits of signedness `s`, whose first `n` fits are the
operands' own and whose `lin` is `sg·(left - right) + δ`. -/
structure Wrap where
  w : Nat
  s : Bool
  n : Nat
  sg : Int
  deriving DecidableEq, Repr

/-- `Rel`: `lin <= 0`, `lin == 0` or `lin != 0`. -/
inductive Rel
  | le
  | eq
  | ne
  deriving DecidableEq, Repr

/-- The relations of `BinaryOp` a `Fun` node is made for. -/
inductive RelOp
  | eq
  | caseEq
  | neq
  | caseNeq
  | lt
  | leq
  | gt
  | geq
  deriving DecidableEq, Repr

/-- `Node`: one translated constraint. -/
inductive Node
  | true
  | false
  /-- `Lin`: a linear relation. -/
  | lin (lin : Lin) (rel : Rel) (fits : List Fit) (src : Nat) (sneg : Bool) (wrap : Option Wrap)
  /-- `In`: `lin inside set`, or not with `neg`. -/
  | inside (lin : Lin) (set : Dom) (neg : Bool) (fits : List Fit) (src : Nat) (wrap : Option Wrap)
  /-- `AllDiff`. -/
  | allDiff (vs : List Nat)
  /-- `Pop`: `c == $countones(x)` for a variable of `w` bits. -/
  | pop (x c w : Nat)
  /-- `Eval`: judged by the evaluator once its source is fixed. -/
  | eval (src : Nat) (neg : Bool)
  /-- `Fun`: `var op other`, where `whole` is the original relation, negated when `neg`. -/
  | fn (var : Nat) (op : RelOp) (other whole : Nat) (neg : Bool)
  | and (ns : List Node)
  | or (ns : List Node)
  /-- `If`. -/
  | ite (cond ncond thn els : Node)

/-- What the object holds at the place of each variable: the value plane and the unknown plane of
the variable's declared width. -/
abbrev Store := Nat → Nat × Nat

/-- `CspVar`: a variable of the solve; an `aux` one is not stored on its own (`VarKey::Aux`). -/
structure CspVar where
  aux : Bool
  width : Nat
  signed : Bool
  deriving Inhabited

/-- `Src`: the constraint behind a node. The evaluator reads it off the object: `verdict` is
`cons_expr_true` or `check_constraint_item_impl`, and `value` is `eval_expr`. -/
structure Src where
  deps : List Nat
  stale : Bool
  verdict : Store → Bool
  value : Store → Value

instance : Inhabited Src := ⟨[], Bool.false, fun _ => Bool.false, fun _ => ⟨1, 0, 1, Bool.false,
  Bool.false, Bool.false⟩⟩

/-- `Dist`: the weighed items of one variable, in force while every guard holds. -/
structure Dist where
  items : List (Int × Int × Nat)
  guards : List Node

instance : Inhabited Dist := ⟨[], []⟩

/-- `Csp`: what the search reads of the translated problem. -/
structure Csp where
  vars : List CspVar
  dom0 : List Dom
  srcs : List Src
  nodes : List Node
  dists : List Dist
  /-- Rand sub-object scalars are variables too. -/
  hasSubs : Bool
  /-- Segment or select variable: its base variable, lsb and width. -/
  auxBase : Nat → Option (Nat × Nat × Nat)
  /-- Variables wider than 64 bits, held as segments. -/
  wide : Nat → Bool
  /-- Variables split into segments. -/
  segs : Nat → Bool
  /-- Size variables of dynamic arrays. -/
  sizes : List Nat
  /-- Places no constraint reads and their widths, drawn when `drawFree`. -/
  wideFree : List (Nat × Nat)
  drawFree : Bool

namespace Csp

/-- The variable at an index. -/
def var (csp : Csp) (v : Nat) : CspVar := csp.vars.getD v default

/-- The initial domain of a variable; past the end, where the source panics, one dummy value. -/
def dom (csp : Csp) (v : Nat) : Dom := csp.dom0.getD v [(0, 0)]

/-- The source at an index. -/
def src (csp : Csp) (i : Nat) : Src := csp.srcs.getD i default

end Csp

/-- `bits_at`: the low `w` bits of a value. -/
def bitsAt (x : Int) (w : Nat) : Nat := (x % 2 ^ w).toNat

/-- The low bits of a number are below their power of two. -/
theorem bitsAt_lt (x : Int) (w : Nat) : bitsAt x w < 2 ^ w := by
  have m : (0 : Int) < 2 ^ w := Int.pow_pos (by decide)
  have low := Int.emod_nonneg x m.ne'
  have high := Int.emod_lt_of_pos x m
  unfold bitsAt
  have : ((x % 2 ^ w).toNat : Int) < (2 ^ w : Nat) := by
    rw [Int.toNat_of_nonneg low]
    exact_mod_cast high
  exact_mod_cast this

/-- `csp_write`: a variable goes to its own place, a segment into the bits of its base. -/
def cspWrite (csp : Csp) (v : Nat) (x : Int) (o : Store) : Store :=
  if (csp.var v).aux then
    match csp.auxBase v with
    | none => o
    | some (base, lo, w) =>
      Function.update o base (splice (o base).1 lo w (bitsAt x w), splice (o base).2 lo w 0)
  else Function.update o v (bitsAt x (csp.var v).width, 0)

/-- A word read as `i64`. -/
def toI64 (x : Nat) : Int := (BitVec.ofNat 64 x).toInt

/-- A known word-sized value is read as a number. -/
theorem toU64_small [WordRead] [LawfulWordRead] {c : Value} (known : c.xz = 0) (bits : c.isReal = false)
    (small : c.val < 2 ^ 64) : WordRead.toU64 c = some c.val := by
  rw [LawfulWordRead.toU64_known c known bits, Nat.mod_eq_of_lt small]

/-- A value of at most 64 bits read with its sign: `((x << sh) as i64) >> sh`. -/
def Value.signedRead [WordRead] (c : Value) : Int :=
  let sh := 64 - max c.width 1
  toI64 ((WordRead.toU64 c).getD 0 * 2 ^ sh) / 2 ^ sh

/-- The set bits of a number. -/
def countOnes (n : Nat) : Nat := (Nat.bits n).count Bool.true

/-- `csp_and`. -/
def cspAnd : List Node → Node
  | [] => .true
  | [n] => n
  | ns => .and ns

namespace Node

/-- `Node::deps`: the variables a node reads. -/
def deps (csp : Csp) : Node → List Nat
  | .true | .false => []
  | .lin l _ fits src _ _ | .inside l _ _ fits src _ =>
    l.t.map Prod.fst ++ fits.flatMap (fun f => f.lin.t.map Prod.fst) ++ (csp.src src).deps
  | .allDiff vs => vs
  | .pop x c _ => [x, c]
  | .eval src _ => (csp.src src).deps
  | .fn var _ other whole _ => var :: (csp.src other).deps ++ (csp.src whole).deps
  | .and ns | .or ns => depsList csp ns
  | .ite cond _ thn els => deps csp cond ++ deps csp thn ++ deps csp els
where
  /-- The variables a list of nodes reads. -/
  depsList (csp : Csp) : List Node → List Nat
    | [] => []
    | n :: ns => deps csp n ++ depsList csp ns

end Node

end Xezim
