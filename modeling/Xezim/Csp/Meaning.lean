import Mathlib.Algebra.BigOperators.Group.List.Basic
import Xezim.Csp.Enforce

/-! What a translated problem means: the assignments of its variables that satisfy every node, and
when its nodes describe their sources. -/

namespace Xezim

/-- The value of a linear form. -/
def Lin.at (l : Lin) (a : Nat → Int) : Int := l.k + (l.t.map fun p => p.2 * a p.1).sum

/-- Every variable of the form once, with a coefficient. -/
structure Lin.Ok (l : Lin) : Prop where
  nodup : (l.t.map Prod.fst).Nodup
  nonzero : ∀ p ∈ l.t, p.2 ≠ 0

/-- Every value lies in its domain. -/
def Within (a : Nat → Int) (d : Nat → Dom) : Prop := ∀ v, Dom.Has (d v) (a v)

/-- The form of a fit stays inside it. -/
def Fit.Holds (a : Nat → Int) (f : Fit) : Prop := f.lo ≤ f.lin.at a ∧ f.lin.at a ≤ f.hi

/-- The form of a fit stays inside it, or leaving it is a reinterpretation at `w` bits or more. -/
def Fit.HoldsMod (w : Nat) (a : Nat → Int) (f : Fit) : Prop := w ≤ f.modw ∨ f.Holds a

namespace Csp

variable (csp : Csp)

/-- The bits of the object a variable is written to. -/
def covers (v b i : Nat) : Prop :=
  if (csp.var v).aux then
    match csp.auxBase v with
    | none => False
    | some (base, lo, w) => b = base ∧ lo ≤ i ∧ i < lo + w
  else b = v

/-- The bit a variable with value `x` writes at a position it covers. -/
def wroteBit (v : Nat) (x : Int) (i : Nat) : Bool :=
  if (csp.var v).aux then
    match csp.auxBase v with
    | none => Bool.false
    | some (_, lo, w) => (bitsAt x w).testBit (i - lo)
  else (bitsAt x (csp.var v).width).testBit i

/-- Two variables that share bits of the object agree on them. -/
def Consistent (a : Nat → Int) : Prop :=
  ∀ u v b i, csp.wide u = Bool.false → csp.wide v = Bool.false → csp.covers u b i →
    csp.covers v b i → csp.wroteBit u (a u) i = csp.wroteBit v (a v) i

/-- The values of a list of variables written to the object, in order. -/
def written (deps : List Nat) (a : Nat → Int) (o : Store) : Store :=
  deps.foldl (fun o v => cspWrite csp v (a v) o) o

/-- The evaluator's verdict on a source when its dependencies have the given values. -/
def truth (i : Nat) (a : Nat → Int) : Bool :=
  (csp.src i).verdict (csp.written (csp.src i).deps a fun _ => (0, 0))

/-- The evaluator's value of a source when its dependencies have the given values. -/
def valueAt (i : Nat) (a : Nat → Int) : Value :=
  (csp.src i).value (csp.written (csp.src i).deps a fun _ => (0, 0))

/-- An assignment of the variables: domain values, agreeing where variables share bits. -/
structure Assignment (a : Nat → Int) : Prop where
  within : Within a csp.dom
  consistent : csp.Consistent a

end Csp

/-- Whether `x op y` holds. -/
def RelOp.holds (op : RelOp) (x y : Int) : Bool :=
  match op with
  | .eq | .caseEq => x = y
  | .neq | .caseNeq => x ≠ y
  | .lt => x < y
  | .leq => x ≤ y
  | .gt => y < x
  | .geq => y ≤ x

/-- A value read as a number, with its sign when asked to. -/
def Value.number (c : Value) (signed : Bool) : Int :=
  if signed ∧ 2 ^ c.width ≤ 2 * c.val then (c.val : Int) - 2 ^ c.width else c.val

/-- A relation of a variable with a value: with an unsigned side it is unsigned and the variable is read
as its own bits; with an unknown value it is not true. -/
def funHolds (op : RelOp) (var : CspVar) (x : Int) (c : Value) : Bool :=
  let signed := var.signed && c.isSigned
  c.xz = 0 && op.holds (if signed then x else bitsAt x var.width) (c.number signed)

/-- A variable with value `x` is compared with the low word of a value: the sign and width cases of
`csp_enforce` that call `to_u64`. -/
def wordCompared (var : CspVar) (x : Int) (c : Value) : Bool :=
  match var.signed, c.isSigned with
  | false, false => true
  | true, true => false
  | true, false => 0 ≤ x && var.width ≤ c.width
  | false, true => c.width ≤ var.width

mutual

/-- An assignment satisfies a node. -/
def nodeHolds (csp : Csp) (a : Nat → Int) : Node → Prop
  | .true => True
  | .false => False
  | .lin l rel fits src sneg _ =>
    ((∀ f ∈ fits, f.Holds a) ∧ relHolds rel (l.at a) = true) ∨
      ((¬ ∀ f ∈ fits, f.Holds a) ∧ csp.truth src a ≠ sneg)
  | .inside l set neg fits src _ =>
    ((∀ f ∈ fits, f.Holds a) ∧ domHas set (l.at a) ≠ neg) ∨
      ((¬ ∀ f ∈ fits, f.Holds a) ∧ csp.truth src a ≠ neg)
  | .allDiff vs => (vs.map a).Nodup
  | .pop x c w => a c = countOnes (bitsAt (a x) w)
  | .eval src neg => csp.truth src a ≠ neg
  | .fn _ _ _ whole neg => csp.truth whole a ≠ neg
  | .and ns => allHold csp a ns
  | .or ns => anyHolds csp a ns
  | .ite cond _ thn els =>
    (nodeHolds csp a cond ∧ nodeHolds csp a thn) ∨ (¬ nodeHolds csp a cond ∧ nodeHolds csp a els)

/-- An assignment satisfies every node of a list. -/
def allHold (csp : Csp) (a : Nat → Int) : List Node → Prop
  | [] => True
  | n :: ns => nodeHolds csp a n ∧ allHold csp a ns

/-- An assignment satisfies some node of a list. -/
def anyHolds (csp : Csp) (a : Nat → Int) : List Node → Prop
  | [] => False
  | n :: ns => nodeHolds csp a n ∨ anyHolds csp a ns

end

/-- What the sides of a wrapped relation add to their difference. -/
def Wrap.delta (wr : Wrap) (l la lb : Lin) : Int := l.k - wr.sg * (la.k - lb.k)

/-- The modular reading of a linear relation: an equality modulo `2 ^ w`, another relation between the
wrapped sides. -/
def wrapRelHolds (l : Lin) (rel : Rel) (fits : List Fit) (wr : Wrap) (a : Nat → Int) : Prop :=
  match rel with
  | .eq => l.at a % 2 ^ wr.w = 0
  | _ =>
    match fits[wr.n]?, fits[wr.n + 1]? with
    | some fa, some fb =>
      relHolds rel (wr.sg * (wrapValue wr.w wr.s (fa.lin.at a) - wrapValue wr.w wr.s (fb.lin.at a)) +
        wr.delta l fa.lin fb.lin) = true
    | _, _ => True

mutual

/-- A node describes its sources exactly: wherever its fits hold, its linear reading is what the
evaluator says of the source; wherever the operands' own fits hold, so is its modular reading. A node
without fits is read linearly everywhere, so it needs no source. -/
def Exact (csp : Csp) : Node → Prop
  | .true => True
  | .false => True
  | .lin l rel fits src sneg wrap =>
    l.Ok ∧ (∀ f ∈ fits, f.lin.Ok) ∧
    (fits ≠ [] → ∀ a, csp.Assignment a → (∀ f ∈ fits, f.Holds a) →
      (relHolds rel (l.at a) = true ↔ csp.truth src a ≠ sneg)) ∧
    ∀ wr, wrap = some wr → (wr.sg = 1 ∨ wr.sg = -1) ∧
      ∀ a, csp.Assignment a → (∀ f ∈ fits.take wr.n, f.HoldsMod wr.w a) →
        (wrapRelHolds l rel fits wr a ↔ csp.truth src a ≠ sneg)
  | .inside l set neg fits src wrap =>
    l.Ok ∧ (∀ f ∈ fits, f.lin.Ok) ∧ Dom.Ok set ∧
    (fits ≠ [] → ∀ a, csp.Assignment a → (∀ f ∈ fits, f.Holds a) →
      (domHas set (l.at a) ≠ neg ↔ csp.truth src a ≠ neg)) ∧
    ∀ wr, wrap = some wr →
      ∀ a, csp.Assignment a → (∀ f ∈ fits.take wr.n, f.HoldsMod wr.w a) →
        (domHas set (wrapValue wr.w wr.s (l.at a)) ≠ neg ↔ csp.truth src a ≠ neg)
  | .allDiff _ => True
  | .pop x c w => x ≠ c ∧ ∀ a, csp.Assignment a → a x < 2 ^ w
  | .eval _ _ => True
  | .fn var op other whole neg =>
    (∀ a, csp.Assignment a →
      (csp.truth whole a ≠ neg ↔ funHolds op (csp.var var) (a var) (csp.valueAt other a) = true) ∧
      (csp.valueAt other a).Fits ∧ (csp.valueAt other a).isReal = false) ∧
    0 < (csp.var var).width ∧
    ∀ a, csp.Assignment a →
      (wsRange (csp.var var).width (csp.var var).signed).1 ≤ a var ∧
        a var ≤ (wsRange (csp.var var).width (csp.var var).signed).2
  | .and ns => allExact csp ns
  | .or ns => allExact csp ns
  | .ite cond ncond thn els =>
    Exact csp cond ∧ Exact csp ncond ∧ Exact csp thn ∧ Exact csp els ∧
      ∀ a, csp.Assignment a → (nodeHolds csp a ncond ↔ ¬ nodeHolds csp a cond)

/-- Every node of a list describes its sources exactly. -/
def allExact (csp : Csp) : List Node → Prop
  | [] => True
  | n :: ns => Exact csp n ∧ allExact csp ns

end

mutual

/-- An assignment that satisfies a comparison satisfies it as the search reads the other side. Where that side is
read as one machine word, the relation holds with its low word too; and with rand sub-objects in the solve, in an
ordering or an equality of an unsigned variable with a signed side of one to four other variables, no wider than
the variable, that side is not negative. -/
def ReadSafe (csp : Csp) (a : Nat → Int) : Node → Prop
  | .fn var op other whole neg =>
    csp.truth whole a ≠ neg →
      (wordCompared (csp.var var) (a var) (csp.valueAt other a) = true →
        op.holds (bitsAt (a var) (csp.var var).width) ((csp.valueAt other a).val % 2 ^ 64) = true) ∧
      (csp.hasSubs = true → (csp.var var).signed = false → op ≠ .neq → op ≠ .caseNeq →
        (csp.src other).deps ≠ [] → (csp.src other).deps.length ≤ 4 → var ∉ (csp.src other).deps →
        (csp.valueAt other a).isSigned = true → (csp.valueAt other a).width ≤ (csp.var var).width →
        2 * (csp.valueAt other a).val < 2 ^ (csp.valueAt other a).width)
  | .and ns => allReadSafe csp a ns
  | .or ns => allReadSafe csp a ns
  | .ite cond ncond thn els =>
    ReadSafe csp a cond ∧ ReadSafe csp a ncond ∧ ReadSafe csp a thn ∧ ReadSafe csp a els
  | _ => True

/-- An assignment is read safely in every node of a list. -/
def allReadSafe (csp : Csp) (a : Nat → Int) : List Node → Prop
  | [] => True
  | n :: ns => ReadSafe csp a n ∧ allReadSafe csp a ns

end

namespace Csp

/-- Two objects show the same value of a variable. -/
def SameRead (csp : Csp) (v : Nat) (o o' : Store) : Prop :=
  ∀ b i, csp.covers v b i → (o b).1.testBit i = (o' b).1.testBit i ∧
    (o b).2.testBit i = (o' b).2.testBit i

/-- A problem as the translation makes it: a proper domain of 128-bit numbers for each variable, sources
that are not stale and whose verdict and value depend on their dependency variables only, nodes that
describe their sources, and link nodes that tie variables sharing bits together. -/
structure Ok (csp : Csp) : Prop where
  sized : csp.dom0.length = csp.vars.length
  doms : ∀ v, (csp.dom v).Ok
  range : ∀ v x, Dom.Has (csp.dom v) x → -2 ^ 127 ≤ x ∧ x ≤ 2 ^ 127 - 1
  fresh : ∀ i, (csp.src i).stale = Bool.false
  narrow : ∀ i, ∀ v ∈ (csp.src i).deps, csp.wide v = Bool.false
  reads : ∀ i o o', (∀ v ∈ (csp.src i).deps, csp.SameRead v o o') →
    (csp.src i).verdict o = (csp.src i).verdict o' ∧ (csp.src i).value o = (csp.src i).value o'
  described : ∀ n ∈ csp.nodes, Exact csp n
  linked : ∀ a, Within a csp.dom →
    (∀ l rel src sneg, Node.lin l rel [] src sneg none ∈ csp.nodes → relHolds rel (l.at a) = true) →
    csp.Consistent a

/-- An assignment that satisfies every node. -/
def Solution (csp : Csp) (a : Nat → Int) : Prop :=
  csp.Assignment a ∧ ∀ n ∈ csp.nodes, nodeHolds csp a n

-- The equations are generated here, once for every module that unfolds them.
attribute [local grind =] nodeHolds

end Csp

end Xezim
