import Mathlib.Data.List.Sort
import Xezim.Csp.Meaning

/-! Arithmetic operands of a constraint, their linear forms, and what keeps a linear form exact. -/

namespace Xezim

namespace Lin

/-- `Lin::konst`. -/
def konst (k : Int) : Lin := ⟨[], k⟩

/-- `Lin::var`. -/
def var (v : Nat) : Lin := ⟨[(v, 1)], 0⟩

/-- `COEF_MAX`. -/
def coefMax : Int := 2 ^ 40

/-- `KONST_MAX`. -/
def konstMax : Int := 2 ^ 100

/-- Neighbouring terms of one variable are added up. -/
def mergeTerms : List (Nat × Int) → List (Nat × Int)
  | [] => []
  | p :: t =>
    match mergeTerms t with
    | [] => [p]
    | q :: r => if p.1 = q.1 then (p.1, p.2 + q.2) :: r else p :: q :: r

/-- `Lin::norm`: every variable once, in order, or nothing when a number grows too large. -/
def norm (l : Lin) : Option Lin :=
  let out := (mergeTerms (l.t.insertionSort fun p q => p.1 ≤ q.1)).filter fun p => p.2 ≠ 0
  -- A checked `i128` operation that fails leaves a number above both bounds.
  if konstMax < |l.k| ∨ out.any fun p => coefMax < |p.2| then none else some ⟨out, l.k⟩

/-- `Lin::plus`. -/
def plus (l o : Lin) (sgn : Int) : Option Lin :=
  norm ⟨l.t ++ o.t.map fun p => (p.1, p.2 * sgn), l.k + o.k * sgn⟩

/-- `Lin::scale`. -/
def scale (l : Lin) (c : Int) : Option Lin := norm ⟨l.t.map fun p => (p.1, p.2 * c), l.k * c⟩

end Lin

/-- `Carry`: the sum `acc` computed at `w` bits of signedness `s` is a variable of its own, and what
it leaves over is between the bounds `k`, a multiple of `2 ^ w`. -/
structure Carry where
  acc : Lin
  w : Nat
  s : Bool
  k : Int × Int
  deriving DecidableEq, Repr

/-- `LinCx`: the initial domains, the carries of the relation numbered from `base`, and the sums
earlier relations gave a variable. -/
structure LinCx where
  dom0 : List Dom
  base : Nat
  carries : List Carry
  made : List (Lin × Nat × Bool × Nat)

/-- The `i128` a checked operation returns. -/
def checkedI128 (x : Int) : Option Int := if -2 ^ 127 ≤ x ∧ x < 2 ^ 127 then some x else none

namespace LinCx

/-- `LinCx::bounds`. -/
def bounds (cx : LinCx) (v : Nat) : Option (Int × Int) :=
  if v < cx.base then do
    let d ← cx.dom0[v]?
    let first ← d.head?
    let last ← d.getLast?
    return (first.1, last.2)
  else do
    let c ← cx.carries[(v - cx.base) / 2]?
    return if (v - cx.base) % 2 = 0 then wsRange c.w c.s else c.k

/-- `LinCx::range`. -/
def range (cx : LinCx) (l : Lin) : Option (Int × Int) :=
  l.t.foldlM (fun (acc : Int × Int) (p : Nat × Int) => do
    let (a, b) ← cx.bounds p.1
    let x ← checkedI128 (a * p.2)
    let y ← checkedI128 (b * p.2)
    let lo ← checkedI128 (acc.1 + min x y)
    let hi ← checkedI128 (acc.2 + max x y)
    return (lo, hi)) (l.k, l.k)

/-- The carry to make for a sum that can leave its type, when its modulus is no too large
coefficient. -/
def overflow (cx : LinCx) (acc : Lin) (w : Nat) (s : Bool) : Option Carry := do
  let (lo, hi) ← cx.range acc
  let (rlo, rhi) := wsRange w s
  if rlo ≤ lo ∧ hi ≤ rhi then none
  else
    let m : Int := 2 ^ min w 64
    if 64 < w ∨ Lin.coefMax < m then none
    else some ⟨acc, w, s, floorDiv (lo - rlo) m, floorDiv (hi - rlo) m⟩

/-- `LinCx::carry`: the variable of a sum that can leave its type. -/
def carry (cx : LinCx) (acc : Lin) (w : Nat) (s : Bool) : Option (Nat × LinCx) := do
  let c ← cx.overflow acc w s
  match cx.made.find? fun e => e.1 = acc ∧ e.2.1 = w ∧ e.2.2.1 = s with
  | some e => return (e.2.2.2, cx)
  | none =>
    match cx.carries.findIdx? fun c => c.acc = acc ∧ c.w = w ∧ c.s = s with
    | some i => return (cx.base + 2 * i, cx)
    | none => return (cx.base + 2 * cx.carries.length, { cx with carries := cx.carries ++ [c] })

end LinCx

/-- What `csp_const` returns: a known bit vector of 1 to 64 bits. -/
structure Value.Constant (c : Value) : Prop where
  pos : 0 < c.width
  narrow : c.width ≤ 64
  known : c.xz = 0
  small : c.val < 2 ^ c.width
  bits : c.isReal = false

/-- A constant is read as its number. -/
theorem Value.Constant.toU64_eq [WordRead] [LawfulWordRead] {c : Value} (constant : c.Constant) :
    WordRead.toU64 c = some c.val :=
  toU64_small constant.known constant.bits
    (constant.small.trans_le (Nat.pow_le_pow_right (by decide) constant.narrow))

/-- `Ae`: an arithmetic operand before its context is known. -/
inductive Ae
  /-- Variable, width, signed. -/
  | var (v w : Nat) (s : Bool)
  | const (c : Value)
  | neg (x : Ae)
  | add (l r : Ae)
  | sub (l r : Ae)
  | mul (l r : Ae)
  | shl (x : Ae) (k : Nat)
  /-- Array reduction accumulated at its own `(w, s)`. -/
  | sum (terms : List Ae) (w : Nat) (s : Bool)
  /-- `inner` evaluated in the context `(iw, is)`, then converted to `(w, s)`. -/
  | cast (inner : Ae) (iw : Nat) (is : Bool) (w : Nat) (s : Bool)

/-- The low `w` bits of a number read with the given signedness (`as_ctx`). -/
def asCtx (v : Int) (w : Nat) (signed : Bool) : Int :=
  let bits := bitsAt v w
  if signed ∧ 0 < w ∧ w < 128 ∧ bits.testBit (w - 1) then bits - 2 ^ w else bits

namespace Ae

/-- `csp_ws`: self-determined width and signedness of an operand. -/
def ws : Ae → Nat × Bool
  | .var _ w s => (w, s)
  | .const c => (c.width, c.isSigned)
  | .neg x | .shl x _ => ws x
  | .add l r | .sub l r | .mul l r => (max (ws l).1 (ws r).1, (ws l).2 && (ws r).2)
  | .sum _ w s | .cast _ _ _ w s => (w, s)

/-- `csp_leaf_fit`: a sub-result computed at `(iw, is)`, converted to `(cw, cs)` and extended into a
context keeps its value when it lies in both ranges. -/
def leafFit (l : Lin) (iw : Nat) (is : Bool) (cw : Nat) (cs : Bool) (ctxW : Nat) (ctxS : Bool) : Fit :=
  let (a, b) := wsRange iw is
  let (c, d) := wsRange cw cs
  { lin := l
    lo := if cs ∧ ¬ ctxS then max (max a c) 0 else max a c
    hi := min b d
    modw := if ctxW ≤ cw then cw else 0 }

/-- `csp_lin` of a variable: an unsigned context zero-extends a signed one. -/
def varFits (v vw : Nat) (vs : Bool) (w : Nat) (s : Bool) : List Fit :=
  if vs ∧ ¬ s then [⟨Lin.var v, 0, 2 ^ 127 - 1, if w ≤ vw then vw else 0⟩] else []

mutual

/-- `csp_lin`: the linear form of an operand in the context `(w, s)`, and the fits that keep it
exact. -/
def lin [WordRead] : Ae → Nat → Bool → LinCx → Option (Lin × List Fit × LinCx)
  | .var v vw vs, w, s, cx => some (Lin.var v, varFits v vw vs w s, cx)
  | .const c, _, s, cx => do
    let raw ← WordRead.toU64 c
    return (Lin.konst (asCtx raw c.width s), [], cx)
  | .neg x, w, s, cx => do
    let (l, fits, cx) ← lin x w s cx
    return (← l.scale (-1), fits, cx)
  | .shl x k, w, s, cx =>
    if w ≤ k then some (Lin.konst 0, [], cx)
    else do
      let (l, fits, cx) ← lin x w s cx
      return (← l.scale (2 ^ k), fits, cx)
  | .add l r, w, s, cx => do
    let (x, fx, cx) ← lin l w s cx
    let (y, fy, cx) ← lin r w s cx
    return (← x.plus y 1, fx ++ fy, cx)
  | .sub l r, w, s, cx => do
    let (x, fx, cx) ← lin l w s cx
    let (y, fy, cx) ← lin r w s cx
    return (← x.plus y (-1), fx ++ fy, cx)
  | .mul l r, w, s, cx => do
    let (x, fx, cx) ← lin l w s cx
    let (y, fy, cx) ← lin r w s cx
    if x.t = [] then return (← y.scale x.k, fx ++ fy, cx)
    else if y.t = [] then return (← x.scale y.k, fx ++ fy, cx)
    else none
  | .sum terms sw ss, w, s, cx => do
    let (acc, fits, cx) ← sumLin terms sw ss (Lin.konst 0) cx
    match cx.carry acc sw ss with
    | some (v, cx) =>
      -- A fit that only guards a reinterpretation at `sw` bits or more cannot change the sum.
      return (Lin.var v, (fits.filter fun f => f.modw < sw) ++ varFits v sw ss w s, cx)
    | none => return (acc, fits ++ [leafFit acc sw ss sw ss w s], cx)
  | .cast inner iw is cw cs, w, s, cx => do
    let (l, fits, cx) ← lin inner iw is cx
    return (l, fits ++ [leafFit l iw is cw cs w s], cx)

/-- The terms of a reduction added up. -/
def sumLin [WordRead] : List Ae → Nat → Bool → Lin → LinCx → Option (Lin × List Fit × LinCx)
  | [], _, _, acc, cx => some (acc, [], cx)
  | t :: ts, w, s, acc, cx => do
    let (l, fits, cx) ← lin t w s cx
    let (acc, more, cx) ← sumLin ts w s (← acc.plus l 1) cx
    return (acc, fits ++ more, cx)

end

mutual

/-- The value of an operand in a context of `w` bits and signedness `s`: every leaf is extended with
its sign when the context is signed, and every operation wraps at the width of the context. -/
def value (a : Nat → Int) : Ae → Nat → Bool → Int
  | .var v vw vs, w, s => wrapValue vw (vs && s) (a v) % 2 ^ w
  | .const c, w, s => wrapValue c.width (c.isSigned && s) c.val % 2 ^ w
  | .neg x, w, s => (-value a x w s) % 2 ^ w
  | .add l r, w, s => (value a l w s + value a r w s) % 2 ^ w
  | .sub l r, w, s => (value a l w s - value a r w s) % 2 ^ w
  | .mul l r, w, s => value a l w s * value a r w s % 2 ^ w
  | .shl x k, w, s => value a x w s * 2 ^ k % 2 ^ w
  | .sum terms sw ss, w, s => wrapValue sw (ss && s) (total a terms sw ss) % 2 ^ w
  | .cast inner iw is cw cs, w, s =>
    wrapValue cw (cs && s) (wrapValue iw is (value a inner iw is)) % 2 ^ w

/-- The sum of the values of some operands in one context. -/
def total (a : Nat → Int) : List Ae → Nat → Bool → Int
  | [], _, _ => 0
  | t :: ts, w, s => value a t w s + total a ts w s

end

mutual

/-- An operand as the translation makes it, under values of its variables: widths of at most 64 bits,
known constants, variables within their types, a signed context for signed operands only, a cast
computed at no less than its width unless it only extends a variable. -/
def Ok (a : Nat → Int) : Ae → Prop
  | .var v w s => 0 < w ∧ w ≤ 64 ∧ (wsRange w s).1 ≤ a v ∧ a v ≤ (wsRange w s).2
  | .const c => c.Constant
  | .neg x | .shl x _ => Ok a x
  | .add l r | .sub l r | .mul l r => Ok a l ∧ Ok a r
  | .sum terms w s => 0 < w ∧ w ≤ 64 ∧ allOk a terms s
  | .cast inner iw is w _ =>
    Ok a inner ∧ (is = true → (ws inner).2 = true) ∧ 0 < w ∧ w ≤ 64 ∧ (w ≤ iw ∨ ∃ v, inner = .var v iw is)

/-- The terms of a signed reduction are signed. -/
def allOk (a : Nat → Int) : List Ae → Bool → Prop
  | [], _ => True
  | t :: ts, s => Ok a t ∧ (s = true → (ws t).2 = true) ∧ allOk a ts s

end

/-- No shift of the operand itself is by an amount that `w` bits lose and `W` bits do not. -/
def KeepsShifts (w W : Nat) : Ae → Prop
  | .neg x => KeepsShifts w W x
  | .shl x k => (k < w ∨ W ≤ k) ∧ KeepsShifts w W x
  | .add l r | .sub l r | .mul l r => KeepsShifts w W l ∧ KeepsShifts w W r
  | .var .. | .const _ | .sum .. | .cast .. => True

/-- The operand with every shift of its own by `w` or more read as zero. -/
def dropShifts (w : Nat) : Ae → Ae
  | .neg x => .neg (dropShifts w x)
  | .shl x k =>
    if w ≤ k then .const ⟨(ws x).1, 0, 0, (ws x).2, false, false⟩ else .shl (dropShifts w x) k
  | .add l r => .add (dropShifts w l) (dropShifts w r)
  | .sub l r => .sub (dropShifts w l) (dropShifts w r)
  | .mul l r => .mul (dropShifts w l) (dropShifts w r)
  | e => e

end Ae

/-- `csp_add_carries`: the sum is its variable `v` and a multiple, counted by the variable after `v`, of
`2 ^ w`. -/
def carryLin (acc : Lin) (w v : Nat) : Option Lin := Lin.plus ⟨[(v, -1), (v + 1, -2 ^ w)], 0⟩ acc 1

/-- The relation added for a sum holds, and its variable is within its type. -/
def Carried (a : Nat → Int) (acc : Lin) (w : Nat) (s : Bool) (v : Nat) : Prop :=
  (∃ l, carryLin acc w v = some l ∧ l.at a = 0) ∧ (wsRange w s).1 ≤ a v ∧ a v ≤ (wsRange w s).2

/-- The relations added for the sums of a translation hold. -/
def LinCx.Tied (a : Nat → Int) (cx : LinCx) : Prop :=
  (∀ e ∈ cx.made, Carried a e.1 e.2.1 e.2.2.1 e.2.2.2) ∧
    ∀ (i : Nat) c, cx.carries[i]? = some c → Carried a c.acc c.w c.s (cx.base + 2 * i)

end Xezim
