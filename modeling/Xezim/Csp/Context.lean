import Xezim.Lib.Splice
import Xezim.Csp.ShiftRel

/-! Expressions evaluated in a context, and the relations that become function nodes: a variable compared
with an expression of other variables. -/

namespace Xezim

open Splice

/-- An expression as its context sees it. A leaf is evaluated on its own: a variable, a constant, a select,
a concatenation, a comparison, a call. An operator takes what its operands are worth in the context; a
shift has one such operand, its amount being evaluated on its own. -/
inductive SvExpr
  | leaf (w : Nat) (s : Bool) (read : (Nat → Int) → Nat × Nat)
  | unary (f : (Nat → Int) → Nat → Bool → Nat × Nat → Nat × Nat) (x : SvExpr)
  | binary (f : (Nat → Int) → Nat → Bool → Nat × Nat → Nat × Nat → Nat × Nat) (l r : SvExpr)

/-- A plane of `w` bits extended to `W` bits, with copies of its top bit when signed. -/
def extendPlane (x w W : Nat) (s : Bool) : Nat := if s ∧ x.testBit (w - 1) then x + (2 ^ W - 2 ^ w) else x

/-- Both planes cut to `W` bits. -/
def cutPlanes (W : Nat) (p : Nat × Nat) : Nat × Nat := (p.1 % 2 ^ W, p.2 % 2 ^ W)

/-- Planes of that many bits are left alone. -/
theorem cutPlanes_self {W : Nat} {p : Nat × Nat} (val : p.1 < 2 ^ W) (xz : p.2 < 2 ^ W) : cutPlanes W p = p :=
  Prod.ext (Nat.mod_eq_of_lt val) (Nat.mod_eq_of_lt xz)

namespace SvExpr

/-- Self-determined width and signedness. -/
def ws : SvExpr → Nat × Bool
  | .leaf w s _ => (w, s)
  | .unary _ x => ws x
  | .binary _ l r => (max (ws l).1 (ws r).1, (ws l).2 && (ws r).2)

/-- The value and unknown planes of an expression in a context of `W` bits and signedness `S`. -/
def planes (a : Nat → Int) : SvExpr → Nat → Bool → Nat × Nat
  | .leaf w _ read, W, S => cutPlanes W (extendPlane (read a).1 w W S, extendPlane (read a).2 w W S)
  | .unary f x, W, S => cutPlanes W (f a W S (planes a x W S))
  | .binary f l r, W, S => cutPlanes W (f a W S (planes a l W S) (planes a r W S))

/-- The value of an expression in a context. -/
def inContext (a : Nat → Int) (e : SvExpr) (W : Nat) (S : Bool) : Value :=
  ⟨W, (planes a e W S).1, (planes a e W S).2, S, false, false⟩

/-- The self-determined value of an expression. -/
def self (a : Nat → Int) (e : SvExpr) : Value := e.inContext a e.ws.1 e.ws.2

end SvExpr

/-- All bits of a variable as an expression: with its own signedness, or unsigned where they are selected. -/
def SvExpr.var (csp : Csp) (v : Nat) (s : Bool) : SvExpr :=
  .leaf (csp.var v).width s fun a => (bitsAt (a v) (csp.var v).width, 0)

/-- An expression is worth as many bits as its context has. -/
theorem SvExpr.fits (a : Nat → Int) (e : SvExpr) (W : Nat) (S : Bool) : (e.inContext a W S).Fits := by
  have cut (p : Nat × Nat) : (cutPlanes W p).1 < 2 ^ W ∧ (cutPlanes W p).2 < 2 ^ W :=
    ⟨Nat.mod_lt _ (Nat.two_pow_pos W), Nat.mod_lt _ (Nat.two_pow_pos W)⟩
  cases e with
  | leaf => exact cut _
  | unary => exact cut _
  | binary => exact cut _

/-- A relation of two expressions in the context of both: unknown when unknown bits leave it open. -/
def svCompare (op : RelOp) (a : Nat → Int) (l r : SvExpr) : Option Bool :=
  let W := max l.ws.1 r.ws.1
  let S := l.ws.2 && r.ws.2
  let x := l.inContext a W S
  let y := r.inContext a W S
  let differ := (x.val ^^^ y.val) ||| x.xz ||| y.xz ≠ x.xz ||| y.xz
  match op with
  | .caseEq => some (x.val = y.val ∧ x.xz = y.xz)
  | .caseNeq => some (¬ (x.val = y.val ∧ x.xz = y.xz))
  | op =>
    if x.xz = 0 ∧ y.xz = 0 then some (op.holds (x.number S) (y.number S))
    else if differ then (if op = .eq then some false else if op = .neq then some true else none)
    else none

/-- The relation a negated one asks for. -/
def RelOp.negated : RelOp → RelOp
  | .eq | .caseEq => .neq
  | .neq | .caseNeq => .eq
  | .lt => .geq
  | .leq => .gt
  | .gt => .leq
  | .geq => .lt

/-- One side of a relation as `csp_rel_fun` sees it: the variable it is when it is one, and the variables it
reads when it reads solver variables only. A part-select of a whole signed variable is that variable too, but as an
expression it is unsigned. -/
structure FunSide (csp : Csp) where
  expr : SvExpr
  plain : Option Nat
  reads : Option (List Nat)
  plain_expr : ∀ v, plain = some v → ∃ s, expr = .var csp v s ∧ (s = true → (csp.var v).signed = true)

variable {csp : Csp}

/-- A side that is a variable the other one, which reads some, does not read. -/
def FunSide.pick (x e : FunSide csp) : Option Nat := do
  let v ← x.plain
  let d ← e.reads
  if d ≠ [] ∧ v ∉ d then some v else none

/-- `csp_rel_fun`: the node of `x op e`, either way round, and the expression the variable is compared
with. -/
def cspRelFun (op : RelOp) (left right : FunSide csp) (other whole : Nat) (neg : Bool) :
    Option (Node × SvExpr) :=
  let op := if neg then op.negated else op
  match left.pick right with
  | some v => some (.fn v op other whole neg, right.expr)
  | none => (right.pick left).map fun v => (.fn v op.flip other whole neg, left.expr)

/-- `(e >> slo) & mask`, the bits of an expression one segment is compared with. -/
def segExpr (e : SvExpr) (slo sw : Nat) : SvExpr :=
  .binary (fun _ _ _ x m => (x.1 &&& m.1, x.2 &&& m.1)) (.unary (fun _ _ _ x => (x.1 >>> slo, x.2 >>> slo)) e)
    (.leaf (max sw 1) false fun _ => (ones (min sw 64), 0))

/-- `csp_wide_fun` of a whole wide variable with the given segments: one node a segment. -/
def cspWideFun (v : Nat) (segs : List (Nat × Nat × Nat)) (e : SvExpr) (reads : Option (List Nat))
    (other : Nat → Nat) (whole : Nat) : Option (List (Node × SvExpr)) := do
  let deps ← reads
  if deps = [] ∨ segs.any fun s => s.2.2 ∈ deps ∨ s.2.2 = v then none
  else return segs.map fun s => (.fn s.2.2 .eq (other s.2.2) whole false, segExpr e s.1 s.2.1)

/-- A known value that one machine word holds when it is unsigned. -/
def SvExpr.Known (e : SvExpr) (a : Nat → Int) : Prop :=
  (e.self a).xz = 0 ∧ (e.ws.2 = false → (e.self a).val < 2 ^ 64)

/-- A function node, the expression its variable is compared with, the relation it is made for, and where the
other side of that relation is known, as wide as the context and of one signedness with it and the variable. -/
inductive FunMade (csp : Csp) :
    Node → SvExpr → ((Nat → Int) → Option Bool) → ((Nat → Int) → Prop) → Prop
  | rel {op op' : RelOp} {left right : FunSide csp} {var other whole : Nat} {neg : Bool} {e : SvExpr}
      (made : cspRelFun op left right other whole neg = some (.fn var op' other whole neg, e)) :
      FunMade csp (.fn var op' other whole neg) e (fun a => svCompare op a left.expr right.expr)
        (fun a => (csp.var var).width ≤ e.ws.1 ∧ e.ws.2 = (csp.var var).signed ∧
          (left.expr.ws.2 && right.expr.ws.2) = (csp.var var).signed ∧ e.Known a)
  | wide {op : RelOp} {v : Nat} {s : Bool} {segs : List (Nat × Nat × Nat)} {read : (Nat → Int) → Nat × Nat}
      {e : SvExpr} {reads : Option (List Nat)} {other : Nat → Nat} {whole : Nat}
      {nodes : List (Node × SvExpr)} {n : Node} {e' : SvExpr} (equality : op = .eq ∨ op = .caseEq)
      (bits : ∀ a, (read a).1 < 2 ^ (csp.var v).width ∧ (read a).2 = 0 ∧
        ∀ s ∈ segs, window (read a).1 s.1 s.2.1 = bitsAt (a s.2.2) s.2.1)
      (shape : ∀ s ∈ segs, 0 < s.2.1 ∧ s.2.1 ≤ 64 ∧ s.2.1 ≤ (csp.var v).width ∧
        csp.var s.2.2 = ⟨true, s.2.1, false⟩)
      (made : cspWideFun v segs e reads other whole = some nodes) (member : (n, e') ∈ nodes) :
      FunMade csp n e' (fun a => svCompare op a (.leaf (csp.var v).width s read) e)
        (fun a => (csp.var v).width ≤ e.ws.1 ∧ e.ws.2 = false ∧ (e.self a).xz = 0)

section Numbers

/-- A relation and its negation. -/
theorem RelOp.holds_negated (op : RelOp) (x y : Int) : op.negated.holds x y = !op.holds x y := by
  rw [Bool.eq_iff_iff]
  cases op <;> simp [RelOp.negated, RelOp.holds]

/-- Patterns of one width that are the same number are the same pattern. -/
theorem number_inj {c d : Value} {S : Bool} (width : c.width = d.width) (fitsC : c.val < 2 ^ c.width)
    (fitsD : d.val < 2 ^ d.width) (same : c.number S = d.number S) : c.val = d.val := by
  have cast : ((2 ^ d.width : Nat) : Int) = 2 ^ d.width := by push_cast; rfl
  unfold Value.number at same
  rw [width] at same fitsC
  rw [← cast] at same
  generalize 2 ^ d.width = m at *
  split at same <;> split at same <;> omega

/-- A relation of known expressions is one of their numbers in the context. -/
theorem svCompare_known {op : RelOp} {a : Nat → Int} {l r : SvExpr} {W : Nat} {S : Bool}
    (width : max l.ws.1 r.ws.1 = W) (sign : (l.ws.2 && r.ws.2) = S)
    (knownL : (l.inContext a W S).xz = 0) (knownR : (r.inContext a W S).xz = 0) :
    svCompare op a l r = some (op.holds ((l.inContext a W S).number S) ((r.inContext a W S).number S)) := by
  unfold svCompare
  dsimp only
  rw [width, sign]
  -- Known patterns are identical when their numbers are equal.
  have identical : (l.inContext a W S).val = (r.inContext a W S).val ↔
      (l.inContext a W S).number S = (r.inContext a W S).number S := by
    constructor
    · intro val
      unfold Value.number
      rw [val]
      rfl
    · exact number_inj rfl (l.fits a W S).1 (r.fits a W S).1
  cases op <;> simp [knownL, knownR, identical, RelOp.holds]

/-- A variable in a context of its own signedness that is no narrower is its number. -/
theorem var_number {csp : Csp} {a : Nat → Int} {v W : Nat} (s : Bool) (pos : 0 < (csp.var v).width)
    (narrow : (csp.var v).width ≤ 64) (wide : (csp.var v).width ≤ W)
    (range : (wsRange (csp.var v).width (csp.var v).signed).1 ≤ a v ∧
      a v ≤ (wsRange (csp.var v).width (csp.var v).signed).2) :
    ((SvExpr.var csp v s).inContext a W (csp.var v).signed).xz = 0 ∧
      ((SvExpr.var csp v s).inContext a W (csp.var v).signed).number (csp.var v).signed = a v := by
  obtain ⟨k, width⟩ : ∃ k, (csp.var v).width = k + 1 := ⟨(csp.var v).width - 1, by omega⟩
  have clamped : min (max (k + 1) 1) 64 = k + 1 := by omega
  have wider : 2 ^ (k + 1) ≤ 2 ^ W := Nat.pow_le_pow_right (by decide) (width ▸ wide)
  have double : 2 ^ (k + 1) = 2 * 2 ^ k := by ring
  have cast : ((2 ^ W : Nat) : Int) = 2 ^ W := by push_cast; rfl
  have castK : ((2 ^ k : Nat) : Int) = 2 ^ k := by push_cast; rfl
  have castK1 : ((2 ^ (k + 1) : Nat) : Int) = 2 ^ (k + 1) := by push_cast; rfl
  have bits : (bitsAt (a v) (k + 1) : Int) = a v % 2 ^ (k + 1) := by
    unfold bitsAt
    exact Int.toNat_of_nonneg (Int.emod_nonneg _ (by positivity))
  have top (x : Nat) (small : x < 2 ^ (k + 1)) : x.testBit k = true ↔ 2 ^ k ≤ x := by
    rw [Nat.testBit_eq_decide_div_mod_eq, decide_eq_true_eq]
    have : x / 2 ^ k < 2 := Nat.div_lt_of_lt_mul (by omega)
    rw [Nat.mod_eq_of_lt this]
    have := Nat.div_lt_iff_lt_mul (Nat.two_pow_pos k) (x := x) (y := 1)
    omega
  have below : bitsAt (a v) (k + 1) < 2 ^ (k + 1) := bitsAt_lt _ _
  rw [width] at range
  simp only [SvExpr.var, SvExpr.inContext, SvExpr.planes, width, Value.number]
  unfold extendPlane
  simp only [Nat.zero_testBit, Bool.false_eq_true, and_false, if_false, Nat.add_sub_cancel, top _ below]
  cases signed : (csp.var v).signed with
  | false =>
    simp only [signed, wsRange, clamped, Bool.false_eq_true, if_false, false_and] at range ⊢
    rw [Int.emod_eq_of_lt range.1 (by omega)] at bits
    rw [cutPlanes_self (below.trans_le wider) (Nat.two_pow_pos W)]
    exact ⟨rfl, bits⟩
  | true =>
    simp only [signed, wsRange, clamped, if_true, true_and, Nat.add_sub_cancel] at range ⊢
    rw [← castK] at range
    by_cases negative : a v < 0
    · -- A negative number is its pattern less the modulus, however far it is extended.
      have wrapped : a v % 2 ^ (k + 1) = a v + 2 ^ (k + 1) := by
        rw [← Int.add_emod_right, Int.emod_eq_of_lt] <;> rw [← castK1] <;> omega
      rw [wrapped, ← castK1] at bits
      have high : 2 ^ k ≤ bitsAt (a v) (k + 1) := by omega
      rw [if_pos high, cutPlanes_self (by dsimp only; omega) (Nat.two_pow_pos W), ← cast, if_pos (by dsimp only; omega)]
      exact ⟨rfl, by dsimp only; omega⟩
    · rw [Int.emod_eq_of_lt (by omega) (by rw [← castK1]; omega)] at bits
      have low : ¬ 2 ^ k ≤ bitsAt (a v) (k + 1) := by omega
      rw [if_neg low, cutPlanes_self (below.trans_le wider) (Nat.two_pow_pos W), if_neg (by dsimp only; omega)]
      exact ⟨rfl, bits⟩

end Numbers

end Xezim
