import Xezim.Csp.OperandLaws
import Xezim.Csp.SetLaws
import Xezim.Reference

/-! Relations on a right shift by a constant amount: the membership node they become, and where its
verdict is the relation's. -/

namespace Xezim

/-- The relation read from the other side. -/
def RelOp.flip : RelOp → RelOp
  | .lt => .gt
  | .leq => .geq
  | .gt => .lt
  | .geq => .leq
  | op => op

/-- One side of a relation: the parts of `base >> amt` when it is one, as far as they translate to an
operand and a constant, and its value when the whole side is a constant. -/
structure ShrSide where
  shift : Option (Option Ae × Option Value)
  konst : Option Value

/-- The shift of a relation, the constant it is compared with, and the relation read with the shift on
the left. -/
def shrParts (op : RelOp) (left right : ShrSide) :
    Option ((Option Ae × Option Value) × Option Value × RelOp) :=
  match left.shift with
  | some shift => some (shift, right.konst, op)
  | none => right.shift.map fun shift => (shift, left.konst, op.flip)

/-- The numbers `x` of at most `amax` for which `x / m` is in the relation with `c`; those equal to it
for an inequality. -/
def shrRange (op : RelOp) (c m amax : Int) : Int × Int :=
  match op with
  | .eq | .caseEq | .neq | .caseNeq => (c * m, c * m + m - 1)
  | .lt => (0, c * m - 1)
  | .leq => (0, c * m + m - 1)
  | .gt => (c * m + m, amax)
  | .geq => (c * m, amax)

/-- The same as a domain. -/
def shrSet (op : RelOp) (c m amax : Int) : Dom :=
  let lo := max (shrRange op c m amax).1 0
  let hi := min (shrRange op c m amax).2 amax
  if hi < lo then [] else [(lo, hi)]

/-- `LinCx::new`. -/
def LinCx.new (dom0 : List Dom) (base : Nat) (made : List (Lin × Nat × Bool × Nat)) : LinCx :=
  ⟨dom0, base, [], made⟩

/-- An operator that is not equal. -/
def RelOp.unequal (op : RelOp) : Bool := op = .neq ∨ op = .caseNeq

/-- `csp_shr_rel`: `(a >> k) op c` is a range of `a`; with the node come the sums to be added. -/
def cspShrRel [WordRead] (toI64 : Value → Option Int) (cx : LinCx) (op : RelOp) (left right : ShrSide) (neg : Bool)
    (src : Nat) : Option (Node × LinCx) := do
  let (shift, other, op) ← shrParts op left right
  let k ← WordRead.toU64 (← shift.2)
  let c ← toI64 (← other)
  if 64 ≤ k ∨ c < 0 then none
  else
    let a ← shift.1
    let (w, sg) := a.ws
    if sg ∨ w = 0 ∨ 64 < w then none
    else
      let amax := (wsRange w false).2
      -- The complement of the equality is folded together with the caller's negation.
      let inv := op.unequal != neg
      let (lin, fits, cx) ← a.lin w false cx
      return (.inside lin (shrSet op c (2 ^ k) amax) inv (fits ++ [⟨lin, 0, amax, 0⟩]) src none, cx)

/-- `(e >> k) op c` evaluated in the context of its sides, which an unsigned operand makes unsigned. -/
def shrCompare (a : Nat → Int) (op : RelOp) (e : Ae) (k c : Value) : Bool :=
  op.holds (e.value a (max e.ws.1 c.width) false / 2 ^ k.val) c.val

/-- A relation of a shift with a constant, in the order it is written. -/
def shrHolds (a : Nat → Int) (op : RelOp) (left right : ShrSide) : Bool :=
  match left, right with
  | ⟨some (some e, some k), _⟩, ⟨_, some c⟩ => shrCompare a op e k c
  | ⟨none, some c⟩, ⟨some (some e, some k), _⟩ =>
    op.holds c.val (e.value a (max e.ws.1 c.width) false / 2 ^ k.val)
  | _, _ => false

/-- No part of an operand leaves the width it is computed at. -/
def Ae.Fitted [WordRead] (a : Nat → Int) (cx : LinCx) (e : Ae) : Prop :=
  ∀ l fits cx', e.lin e.ws.1 false cx = some (l, fits, cx') →
    (∀ f ∈ fits, f.Holds a) ∧ 0 ≤ l.at a ∧ l.at a ≤ (wsRange e.ws.1 false).2

section Range

/-- Reading a relation from the other side. -/
theorem RelOp.holds_flip (op : RelOp) (x y : Int) : op.flip.holds x y = op.holds y x := by
  cases op <;> simp only [RelOp.flip, RelOp.holds, eq_comm, ne_eq]

/-- The set of a relation is an interval. -/
theorem ok_shrSet (op : RelOp) (c m amax : Int) : (shrSet op c m amax).Ok := by
  unfold shrSet
  dsimp only
  split
  · exact Dom.ok_nil
  · exact Dom.ok_single (by omega)

/-- The operand lies in the set exactly when the shifted operand is in the relation, for an inequality in
the equality. -/
theorem mem_shrSet {op : RelOp} {c x amax : Int} {k : Nat} (low : 0 ≤ x) (high : x ≤ amax) :
    domHas (shrSet op c (2 ^ k) amax) x = (op.holds (x / 2 ^ k) c != op.unequal) := by
  -- The set is one interval, empty when its ends cross.
  have inside : domHas (shrSet op c (2 ^ k) amax) x = true ↔
      max (shrRange op c (2 ^ k) amax).1 0 ≤ x ∧ x ≤ min (shrRange op c (2 ^ k) amax).2 amax := by
    unfold shrSet
    dsimp only
    split
    · rw [Dom.domHas_iff]
      refine ⟨fun ⟨p, member, _⟩ => (by cases member), fun _ => ?_⟩
      omega
    · rw [Dom.domHas_iff, Dom.has_single]
  rw [Bool.eq_iff_iff, inside]
  have m : (0 : Int) < 2 ^ k := by positivity
  have quotient : 0 ≤ x / 2 ^ k := Int.ediv_nonneg low m.le
  -- Comparing the product with the value is comparing the quotient with the constant.
  have lower (y : Int) : y * 2 ^ k ≤ x ↔ y ≤ x / 2 ^ k := (Int.le_ediv_iff_mul_le m).symm
  have upper (y : Int) : x < y * 2 ^ k ↔ x / 2 ^ k < y := (Int.ediv_lt_iff_lt_mul m).symm
  have next : (c + 1) * 2 ^ k = c * 2 ^ k + 2 ^ k := by ring
  have below := lower c
  have above := upper c
  have belowNext := lower (c + 1)
  have aboveNext := upper (c + 1)
  rw [next] at belowNext aboveNext
  cases op <;> simp only [shrRange, RelOp.holds, RelOp.unequal, reduceCtorEq, or_self, or_true, true_or,
    decide_true, decide_false, Bool.bne_true, Bool.bne_false, Bool.not_eq_true',
    decide_eq_true_eq, decide_eq_false_iff_not, not_not, ne_eq] <;> omega

end Range

section Settled

variable {csp : Csp} {a : Nat → Int} {s : Search}

/-- The values of fixed dependencies are written as they are. -/
theorem writeFixed_fixed (csp : Csp) {deps : List Nat} (fixed : ∀ v ∈ deps, s.d v = [(a v, a v)]) :
    -- Each fixed dependency is written with its value, in the order of the list.
    (s.writeFixed csp deps).store = csp.written deps a s.store := by
  induction deps generalizing s with
  | nil => rfl
  | cons v deps ih =>
    have here : domFixed (s.d v) = some (a v) := by
      rw [fixed v List.mem_cons_self, Dom.fixed_single]
    have step : s.writeFixed csp (v :: deps) = (s.write csp v (a v)).writeFixed csp deps := by
      unfold Search.writeFixed
      rw [List.foldl_cons, here]
    rw [step]
    exact ih (s := s.write csp v (a v)) fun u member => fixed u (List.mem_cons_of_mem _ member)

/-- The evaluator gives one verdict on a source for an assignment of its dependencies, whatever else the
object holds. -/
def Judged (csp : Csp) (src : Nat) (a : Nat → Int) (holds : Bool) : Prop :=
  (csp.src src).stale = false ∧
    ∀ o, (csp.src src).verdict (csp.written (csp.src src).deps a o) = holds

/-- The verdict on a source whose dependencies are fixed. -/
theorem evalSrc_judged {src : Nat} {holds : Bool} (judged : Judged csp src a holds)
    (fixed : ∀ v ∈ (csp.src src).deps, s.d v = [(a v, a v)]) :
    srcFixed csp s.d src = true ∧ (s.evalSrc csp src).1 = holds := by
  -- All dependencies are fixed, so the search evaluates the source itself.
  constructor
  · unfold srcFixed allFixed
    rw [judged.1, Bool.not_false, Bool.true_and, List.all_eq_true]
    intro v member
    rw [fixed v member, Dom.fixed_single]
    rfl
  · unfold Search.evalSrc
    dsimp only
    rw [writeFixed_fixed csp fixed, judged.2]

variable {l : Lin} {set : Dom} {neg : Bool} {fits : List Fit} {src : Nat}

/-- The linear reading of a membership over fixed variables succeeds exactly where it holds. -/
theorem enforceInside_fitted (okSet : set.Ok) (fixed : ∀ p ∈ l.t, s.d p.1 = [(a p.1, a p.1)])
    (fit : fitsHold s.d fits = true) :
    (s.enforceInside csp l set neg fits src none).1 = (domHas set (l.at a) != neg) := by
  unfold Search.enforceInside
  rw [if_pos fit]
  split
  · rename_i v c single
    obtain ⟨term, unit⟩ := single_term single
    obtain ⟨okAllowed, solved⟩ := solved_set (k := l.k) okSet unit
    have value : l.at a = l.k + c * a v := by simp [Lin.at, term]
    have here := fixed (v, c) (by simp [term])
    dsimp only at okAllowed solved here ⊢
    generalize (if c = 1 then set.map fun p => (p.1 - l.k, p.2 - l.k)
      else domNorm (set.map fun p => (l.k - p.2, l.k - p.1))) = allowed at *
    have point : Dom.Ok [(a v, a v)] := Dom.ok_single (le_refl _)
    have own (x : Int) : Dom.Has [(a v, a v)] x ↔ x = a v := by
      rw [Dom.has_single]
      omega
    -- What is left of the one value is that value, or nothing.
    have succeeds {nd : Dom} (ok : nd.Ok) (inside : ∀ x, nd.Has x → x = a v) :
        (s.set v nd).1 = true ↔ nd.Has (a v) := by
      constructor
      · intro done
        obtain ⟨p, member⟩ := List.exists_mem_of_ne_nil _
          (set_succeeds (by rw [here]; exact List.cons_ne_nil _ _) done)
        have has : nd.Has p.1 := ⟨p, member, le_refl _, ok.valid p member⟩
        rwa [inside p.1 has] at has
      · rintro ⟨p, member, -⟩
        unfold Search.set
        split
        · rfl
        · cases nd with
          | nil => cases member
          | cons _ _ => rfl
    rw [Bool.eq_iff_iff, value, bne_iff_ne, ne_eq]
    cases neg with
    | true =>
      rw [if_pos rfl, here, succeeds (point.minus okAllowed) fun x has =>
        (own x).mp ((Dom.has_minus point okAllowed).mp has).1, Dom.has_minus point okAllowed, solved,
        ← Dom.domHas_iff]
      simp [own]
    | false =>
      rw [if_neg Bool.false_ne_true, here, succeeds (point.meet okAllowed) fun x has =>
        (own x).mp ((Dom.has_meet point okAllowed).mp has).1, Dom.has_meet point okAllowed, solved,
        ← Dom.domHas_iff]
      simp [own]
  · have bounds : linBounds s.d l = (l.at a, l.at a) :=
      linBounds_fixed fun p member => by rw [fixed p member, Dom.fixed_single]
    rw [bounds]
    dsimp only
    rw [if_pos rfl]

/-- What a membership node says of an assignment. -/
def insideVerdict (a : Nat → Int) (l : Lin) (set : Dom) (neg : Bool) (fits : List Fit) (judged : Bool) :
    Bool :=
  if ∀ f ∈ fits, f.lo ≤ f.lin.at a ∧ f.lin.at a ≤ f.hi then domHas set (l.at a) != neg else judged != neg

/-- Over fixed variables `csp_enforce` and `csp_status` both say it. -/
theorem inside_verdict [WordRead] {holds : Bool} (okSet : set.Ok) (judged : Judged csp src a holds)
    (fixed : ∀ v ∈ (Node.inside l set neg fits src none).deps csp, s.d v = [(a v, a v)]) :
    (cspEnforce csp (.inside l set neg fits src none) s).1 = insideVerdict a l set neg fits holds ∧
      (cspStatus csp (.inside l set neg fits src none) s).1 =
        some (insideVerdict a l set neg fits holds) := by
  have onLin (p) (member : p ∈ l.t) : s.d p.1 = [(a p.1, a p.1)] := by
    refine fixed p.1 ?_
    simp only [Node.deps, List.mem_append]
    exact .inl (.inl (List.mem_map_of_mem member))
  have onFits (f) (member : f ∈ fits) (p) (term : p ∈ f.lin.t) : domFixed (s.d p.1) = some (a p.1) := by
    rw [fixed p.1 ?_, Dom.fixed_single]
    simp only [Node.deps, List.mem_append]
    exact .inl (.inr (List.mem_flatMap.mpr ⟨f, member, List.mem_map_of_mem term⟩))
  obtain ⟨fixedSrc, verdict⟩ := evalSrc_judged judged fun v member => fixed v (by
    simp only [Node.deps, List.mem_append]
    exact .inr member)
  have fit := fitsHold_fixed onFits
  unfold insideVerdict
  -- The fits decide whether the set or the source's own verdict answers.
  by_cases hold : ∀ f ∈ fits, f.lo ≤ f.lin.at a ∧ f.lin.at a ≤ f.hi
  · rw [if_pos hold]
    have fit := fit.mpr hold
    refine ⟨enforceInside_fitted okSet onLin fit, ?_⟩
    unfold cspStatus
    rw [if_pos fit, linBounds_fixed fun p member => by rw [onLin p member, Dom.fixed_single]]
    unfold insideStatus
    rw [if_pos rfl]
  · rw [if_neg hold]
    have unfit : ¬ fitsHold s.d fits = true := fun fits => hold (fit.mp fits)
    constructor
    · unfold cspEnforce Search.enforceInside
      rw [if_neg unfit]
      unfold Search.judge
      simp [fixedSrc, verdict]
    · unfold cspStatus statusEval
      rw [if_neg unfit, if_pos fixedSrc]
      dsimp only
      rw [verdict]

end Settled

section Exactness

variable {csp : Csp} {a : Nat → Int} {toI64 : Value → Option Int} {cx cx' : LinCx} {op op' : RelOp}
  {left right : ShrSide} {e : Ae} {k c : Value} {neg : Bool} {src : Nat} {n : Node} {s : Search}

/-- An operator and the same read from the other side are unequal alike. -/
theorem RelOp.unequal_flip (op : RelOp) : op.flip.unequal = op.unequal := by cases op <;> rfl

/-- A relation as it is written and as `csp_shr_rel` reads it. -/
theorem shrHolds_parts (parts : shrParts op left right = some ((some e, some k), some c, op')) :
    shrHolds a op left right = shrCompare a op' e k c ∧ op'.unequal = op.unequal := by
  -- Either side may hold the shift; the relation is flipped when it is the right one.
  obtain ⟨shift, konst⟩ := left
  obtain ⟨shift', konst'⟩ := right
  unfold shrParts at parts
  dsimp only at parts
  cases shift with
  | some shift =>
    cases parts
    exact ⟨rfl, rfl⟩
  | none =>
    cases shift' with
    | none => cases parts
    | some shift' =>
      cases parts
      exact ⟨(RelOp.holds_flip ..).symm, RelOp.unequal_flip op⟩

/-- The shape of the node `csp_shr_rel` returns. -/
theorem shrRel_node [WordRead] [LawfulWordRead] (translated : cspShrRel toI64 cx op left right neg src = some (n, cx'))
    (parts : shrParts op left right = some ((some e, some k), some c, op')) (amount : k.Constant) :
    ∃ l fits x, e.lin e.ws.1 false cx = some (l, fits, cx') ∧ toI64 c = some x ∧ 0 ≤ x ∧ e.ws.1 ≤ 64 ∧
      n = .inside l (shrSet op' x (2 ^ k.val) (wsRange e.ws.1 false).2) (op'.unequal != neg)
        (fits ++ [⟨l, 0, (wsRange e.ws.1 false).2, 0⟩]) src none := by
  -- Each test of the translation is passed in turn, and the node is read off at its end.
  unfold cspShrRel at translated
  rw [parts] at translated
  simp only [Option.bind_eq_bind, Option.bind_some] at translated
  obtain ⟨j, read, translated⟩ := Option.bind_eq_some_iff.mp translated
  obtain ⟨x, constant, translated⟩ := Option.bind_eq_some_iff.mp translated
  obtain rfl : k.val = j := Option.some.inj (amount.toU64_eq.symm.trans read)
  split at translated
  · cases translated
  · rename_i accepted
    split at translated
    · cases translated
    · obtain ⟨⟨l, fits, cx1⟩, made, translated⟩ := Option.bind_eq_some_iff.mp translated
      cases translated
      exact ⟨l, fits, x, made, constant, by omega, by omega, rfl⟩

/-- Over an assignment, and whatever the sums it is made with, the verdicts of `csp_enforce` and
`csp_status` on the node of `(e >> k) op c` are the relation's, or its negation's with `neg`, if and only if
either no part of `e` leaves its width and the relation reads the same when left shifts in `e` by its own
width or more give zero, or some part does and the relation is not an inequality. -/
theorem shrRel_right_iff [WordRead] [LawfulWordRead] (reads : ∀ c : Value, c.Constant → ∀ x, toI64 c = some x →
    0 ≤ x → x = c.val)
    (translated : cspShrRel toI64 cx op left right neg src = some (n, cx'))
    (parts : shrParts op left right = some ((some e, some k), some c, op')) (amount : k.Constant)
    (constant : c.Constant) (ok : e.Ok a) (tied : cx'.Tied a) (judged : Judged csp src a (shrHolds a op left right))
    (fixed : ∀ v ∈ n.deps csp, s.d v = [(a v, a v)]) :
    ((cspEnforce csp n s).1 = (shrHolds a op left right != neg) ↔
      (e.Fitted a cx ∧ shrCompare a op' (e.dropShifts e.ws.1) k c = shrCompare a op' e k c) ∨
        (¬ e.Fitted a cx ∧ op.unequal = false)) ∧
    ((cspStatus csp n s).1 = some (shrHolds a op left right != neg) ↔
      (e.Fitted a cx ∧ shrCompare a op' (e.dropShifts e.ws.1) k c = shrCompare a op' e k c) ∨
        (¬ e.Fitted a cx ∧ op.unequal = false)) := by
  obtain ⟨l, fits, x, made, read, nonneg, narrow, rfl⟩ := shrRel_node translated parts amount
  obtain ⟨written, unequal⟩ := shrHolds_parts (a := a) parts
  obtain rfl := reads c constant x read nonneg
  have fitted : e.Fitted a cx ↔ (∀ f ∈ fits, f.Holds a) ∧ 0 ≤ l.at a ∧
      l.at a ≤ (wsRange e.ws.1 false).2 := by
    constructor
    · exact fun fitted => fitted l fits cx' made
    · intro here l' fits' cx'' made'
      rw [made] at made'
      cases made'
      exact here
  obtain ⟨enforced, status⟩ := inside_verdict (ok_shrSet ..) judged fixed
  rw [enforced, status, Option.some.injEq, and_self, written]
  have all : (∀ f ∈ fits ++ [⟨l, 0, (wsRange e.ws.1 false).2, 0⟩], f.lo ≤ f.lin.at a ∧ f.lin.at a ≤ f.hi) ↔
      e.Fitted a cx := by
    rw [fitted, List.forall_mem_append, List.forall_mem_singleton]
    rfl
  unfold insideVerdict
  by_cases fit : e.Fitted a cx
  · -- The form is the operand's value with the lost shifts read as zero.
    obtain ⟨hold, low, high⟩ := fitted.mp fit
    have span := wsRange_span (Ae.ws_width ok).1 narrow false
    have zero : (wsRange e.ws.1 false).1 = 0 := rfl
    have value : l.at a = (e.dropShifts e.ws.1).value a (max e.ws.1 c.width) false :=
      Ae.lin_exact made tied ok (le_max_left _ _) hold ⟨low, by omega⟩
    have dropped : shrCompare a op' (e.dropShifts e.ws.1) k c = op'.holds (l.at a / 2 ^ k.val) c.val := by
      unfold shrCompare
      rw [Ae.ws_dropShifts, value]
    rw [if_pos (all.mpr fit), mem_shrSet low high, dropped]
    simp only [fit, true_and, not_true_eq_false, false_and, or_false]
    generalize op'.holds (l.at a / 2 ^ k.val) c.val = linear
    generalize shrCompare a op' e k c = truth
    cases linear <;> cases truth <;> cases op'.unequal <;> cases neg <;> decide
  · rw [if_neg fun here => fit (all.mp here), unequal]
    simp only [fit, false_and, not_false_eq_true, true_and, false_or]
    generalize shrCompare a op' e k c = truth
    cases truth <;> cases op.unequal <;> cases neg <;> decide

section HalfSum

attribute [local instance] referenceWordRead

/-- The sum of two bytes, the first two variables. -/
def byteSum : Ae := .add (.var 0 8 false) (.var 1 8 false)

/-- A problem of two bytes `x` and `y` with the one source `(x + y) >> 1 != 128`, judged at 32 bits. -/
def halfSumCsp : Csp where
  vars := [⟨false, 8, false⟩, ⟨false, 8, false⟩]
  dom0 := [[(0, 255)], [(0, 255)]]
  srcs := [⟨[0, 1], false, fun o => ((o 0).1 + (o 1).1) % 2 ^ 32 / 2 ≠ 128, fun _ => ⟨1, 0, 1, false, false, false⟩⟩]
  nodes := []
  dists := []
  hasSubs := false
  auxBase := fun _ => none
  wide := fun _ => false
  segs := fun _ => false
  sizes := []
  wideFree := []
  drawFree := false

/-- A search in which every variable is fixed. -/
def fixedSearch (a : Nat → Int) : Search where
  d := fun v => [(a v, a v)]
  trail := []
  dirty := []
  work := 0
  estWork := 0
  cut := false
  levelTries := 0
  levelCut := false
  store := fun _ => (0, 0)
  draws := 0

/-- The sides of `(x + y) >> 1 != 128`. -/
def halfSumLeft : ShrSide := ⟨some (some byteSum, some ⟨32, 1, 0, true, false, false⟩), none⟩

/-- The constant `128` of 32 bits. -/
def halfSumRight : ShrSide := ⟨none, some ⟨32, 128, 0, true, false, false⟩⟩

/-- The node it becomes. -/
def halfSumNode : Node :=
  .inside ⟨[(0, 1), (1, 1)], 0⟩ [] true [⟨⟨[(0, 1), (1, 1)], 0⟩, 0, 255, 0⟩] 0 none

/-- The evaluator reads the two bytes. -/
theorem halfSum_judged {x y : Int} (a : Nat → Int) (first : a 0 = x) (second : a 1 = y) (holds : Bool)
    (sum : decide ((bitsAt x 8 + bitsAt y 8) % 2 ^ 32 / 2 ≠ 128) = holds) :
    Judged halfSumCsp 0 a holds := by
  refine ⟨rfl, fun o => ?_⟩
  rw [← sum, ← first, ← second]
  simp [halfSumCsp, Csp.src, Csp.written, cspWrite, Csp.var]

/-- The sum is 300: `150 != 128` holds, yet both verdicts are its negation. -/
theorem halfSum_refuted :
    cspShrRel (fun c => (WordRead.toU64 c).map Nat.cast) (.new halfSumCsp.dom0 2 []) .neq halfSumLeft halfSumRight
        false 0 = some (halfSumNode, .new halfSumCsp.dom0 2 []) ∧
      byteSum.Ok (fun v => if v = 0 then 200 else 100) ∧
      Judged halfSumCsp 0 (fun v => if v = 0 then 200 else 100) true ∧
      shrHolds (fun v => if v = 0 then 200 else 100) .neq halfSumLeft halfSumRight = true ∧
      (cspEnforce halfSumCsp halfSumNode (fixedSearch fun v => if v = 0 then 200 else 100)).1 = false ∧
      (cspStatus halfSumCsp halfSumNode (fixedSearch fun v => if v = 0 then 200 else 100)).1 =
        some false := by
  refine ⟨rfl, ?_, halfSum_judged _ rfl rfl true (by decide), rfl, by decide, by decide⟩
  simp [byteSum, Ae.Ok, wsRange]

/-- Where the sum stays inside a byte, the verdict is the relation's. -/
theorem halfSum_right :
    (cspEnforce halfSumCsp halfSumNode (fixedSearch fun _ => 50)).1 =
      (shrHolds (fun _ => 50) .neq halfSumLeft halfSumRight != false) := by
  have := referenceWordRead_lawful
  have translated : cspShrRel (fun c => (WordRead.toU64 c).map Nat.cast) (.new halfSumCsp.dom0 2 []) .neq
      halfSumLeft halfSumRight false 0 = some (halfSumNode, .new halfSumCsp.dom0 2 []) := rfl
  have ok : byteSum.Ok fun _ => 50 := by simp [byteSum, Ae.Ok, wsRange]
  have tied : (LinCx.new halfSumCsp.dom0 2 []).Tied fun _ => 50 :=
    ⟨fun e member => (by cases member), fun i c here => (by simp [LinCx.new] at here)⟩
  have reads (c : Value) (constant : c.Constant) (x : Int) (read : (WordRead.toU64 c).map Nat.cast = some x)
      (_ : 0 ≤ x) : x = c.val := by
    rw [constant.toU64_eq] at read
    exact (Option.some.inj read).symm
  have amount : (⟨32, 1, 0, true, false, false⟩ : Value).Constant := ⟨by decide, by decide, rfl, by decide, rfl⟩
  have constant : (⟨32, 128, 0, true, false, false⟩ : Value).Constant :=
    ⟨by decide, by decide, rfl, by decide, rfl⟩
  -- The sum of 50 and 50 stays within its byte, so the relation is the node's own.
  refine (shrRel_right_iff reads translated rfl amount constant ok tied
    (halfSum_judged _ rfl rfl true (by decide)) fun v _ => rfl).1.mpr (.inl ⟨?_, rfl⟩)
  intro l fits cx' made
  cases made
  exact ⟨by simp [Ae.varFits], by decide, by decide⟩

end HalfSum

end Exactness

end Xezim
