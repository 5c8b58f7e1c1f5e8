import Xezim.Csp.State

/-! Propagation: making one node hold under the current domains. -/

namespace Xezim

/-- What `lin <= 0` (upper) or `lin >= 0` (lower) leaves of the domain of one of its terms, when it
narrows it; `slack` is what the term may still differ by from its extreme. -/
def narrowTerm (d : Dom) (c slack : Int) (upper : Bool) : Option Dom :=
  let (a, b) := domBounds d
  let (tmin, tmax) := if 0 < c then (c * a, c * b) else (c * b, c * a)
  let r := if upper then tmin - slack else tmax - slack
  if upper = decide (0 < c) then
    let h := floorDiv r c
    if b ≤ h then none else some (domClip d (-2 ^ 127) h)
  else
    let l := ceilDiv r c
    if l ≤ a then none else some (domClip d l (2 ^ 127 - 1))

namespace Search

/-- The loop of `St::prop_bound`. -/
def propTerms (slack : Int) (upper : Bool) : List (Nat × Int) → Search → Bool × Search
  | [], s => (true, s)
  | p :: t, s =>
    match narrowTerm (s.d p.1) p.2 slack upper with
    | none => propTerms slack upper t s
    | some nd =>
      match s.set p.1 nd with
      | (true, s) => propTerms slack upper t s
      | (false, s) => (false, s)

/-- `St::prop_bound`: `lin <= 0` (upper) or `lin >= 0` (lower) by bounds. -/
def propBound (l : Lin) (upper : Bool) (s : Search) : Bool × Search :=
  let (lo, hi) := linBounds s.d l
  if (upper ∧ 0 < lo) ∨ (¬ upper ∧ hi < 0) then (false, s)
  else propTerms (if upper then lo else hi) upper l.t s

/-- `lin != 0` with at most one open term. -/
def propNe (l : Lin) (s : Search) : Bool × Search :=
  match openTerm s.d l.t l.k none with
  | none => (true, s)
  | some (rest, none) => (decide (rest ≠ 0), s)
  | some (rest, some (v, c)) =>
    if (-rest).tmod c ≠ 0 then (true, s)
    else s.set v (domMinus (s.d v) [((-rest).tdiv c, (-rest).tdiv c)])

end Search

/-- The values `x`, `x + step`, … up to `hi`; `none` when they are more than there is room for. -/
def residues (x step hi : Int) : Nat → Option (List Int)
  | 0 => if x ≤ hi then none else some []
  | room + 1 => if x ≤ hi then (residues (x + step) step hi room).map (x :: ·) else some []

/-- `csp_wrap_eq`: an equality modulo `2 ^ w` pins its one open variable to a residue. -/
def cspWrapEq (l : Lin) (w : Nat) (s : Search) : Option (Bool × Search) :=
  if w = 0 ∨ 64 < w then none
  else
    let m : Int := 2 ^ w
    match openTerm s.d l.t l.k none with
    | none => none
    | some (rest, none) => some (decide (rest % m = 0), s)
    | some (rest, some (v, c)) =>
      if c ≠ 1 ∧ c ≠ -1 then none
      else
        let r := (-rest * c) % m
        let (lo, hi) := domBounds (s.d v)
        (residues (r + ceilDiv (lo - r) m * m) m hi 8).map fun cands =>
          s.set v (domMeet (s.d v) (cands.map fun x => (x, x)))

/-- A number wrapped into the `w`-bit type of the given signedness. -/
def wrapValue (w : Nat) (s : Bool) (y : Int) : Int :=
  (wsRange w s).1 + (y - (wsRange w s).1) % 2 ^ w

/-- Newton's iteration for the inverse of an odd number modulo `2 ^ 128`. -/
def newtonInverse (a : Int) : Nat → Int
  | 0 => a
  | n + 1 =>
    let inv := newtonInverse a n
    inv * (2 - a * inv) % 2 ^ 128

/-- `i128::trailing_zeros`, at most `w`. -/
def trailingZerosUpTo (c : Int) : Nat → Nat
  | 0 => 0
  | w + 1 => if c % 2 = 0 then trailingZerosUpTo (c / 2) w + 1 else 0

/-- The values of the open variable for one target value after another: `c·x ≡ t - rest` modulo
`2 ^ w` has solutions when `2 ^ tz` divides the right side, and then `x` is fixed modulo `2 ^ (w - tz)`. -/
def wrapSolutions (rest m g mg inv lo hi : Int) : List Int → List Int → Option (List Int)
  | [], allowed => some allowed
  | t :: ts, allowed =>
    let r := (t - rest) % m
    if r % g ≠ 0 then wrapSolutions rest m g mg inv lo hi ts allowed
    else
      let x0 := r / g * inv % mg
      match residues (x0 + ceilDiv (lo - x0) mg * mg) mg hi (64 - allowed.length) with
      | none => none
      | some xs => wrapSolutions rest m g mg inv lo hi ts (allowed ++ xs)

/-- `csp_wrap_set`: keep the values of the one open variable whose wrapped result lies in `set`, or
outside it with `neg`. -/
def cspWrapSet (l : Lin) (set : Dom) (neg : Bool) (w : Nat) (sg : Bool) (s : Search) :
    Option (Bool × Search) :=
  if w = 0 ∨ 64 < w then none
  else
    let m : Int := 2 ^ w
    let (rlo, rhi) := wsRange w sg
    match openTerm s.d l.t l.k none with
    | none => none
    | some (rest, free) =>
      let target : Dom := if neg then domMinus [(rlo, rhi)] set else domClip set rlo rhi
      match free with
      | none => some (domHas target (wrapValue w sg rest), s)
      | some (v, c) =>
        let (lo, hi) := domBounds (s.d v)
        if hi < lo then some (false, s)
        else if c = 1 ∨ c = -1 then
          let (ylo, yhi) := if c = 1 then (lo + rest, hi + rest) else (rest - hi, rest - lo)
          let j0 := floorDiv (ylo - rlo) m
          let j1 := floorDiv (yhi - rlo) m
          if 8 < j1 - j0 then none
          else
            let allowed := (domValues [(j0, j1)]).flatMap fun j =>
              target.filterMap fun p =>
                let (a, b) := (max (p.1 + j * m) ylo, min (p.2 + j * m) yhi)
                if a ≤ b then some (if c = 1 then (a - rest, b - rest) else (rest - b, rest - a))
                else none
            some (s.set v (domMeet (s.d v) (domNorm allowed)))
        else if 64 < domSize target then none
        else
          let tz := trailingZerosUpTo c w
          if tz = w then some (domHas target (wrapValue w sg rest), s)
          else
            let g : Int := 2 ^ tz
            let mg : Int := m / g
            let inv := newtonInverse (c / g % mg) 7
            (wrapSolutions rest m g mg inv lo hi (domValues target) []).map fun allowed =>
              s.set v (domMeet (s.d v) (domNorm (allowed.map fun x => (x, x))))

/-- The side of `csp_wrap_rel` that is still open, narrowed by the wrapped value `k` of the other one. -/
def cspWrapSide (rel : Rel) (wr : Wrap) (delta : Int) (x : Lin) (k : Int) (left : Bool) (s : Search) :
    Option (Bool × Search) :=
  match rel with
  | .le =>
    let (rlo, rhi) := wsRange wr.w wr.s
    let r := if (wr.sg = 1) = left then (rlo, k - delta) else (k + delta, rhi)
    cspWrapSet x (if r.1 ≤ r.2 then [r] else []) false wr.w wr.s s
  | .eq | .ne =>
    let t := if left then k - wr.sg * delta else k + wr.sg * delta
    cspWrapSet x [(t, t)] (rel = .ne) wr.w wr.s s

/-- `csp_wrap_rel`: once one side of a relation is fixed, it is a set the other side's wrapped value
must lie in. -/
def cspWrapRel (l : Lin) (rel : Rel) (fits : List Fit) (wr : Wrap) (s : Search) :
    Option (Bool × Search) :=
  match fits[wr.n]?, fits[wr.n + 1]? with
  | some fa, some fb =>
    let (la, lb) := (fa.lin, fb.lin)
    if wr.w = 0 ∨ 64 < wr.w then none
    else
      let delta := l.k - wr.sg * (la.k - lb.k)
      match linValue s.d la, linValue s.d lb with
      | some a, some b =>
        some (relHolds rel (wr.sg * (wrapValue wr.w wr.s a - wrapValue wr.w wr.s b) + delta), s)
      | none, some b => cspWrapSide rel wr delta la (wrapValue wr.w wr.s b) true s
      | some a, none => cspWrapSide rel wr delta lb (wrapValue wr.w wr.s a) false s
      | none, none => none
  | _, _ => none

namespace Search

/-- A node judged by the evaluator once its source is fixed. -/
def judge (csp : Csp) (src : Nat) (neg : Bool) (s : Search) : Bool × Search :=
  if srcFixed csp s.d src then
    let (b, s) := s.evalSrc csp src
    (b != neg, s)
  else (true, s)

/-- `csp_enforce` of `Lin`. -/
def enforceLin (csp : Csp) (l : Lin) (rel : Rel) (fits : List Fit) (src : Nat) (sneg : Bool)
    (wrap : Option Wrap) (s : Search) : Bool × Search :=
  if fitsHold s.d fits then
    match rel with
    | .le => propBound l true s
    | .eq =>
      match propBound l true s with
      | (true, s) => propBound l false s
      | (false, s) => (false, s)
    | .ne => propNe l s
  else
    let wrapped := wrap.bind fun wr =>
      if fitsHoldMod s.d (fits.take wr.n) wr.w then
        match rel with
        | .eq => cspWrapEq l wr.w s
        | _ => cspWrapRel l rel fits wr s
      else none
    wrapped.getD (judge csp src sneg s)

/-- `csp_enforce` of `In`. -/
def enforceInside (csp : Csp) (l : Lin) (set : Dom) (neg : Bool) (fits : List Fit) (src : Nat)
    (wrap : Option Wrap) (s : Search) : Bool × Search :=
  if fitsHold s.d fits then
    -- One variable with coefficient 1 or -1 is narrowed exactly. The moved ends are `i128` numbers in the source; here
    -- they do not wrap, and what is said of the domains asks for sets that stay in range.
    match l.t.head?.filter fun p => l.t.length = 1 ∧ (p.2 = 1 ∨ p.2 = -1) with
    | some (v, c) =>
      let allowed : Dom :=
        if c = 1 then set.map fun p => (p.1 - l.k, p.2 - l.k)
        else domNorm (set.map fun p => (l.k - p.2, l.k - p.1))
      s.set v (if neg then domMinus (s.d v) allowed else domMeet (s.d v) allowed)
    | none =>
      let (lo, hi) := linBounds s.d l
      if lo = hi then (domHas set lo != neg, s)
      else if neg ∨ set = [] then (decide (set ≠ []) || neg, s)
      else
        let (smin, smax) := domBounds set
        if 2 ^ 100 < |l.k - smax| ∨ 2 ^ 100 < |l.k - smin| then (true, s)
        else
          match propBound { l with k := l.k - smax } true s with
          | (true, s) => propBound { l with k := l.k - smin } false s
          | (false, s) => (false, s)
  else
    let wrapped := wrap.bind fun wr =>
      if fitsHoldMod s.d (fits.take wr.n) wr.w then cspWrapSet l set neg wr.w wr.s s else none
    wrapped.getD (judge csp src neg s)

/-- The loop of `AllDiff` over the open variables: the values taken are removed, and what is left
is pooled. -/
def allDiffLoop (taken : Dom) : List Nat → Nat → List (Int × Int) → Search → Bool × Search
  | [], free, pool, s => (free = 0 || free ≤ domSize (domNorm pool), s)
  | v :: vs, free, pool, s =>
    if (domFixed (s.d v)).isSome then allDiffLoop taken vs free pool s
    else
      match s.set v (domMinus (s.d v) taken) with
      | (true, s) => allDiffLoop taken vs (free + 1) (pool ++ s.d v) s
      | (false, s) => (false, s)

/-- `csp_enforce` of `AllDiff`. -/
def enforceAllDiff (vs : List Nat) (s : Search) : Bool × Search :=
  let fixed := vs.filterMap fun v => domFixed (s.d v)
  let taken := domNorm (fixed.map fun x => (x, x))
  if domSize taken < fixed.length then (false, s) else allDiffLoop taken vs 0 [] s

/-- `csp_enforce` of `Pop`. -/
def enforcePop (x c w : Nat) (s : Search) : Bool × Search :=
  match domFixed (s.d x) with
  | some v =>
    let n : Int := countOnes (bitsAt v w)
    s.set c (domMeet (s.d c) [(n, n)])
  | none =>
    if domSize (s.d x) ≤ 64 then
      let xs := (domValues (s.d x)).filter fun v => domHas (s.d c) (countOnes (bitsAt v w))
      match s.set x (domNorm (xs.map fun v => (v, v))) with
      | (true, s) =>
        s.set c (domNorm (xs.map fun v =>
          ((countOnes (bitsAt v w) : Int), (countOnes (bitsAt v w) : Int))))
      | (false, s) => (false, s)
    else
      let (lo, hi) := domBounds (s.d x)
      if 0 ≤ lo then
        let h := hi.toNat
        let cmax : Int := max (countOnes h) (Nat.size h - 1)
        s.set c (domClip (s.d c) (if 0 < lo then 1 else 0) cmax)
      else (true, s)

/-- The candidate loop of `csp_eval_forward`: the values for which the source holds. -/
def forwardLoop (csp : Csp) (src : Nat) (neg : Bool) (v : Nat) :
    List Int → List Int → Search → List Int × Search
  | [], keep, s => (keep, s)
  | x :: xs, keep, s =>
    let (b, s) := (s.write csp v x).evalSrc csp src
    forwardLoop csp src neg v xs (if b != neg then keep ++ [x] else keep) s

/-- The one open dependency of a source. -/
def openDep (d : Nat → Dom) (deps : List Nat) : Option Nat :=
  match deps.filter fun v => (domFixed (d v)).isNone with
  | [v] => some v
  | _ => none

/-- `csp_eval_forward`: one variable still open, of a few values, keeps those the evaluator
accepts. -/
def evalForward (csp : Csp) (src : Nat) (neg : Bool) (s : Search) : Bool × Search :=
  if (csp.src src).stale then (true, s)
  else
    match openDep s.d (csp.src src).deps with
    | none => (true, s)
    | some v =>
      let n := domSize (s.d v)
      if 64 < n ∨ csp.wide v ∨ csp.segs v then (true, s)
      else if ((csp.auxBase v).any fun b => (csp.src src).deps.contains b.1) then (true, s)
      else
        let (keep, s) := forwardLoop csp src neg v ((List.range n).map (domNth (s.d v))) []
          { s with work := s.work + n }
        s.set v (domNorm (keep.map fun x => (x, x)))

/-- The value a `Fun` relation compares its variable with: the sign and width cases of
`csp_enforce`. -/
def funOperand [WordRead] (var : CspVar) (low : Int) (c : Value) : Option Int :=
  match var.signed, c.isSigned with
  | false, false => (WordRead.toU64 c).map fun x : Nat => (x : Int)
  | true, true => if c.width ≤ 64 then some c.signedRead else none
  | true, false => if 0 ≤ low ∧ var.width ≤ c.width then (WordRead.toU64 c).map fun x : Nat => (x : Int) else none
  | false, true => if c.width ≤ var.width then (WordRead.toU64 c).map fun x : Nat => (x : Int) else none

/-- `i128::MAX / 4`. -/
def big : Int := (2 ^ 127 - 1) / 4

/-- What `var op k` leaves of a domain. -/
def funNarrow (op : RelOp) (d : Dom) (k : Int) : Dom :=
  match op with
  | .eq | .caseEq => domMeet d [(k, k)]
  | .neq | .caseNeq => domMinus d [(k, k)]
  | .lt => domClip d (-big) (k - 1)
  | .leq => domClip d (-big) k
  | .gt => domClip d (k + 1) big
  | .geq => domClip d k big

/-- What `var op other` leaves of a domain when `other` takes one of a set of values. -/
def funRangeNarrow (op : RelOp) (d set : Dom) : Option Dom :=
  let (lo, hi) := domBounds set
  match op with
  | .eq | .caseEq => some (domMeet d set)
  | .lt => some (domClip d (-big) (hi - 1))
  | .leq => some (domClip d (-big) hi)
  | .gt => some (domClip d (lo + 1) big)
  | .geq => some (domClip d lo big)
  | .neq | .caseNeq => none

/-- The combinations of values `csp_fun_range` walks through, the first variable fastest. -/
def combinations : List (List Int) → List (List Int)
  | [] => [[]]
  | xs :: rest => (combinations rest).flatMap fun tail => xs.map (· :: tail)

/-- The combination loop of `csp_fun_range`; `none` when a value cannot be compared. -/
def funRangeLoop [WordRead] (csp : Csp) (var : CspVar) (other : Nat) :
    List (List Int) → List Int → Search → Option (List Int) × Search
  | [], vals, s => (some vals, s)
  | combo :: combos, vals, s =>
    let deps := (csp.src other).deps
    let s := (deps.zip combo).foldl (fun s p => s.write csp p.1 p.2) s
    let c := (csp.src other).value s.store
    if c.xz ≠ 0 ∨ 64 < c.width ∨
        (var.signed ≠ c.isSigned ∧ ¬ (var.signed = false ∧ c.width ≤ var.width)) then (none, s)
    else
      let k : Int := if c.isSigned then c.signedRead else ((WordRead.toU64 c).getD 0 : Nat)
      funRangeLoop csp var other combos (vals ++ [k]) s

/-- `csp_fun_range`: `var` is narrowed by the values the combinations of the inputs of `other` still
give. -/
def funRange [WordRead] (csp : Csp) (var : Nat) (op : RelOp) (other : Nat) (s : Search) : Bool × Search :=
  let deps := (csp.src other).deps
  if deps = [] ∨ 4 < deps.length ∨ var ∈ deps then (true, s)
  else
    let n := (deps.map fun v => domSize (s.d v)).prod
    if 256 < n then (true, s)
    else
      match funRangeLoop csp (csp.var var) other (combinations (deps.map fun v => domValues (s.d v)))
          [] { s with work := s.work + n } with
      | (none, s) => (true, s)
      | (some vals, s) =>
        match funRangeNarrow op (s.d var) (domNorm (vals.map fun k => (k, k))) with
        | none => (true, s)
        | some nd => s.set var nd

/-- `csp_enforce` of `Fun`. -/
def enforceFun [WordRead] (csp : Csp) (var : Nat) (op : RelOp) (other whole : Nat) (neg : Bool) (s : Search) :
    Bool × Search :=
  if srcFixed csp s.d other = false then
    if (csp.src other).stale ∨ csp.hasSubs = false then (true, s) else funRange csp var op other s
  else if srcFixed csp s.d whole then judge csp whole neg s
  else
    let (c, s) := s.evalValue csp other
    if c.xz ≠ 0 then (false, s)
    else
      match funOperand (csp.var var) (domBounds (s.d var)).1 c with
      | none => (true, s)
      | some k => s.set var (funNarrow op (s.d var) k)

end Search

/-- The status loop of `csp_enforce` over `Or`: how many alternatives are open and the last of them;
`none` as soon as one holds. -/
def cspOrScan (csp : Csp) : List Node → Nat → Nat → Nat → Search → Option (Nat × Nat) × Search
  | [], _, nOpen, last, s => (some (nOpen, last), s)
  | n :: ns, i, nOpen, last, s =>
    match cspStatus csp n s with
    | (some true, s) => (none, s)
    | (some false, s) => cspOrScan csp ns (i + 1) nOpen last s
    | (none, s) => cspOrScan csp ns (i + 1) (nOpen + 1) i s

mutual

/-- `csp_enforce`: make a node hold under the current domains; false on a conflict. -/
def cspEnforce [WordRead] (csp : Csp) : Node → Search → Bool × Search
  | .true, s => (true, s)
  | .false, s => (false, s)
  | .lin l rel fits src sneg wrap, s => s.enforceLin csp l rel fits src sneg wrap
  | .inside l set neg fits src wrap, s => s.enforceInside csp l set neg fits src wrap
  | .allDiff vs, s => s.enforceAllDiff vs
  | .pop x c w, s => s.enforcePop x c w
  | .eval src neg, s =>
    if srcFixed csp s.d src then s.judge csp src neg else s.evalForward csp src neg
  | .fn var op other whole neg, s => s.enforceFun csp var op other whole neg
  | .and ns, s => cspEnforceAll csp ns s
  | .or ns, s =>
    match cspOrScan csp ns 0 0 0 s with
    | (none, s) => (true, s)
    | (some (0, _), s) => (false, s)
    | (some (1, i), s) => cspEnforceAt csp ns i s
    | (some _, s) => (true, s)
  | .ite cond ncond thn els, s =>
    match cspStatus csp cond s with
    | (some true, s) => cspEnforce csp thn s
    | (some false, s) => cspEnforce csp els s
    | (none, s) =>
      match cspStatus csp thn s with
      | (some false, s) => cspEnforce csp ncond s
      | (_, s) =>
        match cspStatus csp els s with
        | (some false, s) => cspEnforce csp cond s
        | (_, s) => (true, s)

/-- `csp_enforce` over `And`. -/
def cspEnforceAll [WordRead] (csp : Csp) : List Node → Search → Bool × Search
  | [], s => (true, s)
  | n :: ns, s =>
    match cspEnforce csp n s with
    | (true, s) => cspEnforceAll csp ns s
    | (false, s) => (false, s)

/-- `csp_enforce` of one alternative of a list. -/
def cspEnforceAt [WordRead] (csp : Csp) : List Node → Nat → Search → Bool × Search
  | [], _, s => (true, s)
  | n :: _, 0, s => cspEnforce csp n s
  | _ :: ns, i + 1, s => cspEnforceAt csp ns i s

end

end Xezim
