import Xezim.Csp.Problem

/-! The search state of the joint solver, and what it computes from the current domains. -/

namespace Xezim

open Function

/-- `St`, and what the search changes of the simulator: the object, and how many random numbers were drawn. -/
structure Search where
  d : Nat → Dom
  /-- Replaced domains, latest first. -/
  trail : List (Nat × Dom)
  dirty : List Nat
  work : Nat
  estWork : Nat
  /-- Some branch was cut, not refuted. -/
  cut : Bool
  levelTries : Nat
  levelCut : Bool
  store : Store
  draws : Nat

/-- `St::bounds`. -/
def domBounds (d : Dom) : Int × Int :=
  (d.head?.elim 0 Prod.fst, d.getLast?.elim (-1) Prod.snd)

/-- `St::lin_bounds`. -/
def linBounds (d : Nat → Dom) (l : Lin) : Int × Int :=
  l.t.foldl (fun (acc : Int × Int) (p : Nat × Int) =>
    let (a, b) := domBounds (d p.1)
    if 0 < p.2 then (acc.1 + p.2 * a, acc.2 + p.2 * b)
    else (acc.1 + p.2 * b, acc.2 + p.2 * a)) (l.k, l.k)

/-- The bounds of a linear form stay inside a fit. -/
def fitHolds (d : Nat → Dom) (f : Fit) : Bool :=
  f.lo ≤ (linBounds d f.lin).1 && (linBounds d f.lin).2 ≤ f.hi

/-- `St::fits_hold`. -/
def fitsHold (d : Nat → Dom) (fits : List Fit) : Bool := fits.all (fitHolds d)

/-- `St::fits_hold_mod`: a fit that only guards a reinterpretation at `w` bits or more is not
needed. -/
def fitsHoldMod (d : Nat → Dom) (fits : List Fit) (w : Nat) : Bool :=
  fits.all fun f => w ≤ f.modw || fitHolds d f

/-- `St::all_fixed`. -/
def allFixed (d : Nat → Dom) (vs : List Nat) : Bool := vs.all fun v => (domFixed (d v)).isSome

/-- The constant part of a linear form over the fixed variables and its open term, when at most one
term is open. -/
def openTerm (d : Nat → Dom) : List (Nat × Int) → Int → Option (Nat × Int) →
    Option (Int × Option (Nat × Int))
  | [], rest, free => some (rest, free)
  | p :: t, rest, free =>
    match domFixed (d p.1), free with
    | some x, _ => openTerm d t (rest + p.2 * x) free
    | none, none => openTerm d t rest (some p)
    | none, some _ => none

/-- The value of a linear form whose variables are all fixed. -/
def linValue (d : Nat → Dom) (l : Lin) : Option Int :=
  l.t.foldl (fun (acc : Option Int) (p : Nat × Int) =>
    acc.bind fun x => (domFixed (d p.1)).map fun y => x + p.2 * y) (some l.k)

namespace Search

/-- `St::set`: replace a domain; false when it became empty. -/
def set (s : Search) (v : Nat) (nd : Dom) : Bool × Search :=
  if nd = s.d v then (true, s)
  else (!nd.isEmpty, { s with
    d := update s.d v nd
    trail := (v, s.d v) :: s.trail
    dirty := s.dirty ++ [v] })

/-- The loop of `St::undo`. -/
def rewind (mark : Nat) : List (Nat × Dom) → (Nat → Dom) → (Nat → Dom) × List (Nat × Dom)
  | [], d => (d, [])
  | (v, old) :: rest, d =>
    if mark < rest.length + 1 then rewind mark rest (update d v old) else (d, (v, old) :: rest)

/-- `St::undo`. -/
def undo (s : Search) (mark : Nat) : Search :=
  { s with d := (rewind mark s.trail s.d).1, trail := (rewind mark s.trail s.d).2 }

/-- A random number below a bound. -/
def draw (rng : Nat → Nat) (s : Search) (bound : Nat) : Nat × Search :=
  (rng s.draws % bound, { s with draws := s.draws + 1 })

/-- `csp_write` on the object of the search. -/
def write (csp : Csp) (s : Search) (v : Nat) (x : Int) : Search :=
  { s with store := cspWrite csp v x s.store }

/-- The fixed variables of a list are written to the object. -/
def writeFixed (csp : Csp) (s : Search) (deps : List Nat) : Search :=
  deps.foldl (fun s v =>
    match domFixed (s.d v) with
    | some x => s.write csp v x
    | none => s) s

/-- `csp_eval_src`: the evaluator judges a source with its fixed variables written first. -/
def evalSrc (csp : Csp) (s : Search) (src : Nat) : Bool × Search :=
  let s := s.writeFixed csp (csp.src src).deps
  ((csp.src src).verdict s.store, s)

/-- `csp_eval_value`. -/
def evalValue (csp : Csp) (s : Search) (src : Nat) : Value × Search :=
  let s := s.writeFixed csp (csp.src src).deps
  ((csp.src src).value s.store, s)

end Search

/-- `csp_src_fixed`. -/
def srcFixed (csp : Csp) (d : Nat → Dom) (src : Nat) : Bool :=
  !(csp.src src).stale && allFixed d (csp.src src).deps

/-- Whether a linear relation holds of a value. -/
def relHolds (rel : Rel) (x : Int) : Bool :=
  match rel with
  | .le => x ≤ 0
  | .eq => x = 0
  | .ne => x ≠ 0

/-- What the bounds of a linear form tell about its relation. -/
def relStatus (rel : Rel) (lo hi : Int) : Option Bool :=
  let eq := if lo = 0 ∧ hi = 0 then some true else if 0 < lo ∨ hi < 0 then some false else none
  match rel with
  | .le => if hi ≤ 0 then some true else if 0 < lo then some false else none
  | .eq => eq
  | .ne => eq.map (!·)

/-- What the bounds of a linear form tell about its membership in a set. -/
def insideStatus (set : Dom) (neg : Bool) (lo hi : Int) : Option Bool :=
  if lo = hi then some (domHas set lo != neg)
  else if (domClip set lo hi).isEmpty then some neg
  else if set.any fun p => p.1 ≤ lo && hi ≤ p.2 then some (!neg)
  else none

/-- `csp_status` of `Pop`. -/
def popStatus (d : Nat → Dom) (x c w : Nat) : Option Bool :=
  match domFixed (d x) with
  | none => none
  | some v =>
    if domHas (d c) (countOnes (bitsAt v w)) then (domFixed (d c)).map fun _ => true
    else some false

/-- `csp_status` of `AllDiff`. -/
def allDiffStatus (d : Nat → Dom) (vs : List Nat) : Option Bool :=
  if allFixed d vs then some (decide (vs.map fun v => (domFixed (d v)).getD 0).Nodup) else none

/-- A source judged once it is fixed. -/
def statusEval (csp : Csp) (s : Search) (src : Nat) (neg : Bool) : Option Bool × Search :=
  if srcFixed csp s.d src then
    let (b, s) := s.evalSrc csp src
    (some (b != neg), s)
  else (none, s)

mutual

/-- `csp_status`: entailed, refuted or open. -/
def cspStatus (csp : Csp) : Node → Search → Option Bool × Search
  | .true, s => (some true, s)
  | .false, s => (some false, s)
  | .lin l rel fits src sneg _, s =>
    if fitsHold s.d fits then (relStatus rel (linBounds s.d l).1 (linBounds s.d l).2, s)
    else statusEval csp s src sneg
  | .inside l set neg fits src _, s =>
    if fitsHold s.d fits then (insideStatus set neg (linBounds s.d l).1 (linBounds s.d l).2, s)
    else statusEval csp s src neg
  | .allDiff vs, s => (allDiffStatus s.d vs, s)
  | .pop x c w, s => (popStatus s.d x c w, s)
  | .eval src neg, s => statusEval csp s src neg
  | .fn _ _ _ whole neg, s => statusEval csp s whole neg
  | .and ns, s => cspStatusAll csp ns true s
  | .or ns, s => cspStatusAny csp ns true s
  | .ite cond _ thn els, s =>
    match cspStatus csp cond s with
    | (some true, s) => cspStatus csp thn s
    | (some false, s) => cspStatus csp els s
    | (none, s) =>
      let (t, s) := cspStatus csp thn s
      let (e, s) := cspStatus csp els s
      (if t.isSome ∧ t = e then t else none, s)

/-- The loop of `csp_status` over `And`. -/
def cspStatusAll (csp : Csp) : List Node → Bool → Search → Option Bool × Search
  | [], all, s => (if all then some true else none, s)
  | n :: ns, all, s =>
    match cspStatus csp n s with
    | (some false, s) => (some false, s)
    | (some true, s) => cspStatusAll csp ns all s
    | (none, s) => cspStatusAll csp ns false s

/-- The loop of `csp_status` over `Or`. -/
def cspStatusAny (csp : Csp) : List Node → Bool → Search → Option Bool × Search
  | [], allFalse, s => (if allFalse then some false else none, s)
  | n :: ns, allFalse, s =>
    match cspStatus csp n s with
    | (some true, s) => (some true, s)
    | (some false, s) => cspStatusAny csp ns allFalse s
    | (none, s) => cspStatusAny csp ns false s

end

end Xezim
