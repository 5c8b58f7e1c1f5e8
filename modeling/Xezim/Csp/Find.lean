import Mathlib.Data.Nat.Choose.Basic
import Xezim.Csp.Enforce

/-! The search: propagation to a fixpoint, random choices, backtracking and restarts. -/

namespace Xezim

/-- `NODE_BUDGET`: decisions plus backtracks, over every restart. -/
def nodeBudget : Nat := 40000

/-- `WORK_BUDGET`: constraint executions allowed in one solve. -/
def workBudget : Nat := 1000000

/-- `EST_BUDGET`: propagation work allowed for weighing values. -/
def estBudget : Nat := 200000

/-- `SIZE_TOP`, the largest size of a dynamic array, and `SIZE_OPEN`. -/
def sizeTop : Int := 2 ^ 20

/-- `SIZE_OPEN`: the sizes drawn above the lower bound of a size left open above. -/
def sizeOpen : Int := 64

/-- `Aux`: the tables that steer the choice of variables and values. -/
structure Aux where
  dists : Nat → List Nat
  preds : Nat → List Nat
  segHi : Nat → List Nat
  composite : Nat → Bool
  guardVar : Nat → Bool
  popC : Nat → Option Nat
  popX : Nat → Option Nat

/-- The nodes that read each variable. -/
def cspWatch (csp : Csp) (v : Nat) : List Nat :=
  (List.range csp.nodes.length).filter fun i => v ∈ (csp.nodes.getD i .true).deps csp

/-- `csp_watchers`. -/
def cspWatchers (csp : Csp) (vars : List Nat) : List Nat :=
  (List.range csp.nodes.length).filter fun i => vars.any fun v => i ∈ cspWatch csp v

/-- Queue what is not queued yet. -/
def enqueue (queue new : List Nat) : List Nat :=
  new.foldl (fun queue i => if i ∈ queue then queue else queue ++ [i]) queue

/-- The loop of `csp_propagate`, with how often each node ran. -/
def propagateLoop [WordRead] (csp : Csp) (stall : Nat) :
    Nat → List Nat → (Nat → Nat) → Search → Option Bool × Search
  | 0, _, _, s => (none, s)
  | _ + 1, [], _, s => (some true, s)
  | fuel + 1, i :: queue, runs, s =>
    -- A node re-run far more often than any chain needs: the branch is cut, not refuted.
    if stall < runs i + 1 then (some false, { s with cut := true })
    else if workBudget ≤ s.work + 1 then (none, { s with work := s.work + 1 })
    else
      match cspEnforce csp (csp.nodes.getD i .true) { s with work := s.work + 1, dirty := [] } with
      | (false, s) => (some false, s)
      | (true, s) =>
        propagateLoop csp stall fuel (s.dirty.foldl (fun q v => enqueue q (cspWatch csp v)) queue)
          (Function.update runs i (runs i + 1)) { s with dirty := [] }

/-- `csp_propagate`: `some false` on a conflict, `none` when the work budget is gone. -/
def cspPropagate [WordRead] (csp : Csp) (start : List Nat) (s : Search) : Option Bool × Search :=
  propagateLoop csp (1000 + 2 * csp.vars.length) workBudget (enqueue [] start) (fun _ => 0) s

/-- A domain replaced and its readers propagated. -/
def cspTry [WordRead] (csp : Csp) (v : Nat) (nd : Dom) (s : Search) : Option Bool × Search :=
  let s := ({ s with dirty := [] }.set v nd).2
  cspPropagate csp (cspWatchers csp s.dirty) { s with dirty := [] }

namespace Search

/-- The guard loop of `csp_dist_state`: whether every guard holds and whether one is open. -/
def guardLoop (csp : Csp) : List Node → Bool → Bool → Search → (Bool × Bool) × Search
  | [], all, isOpen, s => ((all, isOpen), s)
  | g :: gs, all, isOpen, s =>
    match cspStatus csp g s with
    | (some true, s) => guardLoop csp gs all isOpen s
    | (some false, s) => ((false, isOpen), s)
    | (none, s) => guardLoop csp gs false true s

/-- `csp_dist_state`: the dist in force, and whether some dist has an open guard. -/
def distState (csp : Csp) : List Nat → Bool → Search → (Option Nat × Bool) × Search
  | [], isOpen, s => ((none, isOpen), s)
  | i :: is, isOpen, s =>
    match guardLoop csp (csp.dists.getD i default).guards true isOpen s with
    | ((true, isOpen), s) => ((some i, isOpen), s)
    | ((false, isOpen), s) => distState csp is isOpen s

/-- The best candidate of `csp_pick_var` so far: its rank, domain size and index, the ties with it
and the first composite variable. -/
structure Pick where
  best : Option (Nat × Nat × Nat)
  ties : Nat
  composite : Option Nat

/-- The loop of `csp_pick_var`. -/
def pickVarLoop (csp : Csp) (aux : Aux) (rng : Nat → Nat) :
    List Nat → Pick → Search → Pick × Search
  | [], p, s => (p, s)
  | v :: vs, p, s =>
    if (domFixed (s.d v)).isSome then pickVarLoop csp aux rng vs p s
    else if aux.composite v then
      pickVarLoop csp aux rng vs { p with composite := p.composite.or (some v) } s
    else
      let isOpen (u : Nat) : Bool := (domFixed (s.d u)).isNone
      let blocked := (aux.preds v).any isOpen || (aux.segHi v).any isOpen
      let tier : Nat × Search :=
        if aux.dists v = [] then (1, s)
        else
          match distState csp (aux.dists v) false s with
          | ((some _, _), s) => (0, s)
          | ((none, true), s) => (2, s)
          | ((none, false), s) => (1, s)
      let s := tier.2
      let rank := blocked.toNat * 3 + tier.1
      let n := domSize (s.d v)
      match p.best with
      | none => pickVarLoop csp aux rng vs { p with best := some (rank, n, v), ties := 0 } s
      | some (br, bn, _) =>
        if br < rank ∨ (br = rank ∧ bn < n) then pickVarLoop csp aux rng vs p s
        else if br = rank ∧ bn = n then
          let (k, s) := s.draw rng (p.ties + 2)
          pickVarLoop csp aux rng vs { p with
            best := if k = 0 then some (rank, n, v) else p.best, ties := p.ties + 1 } s
        else pickVarLoop csp aux rng vs { p with best := some (rank, n, v), ties := 0 } s

/-- `csp_pick_var`. -/
def pickVar (csp : Csp) (aux : Aux) (rng : Nat → Nat) (s : Search) : Option Nat × Search :=
  let (p, s) := pickVarLoop csp aux rng (List.range csp.vars.length) ⟨none, 0, none⟩ s
  ((p.best.map fun b => b.2.2).or p.composite, s)

/-- The item of a weighed list a random number below the total weight falls in; past the end it is
the last one. -/
def weighed {α : Type} : List (α × Nat) → Nat → Option α
  | [], _ => none
  | [p], _ => some p.1
  | p :: q :: rest, r => if r < p.2 then some p.1 else weighed (q :: rest) (r - p.2)

/-- A draw by the dist in force: an item by its weight among those the domain still meets, then one of
its values. -/
def pickDist (csp : Csp) (aux : Aux) (rng : Nat → Nat) (v : Nat) (s : Search) :
    Option Int × Search :=
  if aux.dists v = [] then (none, s)
  else
    match distState csp (aux.dists v) false s with
    | ((none, _), s) => (none, s)
    | ((some i, _), s) =>
      let live := (csp.dists.getD i default).items.filterMap fun item =>
        let part := domClip (s.d v) item.1 item.2.1
        if part = [] then none else some (part, item.2.2)
      let total := (live.map Prod.snd).sum
      if total = 0 then (none, s)
      else
        let (r, s) := s.draw rng total
        match weighed live r with
        | none => (none, s)
        | some part =>
          let (k, s) := s.draw rng (domSize part)
          (some (domNth part k), s)

/-- `csp_pop_count`: a count of ones from a domain, weighed by the values that have it. -/
def popCount (rng : Nat → Nat) (d : Dom) (w : Nat) (s : Search) : Option Int × Search :=
  let w := min w 64
  let cand := (domValues (domClip d 0 w)).map fun n => (n, w.choose n.toNat)
  let total := (cand.map Prod.snd).sum
  if cand = [] ∨ total = 0 then (none, s)
  else
    let (r, s) := s.draw rng total
    (weighed cand r, s)

/-- The loop of `csp_pop_draw`: `k` positions taken from a list at random. -/
def popBits (rng : Nat → Nat) : Nat → List Nat → Search → Nat × Search
  | 0, _, s => (0, s)
  | _ + 1, [], s => (0, s)
  | k + 1, p :: pos, s =>
    let (j, s) := s.draw rng (pos.length + 1)
    let taken := (p :: pos).getD j p
    -- The position swapped away takes the place of the one that was drawn.
    let (bits, s) := popBits rng k (if j = 0 then pos else pos.set (j - 1) p) s
    (2 ^ taken ||| bits, s)

/-- `csp_pop_draw`: a value with `n` ones among its low `span` bits. -/
def popDraw (rng : Nat → Nat) (w span n : Nat) (signed : Bool) (s : Search) : Int × Search :=
  let w := min w 64
  let (bits, s) := popBits rng n (List.range (min span w)) s
  (if signed ∧ 0 < w ∧ bits.testBit (w - 1) then (bits : Int) - 2 ^ w else bits, s)

/-- The number of ones to give a counted variable: its count, or a draw while that is open. -/
def pickCount (rng : Nat → Nat) (var : CspVar) (c : Nat) (s : Search) : Option Int × Search :=
  match domFixed (s.d c) with
  | some n => (some n, s)
  | none => popCount rng (s.d c) var.width s

/-- The tries of a counted variable: a value with as many ones as its count. -/
def pickPop (rng : Nat → Nat) (var : CspVar) (v c : Nat) : Nat → Search → Option Int × Search
  | 0, s => (none, s)
  | tries + 1, s =>
    match pickCount rng var c s with
    | (none, s) => (none, s)
    | (some n, s) =>
      let (lo, hi) := domBounds (s.d v)
      let span := if 0 ≤ lo then min (Nat.size hi.toNat) var.width else var.width
      if n < 0 ∨ (span : Int) < n then (none, s)
      else
        let (x, s) := s.popDraw rng var.width span n.toNat var.signed
        if domHas (s.d v) x then (some x, s) else pickPop rng var v c tries s

/-- The value loop of `csp_weigh`: each value is tried and undone; `none` when the work budget is
gone, else whether some value survived. -/
def weighLoop [WordRead] (csp : Csp) (v : Nat) : List Int → Bool → Search → Option Bool × Search
  | [], live, s => (some live, s)
  | x :: xs, live, s =>
    let (r, t) := cspTry csp v [(x, x)] s
    let t := { t.undo s.trail.length with
      estWork := t.estWork + (t.work - s.work), work := s.work }
    match r with
    | none => (none, t)
    | some b => weighLoop csp v xs (live || b) t

/-- `csp_weigh`: a value drawn by the solutions it leaves. The weights are estimates: any value may
be drawn once some value survives its propagation. -/
def weigh [WordRead] (csp : Csp) (rng : Nat → Nat) (v : Nat) (s : Search) : Option Int × Search :=
  match weighLoop csp v (domValues (s.d v)) false s with
  | (some true, s) =>
    let (k, s) := s.draw rng (domSize (s.d v))
    (some (domNth (s.d v) k), s)
  | (_, s) => (none, s)

/-- A uniform draw from a domain, which panics on an empty one. -/
def drawFrom (rng : Nat → Nat) (d : Dom) (s : Search) : Option Int × Search :=
  if domSize d = 0 then (none, s)
  else
    let (k, s) := s.draw rng (domSize d)
    (some (domNth d k), s)

/-- The first of two ways of picking a value that yields one. -/
def orPick (first second : Search → Option Int × Search) (s : Search) : Option Int × Search :=
  match first s with
  | (some x, s) => (some x, s)
  | (none, s) => second s

/-- `csp_pick_val`: by the dist in force, by the ones it counts, near the lower bound of an open size,
by weighing, else uniformly. -/
def pickVal [WordRead] (csp : Csp) (aux : Aux) (rng : Nat → Nat) (v : Nat) (s : Search) :
    Option Int × Search :=
  orPick (pickDist csp aux rng v)
    (orPick (fun s =>
        match aux.popX v with
        | some w => popCount rng (s.d v) w s
        | none => (none, s))
      (orPick (fun s =>
          match aux.popC v with
          | some c => pickPop rng (csp.var v) v c 64 s
          | none => (none, s))
        fun s =>
          if (domBounds (s.d v)).2 = sizeTop ∧ v ∈ csp.sizes then
            let lo := (domBounds (s.d v)).1
            s.drawFrom rng (domClip (s.d v) lo (lo + sizeOpen - 1))
          else
            orPick (fun s =>
                if aux.guardVar v ∧ domSize (s.d v) ≤ 64 ∧ s.estWork < estBudget then
                  s.weigh csp rng v
                else (none, s))
              (fun s => s.drawFrom rng (s.d v)) s)) s

end Search

/-- What backtracking ends in: no decision is left, the budget is gone, or the search goes on with the
decisions and refutation counts that are left. -/
inductive Backtrack
  | exhausted
  | outOfBudget
  | resume (stack : List (Nat × Int × Nat)) (refuted : List Nat)

/-- `Vec::resize` with zeros. -/
def resizeCounts (n : Nat) (l : List Nat) : List Nat := l.take n ++ List.replicate (n - l.length) 0

/-- The conflict loop of `csp_search`: undo decisions until excluding the last value leaves a
consistent state. -/
def backtrack [WordRead] (csp : Csp) :
    List (Nat × Int × Nat) → List Nat → Nat → Search → Backtrack × Nat × Search
  | [], _, budget, s => (.exhausted, budget, s)
  | (v, val, mark) :: stack, refuted, budget, s =>
    let s := s.undo mark
    let depth := stack.length
    let counts := if s.levelTries = 0 then refuted
      else (resizeCounts (depth + 1) refuted).modify depth (· + 1)
    if s.levelTries ≠ 0 ∧ s.levelTries < counts.getD depth 0 ∧ 2 < domSize (s.d v) then
      -- The level is abandoned: a cut, not a proof.
      backtrack csp stack (counts.take depth) budget { s with cut := true, levelCut := true }
    else if budget = 0 then (.outOfBudget, budget, s)
    else
      let s := { s with work := s.work + (s.d v).length, dirty := [] }
      if workBudget ≤ s.work then (.outOfBudget, budget - 1, s)
      else
        match s.set v (domMinus (s.d v) [(val, val)]) with
        | (false, s) => backtrack csp stack counts (budget - 1) s
        | (true, s) =>
          match cspPropagate csp (cspWatchers csp s.dirty) { s with dirty := [] } with
          | (some true, s) => (.resume stack counts, budget - 1, s)
          | (some false, s) => backtrack csp stack counts (budget - 1) s
          | (none, s) => (.outOfBudget, budget - 1, s)

/-- The decision loop of `csp_search`. Every decision costs budget, so the fuel never runs out
before it does. -/
def searchLoop [WordRead] (csp : Csp) (aux : Aux) (rng : Nat → Nat) :
    Nat → List (Nat × Int × Nat) → List Nat → Nat → Search → Option Bool × Nat × Search
  | 0, _, _, budget, s => (none, budget, s)
  | fuel + 1, stack, refuted, budget, s =>
    match s.pickVar csp aux rng with
    | (none, s) => (some true, budget, s)
    | (some v, s) =>
      if budget = 0 then (none, budget, s)
      else
        match s.pickVal csp aux rng v with
        | (none, s) => (none, budget - 1, s)
        | (some val, s) =>
          let mark := s.trail.length
          match cspTry csp v [(val, val)] s with
          | (some true, s) =>
            searchLoop csp aux rng fuel ((v, val, mark) :: stack) refuted (budget - 1) s
          | (none, s) => (none, budget - 1, s)
          | (some false, s) =>
            match backtrack csp ((v, val, mark) :: stack) refuted (budget - 1) s with
            | (.exhausted, budget, s) => (some false, budget, s)
            | (.outOfBudget, budget, s) => (none, budget, s)
            | (.resume stack refuted, budget, s) =>
              searchLoop csp aux rng fuel stack refuted budget s

/-- `csp_search`: `some true` solved, `some false` exhausted, `none` out of budget. -/
def cspSearch [WordRead] (csp : Csp) (aux : Aux) (rng : Nat → Nat) (budget : Nat) (s : Search) :
    Option Bool × Nat × Search :=
  match cspPropagate csp (List.range csp.nodes.length) s with
  | (some true, s) => searchLoop csp aux rng (budget + 1) [] [] budget s
  | (some false, s) => (some false, budget, s)
  | (none, s) => (none, budget, s)

/-- `CspOutcome`. -/
inductive CspOutcome
  | sat
  | unsat
  | gaveUp
  | notApplicable
  deriving DecidableEq, Repr

/-- The restart loop of `csp_find`; `none` stands for `Ok`. -/
def findLoop [WordRead] (csp : Csp) (aux : Aux) (rng : Nat → Nat) :
    Nat → (budget runBudget levelTries : Nat) → Search → Option CspOutcome × Search
  | 0, _, _, _, s => (some .gaveUp, s)
  | fuel + 1, budget, runBudget, levelTries, s =>
    let s := { s with
      d := csp.dom
      trail := []
      dirty := []
      levelTries := if csp.hasSubs then levelTries else 0
      levelCut := false }
    let run := min runBudget budget
    match cspSearch csp aux rng run s with
    | (r, left, s) =>
      let budget := budget - (run - left)
      match r with
      | some true => (none, s)
      | some false =>
        if s.levelCut ∧ 0 < budget ∧ s.work < workBudget then
          findLoop csp aux rng fuel budget (runBudget * 2) (levelTries * 2) s
        else if s.cut then (some .gaveUp, s)
        else (some .unsat, s)
      | none =>
        if budget = 0 ∨ workBudget ≤ s.work then (some .gaveUp, s)
        else findLoop csp aux rng fuel budget (runBudget * 2) levelTries s

/-- `csp_find`: search with restarts from the initial domains, on the object and the random numbers of
the simulator. -/
def cspFind [WordRead] (csp : Csp) (aux : Aux) (rng : Nat → Nat) (store : Store)
    (draws : Nat) : Option CspOutcome × Search :=
  findLoop csp aux rng (nodeBudget + 1) nodeBudget 1000 16
    { d := csp.dom, trail := [], dirty := [], work := 0, estWork := 0, cut := false,
      levelTries := 0, levelCut := false, store, draws }

/-- `St::fixed`, with zero for a variable that is not. -/
def Search.solution (s : Search) (v : Nat) : Int := (domFixed (s.d v)).getD 0

end Xezim
