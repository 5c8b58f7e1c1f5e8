import Xezim.Csp.Find

/-! Soft constraints: the problem each set of enabled preferences translates to, one verified run on the
object, and the greedy pass over the preferences. -/

namespace Xezim

/-- `ConstraintItem`, with its translation: a hard item is a node with the dists and carry nodes it adds and
the acceptance judge's check, and a conditional item has its condition both ways. -/
inductive ConstraintItem
  | hard (node : Node) (carries : List Node) (dists : List Dist) (check : Store → Bool)
  | soft (item : ConstraintItem)
  | block (items : List ConstraintItem)
  | ifElse (cond ncond : Node) (holds : Store → Bool) (thn els : ConstraintItem)

/-- `ClassConstraint`: whether it is the inline one, how far up the class it is declared, where, and
its items. -/
structure ClassConstraint where
  inline : Bool
  depth : Option Nat
  start : Nat
  items : List ConstraintItem

/-- The largest `usize`. -/
def usizeMax : Nat := 2 ^ 64 - 1

/-- `soft_rank` of the items of a constraint. -/
def ClassConstraint.softRank (con : ClassConstraint) : Nat × Nat :=
  if con.inline then (0, usizeMax)
  else (min (con.depth.getD (usizeMax - 1) + 1) usizeMax, con.start)

/-- What `csp_translate` fills in besides the variables: `soft_priority`, the nodes and the dists. -/
structure Translated where
  priority : List (Nat × Nat × Nat)
  nodes : List Node
  dists : List Dist

/-- A node unless it is `True`. -/
def Node.unlessTrue : Node → List Node
  | .true => []
  | n => [n]

/-- `csp_if`. -/
def cspIf (cond ncond thn els : Node) : Node :=
  match cond, thn, els with
  | .true, thn, _ => thn
  | .false, _, els => els
  | _, .true, .true => .true
  | _, _, _ => .ite cond ncond thn els

mutual

/-- `csp_item`: the node of an item. A preference that is not enabled is translated too and its node
dropped. -/
def cspItem (rank : Nat × Nat) (enabled : Option (List Nat)) :
    ConstraintItem → Translated → Node × Translated
  | .hard node carries dists _, t =>
    (node, { t with nodes := t.nodes ++ carries, dists := t.dists ++ dists })
  | .soft item, t =>
    let id := t.priority.length
    let (node, u) := cspItem rank enabled item
      { t with priority := t.priority ++ [(rank.1, rank.2, id)] }
    if enabled.all fun ids => decide (id ∈ ids) then (node, u)
    else (.true, { u with dists := u.dists.take t.dists.length })
  | .block items, t =>
    let (ns, u) := cspItems rank enabled items t
    (cspAnd ns, u)
  | .ifElse cond ncond _ thn els, t =>
    let (n, t) := cspItem rank enabled thn t
    let (m, t) := cspItem rank enabled els t
    (cspIf cond ncond n m, t)

/-- The item loop over a block. -/
def cspItems (rank : Nat × Nat) (enabled : Option (List Nat)) :
    List ConstraintItem → Translated → List Node × Translated
  | [], t => ([], t)
  | item :: items, t =>
    let (n, t) := cspItem rank enabled item t
    let (ns, t) := cspItems rank enabled items t
    (n.unlessTrue ++ ns, t)

end

mutual

/-- `rand_item_accept`: a preference never rejects a trial. -/
def ConstraintItem.accepts (o : Store) : ConstraintItem → Bool
  | .hard _ _ _ check => check o
  | .soft _ => true
  | .block items => acceptsAll o items
  | .ifElse _ _ holds thn els => if holds o then accepts o thn else accepts o els

/-- Every item of a list is accepted. -/
def ConstraintItem.acceptsAll (o : Store) : List ConstraintItem → Bool
  | [] => true
  | item :: items => accepts o item && acceptsAll o items

end

/-- A class to randomize: its variables and sources with the nodes that link segments, and its
constraints. -/
structure RandClass where
  base : Csp
  constraints : List ClassConstraint
  /-- Sub-objects' arrays were sized by the caller. -/
  subDynamic : Bool
  /-- `csp_aux`. -/
  aux : Csp → Aux

namespace RandClass

variable (cls : RandClass)

/-- The item loop of `csp_translate` over one constraint. -/
def translateItems (rank : Nat × Nat) (enabled : Option (List Nat)) :
    List ConstraintItem → Translated → Translated
  | [], t => t
  | item :: items, t =>
    let (n, t) := cspItem rank enabled item t
    translateItems rank enabled items { t with nodes := t.nodes ++ n.unlessTrue }

/-- `csp_translate` with the given preferences enabled, or all of them. -/
def translate (enabled : Option (List Nat)) : Translated :=
  cls.constraints.foldl (fun t con => translateItems con.softRank enabled con.items t)
    ⟨[], cls.base.nodes, []⟩

/-- The problem with the given preferences enabled. -/
def csp (enabled : Option (List Nat)) : Csp :=
  { cls.base with nodes := (cls.translate enabled).nodes, dists := (cls.translate enabled).dists }

/-- `rand_items_accept`. -/
def accepts (o : Store) : Bool :=
  cls.constraints.all fun con => ConstraintItem.acceptsAll o con.items

/-- Whether a preference comes before another: a nearer class first, then the one declared later. -/
def prior (p q : Nat × Nat × Nat) : Prop :=
  p.1 < q.1 ∨ p.1 = q.1 ∧ (q.2.1 < p.2.1 ∨ q.2.1 = p.2.1 ∧ q.2.2 ≤ p.2.2)

instance : DecidableRel prior := fun _ _ => inferInstanceAs (Decidable (_ ∨ _))

/-- The preferences in the order of the greedy pass. -/
def priority : List (Nat × Nat × Nat) := (cls.translate none).priority.insertionSort prior

end RandClass

/-- The simulator as a solve finds it: the object and how many random numbers were drawn. -/
structure SolverSim where
  store : Store
  draws : Nat

/-- The chunk loop of `csp_draw_free`: a random value of `w` bits, 64 at a time. -/
def drawWide (rng : Nat → Nat) : Nat → Nat → Nat → Nat × Nat
  | 0, _, draws => (0, draws)
  | fuel + 1, w, draws =>
    if w = 0 then (0, draws)
    else
      let (rest, draws') := drawWide rng fuel (w - 64) (draws + 1)
      (rng draws % 2 ^ min w 64 + 2 ^ 64 * rest, draws')

/-- `csp_draw_free`. -/
def cspDrawFree (csp : Csp) (rng : Nat → Nat) (sim : SolverSim) : SolverSim :=
  csp.wideFree.foldl (fun sim p =>
    let (x, draws) := drawWide rng p.2 p.2 sim.draws
    { sim with store := Function.update sim.store p.1 (x, 0), draws }) sim

/-- The state a search leaves. -/
def Search.sim (s : Search) : SolverSim := ⟨s.store, s.draws⟩

/-- The variables `csp_run` writes: all but the wide ones, which are written through their segments. -/
def Csp.stored (csp : Csp) : List Nat :=
  (List.range csp.vars.length).filter fun v => !csp.wide v

/-- `csp_run`: a solution is written and verified. -/
def cspRun [WordRead] (csp : Csp) (aux : Aux) (accepts : Store → Bool) (rng : Nat → Nat) (sim : SolverSim) :
    CspOutcome × SolverSim :=
  match cspFind csp aux rng sim.store sim.draws with
  | (some out, s) => (out, s.sim)
  | (none, s) =>
    let s := csp.stored.foldl (fun t v => t.write csp v (s.solution v)) s
    if accepts s.store then (.sat, if csp.drawFree then cspDrawFree csp rng s.sim else s.sim)
    else (.gaveUp, s.sim)

/-- How a solve ends: besides its outcome and the state it leaves, the preferences it retained and, for
its account only, the state the last accepted run left. -/
structure Sized where
  outcome : CspOutcome
  sim : SolverSim
  retained : Option (List Nat)
  accepted : SolverSim

namespace RandClass

variable (cls : RandClass) (rng : Nat → Nat)

/-- `csp_run` with the given preferences enabled. -/
def run [WordRead] (enabled : Option (List Nat)) (sim : SolverSim) : CspOutcome × SolverSim :=
  cspRun (cls.csp enabled) (cls.aux (cls.csp enabled)) cls.accepts rng sim

/-- The preference loop of `rand_csp_solve_sized`. -/
def greedy [WordRead] : List Nat → List Nat → SolverSim → SolverSim → Sized
  | [], enabled, sim, accepted => ⟨.sat, sim, some enabled, accepted⟩
  | id :: ids, enabled, sim, accepted =>
    match cls.run rng (some (id :: enabled)) sim with
    | (.sat, sim) => greedy ids (id :: enabled) sim sim
    | (.unsat, sim) => greedy ids enabled sim accepted
    | (other, sim) => ⟨other, sim, some (id :: enabled), accepted⟩

/-- `rand_csp_solve_sized` on a translated class. -/
def solveSized [WordRead] (sim : SolverSim) : Sized :=
  match cls.run rng none sim with
  | (out, after) =>
    if cls.subDynamic ∧ out = .unsat then ⟨.gaveUp, after, none, sim⟩
    else if out ≠ .unsat ∨ cls.priority = [] then ⟨out, after, none, after⟩
    else
      match cls.run rng (some []) after with
      | (.sat, hard) => cls.greedy rng (cls.priority.map fun p => p.2.2) [] hard hard
      | (other, hard) => ⟨other, hard, some [], after⟩

end RandClass

end Xezim
