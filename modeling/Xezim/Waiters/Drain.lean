import Mathlib.Data.List.Sort
import Xezim.Value

/-! The parked event waiters: which fire, and what one drain does with each. -/

namespace Xezim.Waiters

/-- `EdgeKind`. -/
inductive EdgeKind
  | posedge
  | negedge
  | anyEdge
  | lsbEdge
  deriving DecidableEq, Repr

/-- Bit 0 of a value given by the low words of its planes is one. -/
def lsbOne (b : Word × Word) : Bool := b.1.getLsbD 0 && !b.2.getLsbD 0

/-- Bit 0 is zero. -/
def lsbZero (b : Word × Word) : Bool := !b.1.getLsbD 0 && !b.2.getLsbD 0

/-- `lsb_edge_fires`. -/
def lsbEdgeFires (edge : EdgeKind) (prev cur : Word × Word) : Bool :=
  let pos := (lsbZero prev && !lsbZero cur) || (!lsbOne prev && lsbOne cur)
  let neg := (lsbOne prev && !lsbOne cur) || (!lsbZero prev && lsbZero cur)
  match edge with
  | .posedge => pos
  | .negedge => neg
  | .anyEdge => cur.1 ≠ prev.1 || cur.2 ≠ prev.2
  | .lsbEdge => pos || neg

/-- `value_event_fires`. -/
def valueEventFires (edge : EdgeKind) (prev cur : Value) : Bool :=
  if edge = .anyEdge then cur ≠ prev else lsbEdgeFires edge prev.planes cur.planes

/-- `SensitivityId`, with what the drain reads of it; `E` is the type of expressions. -/
structure SensitivityId (E : Type) where
  signalId : Nat
  edge : EdgeKind
  iff : Option E
  valueOf : Option E
  wakeRank : Nat
  cell : Bool

/-- One entry of the parallel vectors of an `EventWaiter`: the term, the value its signal is compared with,
and the value its expression is. -/
structure Term (E : Type) where
  sid : SensitivityId E
  capturedPrev : Word × Word
  capturedPrevWide : Option Value
  armBits : Word × Word
  guardPrev : Option Value

/-- `WaiterValueCtx`. -/
structure WaiterValueCtx where
  scope : Option String
  cells : Bool

/-- `EventWaiter`; `K` is the type of continuations. -/
structure EventWaiter (E K : Type) where
  pid : Nat
  parkedTime : Nat
  terms : List (Term E)
  continuation : K
  remainingEvents : Nat
  isClocking : Bool
  valueCtx : Option WaiterValueCtx

/-- What a drain reads of the simulator. The expressions are evaluated under a hint that resolves their
names. -/
structure State (E : Type) where
  isPackedId : Nat → Bool
  packedRaw : Nat → Word × Word
  signalTable : Nat → Value
  signalWidth : Nat → Nat
  nameResolveHint : Option String
  /-- The process has a parked context. -/
  parkedContext : Nat → Bool
  processContextIsDefault : Bool
  evalExpr : Option String → E → Value
  isTrue : Value → Bool
  evalWaiterCondition : Option String → Nat → E → Bool
  span : E → Nat
  exprSelectsArrayCell : E → Bool
  collectSelectedCells : Option String → E → List Nat

namespace State

variable {E K : Type} (st : State E)

/-- `term_raw_bits`. -/
def termRawBits (id : Nat) : Word × Word := if st.isPackedId id then st.packedRaw id else (st.signalTable id).planes

/-- `term_wide_value`. -/
def termWideValue (id : Nat) : Option Value :=
  if !st.isPackedId id && 64 < st.signalWidth id then some (st.signalTable id) else none

/-- `edge_fires_prev`. -/
def edgeFiresPrev (id : Nat) (edge : EdgeKind) (prev : Word × Word) (prevWide : Option Value) : Bool :=
  match edge, prevWide with
  | .anyEdge, some p =>
    if 64 < st.signalWidth id then st.signalTable id ≠ p else lsbEdgeFires edge prev (st.signalTable id).planes
  | edge, _ => lsbEdgeFires edge prev (st.signalTable id).planes

/-- `term_fires`. -/
def termFires (t : Term E) : Bool :=
  let edge := if t.sid.valueOf.isSome then .anyEdge else t.sid.edge
  if st.isPackedId t.sid.signalId then lsbEdgeFires edge t.capturedPrev (st.termRawBits t.sid.signalId)
  else st.edgeFiresPrev t.sid.signalId edge t.capturedPrev t.capturedPrevWide

/-- The hint the terms of a waiter are evaluated under. -/
def hint (w : EventWaiter E K) : Option String :=
  match w.valueCtx with
  | some ctx => ctx.scope
  | none => st.nameResolveHint

/-- The guard of a term lets it count; that of a clocking event is judged later. -/
def guardOk (w : EventWaiter E K) (t : Term E) : Bool :=
  match t.sid.iff with
  | none => true
  | some g =>
    if w.isClocking then true
    else if !st.parkedContext w.pid && st.processContextIsDefault then st.isTrue (st.evalExpr (st.hint w) g)
    else st.evalWaiterCondition (st.hint w) w.pid g

/-- The value of a term's expression moved as its edge asks. -/
def valueOk (w : EventWaiter E K) (t : Term E) : Bool :=
  match t.sid.valueOf, t.guardPrev with
  | some e, some prev => valueEventFires t.sid.edge prev (st.evalExpr (st.hint w) e)
  | _, _ => true

/-- The loop over the terms of a waiter: whether one moved, and the first that counts. -/
def scanTerms (w : EventWaiter E K) : Bool → List (Term E) → Bool × Option (Term E)
  | moved, [] => (moved, none)
  | moved, t :: terms =>
    if st.termFires t then
      if st.guardOk w t && st.valueOk w t then (true, some t) else scanTerms w true terms
    else scanTerms w moved terms

/-- The baseline of a term taken from the current value of its signal. -/
def refresh (t : Term E) : Term E :=
  { t with
    capturedPrev := st.termRawBits t.sid.signalId
    capturedPrevWide := (st.termWideValue t.sid.signalId).or t.capturedPrevWide }

/-- One source a distinct event expression in `resolve_cell_terms`. -/
def cellSources (sources : List (SensitivityId E)) : List (SensitivityId E) → List (SensitivityId E)
  | [] => sources
  | t :: terms =>
    match t.valueOf with
    | none => cellSources sources terms
    | some e =>
      if sources.any fun s => s.valueOf.any fun se => st.span se = st.span e then cellSources sources terms
      else if t.cell || st.exprSelectsArrayCell e then cellSources (sources ++ [t]) terms
      else cellSources sources terms

/-- The cells an expression selects now, those not watched yet added. -/
def addCells (src : SensitivityId E) (e : E) (terms : List (SensitivityId E)) (cells : List Nat) :
    List (SensitivityId E) :=
  cells.foldl (fun terms id =>
    if terms.any fun t => t.signalId = id && t.valueOf.any fun te => st.span te = st.span e then terms
    else terms ++ [⟨id, src.edge, src.iff, some e, src.wakeRank, true⟩]) terms

/-- `resolve_cell_terms`. -/
def resolveCellTerms (hint : Option String) (terms : List (SensitivityId E)) : List (SensitivityId E) :=
  (st.cellSources [] terms).foldl (fun terms src =>
    match src.valueOf with
    | none => terms
    | some e => st.addCells src e terms (st.collectSelectedCells hint e)) (terms.filter fun t => !t.cell)

/-- A term as it is armed now. -/
def arm (sid : SensitivityId E) : Term E :=
  ⟨sid, st.termRawBits sid.signalId, st.termWideValue sid.signalId, st.termRawBits sid.signalId, none⟩

/-- The cells part of `rebase_value_terms`: the leading terms that are no cells stay, the others are looked up
again. -/
def rebaseCells (hint : Option String) (terms : List (Term E)) : List (Term E) :=
  let fixed := (terms.takeWhile fun t => !t.sid.cell).length
  let sids := st.resolveCellTerms hint (terms.map Term.sid)
  let kept := List.zipWith (fun t sid => { t with sid }) (terms.take fixed) (sids.take fixed)
  kept ++ (sids.drop fixed).map st.arm

/-- The loop of `rebase_value_terms` over the expressions; `last` is the one evaluated last. -/
def rebaseValues (hint : Option String) (last : Option (Nat × Value)) : List (Term E) → List (Term E)
  | [] => []
  | t :: terms =>
    match t.sid.valueOf with
    | none => t :: rebaseValues hint last terms
    | some e =>
      match last with
      | some (sp, v) =>
        if sp = st.span e then { t with guardPrev := some v } :: rebaseValues hint last terms
        else
          let v := st.evalExpr hint e
          { t with guardPrev := some v } :: rebaseValues hint (some (st.span e, v)) terms
      | none =>
        let v := st.evalExpr hint e
        { t with guardPrev := some v } :: rebaseValues hint (some (st.span e, v)) terms

/-- `rebase_value_terms`. -/
def rebaseValueTerms (w : EventWaiter E K) : EventWaiter E K :=
  let terms := if w.valueCtx.any WaiterValueCtx.cells then st.rebaseCells (st.hint w) w.terms else w.terms
  { w with terms := st.rebaseValues (st.hint w) none terms }

end State

/-- What a drain goes through: the waiters that stay, the continuations to run with their ranks from the first
nonzero one on, and the lists kept for the Reactive region. -/
structure Drain (E K : Type) where
  eventWaiters : List (EventWaiter E K)
  triggeredConts : List (Nat × K)
  ranks : List Nat
  deferredClockingConts : List (Nat × K)
  deferredClockingGuarded : List (EventWaiter E K × E)

/-- `Vec::resize` with zeros. -/
def resize (ranks : List Nat) (n : Nat) : List Nat := ranks.take n ++ List.replicate (n - ranks.length) 0

namespace State

variable {E K : Type} (st : State E)

/-- The closure of the drain on one waiter. -/
def drainOne (d : Drain E K) (w : EventWaiter E K) : Drain E K :=
  let (moved, counted) := st.scanTerms w false w.terms
  match counted.bind fun t => t.sid.iff.filter fun _ => w.isClocking with
  | some g => { d with deferredClockingGuarded := d.deferredClockingGuarded ++ [(w, g)] }
  | none =>
    if counted.isSome && w.remainingEvents ≤ 1 then
      if w.isClocking then
        { d with deferredClockingConts := d.deferredClockingConts ++ [(w.pid, w.continuation)] }
      else
        let rank := (counted.map fun t => t.sid.wakeRank).getD 0
        { d with
          ranks := if rank ≠ 0 ∨ d.ranks ≠ [] then resize d.ranks d.triggeredConts.length ++ [rank] else d.ranks
          triggeredConts := d.triggeredConts ++ [(w.pid, w.continuation)] }
    else
      let w := if counted.isSome then { w with remainingEvents := w.remainingEvents - 1 } else w
      let w := { w with terms := w.terms.map st.refresh }
      let w := if moved && w.valueCtx.isSome then st.rebaseValueTerms w else w
      { d with eventWaiters := d.eventWaiters ++ [w] }

end State

/-- `order_wakeups_by_rank`, on continuations already reversed and ranks in registration order. -/
def orderWakeupsByRank {K : Type} (conts : List (Nat × K)) (ranks : List Nat) : List (Nat × K) :=
  if 1 < ranks.length ∧ ranks.any fun r => r ≠ ranks.headD 0 then
    ((ranks.reverse.zip conts).insertionSort fun p q => p.1 ≤ q.1).map Prod.snd
  else conts

/-- `drain_triggered_event_waiters`: the continuations to run, and what is left. -/
def drainTriggeredEventWaiters {E K : Type} (st : State E) (waiters : List (EventWaiter E K))
    (clockingConts : List (Nat × K)) (clockingGuarded : List (EventWaiter E K × E)) :
    List (Nat × K) × Drain E K :=
  let d := waiters.foldl st.drainOne ⟨[], [], [], clockingConts, clockingGuarded⟩
  let conts := d.triggeredConts.reverse
  (if d.ranks = [] then conts else orderWakeupsByRank conts d.ranks, d)

end Xezim.Waiters
