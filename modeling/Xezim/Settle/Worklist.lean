import Xezim.Settle.InjectBits

/-! The pass loop of the settle: entries triggered for this pass, injected into it, or kept for the next one. -/

namespace Xezim.Settle

open Function

/-- A dependent entry of a signal, with the bits of the signal it reads. -/
structure DepEdge where
  entry : Nat
  mask : Word

/-- What `trigger_deps` reads about signals and entries. The masks change within a settle. -/
structure DepTables where
  depEdges : Nat → List DepEdge
  isAlwaysComb : Nat → Bool
  treeSig : Nat → Bool
  treeEntry : Nat → Bool
  combSelfExempt : Nat → Bool
  laneOn : Bool
  gateLane : Nat → Option Nat

/-- The lists of a settle, and the flag they share. -/
structure Worklist where
  numEntries : Nat
  triggered : Nat → Bool
  curList : List Nat
  curPos : Nat
  nextList : List Nat
  inject : InjectBits
  nextInject : Option Nat
  gateQueued : Nat → Bool
  gateQueue : List Nat
  evaluatedAny : Bool
  /-- The triggered entries of a sweep, by their level. -/
  buckets : Nat → List Nat
  /-- The entries triggered for the next sweep. -/
  nextSeed : List Nat

/-- An index is below `next_inject`, which is `usize::MAX` while nothing is injected. -/
def belowInject (i : Nat) : Option Nat → Bool
  | some n => decide (i < n)
  | none => true

namespace Worklist

/-- The buffers of a simulator that never settled. -/
def new : Worklist :=
  ⟨0, fun _ => false, [], 0, [], .empty, none, fun _ => false, [], false, fun _ => [], []⟩

variable (w : Worklist)

/-- The part of the current list a pass has not come to. -/
def rest : List Nat :=
  w.curList.drop w.curPos

/-- Trigger one entry for the first pass. -/
def seedEntry (w : Worklist) (eidx : Nat) : Worklist :=
  if w.triggered eidx then w
  else { w with triggered := update w.triggered eidx true, nextList := w.nextList ++ [eidx] }

/-- The start of a settle over some entries: leftovers of the last one are dropped, then the seeds are triggered. -/
def seed (numEntries : Nat) (seeds : List Nat) : Worklist :=
  let cleared := w.nextList.foldl (fun flags eidx => update flags eidx false) w.triggered
  seeds.foldl seedEntry { w with numEntries := numEntries, triggered := cleared, nextList := [] }

/-- A settle with something to do makes room for injected entries. -/
def prepare : Worklist :=
  { w with curList := [], inject := w.inject.resize w.numEntries, nextInject := none }

/-- A pass takes the list over and sorts it. -/
def beginPass : Worklist :=
  { w with curList := w.nextList.mergeSort, curPos := 0, nextList := w.curList, evaluatedAny := false }

/-- Take the injected entry out and look for the next one. -/
def takeInjected (e : Nat) : Worklist :=
  let inject := w.inject.remove e
  { w with inject := inject, nextInject := inject.nextSetBit (e + 1) }

/-- Go on behind the list's entry. -/
def takeListed : Worklist :=
  { w with curPos := w.curPos + 1 }

/-- The entry a pass comes to next: the smaller one of the list's and the injected one. -/
def takeNext : Option (Nat × Worklist) :=
  match w.nextInject, w.curList[w.curPos]? with
  | none, none => none
  | none, some c => some (c, w.takeListed)
  | some e, none => some (e, w.takeInjected e)
  | some e, some c => if e < c then some (e, w.takeInjected e) else some (c, w.takeListed)

/-- Queue a gate of the lane once. -/
def queueGate (g : Nat) : Worklist :=
  if w.gateQueued g then w
  else { w with gateQueued := update w.gateQueued g true, gateQueue := w.gateQueue ++ [g] }

/-- Trigger a dependent of an entry, within the pass where it is still ahead. -/
def trigger (eidx dep : Nat) : Worklist :=
  if w.triggered dep then w
  else if eidx < dep then
    { w with
      triggered := update w.triggered dep true
      inject := w.inject.insert dep
      nextInject := if belowInject dep w.nextInject then some dep else w.nextInject }
  else { w with triggered := update w.triggered dep true, nextList := w.nextList ++ [dep] }

/-- One edge of `trigger_deps`, for a signal that an entry wrote. -/
def triggerDep (t : DepTables) (eidx id : Nat) (chg : Word) (w : Worklist) (edge : DepEdge) : Worklist :=
  let dep := edge.entry
  if edge.mask &&& chg = 0#64 then w
  -- A block of `always_comb` is not armed by its own write.
  else if dep = eidx ∧ t.isAlwaysComb dep then w
  else if t.treeSig id ∧ t.treeEntry dep then w
  else if dep = eidx ∧ t.combSelfExempt dep then w
  else
    match if t.laneOn then t.gateLane dep else none with
    | some g => w.queueGate g
    | none => w.trigger eidx dep

/-- `trigger_deps`, for a signal that an entry wrote and the bits that changed. -/
def triggerDeps (t : DepTables) (eidx : Nat) (w : Worklist) (write : Nat × Word) : Worklist :=
  (t.depEdges write.1).foldl (triggerDep t eidx write.1 write.2) w

end Worklist

/-- What becomes of a triggered entry: it is left to the next full settle, or it runs and writes signals. -/
inductive Visit where
  | deferred
  | evaluated (writes : List (Nat × Word))

namespace Worklist

variable (w : Worklist)

/-- A pass comes to an entry that was taken. -/
def visit (t : DepTables) (eidx : Nat) (what : Visit) : Worklist :=
  if w.triggered eidx then
    let consumed := { w with triggered := update w.triggered eidx false }
    match what with
    | .deferred => consumed
    | .evaluated writes => writes.foldl (triggerDeps t eidx) { consumed with evaluatedAny := true }
  else w

/-- The gates queued during a pass run at its end, and trigger nothing. -/
def drainGates : Worklist :=
  { w with gateQueued := w.gateQueue.foldl (fun queued g => update queued g false) w.gateQueued, gateQueue := [] }

/-- The end of a pass that evaluated something. -/
def endPass : Worklist :=
  { w.drainGates with curList := [] }

end Worklist

end Xezim.Settle
