import Mathlib.Logic.Function.Basic
import Xezim.Heap.SlotBits

/-! The reclamation of class objects: the trace of handles, the mark and the sweep. -/

namespace Xezim.Heap

/-- `HandleTrace`: the handles found since the last drain, each once. -/
structure HandleTrace where
  candidates : SlotBits
  found : List Nat

namespace HandleTrace

/-- `HandleTrace::new`. -/
def new (heapLen : Nat) : HandleTrace := ⟨SlotBits.new heapLen, []⟩

/-- `HandleTrace::candidate`. -/
def candidate (t : HandleTrace) (n : Nat) : HandleTrace :=
  if n ≠ 0 ∧ (t.candidates.set n).1 then ⟨(t.candidates.set n).2, t.found ++ [n]⟩ else t

/-- `HandleTrace::drain_candidates`. -/
def drainCandidates (t : HandleTrace) : List Nat × HandleTrace :=
  (t.found, ⟨t.found.foldl SlotBits.clear t.candidates, []⟩)

/-- `HandleTrace::trace` of data that proposes the given numbers as handles; none when it cannot be
serialized. -/
def trace (proposed : Option (List Nat)) (t : HandleTrace) : Option HandleTrace :=
  proposed.map (·.foldl candidate t)

end HandleTrace

/-- `ClassInstance`. -/
structure ClassInstance (T : Type) where
  className : String
  properties : List (String × T)

/-- What reclamation reads of a class: the declared types of its properties, by whether they can hold no
handle, and its base class. -/
structure ClassDef where
  propertyTypes : String → Option Bool
  extends_ : Option String

/-- What the trace reads of data of type `T` and of names: the numbers they propose as handles, none when
serialization fails. -/
structure Tracer (T : Type) where
  data : T → Option (List Nat)
  name : String → Option (List Nat)

/-- What reclamation reads and writes of the simulator. `roots` is all the data `trace_class_runtime_roots`
traces other than the signals. -/
structure Simulator (T : Type) where
  heap : List (Option (ClassInstance T))
  classes : String → Option ClassDef
  mailboxes : Nat → Option (List T)
  mbxPatterns : T → Option T
  signals : List (String × T)
  classAssocDefaults : List (String × T)
  roots : List T
  dpiTasks : List Nat
  classGcHeapLen : Nat
  classGcSurvivors : List Nat
  classGcScanFrom : Nat
  classGcLive : Nat
  classGcReleased : Nat
  classGcRuns : Nat

/-- The part of a name before its first `#`. -/
def ownerPart (name : String) : List Char := name.toList.takeWhile (· ≠ '#')

/-- The part of a name after its first `#`. -/
def propertyPart (name : String) : String := String.ofList ((name.toList.dropWhile (· ≠ '#')).drop 1)

/-- `class_storage_owner`: the object a name is storage of. -/
def classStorageOwner (name : String) : Option Nat :=
  let owner := ownerPart name
  if '#' ∈ name.toList ∧ owner ≠ [] ∧ owner.all Char.isDigit then
    let n := owner.foldl (fun n c => 10 * n + (c.toNat - '0'.toNat)) 0
    if n < 2 ^ 64 then some n else none
  else none

/-- The class walk of `class_property_has_no_handles`. -/
def typeHasNoHandles (classes : String → Option ClassDef) (property : String) : Nat → Option String → Bool
  | 0, _ => false
  | steps + 1, cls =>
    match cls.bind classes with
    | none => false
    | some cd =>
      match cd.propertyTypes property with
      | some plain => plain
      | none => typeHasNoHandles classes property steps cd.extends_

/-- The mark loop of `class_heap_mark` over the slots that hold an object: `todo` is a stack, its top
first. -/
def markLoop (allocated : Nat → Bool) (edges : Nat → List Nat) (todo : List Nat) (marked : SlotBits) :
    SlotBits :=
  match todo with
  | [] => marked
  | handle :: todo =>
    if allocated handle = false then markLoop allocated edges todo marked
    else if _fresh : (marked.set handle).1 = true then
      markLoop allocated edges ((edges handle).reverse ++ todo) (marked.set handle).2
    else markLoop allocated edges todo marked
termination_by (marked.unmarked.card, todo.length)
decreasing_by
  · exact Prod.Lex.right _ (Nat.lt_succ_self _)
  · exact Prod.Lex.left _ _ (SlotBits.unmarked_set _fresh)
  · exact Prod.Lex.right _ (Nat.lt_succ_self _)

namespace Simulator

variable {T : Type} (tracer : Tracer T) (s : Simulator T)

/-- The object in a slot. -/
def object (h : Nat) : Option (ClassInstance T) := s.heap.getD h none

/-- `class_property_has_no_handles`. -/
def classPropertyHasNoHandles (handle : Nat) (property : String) : Bool :=
  match s.object handle with
  | none => false
  | some object =>
    typeHasNoHandles s.classes (String.ofList (property.toList.takeWhile fun c => c ≠ '[' ∧ c ≠ '.')) 64
      (some object.className)

/-- A list of data traced in order. -/
def traceAll : List T → HandleTrace → Option HandleTrace
  | [], t => some t
  | x :: xs, t => (HandleTrace.trace (tracer.data x) t).bind (traceAll xs)

/-- A named value traced: the name, then the value. -/
def traceNamed (q : String × T) (t : HandleTrace) : Option HandleTrace :=
  (HandleTrace.trace (tracer.name q.1) t).bind (HandleTrace.trace (tracer.data q.2))

/-- The signals that no object owns, traced. -/
def traceSignals : List (String × T) → HandleTrace → Option HandleTrace
  | [], t => some t
  | q :: qs, t =>
    if classStorageOwner q.1 = none then (traceNamed tracer q t).bind (traceSignals qs) else traceSignals qs t

/-- `trace_class_runtime_roots`. -/
def traceClassRuntimeRoots : Option HandleTrace :=
  (traceAll tracer s.roots (.new s.heap.length)).bind (traceSignals tracer s.signals)

/-- The properties of an object, those that can hold a handle traced. -/
def traceProperties (handle : Nat) : List (String × T) → HandleTrace → Option HandleTrace
  | [], t => some t
  | q :: qs, t =>
    if s.classPropertyHasNoHandles handle q.1 then traceProperties handle qs t
    else (HandleTrace.trace (tracer.data q.2) t).bind (traceProperties handle qs)

/-- The values of a mailbox and their patterns. -/
def mailboxData (handle : Nat) : List T :=
  ((s.mailboxes handle).map fun values => values ++ values.filterMap s.mbxPatterns).getD []

/-- The edges of an object among those found so far. -/
def addEdges (edges : Nat → List Nat) (owner : Nat) (found : List Nat) : Nat → List Nat :=
  Function.update edges owner (edges owner ++ found)

/-- The loop of `class_heap_mark` over the objects. -/
def objectEdges : List Nat → (Nat → List Nat) → HandleTrace → Option ((Nat → List Nat) × HandleTrace)
  | [], edges, t => some (edges, t)
  | handle :: objects, edges, t =>
    match s.object handle with
    | none => objectEdges objects edges t
    | some object =>
      ((traceProperties tracer s handle object.properties t).bind
        (traceAll tracer (s.mailboxData handle))).bind fun t =>
          objectEdges objects (addEdges edges handle t.drainCandidates.1) t.drainCandidates.2

/-- The loop of `class_heap_mark` over the named storage: edges of the object that owns it, roots
otherwise. -/
def storageEdges : List (String × T) → HandleTrace → (Nat → List Nat) → HandleTrace →
    Option (HandleTrace × (Nat → List Nat))
  | [], roots, edges, _ => some (roots, edges)
  | q :: qs, roots, edges, t =>
    match (classStorageOwner q.1).filter (· < s.heap.length) with
    | some owner =>
      ((HandleTrace.trace (tracer.name q.1) t).bind fun t =>
        if s.classPropertyHasNoHandles owner (propertyPart q.1) then some t
        else HandleTrace.trace (tracer.data q.2) t).bind fun t =>
          storageEdges qs roots (addEdges edges owner t.drainCandidates.1) t.drainCandidates.2
    | none => (traceNamed tracer q roots).bind fun roots => storageEdges qs roots edges t

/-- `class_heap_mark`. -/
def classHeapMark (objects : List Nat) : Option SlotBits := do
  let roots ← s.traceClassRuntimeRoots tracer
  let (edges, t) ← s.objectEdges tracer objects (fun _ => []) (.new s.heap.length)
  let (roots, edges) ← s.storageEdges tracer (s.signals ++ s.classAssocDefaults) roots edges t
  return markLoop (fun h => (s.object h).isSome) edges roots.drainCandidates.1.reverse (.new s.heap.length)

/-- A name is storage of a dead object. -/
def deadName (dead : SlotBits) (name : String) : Bool := (classStorageOwner name).any dead.get

/-- `release_class_storage`, with the storage that the trace reads. -/
def releaseClassStorage (dead : SlotBits) (deadList : List Nat) : Nat × Simulator T :=
  if deadList = [] then (0, s)
  else
    (deadList.countP fun h => (s.object h).isSome,
      { s with
        signals := s.signals.filter fun q => !deadName dead q.1
        classAssocDefaults := s.classAssocDefaults.filter fun q => !deadName dead q.1
        mailboxes := fun h => if dead.get h then none else s.mailboxes h
        heap := deadList.foldl (fun heap h => heap.set h none) s.heap })

end Simulator

/-- `ClassGcMode`. -/
inductive ClassGcMode
  | off
  | on
  | stress
  deriving DecidableEq, Repr

namespace Simulator

variable {T : Type} (tracer : Tracer T) (mode : ClassGcMode) (s : Simulator T)

/-- The number of new slots a collection waits for. -/
def threshold : Nat := if mode = .stress then 1 else max 20000 s.classGcLive

/-- A collection is due: reclamation is on, enough was allocated, no task is parked. -/
def due : Prop := mode ≠ .off ∧ s.threshold mode ≤ s.heap.length - s.classGcHeapLen ∧ s.dpiTasks = []

instance : Decidable (s.due mode) := inferInstanceAs (Decidable (_ ∧ _))

/-- The slots a collection traces edges from: the survivors and the slots allocated since, those that hold an
object. -/
def objects : List Nat :=
  (s.classGcSurvivors ++ List.range' (max s.classGcScanFrom 1) (s.heap.length - max s.classGcScanFrom 1)).filter
    fun h => (s.object h).isSome

/-- The sweep after a mark. -/
def sweep (marked : SlotBits) : Simulator T :=
  let live := s.objects.filter marked.get
  let deadList := s.objects.filter fun h => !marked.get h
  let dead := deadList.foldl (fun b h => (b.set h).2) (SlotBits.new s.heap.length)
  let (released, after) := s.releaseClassStorage dead deadList
  { after with
    classGcScanFrom := s.heap.length
    classGcLive := live.length
    classGcSurvivors := live
    classGcReleased := s.classGcReleased + released
    classGcRuns := s.classGcRuns + 1 }

/-- `maybe_collect_class_heap`. -/
def maybeCollectClassHeap : Simulator T :=
  if s.due mode then
    -- The length is recorded before the mark, which does not read it, so an aborted collection records it too.
    let recorded := { s with classGcHeapLen := s.heap.length }
    match s.classHeapMark tracer s.objects with
    | none => recorded
    | some marked => recorded.sweep marked
  else s

/-- The slots that hold an object. -/
def Allocated (h : Nat) : Prop := (s.object h).isSome = true

/-- The bookkeeping before anything was allocated; slot 0 is null. -/
structure Initial : Prop where
  heap : s.heap = [none]
  survivors : s.classGcSurvivors = []
  scanFrom : s.classGcScanFrom = 0

/-- What a run does: objects are allocated at new slots, the rest of the state changes in any way that leaves
the bookkeeping and the allocated slots, and a collection may be made. -/
inductive Step : Simulator T → Simulator T → Prop
  | alloc (s : Simulator T) (object : ClassInstance T) : Step s { s with heap := s.heap ++ [some object] }
  | mutate {s t : Simulator T} (slots : t.heap.map Option.isSome = s.heap.map Option.isSome)
      (survivors : t.classGcSurvivors = s.classGcSurvivors) (scanFrom : t.classGcScanFrom = s.classGcScanFrom) :
      Step s t
  | collect (s : Simulator T) : Step s (s.maybeCollectClassHeap tracer mode)

/-- The states of a run. -/
inductive Run : Simulator T → Prop
  | start {s : Simulator T} : s.Initial → Run s
  | step {s t : Simulator T} : Run s → Step tracer mode s t → Run t

end Simulator

end Xezim.Heap
