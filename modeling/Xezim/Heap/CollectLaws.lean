import Xezim.Heap.Collect
import Xezim.Lib.Reachability

/-! A collection marks the reachable objects and releases the others, in every run. -/

namespace Xezim.Heap

open Reachability

namespace HandleTrace

variable {len : Nat} {t t' t'' : HandleTrace}

/-- A trace of a heap of `len` slots: a bit for every slot, and the set bits are the handles found. -/
structure Ok (len : Nat) (t : HandleTrace) : Prop where
  inRange : ∀ i < len, t.candidates.InRange i
  bits : ∀ i, t.candidates.get i = true ↔ i ∈ t.found

/-- A trace goes on and finds the slots with a property, beside those found before. -/
structure Traced (len : Nat) (t t' : HandleTrace) (P : Nat → Prop) : Prop where
  ok : t'.Ok len
  found : ∀ h, 0 < h → h < len → (h ∈ t'.found ↔ h ∈ t.found ∨ P h)

theorem ok_new (len : Nat) : (new len).Ok len where
  inRange i slot := SlotBits.inRange_new slot
  bits i := by
    rw [new, SlotBits.get_new]
    exact iff_of_false Bool.false_ne_true List.not_mem_nil

theorem Traced.refl (ok : t.Ok len) {P : Nat → Prop} (proposesNone : ∀ h, ¬ P h) : Traced len t t P :=
  ⟨ok, fun h _ _ => (or_iff_left (proposesNone h)).symm⟩

theorem Traced.trans {P Q : Nat → Prop} (first : Traced len t t' P) (second : Traced len t' t'' Q) :
    Traced len t t'' fun h => P h ∨ Q h :=
  ⟨second.ok, fun h positive slot => by rw [second.found h positive slot, first.found h positive slot, or_assoc]⟩

theorem Traced.congr {P Q : Nat → Prop} (traced : Traced len t t' P) (same : ∀ h, P h ↔ Q h) :
    Traced len t t' Q :=
  ⟨traced.ok, fun h positive slot => by rw [traced.found h positive slot, same]⟩

/-- A candidate is found unless it is null or no slot. -/
theorem traced_candidate (ok : t.Ok len) (n : Nat) : Traced len t (t.candidate n) (· = n) := by
  unfold candidate
  split
  · rename_i fresh
    obtain ⟨inside, clear⟩ := SlotBits.set_fresh.mp fresh.2
    refine ⟨⟨fun i slot => SlotBits.inRange_set.mpr (ok.inRange i slot), fun i => ?_⟩, fun h _ _ => ?_⟩
    · rw [SlotBits.get_set inside, Bool.or_eq_true, ok.bits, decide_eq_true_iff, List.mem_append,
        List.mem_singleton]
    · rw [List.mem_append, List.mem_singleton]
  · rename_i stale
    refine ⟨ok, fun h positive slot => (or_iff_left_of_imp ?_).symm⟩
    -- A slot that is not fresh was found before.
    rintro rfl
    by_contra absent
    refine stale ⟨by omega, SlotBits.set_fresh.mpr ⟨ok.inRange h slot, ?_⟩⟩
    rw [Bool.eq_false_iff]
    exact fun set => absent ((ok.bits h).mp set)

/-- Data that proposes numbers. -/
theorem traced_trace (ok : t.Ok len) {proposed : Option (List Nat)} (done : trace proposed t = some t') :
    Traced len t t' fun h => ∃ ns, proposed = some ns ∧ h ∈ ns := by
  obtain ⟨ns, rfl, rfl⟩ := Option.map_eq_some_iff.mp done
  -- The tracer proposes the numbers one after the other, each a candidate of its own.
  refine Traced.congr (P := fun h => h ∈ ns) ?_ fun h => by simp
  clear done
  induction ns generalizing t with
  | nil => exact .refl ok fun h => List.not_mem_nil
  | cons n ns ih =>
    have first := traced_candidate ok n
    exact (first.trans (ih first.ok)).congr fun h => List.mem_cons.symm

/-- A drained trace has found nothing and goes on. -/
theorem ok_drain (ok : t.Ok len) : t.drainCandidates.2.Ok len ∧ t.drainCandidates.2.found = [] := by
  -- Clearing the bits of a list of handles clears these and no others.
  have cleared (hs : List Nat) (b : SlotBits) : (∀ i, (hs.foldl SlotBits.clear b).InRange i ↔ b.InRange i) ∧
      ∀ i, (hs.foldl SlotBits.clear b).get i = true ↔ b.get i = true ∧ i ∉ hs := by
    induction hs generalizing b with
    | nil => simp
    | cons h hs ih =>
      obtain ⟨range, bits⟩ := ih (b.clear h)
      refine ⟨fun i => (range i).trans SlotBits.inRange_clear, fun i => (bits i).trans ?_⟩
      rw [SlotBits.get_clear, Bool.and_eq_true, Bool.not_eq_true', decide_eq_false_iff_not, List.mem_cons,
        not_or, and_assoc]
  obtain ⟨range, bits⟩ := cleared t.found t.candidates
  refine ⟨⟨fun i slot => (range i).mpr (ok.inRange i slot), fun i => ?_⟩, rfl⟩
  show (t.found.foldl SlotBits.clear t.candidates).get i = true ↔ i ∈ []
  rw [bits, ok.bits]
  simp

end HandleTrace

namespace Simulator

open HandleTrace

variable {T : Type} (tracer : Tracer T) (s : Simulator T)

section References

/-- Data proposes a handle. -/
def Proposes (x : T) (h : Nat) : Prop := ∃ ns, tracer.data x = some ns ∧ h ∈ ns

/-- A name proposes a handle. -/
def NameProposes (name : String) (h : Nat) : Prop := ∃ ns, tracer.name name = some ns ∧ h ∈ ns

/-- The storage an object owns: its slot is in the heap. -/
def storageOwner (name : String) : Option Nat := (classStorageOwner name).filter (· < s.heap.length)

/-- A root: data of the simulator, or named storage that no object owns, refers to a handle. -/
def RootRef (h : Nat) : Prop :=
  (∃ x ∈ s.roots, Proposes tracer x h) ∨
    ∃ q ∈ s.signals ++ s.classAssocDefaults, s.storageOwner q.1 = none ∧
      (NameProposes tracer q.1 h ∨ Proposes tracer q.2 h)

/-- An object refers to a handle by a property that can hold one, or by its mailbox. -/
def ObjectRef (g h : Nat) : Prop :=
  ∃ object, s.object g = some object ∧
    ((∃ q ∈ object.properties, s.classPropertyHasNoHandles g q.1 = false ∧ Proposes tracer q.2 h) ∨
      ∃ x ∈ s.mailboxData g, Proposes tracer x h)

/-- Storage that an object owns refers to a handle. -/
def StorageRef (g h : Nat) : Prop :=
  ∃ q ∈ s.signals ++ s.classAssocDefaults, s.storageOwner q.1 = some g ∧
    (NameProposes tracer q.1 h ∨
      s.classPropertyHasNoHandles g (propertyPart q.1) = false ∧ Proposes tracer q.2 h)

/-- A traced edge. -/
def EdgeRef (g h : Nat) : Prop := s.ObjectRef tracer g h ∨ s.StorageRef tracer g h

/-- The objects reachable from the traced roots through the traced edges. -/
def Reachable : Nat → Prop := Reach s.Allocated (s.RootRef tracer) (s.EdgeRef tracer)

/-- `TraceError`: something the mark traces cannot be serialized, a root, what an object holds, or the name or
the value of named storage. -/
def TraceError : Prop :=
  (∃ x ∈ s.roots, tracer.data x = none) ∨
    (∃ h object, s.object h = some object ∧
      ((∃ q ∈ object.properties, s.classPropertyHasNoHandles h q.1 = false ∧ tracer.data q.2 = none) ∨
        ∃ x ∈ s.mailboxData h, tracer.data x = none)) ∨
      ∃ q ∈ s.signals ++ s.classAssocDefaults, tracer.name q.1 = none ∨
        (∀ g, s.storageOwner q.1 = some g → s.classPropertyHasNoHandles g (propertyPart q.1) = false) ∧
          tracer.data q.2 = none

end References

variable {tracer s} {len : Nat} {t t' : HandleTrace}

section Traces

theorem traced_all (ok : t.Ok len) {xs : List T} (done : traceAll tracer xs t = some t') :
    Traced len t t' fun h => ∃ x ∈ xs, Proposes tracer x h := by
  -- The tracer goes through the data in turn, and an error of one aborts the rest.
  induction xs generalizing t with
  | nil =>
    cases done
    exact .refl ok fun h => by simp
  | cons x xs ih =>
    obtain ⟨u, first, rest⟩ := Option.bind_eq_some_iff.mp done
    have traced := traced_trace ok first
    exact (traced.trans (ih traced.ok rest)).congr fun h => by simp [Proposes]

theorem traced_named (ok : t.Ok len) {q : String × T} (done : traceNamed tracer q t = some t') :
    Traced len t t' fun h => NameProposes tracer q.1 h ∨ Proposes tracer q.2 h := by
  obtain ⟨u, first, rest⟩ := Option.bind_eq_some_iff.mp done
  have traced := traced_trace ok first
  exact traced.trans (traced_trace traced.ok rest)

theorem traced_signals (ok : t.Ok len) {qs : List (String × T)} (done : traceSignals tracer qs t = some t') :
    Traced len t t' fun h => ∃ q ∈ qs, classStorageOwner q.1 = none ∧
      (NameProposes tracer q.1 h ∨ Proposes tracer q.2 h) := by
  -- A signal that is a class's own static is left to the storage edges.
  induction qs generalizing t with
  | nil =>
    cases done
    exact .refl ok fun h => by simp
  | cons q qs ih =>
    unfold traceSignals at done
    -- An unowned signal counts by its name and by its value.
    split at done
    · rename_i unowned
      obtain ⟨u, first, rest⟩ := Option.bind_eq_some_iff.mp done
      have traced := traced_named ok first
      exact (traced.trans (ih traced.ok rest)).congr fun h => by simp [unowned]
    · rename_i owned
      exact (ih ok done).congr fun h => by simp [owned]

theorem traced_properties (ok : t.Ok len) {g : Nat} {qs : List (String × T)}
    (done : s.traceProperties tracer g qs t = some t') :
    Traced len t t' fun h => ∃ q ∈ qs, s.classPropertyHasNoHandles g q.1 = false ∧ Proposes tracer q.2 h := by
  -- A property whose declared type holds no handle is passed over.
  induction qs generalizing t with
  | nil =>
    cases done
    exact .refl ok fun h => by simp
  | cons q qs ih =>
    unfold traceProperties at done
    split at done
    · rename_i plain
      exact (ih ok done).congr fun h => by simp [plain]
    · rename_i holds
      obtain ⟨u, first, rest⟩ := Option.bind_eq_some_iff.mp done
      have traced := traced_trace ok first
      exact (traced.trans (ih traced.ok rest)).congr fun h => by simp [holds, Proposes]

/-- Edges found for an object join those it has. -/
theorem mem_addEdges {edges : Nat → List Nat} {owner g h : Nat} {found : List Nat} :
    h ∈ addEdges edges owner found g ↔ h ∈ edges g ∨ g = owner ∧ h ∈ found := by
  unfold addEdges
  by_cases same : g = owner
  · subst same
    simp
  · rw [Function.update_of_ne same]
    simp [same]

/-- The loop over the objects finds the references of those listed. -/
theorem objectEdges_spec {objects : List Nat} {edges edges' : Nat → List Nat} (ok : t.Ok s.heap.length)
    (fresh : t.found = []) (done : s.objectEdges tracer objects edges t = some (edges', t')) :
    (t'.Ok s.heap.length ∧ t'.found = []) ∧ ∀ g h, 0 < h → h < s.heap.length →
      (h ∈ edges' g ↔ h ∈ edges g ∨ g ∈ objects ∧ s.ObjectRef tracer g h) := by
  induction objects generalizing edges t with
  | nil =>
    cases done
    exact ⟨⟨ok, fresh⟩, fun g h _ _ => by simp⟩
  | cons handle objects ih =>
    unfold objectEdges at done
    split at done
    · rename_i free
      obtain ⟨after, found⟩ := ih ok fresh done
      refine ⟨after, fun g h positive slot => (found g h positive slot).trans (or_congr_right ?_)⟩
      -- A free slot refers to nothing.
      refine ⟨fun both => ⟨List.mem_cons_of_mem _ both.1, both.2⟩, fun ⟨member, refs⟩ => ⟨?_, refs⟩⟩
      rcases List.mem_cons.mp member with rfl | member
      · obtain ⟨object, here, -⟩ := refs
        exact nomatch free.symm.trans here
      · exact member
    · rename_i object here
      obtain ⟨u, traced, rest⟩ := Option.bind_eq_some_iff.mp done
      obtain ⟨v, properties, mailbox⟩ := Option.bind_eq_some_iff.mp traced
      have first := traced_properties ok properties
      have second := first.trans (traced_all first.ok mailbox)
      obtain ⟨okDrain, drained⟩ := ok_drain second.ok
      obtain ⟨after, found⟩ := ih okDrain drained rest
      refine ⟨after, fun g h positive slot => ?_⟩
      have refs : h ∈ u.drainCandidates.1 ↔ s.ObjectRef tracer handle h := by
        show h ∈ u.found ↔ _
        rw [second.found h positive slot, fresh]
        simp [ObjectRef, here]
      rw [found g h positive slot, mem_addEdges, refs, List.mem_cons, or_assoc, or_and_right]
      refine or_congr_right (or_congr_left ⟨?_, ?_⟩)
      · rintro ⟨rfl, made⟩
        exact ⟨rfl, made⟩
      · rintro ⟨rfl, made⟩
        exact ⟨rfl, made⟩

/-- The loop over the named storage finds the references of owned storage and adds the others to the
roots. -/
theorem storageEdges_spec {qs : List (String × T)} {roots roots' : HandleTrace} {edges edges' : Nat → List Nat}
    (okRoots : roots.Ok s.heap.length) (ok : t.Ok s.heap.length) (fresh : t.found = [])
    (done : s.storageEdges tracer qs roots edges t = some (roots', edges')) :
    Traced s.heap.length roots roots' (fun h => ∃ q ∈ qs, s.storageOwner q.1 = none ∧
        (NameProposes tracer q.1 h ∨ Proposes tracer q.2 h)) ∧
      ∀ g h, 0 < h → h < s.heap.length → (h ∈ edges' g ↔ h ∈ edges g ∨ ∃ q ∈ qs, s.storageOwner q.1 = some g ∧
        (NameProposes tracer q.1 h ∨
          s.classPropertyHasNoHandles g (propertyPart q.1) = false ∧ Proposes tracer q.2 h)) := by
  -- One storage entry is a root or an edge of its owner, never both.
  induction qs generalizing roots edges t with
  | nil =>
    cases done
    exact ⟨.refl okRoots fun h => by simp, fun g h _ _ => by simp⟩
  | cons q qs ih =>
    unfold storageEdges at done
    split at done
    · -- An owned entry is traced apart, and the trace is drained into the owner's edges.
      rename_i owner owned
      have owned : s.storageOwner q.1 = some owner := owned
      obtain ⟨u, traced, rest⟩ := Option.bind_eq_some_iff.mp done
      obtain ⟨v, name, value⟩ := Option.bind_eq_some_iff.mp traced
      have first := traced_trace ok name
      -- The value is traced only where the property may hold a handle.
      have second : Traced s.heap.length v u fun h =>
          s.classPropertyHasNoHandles owner (propertyPart q.1) = false ∧ Proposes tracer q.2 h := by
        split at value
        · rename_i plain
          cases value
          exact .refl first.ok fun h => by simp [plain]
        · rename_i holds
          exact (traced_trace first.ok value).congr fun h => by simp [holds, Proposes]
      have both := first.trans second
      obtain ⟨okDrain, drained⟩ := ok_drain both.ok
      obtain ⟨rooted, found⟩ := ih okRoots okDrain drained rest
      refine ⟨rooted.congr fun h => by simp [owned], fun g h positive slot => ?_⟩
      -- What was drained is what the name and the value propose, since the trace was empty.
      have refs : h ∈ u.drainCandidates.1 ↔ NameProposes tracer q.1 h ∨
          s.classPropertyHasNoHandles owner (propertyPart q.1) = false ∧ Proposes tracer q.2 h := by
        show h ∈ u.found ↔ _
        rw [both.found h positive slot, fresh]
        simp [NameProposes]
      rw [found g h positive slot, mem_addEdges, refs, or_assoc, List.exists_mem_cons_iff]
      refine or_congr_right (or_congr_left ?_)
      rw [owned, Option.some_inj, eq_comm]
      refine and_congr_right fun same => ?_
      rw [same]
    · rename_i unowned
      -- An entry without an owner is traced into the roots.
      have unowned : s.storageOwner q.1 = none := unowned
      obtain ⟨roots₁, traced, rest⟩ := Option.bind_eq_some_iff.mp done
      have first := traced_named okRoots traced
      obtain ⟨rooted, found⟩ := ih first.ok ok fresh rest
      exact ⟨(first.trans rooted).congr fun h => by simp [unowned], fun g h positive slot =>
        (found g h positive slot).trans (by simp [unowned])⟩

end Traces

section Failures

/-- A trace fails only when its data cannot be serialized. -/
theorem trace_eq_none {proposed : Option (List Nat)} : trace proposed t = none ↔ proposed = none :=
  Option.map_eq_none_iff

/-- One trace after another fails when either does, whatever the first has found. -/
theorem bind_eq_none {A B : Type} {first : Option A} {rest : A → Option B} {P Q : Prop}
    (fails : first = none ↔ P) (later : ∀ a, rest a = none ↔ Q) : first.bind rest = none ↔ P ∨ Q := by
  rw [← fails]
  cases first with
  | none => exact iff_of_true rfl (.inl rfl)
  | some a => exact (later a).trans (or_iff_right (Option.some_ne_none a)).symm

theorem traceAll_eq_none {xs : List T} (t : HandleTrace) :
    traceAll tracer xs t = none ↔ ∃ x ∈ xs, tracer.data x = none := by
  induction xs generalizing t with
  | nil => simp [traceAll]
  | cons x xs ih =>
    rw [traceAll, bind_eq_none trace_eq_none ih]
    simp

theorem traceNamed_eq_none {q : String × T} (t : HandleTrace) :
    traceNamed tracer q t = none ↔ tracer.name q.1 = none ∨ tracer.data q.2 = none :=
  bind_eq_none trace_eq_none fun _ => trace_eq_none

theorem traceSignals_eq_none {qs : List (String × T)} (t : HandleTrace) :
    traceSignals tracer qs t = none ↔
      ∃ q ∈ qs, classStorageOwner q.1 = none ∧ (tracer.name q.1 = none ∨ tracer.data q.2 = none) := by
  -- The first signal whose name or value fails aborts the trace.
  induction qs generalizing t with
  | nil => simp [traceSignals]
  | cons q qs ih =>
    unfold traceSignals
    split
    · rename_i unowned
      rw [bind_eq_none (traceNamed_eq_none t) ih]
      simp [unowned]
    · rename_i owned
      rw [ih]
      simp [owned]

theorem traceProperties_eq_none {g : Nat} {qs : List (String × T)} (t : HandleTrace) :
    s.traceProperties tracer g qs t = none ↔
      ∃ q ∈ qs, s.classPropertyHasNoHandles g q.1 = false ∧ tracer.data q.2 = none := by
  -- A property that holds no handle is not traced, so it cannot fail.
  induction qs generalizing t with
  | nil => simp [traceProperties]
  | cons q qs ih =>
    unfold traceProperties
    split
    · rename_i plain
      rw [ih]
      simp [plain]
    · rename_i holds
      rw [bind_eq_none trace_eq_none ih]
      simp [holds]

/-- The loop over the objects fails when one of those listed holds what cannot be serialized. -/
theorem objectEdges_eq_none {objects : List Nat} (edges : Nat → List Nat) (t : HandleTrace) :
    s.objectEdges tracer objects edges t = none ↔ ∃ h ∈ objects, ∃ object, s.object h = some object ∧
      ((∃ q ∈ object.properties, s.classPropertyHasNoHandles h q.1 = false ∧ tracer.data q.2 = none) ∨
        ∃ x ∈ s.mailboxData h, tracer.data x = none) := by
  -- A free slot has nothing to trace.
  induction objects generalizing edges t with
  | nil => simp [objectEdges]
  | cons handle objects ih =>
    unfold objectEdges
    rw [List.exists_mem_cons_iff]
    -- An object fails by a property of its own or by a message in its mailbox.
    split
    · rename_i free
      rw [ih, free]
      simp
    · rename_i object here
      rw [bind_eq_none (bind_eq_none (traceProperties_eq_none t) traceAll_eq_none) fun t => ih _ _, here]
      simp

/-- The loop over the named storage fails when a name cannot be serialized, or a value that can hold a
handle. -/
theorem storageEdges_eq_none {qs : List (String × T)} (roots : HandleTrace) (edges : Nat → List Nat)
    (t : HandleTrace) :
    s.storageEdges tracer qs roots edges t = none ↔ ∃ q ∈ qs, tracer.name q.1 = none ∨
      (∀ g, s.storageOwner q.1 = some g → s.classPropertyHasNoHandles g (propertyPart q.1) = false) ∧
        tracer.data q.2 = none := by
  induction qs generalizing roots edges t with
  | nil => simp [storageEdges]
  | cons q qs ih =>
    unfold storageEdges
    rw [List.exists_mem_cons_iff]
    split
    · rename_i owner owned
      have owned : s.storageOwner q.1 = some owner := owned
      -- The value of owned storage is traced unless its type can hold no handle.
      have value (u : HandleTrace) : (if s.classPropertyHasNoHandles owner (propertyPart q.1) then some u
          else HandleTrace.trace (tracer.data q.2) u) = none ↔
            s.classPropertyHasNoHandles owner (propertyPart q.1) = false ∧ tracer.data q.2 = none := by
        split
        · rename_i plain
          simp [plain]
        · rename_i holds
          rw [trace_eq_none]
          simp [holds]
      rw [bind_eq_none (bind_eq_none trace_eq_none value) fun t => ih _ _ _, owned]
      simp
    · rename_i unowned
      have unowned : s.storageOwner q.1 = none := unowned
      rw [bind_eq_none (traceNamed_eq_none roots) fun roots => ih _ _ _, unowned]
      simp

/-- `class_heap_mark` aborts exactly on a trace error when it traces every allocated object. -/
theorem classHeapMark_eq_none {objects : List Nat} (all : ∀ h, h ∈ objects ↔ s.Allocated h) :
    s.classHeapMark tracer objects = none ↔ s.TraceError tracer := by
  have rooted : s.traceClassRuntimeRoots tracer = none ↔ (∃ x ∈ s.roots, tracer.data x = none) ∨
      ∃ q ∈ s.signals, classStorageOwner q.1 = none ∧ (tracer.name q.1 = none ∨ tracer.data q.2 = none) :=
    bind_eq_none (traceAll_eq_none _) traceSignals_eq_none
  have listed : (∃ h ∈ objects, ∃ object, s.object h = some object ∧
      ((∃ q ∈ object.properties, s.classPropertyHasNoHandles h q.1 = false ∧ tracer.data q.2 = none) ∨
        ∃ x ∈ s.mailboxData h, tracer.data x = none)) ↔ ∃ h object, s.object h = some object ∧
      ((∃ q ∈ object.properties, s.classPropertyHasNoHandles h q.1 = false ∧ tracer.data q.2 = none) ∨
        ∃ x ∈ s.mailboxData h, tracer.data x = none) := by
    refine exists_congr fun h => and_iff_right_of_imp fun held => (all h).mpr ?_
    obtain ⟨object, here, -⟩ := held
    rw [Allocated, here]
    rfl
  have marks : s.classHeapMark tracer objects = none ↔ ((∃ x ∈ s.roots, tracer.data x = none) ∨
      ∃ q ∈ s.signals, classStorageOwner q.1 = none ∧ (tracer.name q.1 = none ∨ tracer.data q.2 = none)) ∨
        _ ∨ _ ∨ False :=
    bind_eq_none rooted fun roots => bind_eq_none ((objectEdges_eq_none _ _).trans listed) fun p =>
      bind_eq_none (storageEdges_eq_none roots p.1 p.2) fun p => iff_of_false (Option.some_ne_none _) id
  rw [marks, or_false, TraceError, or_assoc]
  refine or_congr_right ⟨?_, .inr⟩
  rintro (⟨q, member, unowned, fails⟩ | fails)
  · -- A signal no object owns is traced among the named storage again.
    refine .inr ⟨q, List.mem_append_left _ member, fails.imp_right fun value => ⟨fun g owned => ?_, value⟩⟩
    rw [storageOwner, unowned] at owned
    cases owned
  · exact fails

end Failures

section Mark

/-- The mark loop explores from the pending handles. -/
theorem markLoop_spec {allocated : Nat → Bool} {edges : Nat → List Nat} {todo : List Nat} {marked : SlotBits}
    {live seed : Nat → Prop} {edge : Nat → Nat → Prop} (lives : ∀ h, allocated h = true ↔ live h)
    (inRange : ∀ h, live h → marked.InRange h) (agree : ∀ g h, live h → (h ∈ edges g ↔ edge g h))
    (explored : Explored live seed edge (fun h => marked.get h = true) todo) (h : Nat) :
    (markLoop allocated edges todo marked).get h = true ↔ Reach live seed edge h := by
  induction todo, marked using markLoop.induct allocated edges with
  | case1 marked =>
    rw [markLoop]
    exact explored.done h
  | case2 marked handle todo free ih =>
    rw [markLoop, if_pos free]
    refine ih inRange (explored.skip fun alive => ?_)
    rw [(lives handle).mpr alive] at free
    cases free
  | case3 marked handle todo taken fresh ih =>
    rw [markLoop, if_neg taken, dif_pos fresh]
    have alive : live handle := (lives handle).mp (by simpa using taken)
    refine ih (fun h alive => SlotBits.inRange_set.mpr (inRange h alive))
      (explored.visit alive (fun y => ?_) fun y alive => ?_)
    · rw [SlotBits.get_set (inRange handle alive), Bool.or_eq_true, decide_eq_true_iff]
    · rw [List.mem_append, List.mem_reverse, agree handle y alive, or_comm]
  | case4 marked handle todo taken stale ih =>
    rw [markLoop, if_neg taken, dif_neg stale]
    refine ih inRange (explored.skip fun alive => ?_)
    -- A bit in range that was not clear was set.
    by_contra clear
    exact stale (SlotBits.set_fresh.mpr ⟨inRange handle alive, Bool.eq_false_iff.mpr clear⟩)

/-- `class_heap_mark` marks exactly the reachable objects when it traces every allocated one. -/
theorem classHeapMark_spec {objects : List Nat} (all : ∀ h, s.Allocated h → h ∈ objects)
    (null : s.object 0 = none) {marked : SlotBits} (done : s.classHeapMark tracer objects = some marked) (h : Nat) :
    marked.get h = true ↔ s.Reachable tracer h := by
  have slot (h) (alive : s.Allocated h) : 0 < h ∧ h < s.heap.length := by
    constructor
    · rcases Nat.eq_zero_or_pos h with rfl | positive
      · unfold Allocated at alive
        rw [null] at alive
        cases alive
      · exact positive
    · by_contra outside
      unfold Allocated object at alive
      rw [List.getD_eq_default _ _ (by omega)] at alive
      cases alive
  unfold classHeapMark at done
  obtain ⟨roots, tracedRoots, rest⟩ := Option.bind_eq_some_iff.mp done
  obtain ⟨⟨edges, t⟩, tracedObjects, rest⟩ := Option.bind_eq_some_iff.mp rest
  obtain ⟨⟨roots', edges'⟩, tracedStorage, rest⟩ := Option.bind_eq_some_iff.mp rest
  cases rest
  obtain ⟨u, data, signals⟩ := Option.bind_eq_some_iff.mp tracedRoots
  have first := traced_all (ok_new s.heap.length) data
  have second := first.trans (traced_signals first.ok signals)
  obtain ⟨⟨ok, fresh⟩, objectRefs⟩ := objectEdges_spec (ok_new s.heap.length) rfl tracedObjects
  obtain ⟨third, storageRefs⟩ := storageEdges_spec second.ok ok fresh tracedStorage
  refine markLoop_spec (fun h => Iff.rfl) (fun h alive => SlotBits.inRange_new (slot h alive).2)
    (fun g h alive => ?_) ?_ h
  · obtain ⟨positive, inside⟩ := slot h alive
    rw [storageRefs g h positive inside, objectRefs g h positive inside, EdgeRef, StorageRef]
    refine or_congr_left ?_
    simp only [List.not_mem_nil, false_or]
    refine ⟨And.right, fun refs => ⟨all g ?_, refs⟩⟩
    -- An object that refers to something is allocated.
    obtain ⟨object, here, -⟩ := refs
    rw [Allocated, here]
    rfl
  · refine .start (fun h => by rw [SlotBits.get_new]; exact Bool.false_ne_true) fun h alive => ?_
    obtain ⟨positive, inside⟩ := slot h alive
    rw [List.mem_reverse]
    show h ∈ roots'.found ↔ _
    rw [third.found h positive inside, second.found h positive inside, RootRef, or_assoc]
    show h ∈ [] ∨ _ ↔ _
    simp only [List.not_mem_nil, false_or]
    constructor
    · rintro ((refs | ⟨q, member, unowned, refs⟩) | refs)
      · exact .inl refs
      · refine .inr ⟨q, List.mem_append_left _ member, ?_, refs⟩
        rw [storageOwner, unowned]
        rfl
      · exact .inr refs
    · rintro (refs | refs)
      · exact .inl (.inl refs)
      · exact .inr refs

end Mark

section Sweep

/-- Freed slots hold nothing, the others what they held. -/
theorem getD_free (heap : List (Option (ClassInstance T))) (dead : List Nat) (h : Nat) :
    (dead.foldl (fun heap h => heap.set h none) heap).getD h none = if h ∈ dead then none else heap.getD h none := by
  -- Freeing one slot after the other leaves every other slot as it was.
  induction dead generalizing heap with
  | nil => simp
  | cons d dead ih =>
    rw [List.foldl_cons, ih]
    by_cases later : h ∈ dead
    · rw [if_pos later, if_pos (List.mem_cons_of_mem d later)]
    · rw [if_neg later, List.getD_eq_getElem?_getD, List.getElem?_set, List.getD_eq_getElem?_getD]
      -- A slot that is not freed later is freed now or not at all.
      by_cases here : d = h
      · subst here
        rw [if_pos List.mem_cons_self, if_pos rfl]
        split <;> rfl
      · rw [if_neg here, if_neg]
        exact fun member => (List.mem_cons.mp member).elim (fun same => here same.symm) later

theorem length_free (heap : List (Option (ClassInstance T))) (dead : List Nat) :
    (dead.foldl (fun heap h => heap.set h none) heap).length = heap.length := by
  induction dead generalizing heap with
  | nil => rfl
  | cons d dead ih => rw [List.foldl_cons, ih, List.length_set]

/-- The sweep frees the dead objects and nothing else, and keeps the live ones for the next collection. -/
theorem sweep_spec (marked : SlotBits) :
    (∀ h, (s.sweep marked).object h =
      if h ∈ s.objects ∧ marked.get h = false then none else s.object h) ∧
      (s.sweep marked).heap.length = s.heap.length ∧
      (s.sweep marked).classGcScanFrom = s.heap.length ∧
      (s.sweep marked).classGcSurvivors = s.objects.filter marked.get := by
  -- The dead are the objects whose bit is clear.
  have member (h) : (h ∈ s.objects.filter fun h => !marked.get h) ↔ h ∈ s.objects ∧ marked.get h = false := by
    rw [List.mem_filter, Bool.not_eq_true']
  unfold sweep releaseClassStorage
  dsimp only
  split
  · -- With no dead object the heap is left alone, which is what freeing none amounts to.
    rename_i noDead
    refine ⟨fun h => ?_, rfl, rfl, rfl⟩
    have kept : ¬ (h ∈ s.objects ∧ marked.get h = false) := by
      rw [← member, noDead]
      exact List.not_mem_nil
    rw [if_neg kept]
    rfl
  · -- Otherwise the slots of the dead are freed, and the storage is released beside the heap.
    refine ⟨fun h => ?_, length_free _ _, rfl, rfl⟩
    unfold object
    rw [getD_free]
    simp only [member]

end Sweep

section Runs

variable (s) in
/-- The bookkeeping of reclamation: slot 0 is null, and every object is a survivor or in the slots to scan. -/
structure Tracked : Prop where
  null : s.object 0 = none
  nonempty : 0 < s.heap.length
  scanFrom : s.classGcScanFrom ≤ s.heap.length
  tracked : ∀ h, 1 ≤ h → s.Allocated h →
    h ∈ s.classGcSurvivors ∨ max s.classGcScanFrom 1 ≤ h ∧ h < s.heap.length

/-- With it a collection traces every object. -/
theorem Tracked.objects (tracked : s.Tracked) (h : Nat) : h ∈ s.objects ↔ s.Allocated h := by
  unfold Simulator.objects
  rw [List.mem_filter]
  refine ⟨And.right, fun alive => ⟨?_, alive⟩⟩
  -- Slot zero is the null handle and is never an object.
  have positive : 1 ≤ h := by
    rcases Nat.eq_zero_or_pos h with rfl | positive
    · unfold Allocated at alive
      rw [tracked.null] at alive
      cases alive
    · exact positive
  rw [List.mem_append, List.mem_range'_1]
  -- An object outlived the last collection or was allocated after it.
  rcases tracked.tracked h positive alive with survivor | fresh
  · exact .inl survivor
  · exact .inr (by omega)

/-- What is in a slot tells whether it is allocated. -/
theorem allocated_of_slots {u : Simulator T} (slots : u.heap.map Option.isSome = s.heap.map Option.isSome) (h : Nat) :
    u.Allocated h ↔ s.Allocated h := by
  have slot (v : Simulator T) : v.Allocated h ↔ (v.heap.map Option.isSome).getD h false = true := by
    unfold Allocated object
    rw [List.getD_eq_getElem?_getD, List.getD_eq_getElem?_getD, List.getElem?_map]
    cases v.heap[h]? <;> rfl
  rw [slot, slot, slots]

variable (tracer) in
/-- What a collection does when it is made: aborted, it keeps all but the recorded length; else it sweeps by
the marks of the reachable objects. -/
theorem maybeCollect_cases (mode : ClassGcMode) (s : Simulator T) :
    (s.due mode → s.classHeapMark tracer s.objects = none) ∧
        (∀ h, (s.maybeCollectClassHeap tracer mode).object h = s.object h) ∧
        (s.maybeCollectClassHeap tracer mode).heap.length = s.heap.length ∧
        (s.maybeCollectClassHeap tracer mode).classGcScanFrom = s.classGcScanFrom ∧
        (s.maybeCollectClassHeap tracer mode).classGcSurvivors = s.classGcSurvivors ∨
      s.due mode ∧ ∃ marked, s.classHeapMark tracer s.objects = some marked ∧
        (∀ h, (s.maybeCollectClassHeap tracer mode).object h =
          if h ∈ s.objects ∧ marked.get h = false then none else s.object h) ∧
        (s.maybeCollectClassHeap tracer mode).heap.length = s.heap.length ∧
        (s.maybeCollectClassHeap tracer mode).classGcScanFrom = s.heap.length ∧
        (s.maybeCollectClassHeap tracer mode).classGcSurvivors = s.objects.filter marked.get := by
  unfold maybeCollectClassHeap
  -- Nothing is collected before a collection is due, and nothing when the mark aborts.
  by_cases due : s.due mode
  · rw [if_pos due]
    dsimp only
    rcases s.classHeapMark tracer s.objects with _ | marked
    · exact .inl ⟨fun _ => rfl, fun _ => rfl, rfl, rfl, rfl⟩
    · exact .inr ⟨due, marked, rfl, sweep_spec (s := { s with classGcHeapLen := s.heap.length }) marked⟩
  · rw [if_neg due]
    exact .inl ⟨fun isDue => absurd isDue due, fun _ => rfl, rfl, rfl, rfl⟩

/-- An allocation fills the next slot. -/
theorem object_alloc (object : ClassInstance T) (h : Nat) :
    Simulator.object { s with heap := s.heap ++ [some object] } h =
      if h = s.heap.length then some object else s.object h := by
  unfold Simulator.object
  -- The new object has the slot just past the old heap.
  rw [List.getD_eq_getElem?_getD, List.getElem?_append, List.getD_eq_getElem?_getD]
  split
  · rename_i old
    rw [if_neg (by omega)]
  · rename_i new
    by_cases here : h = s.heap.length
    · rw [if_pos here, here, Nat.sub_self]
      rfl
    · rw [if_neg here, List.getElem?_eq_none (by simp; omega), List.getElem?_eq_none (by omega)]

/-- A slot that holds an object is in the heap. -/
theorem Allocated.slot {h : Nat} (alive : s.Allocated h) : h < s.heap.length := by
  by_contra outside
  unfold Allocated object at alive
  rw [List.getD_eq_default _ _ (by omega)] at alive
  cases alive

/-- A step keeps the bookkeeping. -/
theorem Tracked.step {mode : ClassGcMode} {u : Simulator T} (tracked : s.Tracked) (step : Step tracer mode s u) :
    u.Tracked := by
  have nonempty := tracked.nonempty
  have scanned := tracked.scanFrom
  cases step with
  | alloc object =>
    refine ⟨?_, by simp, by simp; omega, fun h one alive => ?_⟩
    · rw [object_alloc, if_neg (by omega)]
      exact tracked.null
    · dsimp only
      rw [List.length_append, List.length_singleton]
      by_cases new : h = s.heap.length
      · exact .inr (by omega)
      · have old : s.Allocated h := by
          unfold Allocated at alive
          rwa [object_alloc, if_neg new] at alive
        rcases tracked.tracked h one old with survivor | fresh
        · exact .inl survivor
        · exact .inr (by omega)
  | mutate slots survivors scanFrom =>
    have length : u.heap.length = s.heap.length := by simpa using congrArg List.length slots
    refine ⟨?_, length ▸ nonempty, by omega, fun h one alive => ?_⟩
    · have null := (allocated_of_slots slots 0).not
      unfold Allocated at null
      simp only [tracked.null, Option.isSome_none, Bool.false_eq_true, not_false_iff, iff_true,
        Bool.not_eq_true, Option.isSome_eq_false_iff, Option.isNone_iff_eq_none] at null
      exact null
    · rw [survivors, scanFrom, length]
      exact tracked.tracked h one ((allocated_of_slots slots h).mp alive)
  | collect =>
    rcases maybeCollect_cases tracer mode s with ⟨-, objects, length, scanFrom, survivors⟩ |
      ⟨-, marked, -, objects, length, scanFrom, survivors⟩
    · refine ⟨(objects 0).trans tracked.null, length ▸ nonempty, by omega, fun h one alive => ?_⟩
      rw [survivors, scanFrom, length]
      refine tracked.tracked h one ?_
      unfold Allocated at alive ⊢
      rwa [← objects]
    · refine ⟨?_, length ▸ nonempty, by omega, fun h one alive => .inl ?_⟩
      · rw [objects]
        split
        · rfl
        · exact tracked.null
      · -- What is still allocated after the sweep was traced and marked.
        unfold Allocated at alive
        rw [objects] at alive
        split at alive
        · cases alive
        · rename_i kept
          have member := (tracked.objects h).mpr alive
          rw [survivors, List.mem_filter]
          exact ⟨member, by simpa [member] using kept⟩

/-- Every run keeps the bookkeeping. -/
theorem Run.tracked {mode : ClassGcMode} (run : Run tracer mode s) : s.Tracked := by
  induction run with
  | start initial =>
    -- The heap opens with the null slot alone, so there is no object to track.
    refine ⟨?_, ?_, ?_, fun h one alive => ?_⟩
    · rw [object, initial.heap]
      rfl
    · rw [initial.heap]
      exact Nat.one_pos
    · rw [initial.scanFrom]
      exact Nat.zero_le _
    · have slot := alive.slot
      rw [initial.heap, List.length_singleton] at slot
      omega
  | step _ step ih => exact ih.step step

/-- In every state of a run each object is a survivor or in the slots to scan; a collection that is due and meets
no trace error then marks exactly the reachable objects and leaves exactly those allocated; one that is skipped or
aborted leaves every object. -/
theorem run_collects (tracer : Tracer T) (mode : ClassGcMode) (s : Simulator T) (run : Run tracer mode s) :
    (∀ h, 1 ≤ h → s.Allocated h →
      h ∈ s.classGcSurvivors ∨ max s.classGcScanFrom 1 ≤ h ∧ h < s.heap.length) ∧
    (s.due mode → ¬ s.TraceError tracer →
      (∃ marked, s.classHeapMark tracer s.objects = some marked ∧
        ∀ h, marked.get h = true ↔ s.Reachable tracer h) ∧
      ∀ h, (s.maybeCollectClassHeap tracer mode).Allocated h ↔ s.Reachable tracer h) ∧
    (¬ s.due mode ∨ s.TraceError tracer →
      ∀ h, (s.maybeCollectClassHeap tracer mode).Allocated h ↔ s.Allocated h) := by
  -- The objects the collector looks at are all there are, in every run.
  have tracked := run.tracked
  have aborts : s.classHeapMark tracer s.objects = none ↔ s.TraceError tracer := classHeapMark_eq_none tracked.objects
  refine ⟨tracked.tracked, fun due complete => ?_, fun idle h => ?_⟩
  · -- The mark runs through where no trace fails.
    obtain ⟨marked, done⟩ := Option.ne_none_iff_exists'.mp (aborts.not.mpr complete)
    have reached := classHeapMark_spec (fun h alive => (tracked.objects h).mpr alive) tracked.null done
    refine ⟨⟨marked, done, reached⟩, fun h => ?_⟩
    rcases maybeCollect_cases tracer mode s with ⟨idle, -⟩ | ⟨-, marked', done', objects, -⟩
    · -- A due collection whose mark ran through sweeps.
      exact absurd (done.symm.trans (idle due)) (Option.some_ne_none marked)
    · obtain rfl := Option.some.inj (done.symm.trans done')
      have traced (alive : s.Allocated h) : h ∈ s.objects := (tracked.objects h).mpr alive
      -- What is reached is allocated, as only objects are reached.
      have lives : s.Reachable tracer h → s.Allocated h := Reach.live
      unfold Allocated at traced lives ⊢
      rw [objects, ← reached]
      rw [← reached] at lives
      -- A set bit keeps the object, and a clear one frees it.
      by_cases mark : marked.get h = true
      · rw [if_neg (by simp [mark])]
        exact iff_of_true (lives mark) mark
      · have clear : marked.get h = false := Bool.eq_false_iff.mpr mark
        refine iff_of_false (fun alive => ?_) mark
        split at alive
        · cases alive
        · rename_i kept
          exact kept ⟨traced alive, clear⟩
  · -- Without a collection no slot changes.
    rcases maybeCollect_cases tracer mode s with ⟨-, objects, -⟩ | ⟨due, marked, done, -⟩
    · unfold Allocated
      rw [objects]
    · rcases idle with idle | fails
      · exact absurd due idle
      · exact absurd (done.symm.trans (aborts.mpr fails)) (Option.some_ne_none marked)

/-- Three objects are allocated: a root refers to the first, the first to the third, nothing to the second. -/
def threeObjects : Simulator Nat :=
  ⟨[none, some ⟨"c", [("next", 3)]⟩, some ⟨"c", []⟩, some ⟨"c", []⟩],
    fun _ => none, fun _ => none, fun _ => none, [], [], [1], [], 0, [], 0, 0, 0, 0⟩

/-- Data that is the handle it proposes. -/
def handleTracer : Tracer Nat := ⟨fun n => some [n], fun _ => some []⟩

/-- The collection that is due keeps the first object and the third, and frees the second. -/
theorem threeObjects_collects :
    (threeObjects.maybeCollectClassHeap handleTracer .stress).Allocated 1 ∧
      ¬ (threeObjects.maybeCollectClassHeap handleTracer .stress).Allocated 2 ∧
      (threeObjects.maybeCollectClassHeap handleTracer .stress).Allocated 3 := by
  have run : Run handleTracer .stress threeObjects :=
    .step (.step (.step (.start (s := { threeObjects with heap := [none] }) ⟨rfl, rfl, rfl⟩)
      (.alloc _ ⟨"c", [("next", 3)]⟩)) (.alloc _ ⟨"c", []⟩)) (.alloc _ ⟨"c", []⟩)
  have complete : ¬ threeObjects.TraceError handleTracer := by
    simp [TraceError, threeObjects, handleTracer]
  obtain ⟨-, due, -⟩ := run_collects handleTracer .stress threeObjects run
  obtain ⟨-, leaves⟩ := due (by decide) complete
  have root : threeObjects.Reachable handleTracer 1 :=
    .seed (.inl ⟨1, List.mem_singleton_self 1, [1], rfl, List.mem_singleton_self 1⟩) rfl
  have next : threeObjects.Reachable handleTracer 3 :=
    .edge root (.inl ⟨_, rfl, .inl ⟨_, List.mem_singleton_self _, rfl, [3], rfl, List.mem_singleton_self 3⟩⟩) rfl
  refine ⟨(leaves 1).mpr root, fun kept => ?_, (leaves 3).mpr next⟩
  -- Neither the root nor the property of the first object is a handle of the second.
  cases (leaves 2).mp kept with
  | seed root => simp [RootRef, Proposes, threeObjects, handleTracer] at root
  | @edge g _ _ refs =>
    rcases refs with ⟨object, here, refs⟩ | ⟨q, member, -⟩
    · have inHeap : some object ∈ threeObjects.heap := by
        unfold Simulator.object at here
        rw [List.getD_eq_getElem?_getD, Option.getD_eq_iff] at here
        rcases here with here | ⟨-, absent⟩
        · exact List.mem_of_getElem? here
        · cases absent
      rcases refs with ⟨q, property, -, refs⟩ | ⟨x, mailbox, -⟩
      · have two : 2 = q.2 := by simpa [Proposes, handleTracer] using refs
        have three : ∀ object, some object ∈ threeObjects.heap → ∀ q ∈ object.properties, q.2 = 3 := by
          simp [threeObjects]
        exact absurd (two.trans (three object inHeap q property)) (by decide)
      · cases mailbox
    · cases member

end Runs

end Simulator

end Xezim.Heap
