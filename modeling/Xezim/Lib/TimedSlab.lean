import Mathlib.Data.List.Sort
import Mathlib.Tactic.Common

/-! Records kept under reused keys, each to be taken out again at its time. -/

namespace Xezim

/-- Records by key, the keys free for reuse, and the times at which the others are due, earliest first. -/
structure TimedSlab (ρ : Type) where
  recs : List (Option ρ)
  free : List Nat
  heap : List (Nat × Nat)
  deriving DecidableEq

namespace TimedSlab

variable {ρ : Type}

/-- The order of the heap: by time, then by key. -/
def Before (a b : Nat × Nat) : Prop := a.1 < b.1 ∨ a.1 = b.1 ∧ a.2 ≤ b.2

instance : DecidableRel Before := fun a b => inferInstanceAs (Decidable (a.1 < b.1 ∨ a.1 = b.1 ∧ a.2 ≤ b.2))

instance : Std.Total Before := ⟨fun a b => by unfold Before; omega⟩

instance : IsTrans (Nat × Nat) Before := ⟨fun a b c first second => by unfold Before at *; omega⟩

/-- No records. -/
def empty : TimedSlab ρ := ⟨[], [], []⟩

/-- A record held under a key. -/
def Live (s : TimedSlab ρ) (k : Nat) (r : ρ) : Prop := s.recs[k]? = some (some r)

/-- The key of the next record. -/
def nextKey (s : TimedSlab ρ) : Nat :=
  match s.free with
  | k :: _ => k
  | [] => s.recs.length

/-- A record put in, due at a time. -/
def push (s : TimedSlab ρ) (t : Nat) (r : ρ) : TimedSlab ρ :=
  match s.free with
  | k :: free => ⟨s.recs.set k (some r), free, s.heap.orderedInsert Before (t, k)⟩
  | [] => ⟨s.recs ++ [some r], [], s.heap.orderedInsert Before (t, s.recs.length)⟩

/-- The first record due, taken out; no record when its key holds none. -/
def pop (s : TimedSlab ρ) (now : Nat) : Option (Option ρ × TimedSlab ρ) :=
  match s.heap with
  | [] => none
  | (t, k) :: rest =>
    if now < t then none
    else match s.recs[k]?.join with
      | none => some (none, ⟨s.recs, s.free, rest⟩)
      | some r => some (some r, ⟨s.recs.set k none, k :: s.free, rest⟩)

/-- Every key is free or due once, and the due ones hold records. -/
structure Ok (s : TimedSlab ρ) : Prop where
  sorted : s.heap.Pairwise Before
  dueOnce : (s.heap.map Prod.snd).Nodup
  due_iff : ∀ k, k ∈ s.heap.map Prod.snd ↔ ∃ r, s.Live k r
  freeOnce : s.free.Nodup
  free_iff : ∀ k, k ∈ s.free ↔ s.recs[k]? = some none

theorem ok_empty : Ok (empty : TimedSlab ρ) :=
  ⟨.nil, .nil, fun k => by simp [empty, Live], .nil, fun k => by simp [empty]⟩

theorem not_live_empty (k : Nat) (r : ρ) : ¬ (empty : TimedSlab ρ).Live k r := by simp [empty, Live]

/-- A key holds one record. -/
theorem Live.unique {s : TimedSlab ρ} {k : Nat} {r r' : ρ} (first : s.Live k r) (second : s.Live k r') : r = r' := by
  unfold Live at first second
  rw [first] at second
  cases second
  rfl

/-- No key is both free and due. -/
theorem Ok.free_not_due {s : TimedSlab ρ} (ok : s.Ok) {k : Nat} (free : k ∈ s.free) : k ∉ s.heap.map Prod.snd := by
  intro due
  obtain ⟨r, live⟩ := (ok.due_iff k).mp due
  rw [Live, (ok.free_iff k).mp free] at live
  cases live

/-- The next key holds no record. -/
theorem Ok.not_live_nextKey {s : TimedSlab ρ} (ok : s.Ok) (r : ρ) : ¬ s.Live s.nextKey r := by
  intro live
  unfold nextKey at live
  cases keys : s.free with
  | nil =>
    rw [keys] at live
    simp [Live] at live
  | cons k free =>
    rw [keys] at live
    exact ok.free_not_due (keys ▸ List.mem_cons_self) ((ok.due_iff k).mpr ⟨r, live⟩)

/-- What a key holds after a record was put in. -/
theorem Ok.recs_push {s : TimedSlab ρ} (ok : s.Ok) (t : Nat) (r : ρ) (k : Nat) :
    (s.push t r).recs[k]? = if k = s.nextKey then some (some r) else s.recs[k]? := by
  unfold push nextKey
  cases keys : s.free with
  | nil =>
    simp only
    split
    · rename_i same
      simp [same]
    · rename_i other
      rcases Nat.lt_or_ge k s.recs.length with inside | beyond
      · rw [List.getElem?_append_left inside]
      · rw [List.getElem?_eq_none beyond, List.getElem?_eq_none (by simp; omega)]
  | cons j free =>
    have present : j < s.recs.length := by
      have held := (ok.free_iff j).mp (keys ▸ List.mem_cons_self)
      exact (List.getElem?_eq_some_iff.mp held).1
    simp only
    split
    · rename_i same
      rw [same, List.getElem?_set_self present]
    · rename_i other
      rw [List.getElem?_set_ne (fun same => other same.symm)]

/-- The records after one was put in. -/
theorem Ok.live_push {s : TimedSlab ρ} (ok : s.Ok) (t : Nat) (r : ρ) (k : Nat) (r' : ρ) :
    (s.push t r).Live k r' ↔ k = s.nextKey ∧ r' = r ∨ s.Live k r' := by
  rw [Live, ok.recs_push]
  split
  · rename_i same
    have gone : ¬ s.Live k r' := same ▸ ok.not_live_nextKey r'
    simp [same, eq_comm]
    intro live
    exact absurd (same ▸ live) gone
  · rename_i other
    simp [other, Live]

/-- What is due after a record was put in. -/
theorem heap_push (s : TimedSlab ρ) (t : Nat) (r : ρ) :
    (s.push t r).heap = s.heap.orderedInsert Before (t, s.nextKey) := by
  unfold push nextKey
  cases s.free <;> rfl

/-- Putting a record in keeps the keys apart. -/
theorem Ok.push {s : TimedSlab ρ} (ok : s.Ok) (t : Nat) (r : ρ) : (s.push t r).Ok := by
  have perm : ((s.push t r).heap.map Prod.snd).Perm (s.nextKey :: s.heap.map Prod.snd) := by
    rw [heap_push]
    exact (List.perm_orderedInsert Before (t, s.nextKey) s.heap).map Prod.snd
  have fresh : s.nextKey ∉ s.heap.map Prod.snd := fun due => by
    obtain ⟨r', live⟩ := (ok.due_iff _).mp due
    exact ok.not_live_nextKey r' live
  refine ⟨?_, perm.nodup_iff.mpr (List.nodup_cons.mpr ⟨fresh, ok.dueOnce⟩), fun k => ?_, ?_, fun k => ?_⟩
  · rw [heap_push]
    exact ok.sorted.orderedInsert _ _
  · rw [perm.mem_iff, List.mem_cons, ok.due_iff]
    constructor
    · rintro (rfl | ⟨r', live⟩)
      · exact ⟨r, (ok.live_push t r _ r).mpr (.inl ⟨rfl, rfl⟩)⟩
      · exact ⟨r', (ok.live_push t r k r').mpr (.inr live)⟩
    · rintro ⟨r', live⟩
      exact ((ok.live_push t r k r').mp live).imp And.left fun live => ⟨r', live⟩
  · unfold TimedSlab.push
    cases keys : s.free with
    | nil => exact .nil
    | cons j free => exact (List.nodup_cons.mp (keys ▸ ok.freeOnce)).2
  · rw [ok.recs_push]
    have old := ok.free_iff k
    have once := ok.freeOnce
    unfold TimedSlab.push nextKey
    cases keys : s.free with
    | nil =>
      rw [keys] at old
      simp only
      split
      · simp
      · exact old
    | cons j free =>
      rw [keys] at old once
      simp only
      split
      · rename_i same
        rw [same]
        simp [(List.nodup_cons.mp once).1]
      · rename_i other
        simpa [other] using old

/-- Nothing is due yet. -/
theorem Ok.pop_none {s : TimedSlab ρ} (ok : s.Ok) {now : Nat} (nothing : s.pop now = none) :
    ∀ t k, (t, k) ∈ s.heap → now < t := by
  intro t k member
  unfold pop at nothing
  have sorted := ok.sorted
  cases heap : s.heap with
  | nil =>
    rw [heap] at member
    cases member
  | cons top rest =>
    rw [heap] at member nothing sorted
    have early : now < top.1 := by
      by_contra late
      simp only [late, if_false] at nothing
      cases held : s.recs[top.2]?.join with
      | none => simp [held] at nothing
      | some r => simp [held] at nothing
    rcases List.mem_cons.mp member with same | member
    · rw [← same] at early
      exact early
    · -- The heap is sorted, so what comes later is due later.
      have later := (List.pairwise_cons.mp sorted).1 _ member
      unfold Before at later
      omega

/-- What taking out the first record due does. -/
structure Popped (s : TimedSlab ρ) (now : Nat) (r : ρ) (s' : TimedSlab ρ) (t k : Nat) : Prop where
  due : t ≤ now
  heap : s.heap = (t, k) :: s'.heap
  live : s.Live k r
  freed : s'.recs[k]? = some none
  others : ∀ k', k' ≠ k → s'.recs[k']? = s.recs[k']?
  ok : s'.Ok

/-- A pop takes out the record under the key that is due first. -/
theorem Ok.pop_some {s s' : TimedSlab ρ} (ok : s.Ok) {now : Nat} {found : Option ρ}
    (popped : s.pop now = some (found, s')) : ∃ r t k, found = some r ∧ Popped s now r s' t k := by
  unfold pop at popped
  cases heap : s.heap with
  | nil => simp [heap] at popped
  | cons top rest =>
    obtain ⟨t, k⟩ := top
    obtain ⟨r, live⟩ := (ok.due_iff k).mp (by simp [heap])
    have present : k < s.recs.length := (List.getElem?_eq_some_iff.mp live).1
    have once := ok.dueOnce
    rw [heap, List.map_cons, List.nodup_cons] at once
    rw [heap] at popped
    simp only at popped
    split at popped
    · cases popped
    · rename_i due
      rw [show s.recs[k]?.join = some r by rw [live]; rfl] at popped
      obtain ⟨rfl, rfl⟩ := Prod.mk.inj (Option.some.inj popped)
      have others : ∀ k', k' ≠ k → (s.recs.set k none)[k']? = s.recs[k']? :=
        fun k' other => List.getElem?_set_ne (fun same => other same.symm)
      have freed : (s.recs.set k none)[k]? = some none := List.getElem?_set_self present
      refine ⟨r, t, k, rfl, Nat.le_of_not_lt due, heap, live, freed, others, ?_⟩
      refine ⟨(List.pairwise_cons.mp (heap ▸ ok.sorted)).2, once.2, fun k' => ?_, ?_, fun k' => ?_⟩
      · by_cases same : k' = k
        · -- The key was due once, and that was this time.
          subst same
          simp [Live, freed, once.1]
        · have old := ok.due_iff k'
          rw [heap, List.map_cons, List.mem_cons, or_iff_right same] at old
          simpa [Live, others k' same] using old
      · refine List.nodup_cons.mpr ⟨fun free => ?_, ok.freeOnce⟩
        exact ok.free_not_due free (by simp [heap])
      · by_cases same : k' = k
        · subst same
          simp [freed]
        · rw [others k' same, ← ok.free_iff k']
          simp [same]

/-- The records after one was taken out. -/
theorem Popped.live_iff {s s' : TimedSlab ρ} {now t k : Nat} {r : ρ} (popped : Popped s now r s' t k) (k' : Nat)
    (r' : ρ) : s'.Live k' r' ↔ k' ≠ k ∧ s.Live k' r' := by
  by_cases same : k' = k
  · subst same
    simp [Live, popped.freed]
  · simp [Live, popped.others k' same, same]

end TimedSlab

end Xezim
