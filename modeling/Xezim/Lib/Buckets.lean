import Mathlib.Algebra.GroupWithZero.Nat
import Mathlib.Order.Bounds.Basic
import Mathlib.Data.List.Nodup

/-! An ordered map from keys to nonempty queues. -/

/-- Queues by key, smallest key first; an empty queue is not stored. -/
structure Buckets (κ α : Type) [LinearOrder κ] where
  entries : List (κ × List α)
  sorted : entries.Pairwise fun a b => a.1 < b.1
  filled : ∀ e ∈ entries, e.2 ≠ []

namespace Buckets

variable {κ α : Type} [LinearOrder κ]

/-- The queue of a key among sorted entries. -/
def find (k : κ) : List (κ × List α) → List α
  | [] => []
  | e :: rest => if e.1 = k then e.2 else find k rest

/-- Replace the queue of a key among sorted entries. -/
def replace (k : κ) (q : List α) : List (κ × List α) → List (κ × List α)
  | [] => if q.isEmpty then [] else [(k, q)]
  | e :: rest =>
    if k < e.1 then (if q.isEmpty then e :: rest else (k, q) :: e :: rest)
    else if e.1 = k then (if q.isEmpty then rest else (k, q) :: rest)
    else e :: replace k q rest

/-- A replaced entry is the new one or an old one of another key. -/
theorem mem_replace {k : κ} {q : List α} {entries : List (κ × List α)} {e : κ × List α}
    (member : e ∈ replace k q entries) : (e = (k, q) ∧ q ≠ []) ∨ e ∈ entries := by
  -- The walk stops at the key or at the place for it.
  induction entries with
  | nil =>
    simp only [replace] at member
    split at member
    · exact absurd member List.not_mem_nil
    · rename_i nonempty
      exact Or.inl ⟨List.mem_singleton.mp member, by simpa using nonempty⟩
  | cons head rest ih =>
    simp only [replace] at member
    split at member
    · split at member
      · exact Or.inr member
      · rename_i nonempty
        rcases List.mem_cons.mp member with rfl | old
        · exact Or.inl ⟨rfl, by simpa using nonempty⟩
        · exact Or.inr old
    · split at member
      · split at member
        · exact Or.inr (List.mem_cons_of_mem _ member)
        · rename_i nonempty
          rcases List.mem_cons.mp member with rfl | old
          · exact Or.inl ⟨rfl, by simpa using nonempty⟩
          · exact Or.inr (List.mem_cons_of_mem _ old)
      · rcases List.mem_cons.mp member with rfl | later
        · exact Or.inr List.mem_cons_self
        · exact (ih later).imp_right (List.mem_cons_of_mem _)

/-- Replacing a queue keeps the keys in order. -/
theorem sorted_replace (k : κ) (q : List α) {entries : List (κ × List α)}
    (sorted : entries.Pairwise fun a b => a.1 < b.1) :
    -- The walk keeps the keys it passes, which are below the key.
    (replace k q entries).Pairwise fun a b => a.1 < b.1 := by
  induction entries with
  | nil =>
    simp only [replace]
    split <;> simp
  | cons head rest ih =>
    obtain ⟨above, tail⟩ := List.pairwise_cons.mp sorted
    simp only [replace]
    split
    · rename_i before
      split
      · exact sorted
      · refine List.pairwise_cons.mpr ⟨fun e member => ?_, sorted⟩
        rcases List.mem_cons.mp member with rfl | later
        · exact before
        · exact before.trans (above e later)
    · rename_i notBefore
      split
      · rename_i here
        subst here
        split
        · exact tail
        · exact List.pairwise_cons.mpr ⟨above, tail⟩
      · rename_i notHere
        refine List.pairwise_cons.mpr ⟨fun e member => ?_, ih tail⟩
        -- A key of the replaced rest is the new one or an old one.
        rcases mem_replace member with ⟨rfl, -⟩ | old
        · exact lt_of_le_of_ne (not_lt.mp notBefore) notHere
        · exact above e old

/-- The map without queues. -/
def empty : Buckets κ α := ⟨[], List.Pairwise.nil, fun _ member => absurd member List.not_mem_nil⟩

/-- The queue of a key, empty where none is stored. -/
def get (m : Buckets κ α) (k : κ) : List α := find k m.entries

/-- Replace the queue of a key. -/
def set (m : Buckets κ α) (k : κ) (q : List α) : Buckets κ α where
  entries := replace k q m.entries
  sorted := sorted_replace k q m.sorted
  filled e member := by
    rcases mem_replace member with ⟨rfl, nonempty⟩ | old
    · exact nonempty
    · exact m.filled e old

/-- The least key with a queue. -/
def firstKey (m : Buckets κ α) : Option κ := m.entries.head?.map Prod.fst

/-- The least key with a queue among those above a bound. -/
def firstAbove (m : Buckets κ α) (bound : κ) : Option κ :=
  (m.entries.find? fun e => decide (bound < e.1)).map Prod.fst

/-- The keys below a bound, smallest first. -/
def keysBelow (m : Buckets κ α) (bound : κ) : List κ :=
  (m.entries.map Prod.fst).filter fun k => decide (k < bound)

/-- How many queued elements satisfy a test. -/
def count (m : Buckets κ α) (p : α → Bool) : Nat := (m.entries.map fun e => e.2.countP p).sum

/-- A key found among sorted entries stands behind no larger one. -/
theorem find_of_lt {k : κ} {entries : List (κ × List α)} (above : ∀ e ∈ entries, k < e.1) :
    find k entries = [] := by
  induction entries with
  | nil => rfl
  | cons head rest ih =>
    have here : head.1 ≠ k := (above head List.mem_cons_self).ne'
    rw [find, if_neg here]
    exact ih fun e member => above e (List.mem_cons_of_mem _ member)

/-- The empty map has no queue. -/
@[simp] theorem get_empty (k : κ) : (empty : Buckets κ α).get k = [] := rfl

/-- A replaced queue is the one then found. -/
@[simp] theorem get_set_self (m : Buckets κ α) (k : κ) (q : List α) : (m.set k q).get k = q := by
  obtain ⟨entries, sorted, filled⟩ := m
  show find k (replace k q entries) = q
  clear filled
  -- Below the key's place nothing changes, and at its place the queue is the new one.
  induction entries with
  | nil =>
    cases q <;> simp [replace, find]
  | cons head rest ih =>
    obtain ⟨above, tail⟩ := List.pairwise_cons.mp sorted
    simp only [replace]
    split
    · rename_i before
      cases q with
      | nil =>
        -- An emptied key is found nowhere.
        refine find_of_lt fun e member => ?_
        rcases List.mem_cons.mp member with rfl | later
        · exact before
        · exact before.trans (above e later)
      | cons a q => simp [find]
    · split
      · rename_i here
        subst here
        cases q with
        | nil => exact find_of_lt above
        | cons a q => simp [find]
      · rename_i other
        rw [find, if_neg other]
        exact ih tail

/-- Replacing a queue leaves every other key's one alone. -/
theorem get_set_of_ne (m : Buckets κ α) {k k' : κ} (other : k' ≠ k) (q : List α) :
    (m.set k q).get k' = m.get k' := by
  obtain ⟨entries, sorted, filled⟩ := m
  show find k' (replace k q entries) = find k' entries
  clear sorted filled
  -- Replacing one key's queue moves no other queue.
  induction entries with
  | nil => cases q <;> simp [replace, find, other.symm]
  | cons head rest ih =>
    simp only [replace]
    split
    · cases q <;> simp [find, other.symm]
    · split
      · rename_i here
        subst here
        cases q <;> simp [find, other.symm]
      · simp only [find, ih]

/-- The queue of every key after one of them was replaced. -/
theorem get_set (m : Buckets κ α) (k : κ) (q : List α) (k' : κ) :
    (m.set k q).get k' = if k' = k then q else m.get k' := by
  split
  · rename_i here
    subst here
    exact get_set_self m k' q
  · exact get_set_of_ne m ‹_› q

/-- A stored entry is the queue of its key. -/
theorem get_of_mem {m : Buckets κ α} {e : κ × List α} (member : e ∈ m.entries) :
    m.get e.1 = e.2 := by
  obtain ⟨entries, sorted, filled⟩ := m
  show find e.1 entries = e.2
  change e ∈ entries at member
  clear filled
  induction entries with
  | nil => exact absurd member List.not_mem_nil
  | cons head rest ih =>
    obtain ⟨above, tail⟩ := List.pairwise_cons.mp sorted
    -- Keys are distinct, so the first entry of a key is the only one.
    rcases List.mem_cons.mp member with rfl | later
    · simp [find]
    · rw [find, if_neg (above e later).ne]
      exact ih tail later

/-- A key with a queue is stored. -/
theorem mem_of_get_ne {m : Buckets κ α} {k : κ} (nonempty : m.get k ≠ []) :
    (k, m.get k) ∈ m.entries := by
  obtain ⟨entries, sorted, filled⟩ := m
  change find k entries ≠ [] at nonempty
  show (k, find k entries) ∈ entries
  clear sorted filled
  induction entries with
  | nil => exact absurd rfl nonempty
  | cons head rest ih =>
    simp only [find] at nonempty ⊢
    -- A queue that is found is the one stored.
    split
    · rename_i here
      subst here
      exact List.mem_cons_self
    · rename_i other
      rw [if_neg other] at nonempty
      exact List.mem_cons_of_mem _ (ih nonempty)

/-- The entries are the keys with a queue, each with its own. -/
theorem mem_entries {m : Buckets κ α} {e : κ × List α} :
    e ∈ m.entries ↔ m.get e.1 = e.2 ∧ e.2 ≠ [] := by
  constructor
  · exact fun member => ⟨get_of_mem member, m.filled e member⟩
  · rintro ⟨here, nonempty⟩
    have stored := mem_of_get_ne (here ▸ nonempty)
    rwa [here] at stored

/-- Two maps with the same queues are equal. -/
theorem ext_get {m m' : Buckets κ α} (same : ∀ k, m.get k = m'.get k) : m = m' := by
  -- Two maps with the same entries have the same sorted list of them.
  have members : ∀ e, e ∈ m.entries ↔ e ∈ m'.entries := by
    intro e
    rw [mem_entries, mem_entries, same]
  have distinct (m : Buckets κ α) : m.entries.Nodup :=
    m.sorted.imp fun lower equal => lower.ne (congrArg Prod.fst equal)
  have perm := (List.perm_ext_iff_of_nodup (distinct m) (distinct m')).mpr members
  have entries : m.entries = m'.entries :=
    perm.eq_of_pairwise (fun a b _ _ lower higher => absurd lower higher.asymm) m.sorted m'.sorted
  cases m
  cases m'
  simp only at entries
  subst entries
  rfl

/-- Replacing a queue by itself changes nothing. -/
@[simp] theorem set_get (m : Buckets κ α) (k : κ) : m.set k (m.get k) = m := by
  refine ext_get fun k' => ?_
  rw [get_set]
  split
  · rename_i here
    rw [here]
  · rfl

/-- Removing a queue that is not there changes nothing. -/
theorem set_nil {m : Buckets κ α} {k : κ} (empty : m.get k = []) : m.set k [] = m := by
  rw [← empty]
  exact set_get m k

/-- Only the last replacement of a queue counts. -/
@[simp] theorem set_set (m : Buckets κ α) (k : κ) (q q' : List α) :
    (m.set k q).set k q' = m.set k q' := by
  refine ext_get fun k' => ?_
  simp only [get_set]
  split <;> rfl

/-- The first key is the least one with a queue. -/
theorem isLeast_firstKey {m : Buckets κ α} {k : κ} (first : m.firstKey = some k) :
    IsLeast {k | m.get k ≠ []} k := by
  obtain ⟨e, head, rfl⟩ := Option.map_eq_some_iff.mp first
  have member := List.mem_of_mem_head? head
  refine ⟨?_, fun k' here => ?_⟩
  · show m.get e.1 ≠ []
    rw [get_of_mem member]
    exact m.filled e member
  have there := mem_of_get_ne here
  -- Every entry but the first stands behind it.
  obtain ⟨rest, split⟩ := List.head?_eq_some_iff.mp head
  have sorted := m.sorted
  rw [split] at there sorted
  rcases List.mem_cons.mp there with same | later
  · exact (congrArg Prod.fst same).ge
  · exact ((List.pairwise_cons.mp sorted).1 _ later).le

/-- A map without a first key has no queue. -/
theorem get_of_firstKey_none {m : Buckets κ α} (noKey : m.firstKey = none) (k : κ) :
    m.get k = [] := by
  have nil : m.entries = [] := by simpa [firstKey] using noKey
  rw [get, nil]
  rfl

/-- The least key with a queue is the first one. -/
theorem firstKey_of_isLeast {m : Buckets κ α} {k : κ} (least : IsLeast {k | m.get k ≠ []} k) :
    m.firstKey = some k := by
  cases first : m.firstKey with
  | none => exact absurd (get_of_firstKey_none first k) least.1
  | some k' => rw [(isLeast_firstKey first).unique least]

/-- The first key depends only on which keys have a queue. -/
theorem firstKey_congr {m m' : Buckets κ α} (same : ∀ k, m.get k = [] ↔ m'.get k = []) :
    m.firstKey = m'.firstKey := by
  -- The first key is the least with a queue, so it depends on which queues are empty only.
  cases first : m'.firstKey with
  | none =>
    cases first' : m.firstKey with
    | none => rfl
    | some k =>
      have queued := (isLeast_firstKey first').1
      exact absurd ((same k).mpr (get_of_firstKey_none first k)) queued
  | some k =>
    have least := isLeast_firstKey first
    exact firstKey_of_isLeast ⟨fun empty => least.1 ((same k).mp empty),
      fun k' queued => least.2 fun empty => queued ((same k').mpr empty)⟩

/-- Storing a queue can only move the first key earlier. -/
theorem firstKey_set {m : Buckets κ α} {k : κ} {q : List α} (nonempty : q ≠ []) :
    (m.set k q).firstKey = some (m.firstKey.elim k fun k' => min k' k) := by
  -- The new key is not empty, and no key before both is.
  refine firstKey_of_isLeast ?_
  cases first : m.firstKey with
  | none =>
    refine ⟨by simpa using nonempty, fun k' queued => ?_⟩
    by_contra below
    have other : k' ≠ k := fun same => below same.ge
    refine queued ?_
    rw [get_set_of_ne m other]
    exact get_of_firstKey_none first k'
  | some k₀ =>
    have least := isLeast_firstKey first
    refine ⟨?_, fun k' queued => ?_⟩
    · -- The least of the two keys has a queue whichever it is.
      show (m.set k q).get (min k₀ k) ≠ []
      by_cases same : min k₀ k = k
      · rwa [same, get_set_self]
      · rw [get_set_of_ne m same, min_eq_left (le_of_lt (not_le.mp fun h => same (min_eq_right h)))]
        exact least.1
    · -- Any other key's queue is as before.
      by_cases same : k' = k
      · exact same ▸ min_le_right _ _
      · refine (min_le_left _ _).trans (least.2 ?_)
        show m.get k' ≠ []
        rw [← get_set_of_ne m same q]
        exact queued

/-- The first key above a bound is the least such one with a queue. -/
theorem isLeast_firstAbove {m : Buckets κ α} {bound k : κ} (first : m.firstAbove bound = some k) :
    IsLeast {k | bound < k ∧ m.get k ≠ []} k := by
  obtain ⟨e, found, rfl⟩ := Option.map_eq_some_iff.mp first
  have member := List.mem_of_find?_eq_some found
  have above : bound < e.1 := by simpa using List.find?_some found
  -- The entries before the one found are not above the bound.
  refine ⟨⟨above, by rw [get_of_mem member]; exact m.filled e member⟩, fun k' here => ?_⟩
  have there := mem_of_get_ne here.2
  obtain ⟨-, before, after, split, lower⟩ := List.find?_eq_some_iff_append.mp found
  have sorted := m.sorted
  rw [split] at there sorted
  rcases List.mem_append.mp there with early | late
  · exact absurd here.1 (by simpa using lower _ early)
  · rcases List.mem_cons.mp late with same | later
    · exact (congrArg Prod.fst same).ge
    · exact ((List.pairwise_cons.mp (List.pairwise_append.mp sorted).2.1).1 _ later).le

/-- Without a key above a bound no such key has a queue. -/
theorem get_of_firstAbove_none {m : Buckets κ α} {bound : κ} (noKey : m.firstAbove bound = none)
    {k : κ} (above : bound < k) : m.get k = [] := by
  by_contra nonempty
  have absent := List.find?_eq_none.mp (Option.map_eq_none_iff.mp noKey)
  exact absent _ (mem_of_get_ne nonempty) (by simpa using above)

/-- The keys below a bound are the ones with a queue. -/
theorem mem_keysBelow {m : Buckets κ α} {bound k : κ} :
    k ∈ m.keysBelow bound ↔ m.get k ≠ [] ∧ k < bound := by
  simp only [keysBelow, List.mem_filter, List.mem_map, decide_eq_true_eq]
  refine and_congr_left fun _ => ⟨?_, fun nonempty => ⟨_, mem_of_get_ne nonempty, rfl⟩⟩
  rintro ⟨e, member, rfl⟩
  rw [get_of_mem member]
  exact m.filled e member

/-- Every key below a bound is listed once. -/
theorem nodup_keysBelow (m : Buckets κ α) (bound : κ) : (m.keysBelow bound).Nodup := by
  refine List.Nodup.filter _ ?_
  exact (List.pairwise_map.mpr m.sorted).imp fun lower => ne_of_lt lower

/-- Replacing a queue trades what it counts. -/
theorem count_set (m : Buckets κ α) (k : κ) (q : List α) (p : α → Bool) :
    (m.set k q).count p + (m.get k).countP p = m.count p + q.countP p := by
  obtain ⟨entries, sorted, filled⟩ := m
  show ((replace k q entries).map fun e => e.2.countP p).sum + (find k entries).countP p =
    -- Only the entry of the key counts anew.
    (entries.map fun e => e.2.countP p).sum + q.countP p
  clear filled
  induction entries with
  | nil => cases q <;> simp [replace, find]
  | cons head rest ih =>
    obtain ⟨above, tail⟩ := List.pairwise_cons.mp sorted
    simp only [replace]
    split
    · rename_i before
      -- A key that the list has no entry for counts nothing.
      have absent : find k (head :: rest) = [] := by
        refine find_of_lt fun e member => ?_
        rcases List.mem_cons.mp member with rfl | later
        · exact before
        · exact before.trans (above e later)
      rw [absent]
      cases q <;> simp [Nat.add_comm]
    · split
      · rename_i here
        rw [find, if_pos here]
        cases q <;> simp [Nat.add_comm, Nat.add_left_comm]
      · rename_i other
        have later := ih tail
        simp only [find, if_neg other, List.map_cons, List.sum_cons]
        omega

/-- Something is counted exactly where some queue holds it. -/
theorem count_pos_iff {m : Buckets κ α} {p : α → Bool} :
    0 < m.count p ↔ ∃ k, ∃ a ∈ m.get k, p a = true := by
  -- An entry that counts is stored under its key.
  rw [count, List.sum_pos_iff_exists_pos_nat]
  constructor
  · rintro ⟨n, member, positive⟩
    obtain ⟨e, stored, rfl⟩ := List.mem_map.mp member
    obtain ⟨a, inside, holds⟩ := List.countP_pos_iff.mp positive
    exact ⟨e.1, a, by rwa [get_of_mem stored], holds⟩
  · rintro ⟨k, a, inside, holds⟩
    have stored := mem_of_get_ne (List.ne_nil_of_mem inside)
    exact ⟨_, List.mem_map_of_mem stored, List.countP_pos_iff.mpr ⟨a, inside, holds⟩⟩

/-- Keep the queued elements that satisfy a test. -/
def filter (m : Buckets κ α) (p : α → Bool) : Buckets κ α where
  entries := (m.entries.map fun e => (e.1, e.2.filter p)).filter fun e => !e.2.isEmpty
  sorted := List.Pairwise.filter _ (List.pairwise_map.mpr m.sorted)
  filled e member := by simpa using (List.mem_filter.mp member).2

/-- Keeping elements keeps them in every queue. -/
@[simp] theorem get_filter (m : Buckets κ α) (p : α → Bool) (k : κ) :
    (m.filter p).get k = (m.get k).filter p := by
  -- A queue filtered to nothing is dropped, and its key is then found nowhere.
  by_cases kept : (m.get k).filter p = []
  · rw [kept]
    by_contra nonempty
    obtain ⟨e, member, same⟩ := List.mem_map.mp (List.mem_of_mem_filter (mem_of_get_ne nonempty))
    obtain ⟨rfl, queue⟩ := Prod.mk.inj same
    rw [get_of_mem member, queue] at kept
    exact nonempty kept
  · have nonempty : m.get k ≠ [] := by
      rintro empty
      exact kept (by rw [empty]; rfl)
    have member : (k, (m.get k).filter p) ∈ (m.filter p).entries :=
      List.mem_filter.mpr ⟨List.mem_map.mpr ⟨_, mem_of_get_ne nonempty, rfl⟩, by simpa using kept⟩
    exact get_of_mem member

/-- Keeping elements counts what satisfies both tests. -/
theorem count_filter (m : Buckets κ α) (p q : α → Bool) :
    (m.filter p).count q = m.count fun a => q a && p a := by
  obtain ⟨entries, sorted, filled⟩ := m
  show (((entries.map fun e => (e.1, e.2.filter p)).filter fun e => !e.2.isEmpty).map
    fun e => e.2.countP q).sum = (entries.map fun e => e.2.countP fun a => q a && p a).sum
  clear sorted filled
  induction entries with
  | nil => rfl
  | cons head rest ih =>
    rw [List.map_cons, List.filter_cons, List.map_cons, List.sum_cons, ← ih, ← List.countP_filter]
    -- An emptied queue counts nothing.
    by_cases empty : head.2.filter p = []
    · simp [empty]
    · rw [if_pos (by simpa using empty), List.map_cons, List.sum_cons]

/-- Nothing is kept away where every element satisfies the test. -/
theorem filter_eq_self {m : Buckets κ α} {p : α → Bool} (all : ∀ k, ∀ a ∈ m.get k, p a = true) :
    m.filter p = m :=
  ext_get fun k => by rw [get_filter, List.filter_eq_self.mpr (all k)]

section Map

variable {β : Type} (f : α → β)

/-- Change every queued element. -/
def map (m : Buckets κ α) : Buckets κ β where
  entries := m.entries.map fun e => (e.1, e.2.map f)
  sorted := List.pairwise_map.mpr m.sorted
  filled e member := by
    obtain ⟨old, stored, rfl⟩ := List.mem_map.mp member
    simpa using m.filled old stored

/-- The changed queue of a key. -/
@[simp] theorem get_map (m : Buckets κ α) (k : κ) : (m.map f).get k = (m.get k).map f := by
  obtain ⟨entries, sorted, filled⟩ := m
  -- Mapping keeps the keys in place.
  show find k (entries.map fun e => (e.1, e.2.map f)) = (find k entries).map f
  clear sorted filled
  induction entries with
  | nil => rfl
  | cons head rest ih =>
    simp only [List.map_cons, find, ih]
    split <;> rfl

/-- Changing elements and replacing a queue commute. -/
theorem map_set (m : Buckets κ α) (k : κ) (q : List α) : (m.set k q).map f = (m.map f).set k (q.map f) := by
  refine ext_get fun k' => ?_
  simp only [get_map, get_set]
  split <;> rfl

/-- Changed elements leave the keys below a bound. -/
@[simp] theorem keysBelow_map (m : Buckets κ α) (bound : κ) : (m.map f).keysBelow bound = m.keysBelow bound := by
  simp [keysBelow, map, Function.comp_def]

/-- Changed elements leave the first key. -/
@[simp] theorem firstKey_map (m : Buckets κ α) : (m.map f).firstKey = m.firstKey := by
  simp [firstKey, map, Function.comp_def]

/-- Changed elements leave the first key above a bound. -/
@[simp] theorem firstAbove_map (m : Buckets κ α) (bound : κ) : (m.map f).firstAbove bound = m.firstAbove bound := by
  simp [firstAbove, map, List.find?_map, Function.comp_def]

end Map

/-- The first element that satisfies a test, smallest key first. -/
def findFirst (m : Buckets κ α) (p : α → Bool) : Option (κ × α) :=
  m.entries.findSome? fun e => (e.2.find? p).map fun a => (e.1, a)

/-- Nothing is found where no element satisfies the test. -/
theorem findFirst_eq_none {m : Buckets κ α} {p : α → Bool} :
    m.findFirst p = none ↔ ∀ k, ∀ a ∈ m.get k, p a = false := by
  simp only [findFirst, List.findSome?_eq_none_iff, Option.map_eq_none_iff, List.find?_eq_none,
    Bool.not_eq_true]
  constructor
  · intro absent k a member
    exact absent _ (mem_of_get_ne (List.ne_nil_of_mem member)) a member
  · intro absent e member a inside
    exact absent e.1 a (by rwa [get_of_mem member])

/-- The first element is at the least key whose queue has one, and the first one there. -/
theorem findFirst_spec {m : Buckets κ α} {p : α → Bool} {k : κ} {a : α}
    (found : m.findFirst p = some (k, a)) :
    IsLeast {k | ∃ a ∈ m.get k, p a = true} k ∧ (m.get k).find? p = some a := by
  obtain ⟨before, e, after, split, here, lower⟩ := List.findSome?_eq_some_iff.mp found
  obtain ⟨a', first, same⟩ := Option.map_eq_some_iff.mp here
  obtain ⟨rfl, rfl⟩ := Prod.mk.inj same
  have member : e ∈ m.entries := split ▸ List.mem_append_right _ List.mem_cons_self
  have sorted := m.sorted
  rw [split] at sorted
  refine ⟨⟨⟨a', ?_, List.find?_some first⟩, ?_⟩, by rwa [get_of_mem member]⟩
  · rw [get_of_mem member]
    exact List.mem_of_find?_eq_some first
  · rintro k' ⟨b, inside, holds⟩
    have stored := mem_of_get_ne (List.ne_nil_of_mem inside)
    rw [split] at stored
    rcases List.mem_append.mp stored with early | late
    · -- An earlier queue has no such element.
      have unfound := Option.map_eq_none_iff.mp (lower _ early)
      exact absurd holds (List.find?_eq_none.mp unfound b inside)
    · rcases List.mem_cons.mp late with same | later
      · exact (congrArg Prod.fst same).ge
      · exact ((List.pairwise_cons.mp (List.pairwise_append.mp sorted).2.1).1 _ later).le

/-- The first element of the least such key is the one found. -/
theorem findFirst_of_least {m : Buckets κ α} {p : α → Bool} {k : κ} {a : α}
    (least : IsLeast {k | ∃ a ∈ m.get k, p a = true} k) (first : (m.get k).find? p = some a) :
    m.findFirst p = some (k, a) := by
  -- The search walks the keys in order.
  cases found : m.findFirst p with
  | none =>
    obtain ⟨b, inside, holds⟩ := least.1
    exact absurd holds (by rw [findFirst_eq_none.mp found k b inside]; decide)
  | some r =>
    obtain ⟨least', first'⟩ := findFirst_spec found
    have same := least'.unique least
    rw [same, first] at first'
    exact congrArg some (Prod.ext same (Option.some.inj first').symm)

end Buckets
