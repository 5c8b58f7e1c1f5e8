import Mathlib.Logic.Function.Basic

/-! A log of keyed entries with an index of the live entry of each key. -/

open Function

/-- Entries in the order they were made, and the position of each key's live entry. -/
structure KeyedLog (κ α : Type) where
  entries : List (κ × α)
  index : κ → Option Nat

namespace KeyedLog

variable {κ α β : Type}

/-- A log without entries. -/
def empty : KeyedLog κ α := ⟨[], fun _ => none⟩

/-- Change the value of the entry at a position. -/
def modify (l : KeyedLog κ α) (i : Nat) (f : α → α) : KeyedLog κ α :=
  { l with entries := l.entries.modify i fun e => (e.1, f e.2) }

/-- The value of a key's live entry. -/
def live (l : KeyedLog κ α) (k : κ) : Option α :=
  (l.index k).bind fun i => (l.entries[i]?).map Prod.snd

/-- Append an entry and make it its key's live one. -/
def push [DecidableEq κ] (l : KeyedLog κ α) (k : κ) (v : α) : KeyedLog κ α :=
  ⟨l.entries ++ [(k, v)], update l.index k (some l.entries.length)⟩

/-- Commit the entries in order into a table, each through a function of its key and value. -/
def replay [DecidableEq κ] (commit : κ → α → β → β) (l : KeyedLog κ α) (t : κ → β) : κ → β :=
  l.entries.foldl (fun t e => update t e.1 (commit e.1 e.2 (t e.1))) t

/-- Every indexed entry is its key's last one, and a key without an index has no entry. -/
structure WellIndexed (l : KeyedLog κ α) : Prop where
  found : ∀ k i, l.index k = some i → ∃ v, l.entries[i]? = some (k, v)
  last : ∀ k i, l.index k = some i → ∀ j e, i < j → l.entries[j]? = some e → e.1 ≠ k
  absent : ∀ k, l.index k = none → ∀ e ∈ l.entries, e.1 ≠ k

/-- The empty log is well indexed. -/
theorem wellIndexed_empty : (empty : KeyedLog κ α).WellIndexed :=
  ⟨by simp [empty], by simp [empty], by simp [empty]⟩

/-- A key has a live value exactly when it is indexed. -/
theorem WellIndexed.live_isSome {l : KeyedLog κ α} (ok : l.WellIndexed) (k : κ) :
    (l.live k).isSome = (l.index k).isSome := by
  cases indexed : l.index k with
  | none => simp [live, indexed]
  | some i =>
    obtain ⟨v, entry⟩ := ok.found k i indexed
    simp [live, indexed, entry]

/-- A key without an index has no live value. -/
theorem live_none {l : KeyedLog κ α} {k : κ} (indexed : l.index k = none) : l.live k = none := by
  simp [live, indexed]

/-- Changing an entry moves no entry, so the log stays well indexed. -/
theorem WellIndexed.modify {l : KeyedLog κ α} (ok : l.WellIndexed) (i : Nat) (f : α → α) :
    (l.modify i f).WellIndexed where
  found k j indexed := by
    obtain ⟨v, entry⟩ := ok.found k j indexed
    by_cases same : i = j
    · subst same
      exact ⟨f v, by simp [KeyedLog.modify, entry]⟩
    · exact ⟨v, by simp [KeyedLog.modify, same, entry]⟩
  last k j indexed m e later entry := by
    -- The entry at a later position keeps its key whatever happened to its value.
    simp only [KeyedLog.modify, List.getElem?_modify] at entry
    cases old : l.entries[m]? with
    | none => simp [old] at entry
    | some e' =>
      have other := ok.last k j indexed m e' later old
      split at entry <;> simp [old] at entry <;> subst entry <;> exact other
  absent k indexed e member := by
    obtain ⟨m, position⟩ := List.mem_iff_getElem?.mp member
    simp only [KeyedLog.modify, List.getElem?_modify] at position
    cases old : l.entries[m]? with
    | none => simp [old] at position
    | some e' =>
      have other := ok.absent k indexed e' (List.mem_of_getElem? old)
      split at position <;> simp [old] at position <;> subst position <;> exact other

/-- Changing a key's live entry changes its live value. -/
theorem WellIndexed.live_modify {l : KeyedLog κ α} (ok : l.WellIndexed) {k : κ} {i : Nat}
    (indexed : l.index k = some i) (f : α → α) : (l.modify i f).live k = (l.live k).map f := by
  obtain ⟨v, entry⟩ := ok.found k i indexed
  simp [live, KeyedLog.modify, indexed, entry]

/-- Changing a key's live entry leaves every other key's live value alone. -/
theorem WellIndexed.live_modify_of_ne {l : KeyedLog κ α} (ok : l.WellIndexed) {k k' : κ} {i : Nat}
    (indexed : l.index k = some i) (other : k' ≠ k) (f : α → α) :
    (l.modify i f).live k' = l.live k' := by
  cases there : l.index k' with
  | none => simp [live, KeyedLog.modify, there]
  | some j =>
    obtain ⟨v, entry⟩ := ok.found k i indexed
    obtain ⟨v', entry'⟩ := ok.found k' j there
    -- Two keys' live entries stand at different positions.
    have apart : i ≠ j := by
      rintro rfl
      rw [entry] at entry'
      simp at entry'
      exact other entry'.1.symm
    rw [live, live, KeyedLog.modify, there, Option.bind_some, Option.bind_some,
      List.getElem?_modify_ne _ _ apart]

variable [DecidableEq κ]

/-- Appending keeps the log well indexed. -/
theorem WellIndexed.push {l : KeyedLog κ α} (ok : l.WellIndexed) (k : κ) (v : α) :
    (l.push k v).WellIndexed where
  found k' j indexed := by
    by_cases same : k' = k
    · subst same
      simp only [KeyedLog.push, update_self, Option.some.injEq] at indexed
      exact ⟨v, by simp [KeyedLog.push, ← indexed]⟩
    · simp only [KeyedLog.push, update_of_ne same] at indexed
      obtain ⟨v', entry⟩ := ok.found k' j indexed
      have bound := (List.getElem?_eq_some_iff.mp entry).1
      exact ⟨v', by simp [KeyedLog.push, List.getElem?_append_left bound, entry]⟩
  last k' j indexed m e later entry := by
    by_cases same : k' = k
    · subst same
      simp only [KeyedLog.push, update_self, Option.some.injEq] at indexed
      -- Nothing stands behind the appended entry.
      have bound := (List.getElem?_eq_some_iff.mp entry).1
      simp only [KeyedLog.push, List.length_append, List.length_cons, List.length_nil] at bound
      omega
    · simp only [KeyedLog.push, update_of_ne same] at indexed
      by_cases old : m < l.entries.length
      · simp only [KeyedLog.push, List.getElem?_append_left old] at entry
        exact ok.last k' j indexed m e later entry
      · have bound := (List.getElem?_eq_some_iff.mp entry).1
        simp only [KeyedLog.push, List.length_append, List.length_cons, List.length_nil] at bound
        have here : m = l.entries.length := by omega
        simp only [KeyedLog.push, here, List.getElem?_concat_length, Option.some.injEq] at entry
        subst entry
        exact fun eq => same eq.symm
  absent k' indexed e member := by
    by_cases same : k' = k
    · subst same
      simp [KeyedLog.push] at indexed
    · simp only [KeyedLog.push, update_of_ne same] at indexed
      simp only [KeyedLog.push, List.mem_append, List.mem_singleton] at member
      rcases member with member | rfl
      · exact ok.absent k' indexed e member
      · exact fun eq => same eq.symm

/-- The appended value is its key's live one. -/
@[simp] theorem live_push (l : KeyedLog κ α) (k : κ) (v : α) : (l.push k v).live k = some v := by
  simp [live, push]

/-- Appending for one key leaves every other key's live value alone. -/
theorem WellIndexed.live_push_of_ne {l : KeyedLog κ α} (ok : l.WellIndexed) {k k' : κ}
    (other : k' ≠ k) (v : α) : (l.push k v).live k' = l.live k' := by
  cases there : l.index k' with
  | none => simp [live, KeyedLog.push, update_of_ne other, there]
  | some j =>
    obtain ⟨v', entry⟩ := ok.found k' j there
    have bound := (List.getElem?_eq_some_iff.mp entry).1
    simp [live, KeyedLog.push, update_of_ne other, there, List.getElem?_append_left bound]

/-- Committing entries for other keys leaves a key's cell alone. -/
theorem foldl_commit_of_ne {commit : κ → α → β → β} {entries : List (κ × α)} {k : κ}
    (other : ∀ e ∈ entries, e.1 ≠ k) (t : κ → β) :
    entries.foldl (fun t e => update t e.1 (commit e.1 e.2 (t e.1))) t k = t k := by
  induction entries generalizing t with
  | nil => rfl
  | cons e rest ih =>
    have here : e.1 ≠ k := other e (by simp)
    rw [List.foldl_cons, ih fun e' member => other e' (by simp [member])]
    exact update_of_ne here.symm _ _

/-- Two ways of committing entries that agree at a key leave the same there. -/
theorem foldl_commit_congr {commit commit' : κ → α → β → β} {k : κ}
    (agree : ∀ v b, commit k v b = commit' k v b) (entries : List (κ × α)) {t t' : κ → β}
    (start : t k = t' k) :
    entries.foldl (fun t e => update t e.1 (commit e.1 e.2 (t e.1))) t k =
      entries.foldl (fun t e => update t e.1 (commit' e.1 e.2 (t e.1))) t' k := by
  induction entries generalizing t t' with
  | nil => exact start
  | cons e rest ih =>
    refine ih ?_
    show update t e.1 _ k = update t' e.1 _ k
    by_cases here : k = e.1
    · subst here
      rw [update_self, update_self, agree, start]
    · rw [update_of_ne here, update_of_ne here, start]

/-- Committing entries in a way that keeps a key's cell leaves it alone. -/
theorem foldl_commit_keeps {commit : κ → α → β → β} {k : κ} (keeps : ∀ v b, commit k v b = b)
    (entries : List (κ × α)) (t : κ → β) :
    entries.foldl (fun t e => update t e.1 (commit e.1 e.2 (t e.1))) t k = t k := by
  induction entries generalizing t with
  | nil => rfl
  | cons e rest ih =>
    rw [List.foldl_cons, ih]
    by_cases here : k = e.1
    · subst here
      rw [update_self, keeps]
    · exact update_of_ne here _ _

/-- Committing overwriting entries leaves each key with its live value, or untouched. -/
theorem WellIndexed.replay_eq {l : KeyedLog κ α} (ok : l.WellIndexed) (commit : κ → α → β → β)
    (t : κ → β) (k : κ) (overwrites : ∀ v b b', commit k v b = commit k v b') :
    replay commit l t k = match l.live k with
      | some v => commit k v (t k)
      | none => t k := by
  cases indexed : l.index k with
  | none =>
    rw [live_none indexed]
    exact foldl_commit_of_ne (ok.absent k indexed) t
  | some i =>
    obtain ⟨v, entry⟩ := ok.found k i indexed
    have bound := (List.getElem?_eq_some_iff.mp entry).1
    have here := (List.getElem?_eq_some_iff.mp entry).2
    -- The entries split at the live one, and no later entry has its key.
    have split := (List.take_append_drop i l.entries).symm
    rw [List.drop_eq_getElem_cons bound, here] at split
    have later : ∀ e ∈ l.entries.drop (i + 1), e.1 ≠ k := by
      intro e member
      obtain ⟨m, position⟩ := List.mem_iff_getElem?.mp member
      rw [List.getElem?_drop] at position
      exact ok.last k i indexed _ e (by omega) position
    have live : l.live k = some v := by simp [KeyedLog.live, indexed, entry]
    rw [live]
    unfold replay
    rw [split, List.foldl_append, List.foldl_cons, foldl_commit_of_ne later]
    simp only [update_self]
    exact overwrites v _ _

end KeyedLog
