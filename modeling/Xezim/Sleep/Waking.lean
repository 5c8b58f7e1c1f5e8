import Xezim.Sleep.Records

/-! Waking every sleeper whose time has come. -/

namespace Xezim.Sleep

variable {Stream : Type}

/-- A live record of a block is due. -/
def Due (s : Engine Stream) (now : Nat) (block : Block) : Prop :=
  ∃ t k r, (t, k) ∈ s.sleepers.heap ∧ t ≤ now ∧ s.sleepers.Live k r ∧ r.block = block

/-- What waking the sleepers due does: their records are gone, their keys free and their markers clear, and nothing
else changes but the tables. -/
structure Swept (now : Nat) (s s' : Engine Stream) : Prop where
  evals : s'.profTsEvals = s.profTsEvals
  awake : s'.awake = s.awake
  heap : ∀ t k, (t, k) ∈ s'.sleepers.heap ↔ (t, k) ∈ s.sleepers.heap ∧ now < t
  live : ∀ k r, s'.sleepers.Live k r ↔ s.sleepers.Live k r ∧ ∀ t, (t, k) ∈ s.sleepers.heap → now < t
  free : ∀ k, k ∈ s.sleepers.free → k ∈ s'.sleepers.free
  freed : ∀ t k, (t, k) ∈ s.sleepers.heap → t ≤ now → k ∈ s'.sleepers.free
  cleared : ∀ block, Due s now block → s'.marker block.edge block.idx = 0
  marker : ∀ block, ¬ Due s now block → s'.marker block.edge block.idx = s.marker block.edge block.idx
  xb : ∀ block, ¬ Due s now block → s'.xb block.edge block.idx = s.xb block.edge block.idx

/-- Nothing is due. -/
theorem Swept.refl {now : Nat} {s : Engine Stream} (early : ∀ t k, (t, k) ∈ s.sleepers.heap → now < t) :
    Swept now s s := by
  have nothing : ∀ block, ¬ Due s now block := by
    rintro block ⟨t, k, r, member, due, -⟩
    exact absurd (early t k member) (Nat.not_lt.mpr due)
  refine ⟨rfl, rfl, fun t k => ⟨fun member => ⟨member, early t k member⟩, And.left⟩,
    fun k r => ⟨fun live => ⟨live, fun t member => early t k member⟩, And.left⟩, fun _ => id, fun t k member due => ?_,
    fun block due => absurd due (nothing block), fun _ _ => rfl, fun _ _ => rfl⟩
  exact absurd (early t k member) (Nat.not_lt.mpr due)

/-- One sleeper woken before the others. -/
theorem Swept.cons {now t k : Nat} {s s₁ s' : Engine Stream} {r : TsSleepRec Stream}
    {sleepers : TimedSlab (TsSleepRec Stream)} (kept : Kept s) (popped : s.sleepers.Popped now r sleepers t k)
    (woken : Woken { s with sleepers := sleepers } s₁ r) (swept : Swept now s₁ s') : Swept now s s' := by
  have store : s₁.sleepers = sleepers := woken.sleepers
  have once := kept.slab.dueOnce
  rw [popped.heap, List.map_cons, List.nodup_cons] at once
  -- The key that was due first is due no more.
  have fresh : ∀ t', (t', k) ∉ s₁.sleepers.heap := fun t' member =>
    once.1 (List.mem_map.mpr ⟨(t', k), store ▸ member, rfl⟩)
  have member_iff : ∀ t' k', (t', k') ∈ s.sleepers.heap ↔ (t', k') = (t, k) ∨ (t', k') ∈ s₁.sleepers.heap := by
    intro t' k'
    rw [popped.heap, List.mem_cons, store]
  have live_iff : ∀ k' r', s₁.sleepers.Live k' r' ↔ k' ≠ k ∧ s.sleepers.Live k' r' := by
    rw [store]
    exact popped.live_iff
  have due_iff : ∀ block, Due s now block ↔ r.block = block ∨ Due s₁ now block := by
    intro block
    constructor
    · rintro ⟨t', k', r', member, due, live, about⟩
      rcases (member_iff t' k').mp member with same | member
      · cases same
        rw [popped.live.unique live]
        exact .inl about
      · refine .inr ⟨t', k', r', member, due, (live_iff k' r').mpr ⟨fun same => ?_, live⟩, about⟩
        exact fresh t' (same ▸ member)
    · rintro (about | ⟨t', k', r', member, due, live, about⟩)
      · exact ⟨t, k, r, (member_iff t k).mpr (.inl rfl), popped.due, popped.live, about⟩
      · exact ⟨t', k', r', (member_iff t' k').mpr (.inr member), due, ((live_iff k' r').mp live).2, about⟩
  refine ⟨swept.evals.trans woken.evals, swept.awake.trans woken.awake, ?_, ?_, ?_, ?_, ?_, ?_, ?_⟩
  · intro t' k'
    rw [swept.heap, member_iff]
    constructor
    · exact fun ⟨member, later⟩ => ⟨.inr member, later⟩
    · rintro ⟨same | member, later⟩
      · cases same
        exact absurd later (Nat.not_lt.mpr popped.due)
      · exact ⟨member, later⟩
  · intro k' r'
    rw [swept.live, live_iff]
    constructor
    · rintro ⟨⟨other, live⟩, later⟩
      refine ⟨live, fun t' member => ?_⟩
      rcases (member_iff t' k').mp member with same | member
      · exact absurd (Prod.mk.inj same).2 other
      · exact later t' member
    · rintro ⟨live, later⟩
      refine ⟨⟨fun same => ?_, live⟩, fun t' member => later t' ((member_iff t' k').mpr (.inr member))⟩
      subst same
      exact absurd (later t ((member_iff t k').mpr (.inl rfl))) (Nat.not_lt.mpr popped.due)
  · intro k' free
    refine swept.free k' ?_
    rw [store, popped.ok.free_iff]
    by_cases same : k' = k
    · exact same ▸ popped.freed
    · rw [popped.others k' same]
      exact (kept.slab.free_iff k').mp free
  · intro t' k' member due
    rcases (member_iff t' k').mp member with same | member
    · cases same
      refine swept.free k ?_
      rw [store, popped.ok.free_iff]
      exact popped.freed
    · exact swept.freed t' k' member due
  · intro block due
    by_cases later : Due s₁ now block
    · exact swept.cleared block later
    · -- The first sleeper was the block's last, and no other one sets its marker.
      have about : r.block = block := ((due_iff block).mp due).resolve_right later
      rw [swept.marker block later, woken.marker, if_pos about.symm]
  · intro block not_due
    obtain ⟨other, later⟩ := not_or.mp (mt (due_iff block).mpr not_due)
    rw [swept.marker block later, woken.marker, if_neg fun same => other same.symm]
    rfl
  · intro block not_due
    obtain ⟨other, later⟩ := not_or.mp (mt (due_iff block).mpr not_due)
    rw [swept.xb block later, woken.xb _ _ fun same => other same.symm]
    rfl

/-- The loop wakes all sleepers that are due, and keeps the records. -/
theorem wakeLoop_swept {s : Engine Stream} (kept : Kept s) {now n : Nat} (enough : s.sleepers.heap.length ≤ n) :
    Kept (wakeLoop now n s) ∧ Swept now s (wakeLoop now n s) := by
  induction n generalizing s with
  | zero =>
    have idle : s.sleepers.heap = [] := List.length_eq_zero_iff.mp (Nat.le_zero.mp enough)
    exact ⟨kept, .refl fun t k member => by simp [idle] at member⟩
  | succ n ih =>
    rw [wakeLoop]
    cases next : s.sleepers.pop now with
    | none => exact ⟨kept, .refl (kept.slab.pop_none next)⟩
    | some found =>
      obtain ⟨found, sleepers⟩ := found
      obtain ⟨r, t, k, rfl, popped⟩ := kept.slab.pop_some next
      simp only
      have woken := wake_woken now { s with sleepers := sleepers } r
      have shorter : (wake now { s with sleepers := sleepers } r).sleepers.heap.length ≤ n := by
        rw [woken.sleepers]
        have length := congrArg List.length popped.heap
        rw [List.length_cons] at length
        show sleepers.heap.length ≤ n
        omega
      obtain ⟨kept', swept⟩ := ih (kept.wake popped woken) shorter
      exact ⟨kept', swept.cons kept popped woken⟩

/-- Waking the sleepers keeps the records. -/
theorem tsWakeSleepers_swept {s : Engine Stream} (kept : Kept s) :
    Kept (tsWakeSleepers s) ∧ Swept s.profTsEvals s (tsWakeSleepers s) :=
  wakeLoop_swept kept (Nat.le_refl _)

/-- What a due record holds is back in its place, and nothing holds that place any more. -/
theorem Swept.restored {now : Nat} {s s' : Engine Stream} (swept : Swept now s s') (kept : Kept s) (kept' : Kept s')
    {t k : Nat} {r : TsSleepRec Stream} (member : (t, k) ∈ s.sleepers.heap) (due : t ≤ now)
    (live : s.sleepers.Live k r) {p : Place} {f : Form Stream} (holds : r.holds p = some f) :
    Unheld s' p ∧ s'.forms.at p = f := by
  have unheld : Unheld s' p := by
    intro k' r' live'
    by_contra held
    obtain ⟨f', holds'⟩ := Option.ne_none_iff_exists'.mp held
    obtain ⟨older, later⟩ := (swept.live k' r').mp live'
    -- The place had one record, and that is the one that was due.
    have same := kept.once live older holds holds'
    exact absurd (later t (same ▸ member)) (Nat.not_lt.mpr due)
  refine ⟨unheld, ?_⟩
  rw [kept'.unheld p unheld, swept.awake]
  exact (kept.held live holds).1.symm

end Xezim.Sleep
