import Xezim.Sleep.Runs

/-! What the records of sleeping blocks hold, and that noting a bail and waking a sleeper keep it. -/

namespace Xezim.Sleep

variable {Stream : Type}

/-- A place through which a block runs two-state: an arena header, a plan, or a slot. -/
inductive Place where
  | hdr (idx : Nat)
  | plan (idx : Nat)
  | comb (idx : Nat)
  | edge (idx : Nat)
  deriving DecidableEq

/-- What stands in a place. -/
inductive Form (Stream : Type) where
  | lenKind (n : Nat)
  | plan (plan : CombPlan Stream)
  | slot (slot : TsSlot Stream)
  deriving DecidableEq

/-- The form that keeps a block from running two-state. -/
def Place.disabled : Place → Form Stream
  | hdr _ => .lenKind 0
  | plan _ => .plan .interp
  | comb _ => .slot .no
  | edge _ => .slot .no

/-- The form in a place. -/
def Forms.at (forms : Forms Stream) : Place → Form Stream
  | .hdr idx => .lenKind (forms.tsHdr idx).lenKind
  | .plan idx => .plan (forms.combPlan idx)
  | .comb idx => .slot (forms.tsComb idx)
  | .edge idx => .slot (forms.tsEdge idx)

/-- What a record holds of a place. -/
def TsSleepRec.holds (r : TsSleepRec Stream) : Place → Option (Form Stream)
  | .hdr idx => if r.kind = .plan ∧ r.idx = idx ∧ r.lenKind ≠ 0 then some (.lenKind r.lenKind) else none
  | .plan idx => if r.kind = .plan ∧ r.idx = idx then r.plan.map .plan else none
  | .comb idx => if r.kind = .slot ∧ r.idx = idx then r.slot.map .slot else none
  | .edge idx => if r.kind = .edge ∧ r.idx = idx then r.slot.map .slot else none

/-- The block a record is about. -/
def TsSleepRec.block (r : TsSleepRec Stream) : Block := ⟨r.kind.isEdge, r.idx⟩

/-- A live record is about a block. -/
def Asleep (s : Engine Stream) (block : Block) : Prop := ∃ k r, s.sleepers.Live k r ∧ r.block = block

/-- No live record holds a place. -/
def Unheld (s : Engine Stream) (p : Place) : Prop := ∀ k r, s.sleepers.Live k r → r.holds p = none

/-- The records hold what was disabled, each place once, and every other place is as if nothing slept. -/
structure Kept (s : Engine Stream) : Prop where
  slab : s.sleepers.Ok
  held : ∀ {k r p f}, s.sleepers.Live k r → r.holds p = some f →
    f = s.awake.at p ∧ s.forms.at p = p.disabled ∧ f ≠ p.disabled
  once : ∀ {k k' r r' p f f'}, s.sleepers.Live k r → s.sleepers.Live k' r' → r.holds p = some f →
    r'.holds p = some f' → k = k'
  unheld : ∀ p, Unheld s p → s.forms.at p = s.awake.at p
  planned : ∀ {k r}, s.sleepers.Live k r → r.kind = .plan → r.plan.isSome
  marked : ∀ edge idx, s.marker edge idx ≠ 0 → Asleep s ⟨edge, idx⟩

/-- A place that is not disabled is held by no record. -/
theorem Kept.unheld_of_enabled {s : Engine Stream} (kept : Kept s) {p : Place} (enabled : s.forms.at p ≠ p.disabled) :
    Unheld s p := by
  intro k r live
  by_contra held
  obtain ⟨f, holds⟩ := Option.ne_none_iff_exists'.mp held
  exact enabled (kept.held live holds).2.1

/-- The records concern the tables, the sleepers and the markers alone. -/
theorem Kept.congr {s s' : Engine Stream} (kept : Kept s) (forms : s'.forms = s.forms) (awake : s'.awake = s.awake)
    (sleepers : s'.sleepers = s.sleepers) (marker : ∀ edge idx, s'.marker edge idx ≠ 0 → s.marker edge idx ≠ 0) :
    Kept s' := by
  -- The forms and the records are the same, and a marker that is set was set before.
  obtain ⟨slab, held, once, unheld, planned, marked⟩ := kept
  refine ⟨sleepers ▸ slab, ?_, ?_, ?_, ?_, ?_⟩
  · intro k r p f live holds
    rw [forms, awake]
    exact held (sleepers ▸ live) holds
  · intro k k' r r' p f f' live live' holds holds'
    exact once (sleepers ▸ live) (sleepers ▸ live') holds holds'
  · intro p nothing
    rw [forms, awake]
    exact unheld p fun k r live => nothing k r (by rw [sleepers]; exact live)
  · intro k r live kind
    exact planned (sleepers ▸ live) kind
  · intro edge idx set
    obtain ⟨k, r, live, same⟩ := marked edge idx (marker edge idx set)
    exact ⟨k, r, by rw [sleepers]; exact live, same⟩

/-- A place that no record holds may change, asleep and awake alike. -/
theorem Kept.put {s s' : Engine Stream} (kept : Kept s) {p : Place} {f : Form Stream} (free : Unheld s p)
    (forms : ∀ q, s'.forms.at q = if q = p then f else s.forms.at q)
    (awake : ∀ q, s'.awake.at q = if q = p then f else s.awake.at q)
    (sleepers : s'.sleepers = s.sleepers) (marker : ∀ edge idx, s'.marker edge idx = s.marker edge idx) : Kept s' := by
  -- No record holds the place, so the records still describe every other one.
  refine ⟨sleepers ▸ kept.slab, ?_, ?_, ?_, ?_, ?_⟩
  · intro k r q g live holds
    have live : s.sleepers.Live k r := sleepers ▸ live
    have other : q ≠ p := fun same => by
      rw [same, free k r live] at holds
      cases holds
    rw [forms q, awake q, if_neg other, if_neg other]
    exact kept.held live holds
  · intro k k' r r' q g g' live live' holds holds'
    exact kept.once (sleepers ▸ live) (sleepers ▸ live') holds holds'
  · intro q nothing
    rw [forms q, awake q]
    split
    · rfl
    · exact kept.unheld q fun k r live => nothing k r (by rw [sleepers]; exact live)
  · intro k r live kind
    exact kept.planned (sleepers ▸ live) kind
  · intro edge idx set
    rw [marker] at set
    obtain ⟨k, r, live, same⟩ := kept.marked edge idx set
    exact ⟨k, r, by rw [sleepers]; exact live, same⟩

/-- What a block runs through is enabled. -/
def Enabled (forms : Forms Stream) (kind : Kind) (idx : Nat) : Prop :=
  match kind with
  | .plan => ∃ block, forms.combPlan idx = .ts block
  | .slot => ∃ block, forms.tsComb idx = .yes block
  | .edge => ∃ block, forms.tsEdge idx = .yes block

/-- What a swap does to every place: what it takes is recorded and disabled, the rest stays. -/
structure Swapped (forms forms' : Forms Stream) (r : TsSleepRec Stream) : Prop where
  taken : ∀ p f, r.holds p = some f → f = forms.at p ∧ f ≠ p.disabled ∧ forms'.at p = p.disabled
  left : ∀ p, r.holds p = none → forms'.at p = forms.at p
  planned : r.kind = .plan → r.plan.isSome

/-- An enabled block is swapped out. -/
theorem swapOut_enabled {forms : Forms Stream} {kind : Kind} {idx : Nat} (now : Nat)
    (enabled : Enabled forms kind idx) :
    ∃ r forms', swapOut forms kind idx now = some (r, forms') ∧ r.block = ⟨kind.isEdge, idx⟩ ∧
      Swapped forms forms' r := by
  -- What the record holds is what was there, and its places are disabled; the rest is as it was.
  cases kind with
  | plan =>
    obtain ⟨block, plan⟩ := enabled
    refine ⟨_, _, by rw [swapOut, plan], rfl, ⟨?_, ?_, fun _ => rfl⟩⟩
    · intro p f holds
      cases p with
      | hdr i =>
        simp only [TsSleepRec.holds, Option.ite_none_right_eq_some, Option.some.injEq] at holds
        obtain ⟨⟨-, rfl, set⟩, rfl⟩ := holds
        simp [Forms.at, Place.disabled, set]
      | plan i =>
        simp only [TsSleepRec.holds, Option.ite_none_right_eq_some, Option.map_some, Option.some.injEq] at holds
        obtain ⟨⟨-, rfl⟩, rfl⟩ := holds
        simp [Forms.at, Place.disabled, plan]
      | comb i => simp [TsSleepRec.holds] at holds
      | edge i => simp [TsSleepRec.holds] at holds
    · intro p holds
      cases p with
      | hdr i =>
        simp only [TsSleepRec.holds, true_and, ite_eq_right_iff, reduceCtorEq, imp_false, not_and, not_not] at holds
        simp only [Forms.at]
        split
        · rename_i set
          by_cases same : idx = i
          · exact absurd (holds same) set
          · rw [Function.update_of_ne (Ne.symm same)]
        · rfl
      | plan i =>
        have other : ¬ idx = i := fun same => by simp [TsSleepRec.holds, same] at holds
        simp [Forms.at, Function.update_of_ne (Ne.symm other)]
      | comb i => rfl
      | edge i => rfl
  | slot =>
    obtain ⟨block, slot⟩ := enabled
    refine ⟨_, _, rfl, rfl, ⟨?_, ?_, fun impossible => by cases impossible⟩⟩
    · intro p f holds
      cases p with
      | comb i =>
        simp only [TsSleepRec.holds, Option.ite_none_right_eq_some, Option.map_some, Option.some.injEq] at holds
        obtain ⟨⟨-, rfl⟩, rfl⟩ := holds
        simp [Forms.at, Place.disabled, slot]
      | _ => simp [TsSleepRec.holds] at holds
    · intro p holds
      cases p with
      | comb i =>
        have other : ¬ idx = i := fun same => by simp [TsSleepRec.holds, same] at holds
        simp [Forms.at, Function.update_of_ne (Ne.symm other)]
      | _ => rfl
  | edge =>
    obtain ⟨block, slot⟩ := enabled
    refine ⟨_, _, rfl, rfl, ⟨?_, ?_, fun impossible => by cases impossible⟩⟩
    · intro p f holds
      cases p with
      | edge i =>
        simp only [TsSleepRec.holds, Option.ite_none_right_eq_some, Option.map_some, Option.some.injEq] at holds
        obtain ⟨⟨-, rfl⟩, rfl⟩ := holds
        simp [Forms.at, Place.disabled, slot]
      | _ => simp [TsSleepRec.holds] at holds
    · intro p holds
      cases p with
      | edge i =>
        have other : ¬ idx = i := fun same => by simp [TsSleepRec.holds, same] at holds
        simp [Forms.at, Function.update_of_ne (Ne.symm other)]
      | _ => rfl

/-- What a record puts back. -/
theorem putBack_at (r : TsSleepRec Stream) (forms : Forms Stream) (p : Place) :
    (r.putBack forms).at p = (r.holds p).getD (forms.at p) := by
  -- Putting back writes the places the record holds and no other.
  obtain ⟨kind, idx, lenKind, sleptAt, plan, slot⟩ := r
  cases kind with
  | plan =>
    cases p with
    | hdr i =>
      by_cases same : idx = i
      · subst same
        by_cases set : lenKind ≠ 0 <;> simp [TsSleepRec.putBack, TsSleepRec.holds, Forms.at, set]
      · by_cases set : lenKind ≠ 0 <;>
          simp [TsSleepRec.putBack, TsSleepRec.holds, Forms.at, set, same, Function.update_of_ne (Ne.symm same)]
    | plan i =>
      by_cases same : idx = i
      · subst same
        cases plan <;> simp [TsSleepRec.putBack, TsSleepRec.holds, Forms.at]
      · cases plan <;>
          simp [TsSleepRec.putBack, TsSleepRec.holds, Forms.at, same, Function.update_of_ne (Ne.symm same)]
    | comb i => simp [TsSleepRec.putBack, TsSleepRec.holds, Forms.at]
    | edge i => simp [TsSleepRec.putBack, TsSleepRec.holds, Forms.at]
  | slot =>
    cases p with
    | comb i =>
      by_cases same : idx = i
      · subst same
        cases slot <;> simp [TsSleepRec.putBack, TsSleepRec.holds, Forms.at]
      · cases slot <;>
          simp [TsSleepRec.putBack, TsSleepRec.holds, Forms.at, same, Function.update_of_ne (Ne.symm same)]
    | _ => cases slot <;> simp [TsSleepRec.putBack, TsSleepRec.holds, Forms.at]
  | edge =>
    cases p with
    | edge i =>
      by_cases same : idx = i
      · subst same
        cases slot <;> simp [TsSleepRec.putBack, TsSleepRec.holds, Forms.at]
      · cases slot <;>
          simp [TsSleepRec.putBack, TsSleepRec.holds, Forms.at, same, Function.update_of_ne (Ne.symm same)]
    | _ => cases slot <;> simp [TsSleepRec.putBack, TsSleepRec.holds, Forms.at]

section Tables

variable (s : Engine Stream) (edge : Bool) (idx : Nat)

@[simp] theorem setXb_forms (x : Streak) : (s.setXb edge idx x).forms = s.forms := by
  cases edge <;> rfl

@[simp] theorem setXb_awake (x : Streak) : (s.setXb edge idx x).awake = s.awake := by
  cases edge <;> rfl

@[simp] theorem setXb_sleepers (x : Streak) : (s.setXb edge idx x).sleepers = s.sleepers := by
  cases edge <;> rfl

@[simp] theorem setXb_evals (x : Streak) : (s.setXb edge idx x).profTsEvals = s.profTsEvals := by
  cases edge <;> rfl

@[simp] theorem setXb_marker (x : Streak) (e : Bool) (i : Nat) : (s.setXb edge idx x).marker e i = s.marker e i := by
  cases edge <;> rfl

@[simp] theorem setMarker_forms (n : Nat) : (s.setMarker edge idx n).forms = s.forms := by
  cases edge <;> rfl

@[simp] theorem setMarker_awake (n : Nat) : (s.setMarker edge idx n).awake = s.awake := by
  cases edge <;> rfl

@[simp] theorem setMarker_sleepers (n : Nat) : (s.setMarker edge idx n).sleepers = s.sleepers := by
  cases edge <;> rfl

@[simp] theorem setMarker_evals (n : Nat) : (s.setMarker edge idx n).profTsEvals = s.profTsEvals := by
  cases edge <;> rfl

@[simp] theorem setMarker_xb (n : Nat) (e : Bool) (i : Nat) : (s.setMarker edge idx n).xb e i = s.xb e i := by
  cases edge <;> rfl

/-- The bails of a block after those of one were replaced. -/
theorem xb_setXb (x : Streak) (e : Bool) (i : Nat) :
    (s.setXb edge idx x).xb e i = if e = edge ∧ i = idx then x else s.xb e i := by
  cases edge <;> cases e <;> simp [Engine.setXb, Engine.xb, Function.update_apply]

/-- The marker of a block after that of one was replaced. -/
theorem marker_setMarker (n : Nat) (e : Bool) (i : Nat) :
    (s.setMarker edge idx n).marker e i = if e = edge ∧ i = idx then n else s.marker e i := by
  cases edge <;> cases e <;> simp [Engine.setMarker, Engine.marker, Function.update_apply]

end Tables

/-- What noting a bail does: one more bail of its block, and a long enough streak puts the block to sleep. -/
structure Noted (s s' : Engine Stream) (block : Block) : Prop where
  evals : s'.profTsEvals = s.profTsEvals
  awake : s'.awake = s.awake
  counted : s'.xb block.edge block.idx = countBail s.profTsEvals (s.xb block.edge block.idx)
  others : ∀ e i, (⟨e, i⟩ : Block) ≠ block → s'.xb e i = s.xb e i
  live : ∀ {k r}, s.sleepers.Live k r → s'.sleepers.Live k r
  asleep : tsXbailStreak ≤ (s'.xb block.edge block.idx).streak → Asleep s' block

/-- Noting the bail of an enabled block keeps the records. -/
theorem Kept.note {s : Engine Stream} (kept : Kept s) {kind : Kind} {idx : Nat} (enabled : Enabled s.forms kind idx) :
    Kept (tsXbailNote s kind idx) ∧ Noted s (tsXbailNote s kind idx) ⟨kind.isEdge, idx⟩ := by
  unfold tsXbailNote
  extract_lets now x s₁ wakeAt s₂
  have counted : s₁.xb kind.isEdge idx = x := by rw [xb_setXb, if_pos ⟨rfl, rfl⟩]
  have others : ∀ e i, (⟨e, i⟩ : Block) ≠ ⟨kind.isEdge, idx⟩ → s₁.xb e i = s.xb e i := by
    intro e i other
    rw [xb_setXb, if_neg fun same => other (by rw [same.1, same.2])]
  split
  · -- The streak is still short.
    rename_i short
    refine ⟨kept.congr (by simp [s₁]) (by simp [s₁]) (by simp [s₁]) (fun e i => by simp [s₁]), ?_⟩
    refine ⟨by simp [s₁], by simp [s₁], counted, others, fun live => by simpa [s₁] using live, fun long => ?_⟩
    rw [counted] at long
    omega
  · obtain ⟨r, forms', swap, block, swapped⟩ := swapOut_enabled now enabled
    have same : s₂.forms = s.forms := by simp [s₂, s₁]
    have store : s₂.sleepers = s.sleepers := by simp [s₂, s₁]
    have truth : s₂.awake = s.awake := by simp [s₂, s₁]
    rw [same, swap]
    simp only
    have live_iff : ∀ k r', (s₂.sleepers.push wakeAt r).Live k r' ↔
        k = s.sleepers.nextKey ∧ r' = r ∨ s.sleepers.Live k r' := by
      rw [store]
      exact kept.slab.live_push wakeAt r
    have new : (s₂.sleepers.push wakeAt r).Live s.sleepers.nextKey r := (live_iff _ _).mpr (.inl ⟨rfl, rfl⟩)
    -- No older record holds what the new one takes: it was enabled.
    have apart : ∀ {k r' p f f'}, s.sleepers.Live k r' → r.holds p = some f → r'.holds p = some f' → False := by
      intro k r' p f f' live holds holds'
      obtain ⟨taken, enabled', -⟩ := swapped.taken p f holds
      exact enabled' (taken.trans (kept.held live holds').2.1)
    have free : ∀ {p f}, r.holds p = some f → Unheld s p := by
      intro p f holds k r' live
      by_contra held
      obtain ⟨f', holds'⟩ := Option.ne_none_iff_exists'.mp held
      exact apart live holds holds'
    refine ⟨⟨?_, ?_, ?_, ?_, ?_, ?_⟩, ?_, truth, ?_, ?_, ?_, ?_⟩
    · show (s₂.sleepers.push wakeAt r).Ok
      rw [store]
      exact kept.slab.push wakeAt r
    · intro k r' p f live holds
      show f = s₂.awake.at p ∧ forms'.at p = p.disabled ∧ f ≠ p.disabled
      rw [truth]
      rcases (live_iff k r').mp live with ⟨-, rfl⟩ | live
      · obtain ⟨taken, enabled', gone⟩ := swapped.taken p f holds
        exact ⟨taken.trans (kept.unheld p (free holds)), gone, enabled'⟩
      · have other : r.holds p = none := by
          by_contra held
          obtain ⟨f', holds'⟩ := Option.ne_none_iff_exists'.mp held
          exact apart live holds' holds
        rw [swapped.left p other]
        exact kept.held live holds
    · intro k k' r' r'' p f f' live live' holds holds'
      rcases (live_iff k r').mp live with ⟨rfl, rfl⟩ | older
      · rcases (live_iff k' r'').mp live' with ⟨rfl, -⟩ | older'
        · rfl
        · exact (apart older' holds holds').elim
      · rcases (live_iff k' r'').mp live' with ⟨-, rfl⟩ | older'
        · exact (apart older holds' holds).elim
        · exact kept.once older older' holds holds'
    · intro p nothing
      show forms'.at p = s₂.awake.at p
      rw [truth, swapped.left p (nothing _ _ new)]
      exact kept.unheld p fun k r' live => nothing k r' ((live_iff k r').mpr (.inr live))
    · intro k r' live plan
      rcases (live_iff k r').mp live with ⟨-, rfl⟩ | live
      · exact swapped.planned plan
      · exact kept.planned live plan
    · intro e i set
      change s₂.marker e i ≠ 0 at set
      rw [marker_setMarker] at set
      split at set
      · -- The block that has just been put to sleep.
        rename_i this
        exact ⟨_, r, new, by rw [block, this.1, this.2]⟩
      · rw [setXb_marker] at set
        obtain ⟨k, r', live, about⟩ := kept.marked e i set
        exact ⟨k, r', (live_iff k r').mpr (.inr live), about⟩
    · simp [s₂, s₁]
    · show s₂.xb kind.isEdge idx = x
      rw [setMarker_xb, counted]
    · intro e i other
      show s₂.xb e i = s.xb e i
      rw [setMarker_xb, others e i other]
    · exact fun live => (live_iff _ _).mpr (.inr live)
    · exact fun _ => ⟨_, r, new, block⟩

/-- What waking one sleeper does: what its record holds is back, and its block is marked awake. -/
structure Woken (s s' : Engine Stream) (r : TsSleepRec Stream) : Prop where
  evals : s'.profTsEvals = s.profTsEvals
  awake : s'.awake = s.awake
  sleepers : s'.sleepers = s.sleepers
  forms : ∀ p, s'.forms.at p = (r.holds p).getD (s.forms.at p)
  marker : ∀ e i, s'.marker e i = if (⟨e, i⟩ : Block) = r.block then 0 else s.marker e i
  xb : ∀ e i, (⟨e, i⟩ : Block) ≠ r.block → s'.xb e i = s.xb e i

/-- Waking one sleeper. -/
theorem wake_woken (now : Nat) (s : Engine Stream) (r : TsSleepRec Stream) : Woken s (wake now s r) r := by
  unfold wake
  extract_lets edge evals s₁ slept cadence old s₂
  -- The wake puts the record's form back and clears the block's marker.
  refine ⟨by simp [s₂, s₁], by simp [s₂, s₁], by simp [s₂, s₁], fun p => ?_, fun e i => ?_, fun e i other => ?_⟩
  · show (r.putBack s₂.forms).at p = _
    rw [putBack_at]
    simp [s₂, s₁]
  · show s₂.marker e i = _
    rw [setXb_marker, marker_setMarker]
    simp [TsSleepRec.block, edge]
  · show s₂.xb e i = _
    rw [xb_setXb, setMarker_xb, if_neg]
    intro same
    exact other (by simp [TsSleepRec.block, same.1, same.2, edge])

/-- Waking the sleeper whose record has been taken out keeps the records. -/
theorem Kept.wake {s s' : Engine Stream} (kept : Kept s) {now t k : Nat} {r : TsSleepRec Stream}
    {sleepers : TimedSlab (TsSleepRec Stream)} (popped : s.sleepers.Popped now r sleepers t k)
    (woken : Woken { s with sleepers := sleepers } s' r) : Kept s' := by
  obtain ⟨-, truth, store, forms, marker, -⟩ := woken
  change s'.awake = s.awake at truth
  change s'.sleepers = sleepers at store
  have live_iff : ∀ k' r', s'.sleepers.Live k' r' ↔ k' ≠ k ∧ s.sleepers.Live k' r' := by
    rw [store]
    exact popped.live_iff
  refine ⟨store ▸ popped.ok, ?_, ?_, ?_, ?_, ?_⟩
  · intro k' r' p f live holds
    obtain ⟨other, live⟩ := (live_iff k' r').mp live
    -- A place has one record, so the one taken out holds nothing of this one.
    have apart : r.holds p = none := by
      by_contra held
      obtain ⟨f', holds'⟩ := Option.ne_none_iff_exists'.mp held
      exact other (kept.once live popped.live holds holds')
    rw [truth, forms p, apart]
    exact kept.held live holds
  · intro k' k'' r' r'' p f f' live live' holds holds'
    exact kept.once ((live_iff _ _).mp live).2 ((live_iff _ _).mp live').2 holds holds'
  · intro p nothing
    rw [forms p, truth]
    cases holds : r.holds p with
    | some f => exact (kept.held popped.live holds).1
    | none =>
      refine kept.unheld p fun k' r' live => ?_
      by_cases same : k' = k
      · subst same
        rw [popped.live.unique live] at holds
        exact holds
      · exact nothing k' r' ((live_iff k' r').mpr ⟨same, live⟩)
  · intro k' r' live plan
    exact kept.planned ((live_iff _ _).mp live).2 plan
  · intro e i set
    rw [marker] at set
    split at set
    · exact absurd rfl set
    · rename_i other
      obtain ⟨k', r', live, about⟩ := kept.marked e i set
      refine ⟨k', r', (live_iff k' r').mpr ⟨fun same => ?_, live⟩, about⟩
      subst same
      rw [popped.live.unique live] at other
      exact other about.symm

end Xezim.Sleep
