import Xezim.Sleep.Waking

/-! What one evaluation of a block does to the records of sleeping blocks and to the counts of bails. -/

namespace Xezim.Sleep

variable {Stream : Type}

/-- The records are kept, and an entry with an arena header has a two-state plan, but for sleeping. -/
structure Sound (s : Engine Stream) : Prop where
  kept : Kept s
  headed : ∀ idx, (s.awake.tsHdr idx).lenKind ≠ 0 → ∃ block, s.awake.combPlan idx = .ts block

/-- A step that counts no bail and wakes no block. -/
structure Calm (s s' : Engine Stream) : Prop where
  sound : Sound s'
  live : ∀ {k r}, s.sleepers.Live k r → s'.sleepers.Live k r
  xb : ∀ block : Block, s'.xb block.edge block.idx = s.xb block.edge block.idx

/-- A step that counts the bail of one block, if it is one, and wakes no block. -/
structure Ran (s s' : Engine Stream) (bailed : Option Block) : Prop where
  sound : Sound s'
  live : ∀ {k r}, s.sleepers.Live k r → s'.sleepers.Live k r
  counted : ∀ block, bailed = some block →
    s'.xb block.edge block.idx = countBail s.profTsEvals (s.xb block.edge block.idx) ∧
      (tsXbailStreak ≤ (s'.xb block.edge block.idx).streak → Asleep s' block)
  others : ∀ block, bailed ≠ some block → s'.xb block.edge block.idx = s.xb block.edge block.idx

section Sequences

variable {s s₁ s' : Engine Stream} {bailed : Option Block}

theorem Calm.refl (sound : Sound s) : Calm s s := ⟨sound, id, fun _ => rfl⟩

theorem Calm.trans (first : Calm s s₁) (second : Calm s₁ s') : Calm s s' :=
  ⟨second.sound, fun live => second.live (first.live live), fun block => (second.xb block).trans (first.xb block)⟩

/-- A step without a bail. -/
theorem Calm.ran (calm : Calm s s') : Ran s s' none :=
  ⟨calm.sound, calm.live, fun _ impossible => (Option.some_ne_none _ impossible.symm).elim,
    fun block _ => calm.xb block⟩

/-- What comes before an attempt counts nothing. -/
theorem Ran.after (first : Calm s s₁) (evals : s₁.profTsEvals = s.profTsEvals) (ran : Ran s₁ s' bailed) :
    Ran s s' bailed := by
  refine ⟨ran.sound, fun live => ran.live (first.live live), fun block same => ?_, fun block other => ?_⟩
  · obtain ⟨counted, asleep⟩ := ran.counted block same
    rw [counted, evals, first.xb block]
    exact ⟨rfl, fun long => asleep (by rw [counted, evals, first.xb block]; exact long)⟩
  · exact (ran.others block other).trans (first.xb block)

/-- What comes after an attempt counts nothing. -/
theorem Ran.before (ran : Ran s s₁ bailed) (second : Calm s₁ s') : Ran s s' bailed := by
  refine ⟨second.sound, fun live => second.live (ran.live live), fun block same => ?_, fun block other => ?_⟩
  · obtain ⟨counted, asleep⟩ := ran.counted block same
    refine ⟨(second.xb block).trans counted, fun long => ?_⟩
    rw [second.xb block] at long
    obtain ⟨k, r, live, about⟩ := asleep long
    exact ⟨k, r, second.live live, about⟩
  · exact (second.xb block).trans (ran.others block other)

/-- A step that leaves the tables, the sleepers and the bails alone, and marks no block asleep. -/
theorem Sound.calm (sound : Sound s) (forms : s'.forms = s.forms) (awake : s'.awake = s.awake)
    (sleepers : s'.sleepers = s.sleepers) (marker : ∀ edge idx, s'.marker edge idx ≠ 0 → s.marker edge idx ≠ 0)
    (xb : ∀ edge idx, s'.xb edge idx = s.xb edge idx) : Calm s s' :=
  ⟨⟨sound.kept.congr forms awake sleepers marker, awake ▸ sound.headed⟩, fun live => by rw [sleepers]; exact live,
    fun _ => xb _ _⟩

end Sequences

section Changes

variable {s : Engine Stream} {idx : Nat}

/-- A record of an entry's header is one of its plan too. -/
theorem Kept.unheld_hdr (kept : Kept s) (free : Unheld s (.plan idx)) : Unheld s (.hdr idx) := by
  intro k r live
  by_contra held
  simp only [TsSleepRec.holds, ite_eq_right_iff, reduceCtorEq, imp_false, not_not] at held
  obtain ⟨kind, about, -⟩ := held
  obtain ⟨plan, planned⟩ := Option.isSome_iff_exists.mp (kept.planned live kind)
  have holds := free k r live
  simp [TsSleepRec.holds, kind, about, planned] at holds

theorem Kept.setPlan (kept : Kept s) (free : Unheld s (.plan idx)) (plan : CombPlan Stream) :
    Kept (s.setPlan idx plan) := by
  refine kept.put free (f := .plan plan) (fun q => ?_) (fun q => ?_) rfl fun _ _ => rfl
  all_goals
    -- The plan of another block is untouched.
    cases q with
    | plan i =>
      by_cases same : i = idx
      · subst same
        simp [Engine.setPlan, Forms.at]
      · simp [Engine.setPlan, Forms.at, same]
    | _ => simp [Engine.setPlan, Forms.at]

theorem Kept.setHdr (kept : Kept s) (free : Unheld s (.hdr idx)) (h : TsHdr) : Kept (s.setHdr idx h) := by
  refine kept.put free (f := .lenKind h.lenKind) (fun q => ?_) (fun q => ?_) rfl fun _ _ => rfl
  all_goals
    -- The header of another block is untouched.
    cases q with
    | hdr i =>
      by_cases same : i = idx
      · subst same
        simp [Engine.setHdr, Forms.at]
      · simp [Engine.setHdr, Forms.at, same]
    | _ => simp [Engine.setHdr, Forms.at]

theorem Kept.setComb (kept : Kept s) (free : Unheld s (.comb idx)) (slot : TsSlot Stream) :
    Kept (s.setComb idx slot) := by
  refine kept.put free (f := .slot slot) (fun q => ?_) (fun q => ?_) rfl fun _ _ => rfl
  -- The slot of another block is untouched.
  all_goals
    cases q with
    | comb i =>
      by_cases same : i = idx
      · subst same
        simp [Engine.setComb, Forms.at]
      · simp [Engine.setComb, Forms.at, same]
    | _ => simp [Engine.setComb, Forms.at]

theorem Kept.setEdge (kept : Kept s) (free : Unheld s (.edge idx)) (slot : TsSlot Stream) :
    Kept (s.setEdge idx slot) := by
  refine kept.put free (f := .slot slot) (fun q => ?_) (fun q => ?_) rfl fun _ _ => rfl
  -- The slot of another block is untouched.
  all_goals
    cases q with
    | edge i =>
      by_cases same : i = idx
      · subst same
        simp [Engine.setEdge, Forms.at]
      · simp [Engine.setEdge, Forms.at, same]
    | _ => simp [Engine.setEdge, Forms.at]

/-- A slot that is not disabled may change. -/
theorem Sound.setSlot (sound : Sound s) {edge : Bool} (enabled : s.slot edge idx ≠ .no) (slot : TsSlot Stream) :
    Calm s (s.setSlot edge idx slot) := by
  cases edge with
  | true =>
    have free : Unheld s (.edge idx) := sound.kept.unheld_of_enabled fun same => enabled (Form.slot.inj same)
    exact ⟨⟨sound.kept.setEdge free slot, sound.headed⟩, id, fun _ => rfl⟩
  | false =>
    have free : Unheld s (.comb idx) := sound.kept.unheld_of_enabled fun same => enabled (Form.slot.inj same)
    exact ⟨⟨sound.kept.setComb free slot, sound.headed⟩, id, fun _ => rfl⟩

/-- The plan that is not disabled is the one awake. -/
theorem Kept.awake_plan (kept : Kept s) (free : Unheld s (.plan idx)) :
    s.awake.combPlan idx = s.forms.combPlan idx :=
  (Form.plan.inj (kept.unheld _ free)).symm

/-- A plan that is neither two-state nor disabled may change. -/
theorem Sound.setPlan (sound : Sound s) (enabled : s.forms.combPlan idx ≠ .interp)
    (native : ∀ block, s.forms.combPlan idx ≠ .ts block) (plan : CombPlan Stream) : Calm s (s.setPlan idx plan) := by
  have free : Unheld s (.plan idx) := sound.kept.unheld_of_enabled fun same => enabled (Form.plan.inj same)
  refine ⟨⟨sound.kept.setPlan free plan, fun i set => ?_⟩, id, fun _ => rfl⟩
  obtain ⟨block, two⟩ := sound.headed i set
  by_cases same : i = idx
  · -- An entry without a two-state plan has no header.
    subst same
    rw [sound.kept.awake_plan free] at two
    exact absurd two (native block)
  · exact ⟨block, by simpa [Engine.setPlan, same] using two⟩

/-- A plan whose native code dies. -/
theorem Sound.downgrade (sound : Sound s) : Calm s (downgradeCombPlan s idx) := by
  unfold downgradeCombPlan
  cases plan : s.forms.combPlan idx with
  | jit => exact sound.setPlan (by simp [plan]) (by simp [plan]) _
  | tpl => exact sound.setPlan (by simp [plan]) (by simp [plan]) _
  | _ => exact .refl sound

/-- An aborted two-state plan is demoted with its header. -/
theorem Sound.abortPlan (sound : Sound s)
    (two : s.tsExecAborted = true → ∃ block, s.forms.combPlan idx = .ts block) : Calm s (abortPlan s idx) := by
  unfold Sleep.abortPlan
  -- Only an attempt that aborted takes the plan, and it ran a two-state block.
  split
  · rename_i aborted
    obtain ⟨block, plan⟩ := two aborted
    extract_lets n s₁
    have counted : Calm s s₁ := sound.calm rfl rfl rfl (fun _ _ => id) fun _ _ => rfl
    split
    · -- The block is enabled, so it is no sleeper and its places can be rewritten.
      have free : Unheld s₁ (.plan idx) :=
        counted.sound.kept.unheld_of_enabled (by simp [s₁, Forms.at, Place.disabled, plan])
      have free' : Unheld (s₁.setPlan idx .interp) (.hdr idx) := counted.sound.kept.unheld_hdr free
      have kept := (counted.sound.kept.setPlan free .interp).setHdr free' { s₁.forms.tsHdr idx with lenKind := 0 }
      refine counted.trans ⟨⟨kept, fun i set => ?_⟩, id, fun _ => rfl⟩
      -- The header goes with the plan, so no header is left without its block.
      by_cases same : i = idx
      · subst same
        simp [Engine.setHdr, Engine.setPlan] at set
      · simp only [Engine.setHdr, Engine.setPlan, Function.update_of_ne same] at set ⊢
        exact counted.sound.headed i set
    · exact counted
  · exact .refl sound

/-- An aborted slot is demoted. -/
theorem Sound.abortSlot (sound : Sound s) {edge : Bool}
    (two : s.tsExecAborted = true → ∃ block, s.slot edge idx = .yes block) : Calm s (abortSlot s edge idx) := by
  unfold Sleep.abortSlot
  -- Only an attempt that aborted takes the slot, and it ran a two-state block.
  split
  · rename_i aborted
    obtain ⟨block, slot⟩ := two aborted
    extract_lets n s₁
    -- Counting the abort leaves the forms alone.
    have forms : s₁.forms = s.forms := by cases edge <;> rfl
    have counted : Calm s s₁ := by
      cases edge <;> exact sound.calm rfl rfl rfl (fun _ _ => id) fun _ _ => rfl
    split
    · refine counted.trans (counted.sound.setSlot ?_ _)
      have same : s₁.slot edge idx = s.slot edge idx := by unfold Engine.slot; rw [forms]
      simp [same, slot]
    · exact counted
  · exact .refl sound

/-- A slot lowered at its first evaluation. -/
theorem Sound.lowerSlot (sound : Sound s) {edge : Bool} (lowered : Option (TwoStateBlock Stream)) :
    Calm s (lowerSlot s edge idx lowered) ∧ (lowerSlot s edge idx lowered).profTsEvals = s.profTsEvals := by
  unfold Sleep.lowerSlot
  cases slot : s.slot edge idx with
  | untried =>
    refine ⟨sound.setSlot (by simp [slot]) _, ?_⟩
    cases edge <;> rfl
  | _ => exact ⟨.refl sound, rfl⟩

/-- An interpreted evaluation of a block. -/
theorem Sound.noteInterpreted (sound : Sound s) (edge : Bool) : Calm s (s.noteInterpreted edge idx) := by
  unfold Engine.noteInterpreted
  -- The count only grows, and only that of a block whose marker says it is asleep.
  split
  · rename_i asleep
    refine sound.calm (by simp) (by simp) (by simp) (fun e i set => ?_) fun e i => by simp
    rw [marker_setMarker] at set
    split at set
    · rename_i this
      rw [this.1, this.2]
      exact asleep.2
    · exact set
  · exact .refl sound

/-- A plan that no record holds becomes a two-state one, its entry's header whatever it is. -/
theorem Kept.setTs {s₀ : Engine Stream} (kept : Kept s) (free : Unheld s (.plan idx))
    (headed : ∀ i, i ≠ idx → (s.awake.tsHdr i).lenKind ≠ 0 → ∃ block, s.awake.combPlan i = .ts block)
    (sleepers : s.sleepers = s₀.sleepers) (xb : ∀ edge i, s.xb edge i = s₀.xb edge i) (block : TwoStateBlock Stream) :
    Calm s₀ (s.setPlan idx (.ts block)) := by
  refine ⟨⟨kept.setPlan free _, fun i set => ?_⟩, fun live => ?_, fun b => xb b.edge b.idx⟩
  · -- The block set here has its plan, and the others had theirs.
    by_cases same : i = idx
    · exact ⟨block, by simp [Engine.setPlan, same]⟩
    · obtain ⟨other, two⟩ := headed i same set
      exact ⟨other, by simpa [Engine.setPlan, same] using two⟩
  · show s.sleepers.Live _ _
    rw [sleepers]
    exact live

/-- A stream appended to the arena changes its entry's header at most. -/
structure Placed (s s' : Engine Stream) (idx : Nat) : Prop where
  kept : Kept s'
  hdr : ∀ i, i ≠ idx → s'.awake.tsHdr i = s.awake.tsHdr i
  plan : s'.awake.combPlan = s.awake.combPlan
  slots : s'.forms.tsComb = s.forms.tsComb
  sleepers : s'.sleepers = s.sleepers
  xb : ∀ edge i, s'.xb edge i = s.xb edge i
  evals : s'.profTsEvals = s.profTsEvals

/-- An entry whose plan no record holds gets a header. -/
theorem Kept.placeInArena (kept : Kept s) (free : Unheld s (.plan idx)) (block : TwoStateBlock Stream) :
    Placed s (placeInArena s idx block) idx := by
  unfold Sleep.placeInArena
  split
  · refine ⟨(kept.setHdr (kept.unheld_hdr free) _).congr rfl rfl rfl fun _ _ => id, fun i other => ?_, rfl, rfl, rfl,
      fun _ _ => rfl, rfl⟩
    simp [Engine.setHdr, other]
  · exact ⟨kept, fun _ _ => rfl, rfl, rfl, rfl, fun _ _ => rfl, rfl⟩

/-- A plan resolved where the entry does not lower. -/
theorem Sound.setNative (sound : Sound s) (plan : s.forms.combPlan idx = .unresolved) (jit tpl : Bool) :
    Calm s (s.setPlan idx (if jit then .jit else if tpl then .tpl else .interp)) :=
  sound.setPlan (by simp [plan]) (by simp [plan]) _

/-- An entry lowered at its first evaluation through a plan, which then is resolved. -/
theorem Sound.resolvePlan (sound : Sound s) (tsOn : Bool) (lowered : Option (TwoStateBlock Stream)) (jit tpl : Bool) :
    Calm s (resolvePlan s idx tsOn lowered jit tpl) ∧
      (resolvePlan s idx tsOn lowered jit tpl).profTsEvals = s.profTsEvals := by
  unfold Sleep.resolvePlan
  cases plan : s.forms.combPlan idx with
  | unresolved =>
    have free : Unheld s (.plan idx) :=
      sound.kept.unheld_of_enabled (by simp [Forms.at, Place.disabled, plan])
    simp only [resolveCombPlan]
    cases tsOn with
    | false => exact ⟨sound.setNative plan jit tpl, rfl⟩
    | true =>
      simp only [if_true, lowerComb]
      cases slot : s.forms.tsComb idx with
      | no =>
        simp only [slot]
        exact ⟨sound.setNative plan jit tpl, rfl⟩
      | yes block =>
        simp only [slot]
        exact ⟨sound.kept.setTs free (fun i _ => sound.headed i) rfl (fun _ _ => rfl) block, rfl⟩
      | untried =>
        have fresh : Unheld s (.comb idx) :=
          sound.kept.unheld_of_enabled (by simp [Forms.at, Place.disabled, slot])
        cases lowered with
        | none =>
          have calm : Calm s (s.setComb idx .no) :=
            ⟨⟨sound.kept.setComb fresh _, sound.headed⟩, id, fun _ => rfl⟩
          have unresolved : (s.setComb idx .no).forms.combPlan idx = .unresolved := by simpa [Engine.setComb] using plan
          have final := calm.sound.setNative unresolved jit tpl
          simp only [TsSlot.ofLowered, Engine.setComb, Function.update_self]
          exact ⟨calm.trans final, rfl⟩
        | some block =>
          -- The header and the plan come together.
          have placed := sound.kept.placeInArena free block
          have fresh' : Unheld (placeInArena s idx block) (.comb idx) := fun k r live =>
            fresh k r (placed.sleepers ▸ live)
          have kept := placed.kept.setComb fresh' (.yes block)
          have free' : Unheld ((placeInArena s idx block).setComb idx (.yes block)) (.plan idx) := fun k r live =>
            free k r (placed.sleepers ▸ live)
          have final := @Kept.setTs _ _ _ s kept free' (fun i other set => ?_) placed.sleepers placed.xb block
          · simp only [TsSlot.ofLowered, Engine.setComb, Function.update_self] at final ⊢
            exact ⟨final, placed.evals⟩
          · change ((placeInArena s idx block).awake.tsHdr i).lenKind ≠ 0 at set
            rw [placed.hdr i other] at set
            show ∃ block', (placeInArena s idx block).awake.combPlan i = .ts block'
            rw [placed.plan]
            exact sound.headed i set
  | _ => exact ⟨.refl sound, rfl⟩

end Changes

end Xezim.Sleep
