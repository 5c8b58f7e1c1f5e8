import Xezim.Sleep.Evaluations

/-! In every run, the records of sleeping blocks are exact; where no arena evaluation bails on an x read, every such
bail is counted. -/

namespace Xezim.Sleep

variable {Stream : Type}

section Attempts

variable {s : Engine Stream} {idx : Nat}

@[simp] theorem tsXbailNote_execAborted (s : Engine Stream) (kind : Kind) (idx : Nat) :
    (tsXbailNote s kind idx).tsExecAborted = s.tsExecAborted := by
  -- The streaks and the markers are not about the last attempt.
  have xb : ∀ x, (s.setXb kind.isEdge idx x).tsExecAborted = s.tsExecAborted := fun x => by
    cases kind <;> rfl
  have marker : ∀ (s : Engine Stream) n, (s.setMarker kind.isEdge idx n).tsExecAborted = s.tsExecAborted :=
    fun s n => by
    cases kind <;> rfl
  unfold tsXbailNote
  extract_lets now x s₁ wakeAt s₂
  split
  · exact xb x
  · split
    · exact (marker s₁ 1).trans (xb x)
    · exact (marker s₁ 1).trans (xb x)

/-- An attempt through a plan or a slot: an x read is counted, and an abort leaves the tables alone. -/
theorem Sound.attempt (sound : Sound s) {kind : Kind} (enabled : Enabled s.forms kind idx) (attempt : Attempt) :
    Ran s ((s.tsGuardAndExec attempt).2.noteBail (s.tsGuardAndExec attempt).1 kind idx)
        (if attempt = .xRead then some ⟨kind.isEdge, idx⟩ else none) ∧
      (((s.tsGuardAndExec attempt).2.noteBail (s.tsGuardAndExec attempt).1 kind idx).tsExecAborted = true →
        ((s.tsGuardAndExec attempt).2.noteBail (s.tsGuardAndExec attempt).1 kind idx).forms = s.forms) := by
  cases attempt with
  | xRead =>
    -- An attempt that read x is a bail, and it is counted for the form that was tried.
    let bailed : Engine Stream := { s with tsExecAborted := false, tsLastXbail := true }
    have kept : Kept bailed := sound.kept.congr rfl rfl rfl fun _ _ => id
    have enabled' : Enabled bailed.forms kind idx := enabled
    obtain ⟨kept', noted⟩ := kept.note enabled'
    refine ⟨⟨⟨kept', fun i set => ?_⟩, noted.live, fun block same => ?_, fun block other => ?_⟩, fun aborted => ?_⟩
    · change ((tsXbailNote bailed kind idx).awake.tsHdr i).lenKind ≠ 0 at set
      show ∃ block, (tsXbailNote bailed kind idx).awake.combPlan i = .ts block
      rw [noted.awake] at set ⊢
      exact sound.headed i set
    · cases same
      exact ⟨noted.counted, noted.asleep⟩
    · exact noted.others block.edge block.idx fun same => other (by rw [if_pos rfl, ← same])
    · change (tsXbailNote bailed kind idx).tsExecAborted = true at aborted
      rw [tsXbailNote_execAborted] at aborted
      cases aborted
  -- Any other outcome counts nothing.
  | _ =>
    refine ⟨Calm.ran (sound.calm ?_ ?_ ?_ (fun _ _ => ?_) fun _ _ => ?_), fun _ => ?_⟩
    all_goals first | rfl | exact id

/-- An entry run through its two-state plan. -/
theorem Sound.runPlan (sound : Sound s) {block : TwoStateBlock Stream} (plan : s.forms.combPlan idx = .ts block)
    (attempt : Attempt) :
    Ran s (runPlan s idx attempt).2 (if attempt = .xRead then some ⟨false, idx⟩ else none) ∧
      ((runPlan s idx attempt).2.tsExecAborted = true → (runPlan s idx attempt).2.forms = s.forms) :=
  sound.attempt (show Enabled s.forms .plan idx from ⟨block, plan⟩) attempt

/-- A block run through its lowered slot. -/
theorem Sound.runSlot (sound : Sound s) {edge : Bool} {block : TwoStateBlock Stream}
    (slot : s.slot edge idx = .yes block) (attempt : Attempt) :
    Ran s (runSlot s edge idx attempt).2 (if attempt = .xRead then some ⟨edge, idx⟩ else none) := by
  -- The slot holds a compiled block, so its attempts are counted.
  have enabled : Enabled s.forms (if edge then .edge else .slot) idx := by
    cases edge <;> exact ⟨block, slot⟩
  obtain ⟨ran, forms⟩ := sound.attempt enabled attempt
  have about : (if edge then Kind.edge else Kind.slot).isEdge = edge := by cases edge <;> rfl
  rw [about] at ran
  simp only [Sleep.runSlot]
  split
  · exact ran
  · -- An attempt that aborted gives the slot up.
    refine ran.before (ran.sound.abortSlot fun aborted => ⟨block, ?_⟩)
    rw [← slot]
    unfold Engine.slot
    rw [forms aborted]

/-- An attempt through the arena counts nothing. -/
theorem Sound.arena (sound : Sound s) (attempt : Attempt) :
    Calm s ((s.tsGuardAndExecArena attempt).2.noteBail (s.tsGuardAndExecArena attempt).1 .plan idx) := by
  cases attempt <;> exact sound.calm rfl rfl rfl (fun _ _ => id) fun _ _ => rfl

end Attempts

/-- A two-state plan. -/
def CombPlan.isTs : CombPlan Stream → Bool
  | .ts _ => true
  | _ => false

/-- A lowered slot. -/
def TsSlot.isYes : TsSlot Stream → Bool
  | .yes _ => true
  | _ => false

/-- A settle's visit goes on to the executors. -/
def Native.goesOn : Native → Bool
  | .clean => false
  | .abort => false
  | _ => true

/-- The block whose evaluation a step makes bail on an x read. -/
def bails (s : Engine Stream) : Op Stream → Option Block
  | .settle idx nested native attempt =>
    if nested = false ∧ native.goesOn ∧ attempt = .xRead ∧
        ((s.forms.tsHdr idx).kind ≠ 0 ∨ (s.forms.combPlan idx).isTs) then some ⟨false, idx⟩
    else none
  | .dispatch idx tsOn lowered jit tpl attempt _ =>
    if attempt = .xRead ∧ ((resolvePlan s idx tsOn lowered jit tpl).forms.combPlan idx).isTs then some ⟨false, idx⟩
    else none
  | .trySlot idx tsOn lowered edge attempt =>
    if tsOn ∧ attempt = .xRead ∧ ((lowerSlot s edge idx lowered).slot edge idx).isYes then some ⟨edge, idx⟩ else none
  | .fire idx tsOn lowered attempt =>
    if attempt = .xRead ∧ ((s.forms.tsEdge idx).isYes ∨ tsOn ∧ ((lowerSlot s true idx lowered).slot true idx).isYes)
    then some ⟨true, idx⟩
    else none
  | .wake => none

/-- No evaluation through the arena bails on an x read in this step. -/
def Clear (s : Engine Stream) : Op Stream → Prop
  | .settle idx nested native attempt =>
    ¬ (nested = false ∧ native.goesOn ∧ attempt = .xRead ∧ (s.forms.tsHdr idx).kind ≠ 0)
  | _ => True

instance (s : Engine Stream) (op : Op Stream) : Decidable (Clear s op) := by
  cases op with
  | settle idx nested native attempt =>
    exact inferInstanceAs (Decidable
      (¬ (nested = false ∧ native.goesOn ∧ attempt = .xRead ∧ (s.forms.tsHdr idx).kind ≠ 0)))
  | _ => exact inferInstanceAs (Decidable True)

section Steps

variable {s : Engine Stream} {idx : Nat}

/-- The evaluations that follow when an entry did not run. -/
theorem Ran.interpreted {s' : Engine Stream} {bailed : Option Block} (ran : Ran s s' bailed) (ok edge : Bool) :
    Ran s (if ok then s' else s'.noteInterpreted edge idx) bailed := by
  cases ok with
  | true => exact ran
  | false => exact ran.before (ran.sound.noteInterpreted edge)

/-- The arena first, which counts nothing, else the plan. -/
theorem Sound.runArenaOrPlan (sound : Sound s) (attempt : Attempt) :
    Ran s (runArenaOrPlan s idx attempt).2
      (if (s.forms.tsHdr idx).kind = 0 ∧ attempt = .xRead ∧ (s.forms.combPlan idx).isTs then some ⟨false, idx⟩
        else none) := by
  unfold Sleep.runArenaOrPlan
  -- An arena attempt is not counted, and a plan is run only where the arena has nothing.
  by_cases arena : (s.forms.tsHdr idx).kind ≠ 0
  · rw [if_pos arena, if_neg fun counted => arena counted.1]
    exact (sound.arena attempt).ran
  · rw [if_neg arena]
    have nothing : (s.forms.tsHdr idx).kind = 0 := not_not.mp arena
    cases plan : s.forms.combPlan idx with
    | ts block =>
      have ran := (sound.runPlan plan attempt).1
      simpa [nothing, CombPlan.isTs] using ran
    | _ =>
      rw [if_neg (by simp [CombPlan.isTs])]
      exact (Calm.refl sound).ran

/-- A settle's visit counts the bail of a plan. -/
theorem Sound.settleVisit (sound : Sound s) (nested : Bool) (native : Native) (attempt : Attempt) :
    Ran s (settleVisit s idx nested native attempt)
      (if Clear s (.settle idx nested native attempt) then bails s (.settle idx nested native attempt) else none) := by
  have flag : ∀ aborted, Calm s { s with tsExecAborted := aborted } := fun _ =>
    sound.calm rfl rfl rfl (fun _ _ => id) fun _ _ => rfl
  cases nested with
  | true =>
    have nothing : bails s (.settle idx true native attempt) = none := by simp [bails]
    rw [nothing, ite_self]
    exact (Calm.refl sound).ran.interpreted false false
  | false =>
    -- Where the executors are reached, what they count is what bails, unless it is the arena.
    have counted : native.goesOn = true →
        (if Clear s (.settle idx false native attempt) then bails s (.settle idx false native attempt) else none) =
          if (s.forms.tsHdr idx).kind = 0 ∧ attempt = .xRead ∧ (s.forms.combPlan idx).isTs then some ⟨false, idx⟩
          else none := by
      intro on
      by_cases arena : (s.forms.tsHdr idx).kind = 0
      · simp [Clear, bails, on, arena]
      · by_cases xRead : attempt = .xRead
        · simp [Clear, on, arena, xRead]
        · simp [Clear, bails, arena, xRead]
    have idle : native.goesOn = false →
        (if Clear s (.settle idx false native attempt) then bails s (.settle idx false native attempt) else none) =
          none := fun off => by simp [bails, off]
    cases native with
    | absent =>
      rw [counted rfl]
      exact (sound.runArenaOrPlan attempt).interpreted _ false
    | declined =>
      rw [counted rfl]
      exact (((flag false).sound.runArenaOrPlan attempt).after (flag false) rfl).interpreted _ false
    | xRead =>
      rw [counted rfl]
      exact (((flag false).sound.runArenaOrPlan attempt).after (flag false) rfl).interpreted _ false
    | clean =>
      rw [idle rfl]
      exact Calm.ran (sound.calm rfl rfl rfl (fun _ _ => id) fun _ _ => rfl)
    | abort =>
      rw [idle rfl]
      exact (flag true).ran.interpreted false false

/-- A dispatch counts the bail of its plan. -/
theorem Sound.dispatchCombPlan (sound : Sound s) (tsOn : Bool) (lowered : Option (TwoStateBlock Stream))
    (jit tpl : Bool) (attempt : Attempt) (jitDies : Bool) :
    Ran s (dispatchCombPlan s idx tsOn lowered jit tpl attempt jitDies)
      (bails s (.dispatch idx tsOn lowered jit tpl attempt jitDies)) := by
  obtain ⟨calm, evals⟩ : Calm s (Sleep.resolvePlan s idx tsOn lowered jit tpl) ∧ _ :=
    sound.resolvePlan tsOn lowered jit tpl
  -- A plan that dies is downgraded, which puts nothing to sleep.
  have dies : ∀ {s' : Engine Stream}, Sound s' → Calm s' (if jitDies then downgradeCombPlan s' idx else s') :=
    fun sound' => by
      cases jitDies with
      | true => exact sound'.downgrade
      | false => exact .refl sound'
  simp only [Sleep.dispatchCombPlan, bails]
  generalize Sleep.resolvePlan s idx tsOn lowered jit tpl = s₁ at calm evals
  -- Only a two-state plan is attempted.
  cases plan : s₁.forms.combPlan idx with
  | ts block =>
    obtain ⟨ran, forms⟩ := calm.sound.runPlan plan attempt
    simp only [CombPlan.isTs, and_true]
    refine Ran.after calm evals ?_
    split
    · exact ran
    · -- An attempt that aborted gives the plan up.
      have aborted : Calm _ (Sleep.abortPlan _ idx) :=
        ran.sound.abortPlan fun aborted => ⟨block, by rw [forms aborted, plan]⟩
      exact (ran.before aborted).before (dies aborted.sound)
  | jit =>
    simp only [CombPlan.isTs, Bool.false_eq_true, and_false, if_false]
    exact (calm.trans (dies calm.sound)).ran
  | tpl =>
    simp only [CombPlan.isTs, Bool.false_eq_true, and_false, if_false]
    exact (calm.trans (dies calm.sound)).ran
  | unresolved =>
    simp only [CombPlan.isTs, Bool.false_eq_true, and_false, if_false]
    exact calm.ran
  | interp =>
    simp only [CombPlan.isTs, Bool.false_eq_true, and_false, if_false]
    exact calm.ran

/-- An attempt through a slot counts its bail. -/
theorem Sound.tryTwoStateIn (sound : Sound s) (tsOn : Bool) (lowered : Option (TwoStateBlock Stream)) (edge : Bool)
    (attempt : Attempt) :
    Ran s (tryTwoStateIn s idx tsOn lowered edge attempt).2 (bails s (.trySlot idx tsOn lowered edge attempt)) := by
  simp only [Sleep.tryTwoStateIn, bails]
  -- Without the two-state executor nothing is tried.
  cases tsOn with
  | false => exact (Calm.refl sound).ran
  | true =>
    obtain ⟨calm, evals⟩ : Calm s (Sleep.lowerSlot s edge idx lowered) ∧ _ := sound.lowerSlot lowered
    generalize Sleep.lowerSlot s edge idx lowered = s₁ at calm evals
    -- What is tried is the slot as it was lowered.
    simp only [if_true, true_and]
    cases slot : s₁.slot edge idx with
    | yes block =>
      simp only [TsSlot.isYes, and_true]
      exact Ran.after calm evals (calm.sound.runSlot slot attempt)
    | _ =>
      rw [if_neg (by simp [TsSlot.isYes])]
      exact calm.ran

/-- A fired edge block counts its bail. -/
theorem Sound.fireEdge (sound : Sound s) (tsOn : Bool) (lowered : Option (TwoStateBlock Stream)) (attempt : Attempt) :
    Ran s (fireEdge s idx tsOn lowered attempt) (bails s (.fire idx tsOn lowered attempt)) := by
  simp only [Sleep.fireEdge]
  refine Ran.interpreted ?_ _ true
  -- The edge slot has been lowered, refused or not tried yet.
  cases slot : s.forms.tsEdge idx with
  | no =>
    have same : Sleep.lowerSlot s true idx lowered = s := by simp [Sleep.lowerSlot, Engine.slot, slot]
    rw [bails, same, if_neg (by simp [TsSlot.isYes, Engine.slot, slot])]
    exact (Calm.refl sound).ran
  | yes block =>
    have slot' : s.slot true idx = .yes block := slot
    have ran := sound.runSlot slot' attempt
    simpa [bails, slot, TsSlot.isYes] using ran
  | untried =>
    have ran : Ran s (Sleep.tryTwoStateIn s idx tsOn lowered true attempt).2 _ :=
      sound.tryTwoStateIn tsOn lowered true attempt
    -- Trying the slot bails exactly where firing it does.
    have same : bails s (.fire idx tsOn lowered attempt) = bails s (.trySlot idx tsOn lowered true attempt) := by
      simp only [bails, slot]
      refine if_congr ?_ rfl rfl
      simp only [TsSlot.isYes, Bool.false_eq_true, false_or]
      exact and_left_comm
    rw [same]
    exact ran

/-- A step other than waking counts the bail it makes, unless the arena makes it. -/
theorem Sound.step (sound : Sound s) {op : Op Stream} (evaluates : op ≠ .wake) :
    Ran s (step s op) (if Clear s op then bails s op else none) := by
  -- Only a wake is no evaluation.
  cases op with
  | settle idx nested native attempt => exact sound.settleVisit nested native attempt
  | dispatch idx tsOn lowered jit tpl attempt jitDies =>
    exact if_pos (trivial : Clear s (.dispatch idx tsOn lowered jit tpl attempt jitDies)) ▸
      sound.dispatchCombPlan tsOn lowered jit tpl attempt jitDies
  | trySlot idx tsOn lowered edge attempt =>
    exact if_pos (trivial : Clear s (.trySlot idx tsOn lowered edge attempt)) ▸
      sound.tryTwoStateIn tsOn lowered edge attempt
  | fire idx tsOn lowered attempt =>
    exact if_pos (trivial : Clear s (.fire idx tsOn lowered attempt)) ▸ sound.fireEdge tsOn lowered attempt
  | wake => exact absurd rfl evaluates

/-- Every step keeps the records. -/
theorem Sound.next (sound : Sound s) (op : Op Stream) : Sound (Sleep.step s op) := by
  -- A wake goes through the sleepers, and every other step evaluates.
  by_cases wakes : op = .wake
  · subst wakes
    simp only [Sleep.step]
    split
    · obtain ⟨kept, swept⟩ := tsWakeSleepers_swept sound.kept
      exact ⟨kept, swept.awake ▸ sound.headed⟩
    · exact sound
  · exact (sound.step wakes).sound

end Steps

section Runs

/-- The states that runs reach in which no evaluation through the arena bails on an x read. -/
inductive Reached : Engine Stream → Prop where
  | initial : Reached initial
  | step {s : Engine Stream} (reached : Reached s) (op : Op Stream) (clear : Clear s op) : Reached (step s op)

/-- A run's steps one after the other. -/
def runFrom (s : Engine Stream) : List (Op Stream) → Engine Stream
  | [] => s
  | op :: ops => runFrom (step s op) ops

/-- No evaluation through the arena bails on an x read in any step of a run. -/
def clearAlong (s : Engine Stream) : List (Op Stream) → Bool
  | [] => true
  | op :: ops => decide (Clear s op) && clearAlong (step s op) ops

/-- Such a run reaches its end. -/
theorem Reached.runFrom {s : Engine Stream} (reached : Reached s) {ops : List (Op Stream)}
    (clear : clearAlong s ops = true) : Reached (runFrom s ops) := by
  induction ops generalizing s with
  | nil => exact reached
  | cons op ops ih =>
    rw [clearAlong, Bool.and_eq_true, decide_eq_true_eq] at clear
    exact ih (reached.step op clear.1) clear.2

/-- The start of a run. -/
theorem sound_initial : Sound (initial : Engine Stream) := by
  refine ⟨⟨TimedSlab.ok_empty, ?_, ?_, fun _ _ => rfl, ?_, ?_⟩, fun _ set => absurd rfl set⟩
  · exact fun live => (TimedSlab.not_live_empty _ _ live).elim
  · exact fun live => (TimedSlab.not_live_empty _ _ live).elim
  · exact fun live => (TimedSlab.not_live_empty _ _ live).elim
  · intro edge idx set
    cases edge <;> exact absurd rfl set

theorem Reached.sound {s : Engine Stream} (reached : Reached s) : Sound s := by
  induction reached with
  | initial => exact sound_initial
  | step _ op _ ih => exact ih.next op

/-- A run from `s` in which a block is not woken and bails on an x read a number of times, no two of them far apart. -/
inductive Bailing (block : Block) (s : Engine Stream) : Nat → Engine Stream → Prop where
  | start : Bailing block s 0 s
  | bail {n : Nat} {s' : Engine Stream} (bailing : Bailing block s n s') (op : Op Stream) (clear : Clear s' op)
      (bails : bails s' op = some block)
      (close : n ≠ 0 → s'.profTsEvals - (s'.xb block.edge block.idx).last ≤ tsXbailForget) :
      Bailing block s (n + 1) (step s' op)
  | other {n : Nat} {s' : Engine Stream} (bailing : Bailing block s n s') (op : Op Stream) (clear : Clear s' op)
      (other : bails s' op ≠ some block) (sleeping : op = .wake → ¬ Due s' s'.profTsEvals block) :
      Bailing block s n (step s' op)

/-- What a run of bails has counted so far. -/
structure Streaky (s : Engine Stream) (block : Block) (n : Nat) : Prop where
  sound : Sound s
  streak : n ≠ 0 → (s.xb block.edge block.idx).probeUntil = 0 ∧ min n 255 ≤ (s.xb block.edge block.idx).streak
  asleep : tsXbailStreak ≤ n → Asleep s block

/-- One more bail in a row. -/
theorem countBail_close {x : Streak} {now n : Nat} (awake : n ≠ 0 → x.probeUntil = 0 ∧ min n 255 ≤ x.streak)
    (close : n ≠ 0 → now - x.last ≤ tsXbailForget) :
    (countBail now x).probeUntil = 0 ∧ min (n + 1) 255 ≤ (countBail now x).streak := by
  refine ⟨rfl, ?_⟩
  -- The first bail starts the streak, and a later one within the time limit extends it.
  by_cases first : n = 0
  · subst first
    show min 1 255 ≤ min 255 (_ + 1)
    omega
  · obtain ⟨probe, streak⟩ := awake first
    have gap : ¬ tsXbailForget < now - x.last := Nat.not_lt.mpr (close first)
    show min (n + 1) 255 ≤ min 255 ((if x.probeUntil ≠ 0 then _ else if tsXbailForget < now - x.last then 0
      else x.streak) + 1)
    rw [if_neg (not_not.mpr probe), if_neg gap]
    omega

/-- A block that keeps bailing is asleep from its eighth bail on. -/
theorem Bailing.streaky {block : Block} {s s' : Engine Stream} {n : Nat} (sound : Sound s)
    (bailing : Bailing block s n s') : Streaky s' block n := by
  induction bailing with
  | start => exact ⟨sound, fun impossible => absurd rfl impossible, fun impossible => by cases impossible⟩
  | @bail n s' _ op clear found close ih =>
    have evaluates : op ≠ .wake := fun same => by
      subst same
      cases found
    have ran := ih.sound.step evaluates
    rw [if_pos clear, found] at ran
    obtain ⟨counted, asleep⟩ := ran.counted block rfl
    have streak := countBail_close ih.streak close
    refine ⟨ran.sound, fun _ => counted ▸ streak, fun long => asleep ?_⟩
    rw [counted]
    unfold tsXbailStreak at long ⊢
    omega
  | @other n s' _ op clear other sleeping ih =>
    by_cases wakes : op = .wake
    · subst wakes
      refine ⟨ih.sound.next _, ?_, ?_⟩ <;> simp only [Sleep.step] <;> split
      · rw [(tsWakeSleepers_swept ih.sound.kept).2.xb block (sleeping rfl)]
        exact ih.streak
      · exact ih.streak
      · intro long
        obtain ⟨k, r, live, about⟩ := ih.asleep long
        -- The block's record is not due, so it stays.
        refine ⟨k, r, ((tsWakeSleepers_swept ih.sound.kept).2.live k r).mpr ⟨live, fun t member => ?_⟩, about⟩
        by_contra due
        exact sleeping rfl ⟨t, k, r, member, Nat.le_of_not_lt due, live, about⟩
      · exact ih.asleep
    · have ran := ih.sound.step wakes
      rw [if_pos clear] at ran
      refine ⟨ran.sound, ?_, fun long => ?_⟩
      · rw [ran.others block other]
        exact ih.streak
      · obtain ⟨k, r, live, about⟩ := ih.asleep long
        exact ⟨k, r, ran.live live, about⟩

/-- The bookkeeping of sleeping blocks in one state of a run. -/
structure Bookkeeping (s : Engine Stream) : Prop where
  /-- A place is disabled, but for what it is awake, by exactly one live record. -/
  disabled : ∀ p, s.forms.at p ≠ s.awake.at p ↔ ∃! k, ∃ r, s.sleepers.Live k r ∧ (r.holds p).isSome
  /-- A record holds what was disabled. -/
  exact : ∀ k r p f, s.sleepers.Live k r → r.holds p = some f → f = s.awake.at p ∧ s.forms.at p = p.disabled
  keys : ∀ k, k ∈ s.sleepers.free → k ∉ s.sleepers.heap.map Prod.snd
  /-- A sleeper whose time has come is woken once, and is marked awake. -/
  wakes : ∀ t k r, (t, k) ∈ s.sleepers.heap → s.sleepers.Live k r → t ≤ s.profTsEvals →
    (∀ r', ¬ (step s .wake).sleepers.Live k r') ∧ k ∈ (step s .wake).sleepers.free ∧
      (step s .wake).marker r.block.edge r.block.idx = 0 ∧
      ∀ p f, r.holds p = some f → Unheld (step s .wake) p ∧ (step s .wake).forms.at p = f
  /-- Any other stays asleep. -/
  waits : ∀ t k r, (t, k) ∈ s.sleepers.heap → s.sleepers.Live k r → s.profTsEvals < t →
    (step s .wake).sleepers.Live k r
  counts : ∀ op block, Clear s op → bails s op = some block →
    (step s op).xb block.edge block.idx = countBail s.profTsEvals (s.xb block.edge block.idx)
  sleeps : ∀ block n s', Bailing block s n s' → tsXbailStreak ≤ n → Asleep s' block

/-- In every run in which no evaluation through the arena bails on an x read, the bookkeeping of sleeping blocks is
exact, and every evaluation that bails on an x read is counted. -/
theorem bookkeeping_of_reached {s : Engine Stream} (reached : Reached s) : Bookkeeping s := by
  have sound := reached.sound
  have kept := sound.kept
  have sweep : s.sleepers.heap ≠ [] → step s .wake = tsWakeSleepers s := fun busy => if_pos busy
  obtain ⟨kept', swept⟩ := tsWakeSleepers_swept kept
  refine ⟨fun p => ⟨fun differ => ?_, ?_⟩, ?_, fun k => kept.slab.free_not_due, ?_, ?_, ?_, ?_⟩
  · -- A place that no record holds is as if nothing slept.
    have held : ¬ Unheld s p := fun free => differ (kept.unheld p free)
    simp only [Unheld, not_forall] at held
    obtain ⟨k, r, live, holds⟩ := held
    refine ⟨k, ⟨r, live, Option.isSome_iff_ne_none.mpr holds⟩, ?_⟩
    rintro k' ⟨r', live', holds'⟩
    obtain ⟨f, found⟩ := Option.ne_none_iff_exists'.mp holds
    obtain ⟨f', found'⟩ := Option.isSome_iff_exists.mp holds'
    exact kept.once live' live found' found
  · rintro ⟨k, ⟨r, live, holds⟩, -⟩ same
    obtain ⟨f, found⟩ := Option.isSome_iff_exists.mp holds
    obtain ⟨truth, gone, enabled⟩ := kept.held live found
    exact enabled (truth.trans (same.symm.trans gone))
  · intro k r p f live holds
    exact ⟨(kept.held live holds).1, (kept.held live holds).2.1⟩
  · intro t k r member live due
    rw [sweep (List.ne_nil_of_mem member)]
    refine ⟨fun r' live' => ?_, swept.freed t k member due, swept.cleared _ ⟨t, k, r, member, due, live, rfl⟩,
      fun p f holds => swept.restored kept kept' member due live holds⟩
    exact absurd (((swept.live k r').mp live').2 t member) (Nat.not_lt.mpr due)
  · intro t k r member live later
    rw [sweep (List.ne_nil_of_mem member)]
    refine (swept.live k r).mpr ⟨live, fun t' member' => ?_⟩
    -- A key is due once.
    have once : (t', k) = (t, k) := List.inj_on_of_nodup_map kept.slab.dueOnce member' member rfl
    cases once
    exact later
  · intro op block clear found
    have evaluates : op ≠ .wake := fun same => by
      subst same
      cases found
    have ran := sound.step evaluates
    rw [if_pos clear, found] at ran
    exact (ran.counted block rfl).1
  · exact fun block n s' bailing long => (bailing.streaky sound).asleep long

/-- A comb entry dispatched through its plan, with a small stream when it is lowered. -/
def dispatched (idx : Nat) (attempt : Attempt) : Op Unit :=
  .dispatch idx true (some ⟨(), 4, 2, false, 0, false⟩) false false attempt false

/-- Entry 0 bails on an x read eight times, is visited by a settle while it sleeps, and entry 1 runs until the sleep is
over. -/
def sleepingRun : List (Op Unit) :=
  List.replicate 8 (dispatched 0 .xRead) ++ [.settle 0 false .absent .xRead] ++
    List.replicate 256 (dispatched 1 .clean)

/-- The entry is put to sleep, its plan disabled and its interpreted evaluation counted; waking it gives the plan back
and clears the marker, and the bookkeeping is exact before and after. -/
theorem bookkeeping_sleeper :
    Bookkeeping (runFrom initial sleepingRun) ∧ Bookkeeping (step (runFrom initial sleepingRun) .wake) ∧
      Asleep (runFrom initial sleepingRun) ⟨false, 0⟩ ∧ (runFrom initial sleepingRun).forms.combPlan 0 = .interp ∧
      (runFrom initial sleepingRun).marker false 0 = 2 ∧
      (step (runFrom initial sleepingRun) .wake).forms.combPlan 0 = .ts ⟨(), 4, 2, false, 0, false⟩ ∧
      (step (runFrom initial sleepingRun) .wake).marker false 0 = 0 := by
  have reached : Reached (runFrom initial sleepingRun) := .runFrom .initial (by decide +kernel)
  refine ⟨bookkeeping_of_reached reached, bookkeeping_of_reached (reached.step .wake trivial), ?_, by decide +kernel,
    by decide +kernel, by decide +kernel, by decide +kernel⟩
  have held : (runFrom initial sleepingRun).sleepers.recs =
      [some ⟨.plan, 0, 8196, 0, some (.ts ⟨(), 4, 2, false, 0, false⟩), none⟩] := by decide +kernel
  exact ⟨0, _, by rw [TimedSlab.Live, held]; rfl, rfl⟩

/-- The blocks that the steps of a run make bail on an x read. -/
def bailsAlong (s : Engine Stream) : List (Op Stream) → List (Option Block)
  | [] => []
  | op :: ops => bails s op :: bailsAlong (step s op) ops

/-- A settle's visits of one entry, first through the arena and then through the plan, all of them bailing. -/
def visits : List (Op Unit) :=
  let dispatch : Op Unit := dispatched 0 .xRead
  let settle : Op Unit := .settle 0 false .absent .xRead
  [dispatch, settle, dispatch, settle, dispatch, settle, dispatch, settle, dispatch]

/-- Nine evaluations of an entry bail on an x read; five are counted, and the entry is awake. -/
theorem arena_bails_uncounted :
    bailsAlong initial visits = List.replicate 9 (some ⟨false, 0⟩) ∧
    ((runFrom initial visits).xb false 0).streak = 5 ∧ ¬ Asleep (runFrom initial visits) ⟨false, 0⟩ := by
  refine ⟨by decide, by decide, ?_⟩
  rintro ⟨k, r, live, -⟩
  have nothing : (runFrom initial visits).sleepers.recs = [] := by decide
  simp [TimedSlab.Live, nothing] at live

end Runs

end Xezim.Sleep
