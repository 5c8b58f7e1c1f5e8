import Xezim.Comb.CommitFrame
import Xezim.Comb.Delayed

/-! Which runs of delayed gate outputs keep every bit. -/

namespace Xezim.Comb

section SwapRemove

variable {α : Type} {l : List α} {i : Nat} {a : α}

/-- What is left with the removed entry is the list. -/
theorem swapRemove_perm (here : l[i]? = some a) : List.Perm l (a :: swapRemove l i) := by
  have below : i < l.length := (List.getElem?_eq_some_iff.mp here).1
  obtain ⟨front, last, rfl⟩ : ∃ front last, l = front ++ [last] :=
    ⟨l.dropLast, l.getLast (by rintro rfl; simp at below), (List.dropLast_concat_getLast _).symm⟩
  simp only [swapRemove, List.getLast?_concat]
  rw [List.length_append, List.length_singleton] at below
  by_cases inner : i < front.length
  · -- The last entry stands where the removed one stood.
    rw [List.set_append_left _ _ inner, List.dropLast_concat]
    rw [List.getElem?_append_left inner] at here
    obtain ⟨_, rfl⟩ := List.getElem?_eq_some_iff.mp here
    refine List.Perm.trans (List.perm_append_singleton _ _) ?_
    have swap : List.Perm (last :: front) (front[i] :: front.set i last) := by
      have split : front = front.take i ++ front[i] :: front.drop (i + 1) := by simp
      have placed : front.set i last = front.take i ++ last :: front.drop (i + 1) := by
        rw [List.set_eq_take_append_cons_drop, if_pos inner]
      rw [placed]
      conv_lhs => rw [split]
      refine List.Perm.trans (List.Perm.cons _ List.perm_middle) ?_
      exact List.Perm.trans (List.Perm.swap _ _ _) (List.Perm.cons _ List.perm_middle.symm)
    exact swap
  · -- The last entry itself goes.
    have final : i = front.length := by omega
    subst final
    rw [List.getElem?_append_right (Nat.le_refl _), Nat.sub_self, List.getElem?_cons_zero] at here
    obtain rfl : last = a := by simpa using here
    rw [List.set_append_right _ _ (Nat.le_refl _), Nat.sub_self, List.set_cons_zero, List.dropLast_concat]
    exact List.perm_append_singleton _ _

/-- The entries before it keep their places. -/
theorem getElem?_swapRemove (here : l[i]? = some a) {j : Nat} (before : j < i) : (swapRemove l i)[j]? = l[j]? := by
  have below : i < l.length := (List.getElem?_eq_some_iff.mp here).1
  have filled : l ≠ [] := List.length_pos_iff.mp (by omega)
  obtain ⟨last, final⟩ : ∃ last, l.getLast? = some last := ⟨l.getLast filled, List.getLast?_eq_some_getLast filled⟩
  simp only [swapRemove, final]
  rw [List.getElem?_dropLast, List.length_set, if_pos (by omega), List.getElem?_set_ne (by omega)]

end SwapRemove

namespace CommitSim

/-- The sign is not among the bits. -/
theorem signedAs_bits (signed : Bool) (v : Value) :
    (signedAs signed v).width = v.width ∧ (signedAs signed v).val = v.val ∧ (signedAs signed v).xz = v.xz := by
  unfold signedAs
  split <;> exact ⟨rfl, rfl, rfl⟩

variable [GateOps] (s : CommitSim)

/-- A store changes its signal, and nothing else but the notes. -/
theorem storeSig_noted (id : Nat) (val : Value) : Noted (s.setSignal id val) (s.storeSig id val) := by
  unfold storeSig
  extract_lets changed s₁ s₂ s₃ s₄ s₅ s₆ s₇ s₈
  -- Up to the store only the mirrors and the trace move.
  have planes : Noted s s₁ := Noted.ite ⟨rfl, rfl, rfl⟩ (Noted.refl s)
  clear_value s₁
  have mirror : Noted s₁ s₂ := Noted.ite ⟨by simp [CommitSim.settings], rfl, rfl⟩ (Noted.refl s₁)
  clear_value s₂
  have trace : Noted s₂ s₃ := Noted.ite ⟨rfl, rfl, rfl⟩ (Noted.refl s₂)
  clear_value s₃
  have before := (planes.trans mirror).trans trace
  have stored : Noted (s.setSignal id val) s₄ := by
    refine ⟨before.settings, ?_, before.scheduled⟩
    simp only [s₄, setSignal, before.signalTable]
  clear_value s₄
  -- After it come the notes of every write.
  have epochs : Noted s₄ s₅ := Noted.ite ⟨rfl, rfl, rfl⟩ (Noted.refl s₄)
  clear_value s₅
  have marked : Noted s₅ s₆ := by
    simp only [s₆, vcdMark]
    exact Noted.ite ⟨rfl, rfl, rfl⟩ (Noted.refl s₅)
  clear_value s₆
  have measured : Noted s₆ s₇ := Noted.ite ⟨rfl, rfl, rfl⟩ (Noted.refl s₆)
  clear_value s₇
  have armed : Noted s₇ s₈ := noteArmedWrite_noted id s₇
  clear_value s₈
  exact ((((stored.trans epochs).trans marked).trans measured).trans armed).trans (noteEdgeWrite_noted id s₈)

end CommitSim

namespace DelaySim

/-- The pending updates of a signal. -/
def pending (d : DelaySim) (id : Nat) : List DelayedUpdate := d.delayedUpdates.filter (·.id = id)

/-- What a signal holds once its pending updates are applied. -/
def promised (d : DelaySim) (id : Nat) : Value :=
  match d.pending id with
  | [] => d.sim.signalTable id
  | u :: _ => if (d.sim.forcedSignals id).isSome then d.sim.signalTable id else u.val

/-- The code of a bit once the pending updates are applied. -/
def promisedCode (d : DelaySim) (b : BitRef) : Nat := planeCode (d.promised b.sigId) b.bit

/-- Stored and pending values have their widths, and a signal has at most one pending update, made while it was
delayed. -/
structure Ok (d : DelaySim) (id : Nat) : Prop where
  sized : d.sim.Sized
  entries : ∀ u ∈ d.delayedUpdates, u.id < d.sim.tableLen ∧ u.val.width = d.sim.signalWidths u.id ∧ u.val.Fits
  one : (d.pending id).length ≤ 1
  now : d.pending id ≠ [] → d.sim.delayedNow (d.sim.sdfDelays ≠ []) id = true

/-- A stretch of `apply_delayed_updates`: the promised bits stay, and the signal's update stays or is gone. -/
structure Matures (id : Nat) (d d' : DelaySim) : Prop where
  ok : d'.Ok id
  settings : d'.sim.settings = d.sim.settings
  promised : ∀ j, d'.promisedCode { sigId := id, bit := j } = d.promisedCode { sigId := id, bit := j }
  kept : d'.pending id = [] ∨ d'.pending id = d.pending id ∧ d'.sim.signalTable id = d.sim.signalTable id

section Matures

variable {id : Nat} {d d₁ d₂ : DelaySim}

/-- Nothing applied changes nothing. -/
theorem Matures.refl (ok : d.Ok id) : Matures id d d := ⟨ok, rfl, fun _ => rfl, .inr ⟨rfl, rfl⟩⟩

/-- Stretches compose. -/
theorem Matures.trans (first : Matures id d d₁) (second : Matures id d₁ d₂) : Matures id d d₂ := by
  refine ⟨second.ok, second.settings.trans first.settings, fun j => (second.promised j).trans (first.promised j), ?_⟩
  rcases second.kept with gone | ⟨same, table⟩
  · exact .inl gone
  · rcases first.kept with gone | ⟨same', table'⟩
    · exact .inl (same.trans gone)
    · exact .inr ⟨same.trans same', table.trans table'⟩

/-- The promised value is the pending one, unless a force holds the signal. -/
theorem promised_of_pending {u : DelayedUpdate} (pending : d.pending id = [u]) :
    d.promised id = if (d.sim.forcedSignals id).isSome then d.sim.signalTable id else u.val := by
  simp [promised, pending]

/-- Without a pending update it is the stored one. -/
theorem promised_of_none (pending : d.pending id = []) : d.promised id = d.sim.signalTable id := by
  simp [promised, pending]

/-- A value with the declared widths and the stored values of the same widths stays well formed under a store. -/
theorem sized_store {s t : CommitSim} (sized : s.Sized) (settings : t.settings = s.settings) {j : Nat} {v : Value}
    (table : t.signalTable = Function.update s.signalTable j v) (width : v.width = s.signalWidths j) (fits : v.Fits) :
    t.Sized := by
  have len : t.tableLen = s.tableLen := congrArg CommitSim.Settings.tableLen settings
  have widths : t.signalWidths = s.signalWidths := congrArg CommitSim.Settings.signalWidths settings
  -- The entry stored has the width and the bits it had before, and the others are untouched.
  have entry : ∀ i < s.tableLen, (t.signalTable i).width = s.signalWidths i ∧ (t.signalTable i).Fits := by
    intro i inTable
    by_cases here : i = j
    · subst here
      rw [table, Function.update_self]
      exact ⟨width, fits⟩
    · rw [table, Function.update_of_ne here]
      exact ⟨sized.width _ inTable, sized.fits _ inTable⟩
  exact CommitSim.sized_of_settings sized settings entry

variable [GateOps]

/-- An applied update stores its bits, unless a force holds its signal. -/
theorem applyOne_spec (d : DelaySim) (u : DelayedUpdate) :
    (d.applyOne u).1.delayedUpdates = d.delayedUpdates ∧ (d.applyOne u).1.sim.settings = d.sim.settings ∧
      if (d.sim.forcedSignals u.id).isSome then (d.applyOne u).1.sim.signalTable = d.sim.signalTable
      else ∃ v : Value, v.width = u.val.width ∧ v.val = u.val.val ∧ v.xz = u.val.xz ∧
        (d.applyOne u).1.sim.signalTable = Function.update d.sim.signalTable u.id v := by
  unfold applyOne
  dsimp only
  split
  · cases forced : (d.sim.forcedSignals u.id).isSome with
    | true =>
      rw [CommitSim.writeSig, if_pos forced, if_pos rfl]
      exact ⟨rfl, rfl, rfl⟩
    | false =>
      have noted := CommitSim.storeSig_noted d.sim u.id
        (signedAs (d.signalSigned u.id) { u.val with isSigned := d.signalSigned u.id })
      have bits := CommitSim.signedAs_bits (d.signalSigned u.id) { u.val with isSigned := d.signalSigned u.id }
      rw [CommitSim.writeSig, if_neg (by simp [forced]), if_neg (by decide)]
      exact ⟨rfl, noted.settings, _, bits.1, bits.2.1, bits.2.2, noted.signalTable⟩
  · -- The signal already holds the value.
    rename_i same
    simp only [ne_eq, Decidable.not_not] at same
    refine ⟨rfl, rfl, ?_⟩
    split
    · rfl
    · exact ⟨{ u.val with isSigned := d.signalSigned u.id }, rfl, rfl, rfl, by rw [← same, Function.update_eq_self]⟩

/-- A round of the loop that takes an update out. -/
theorem applyEntry_matures (ok : d.Ok id) {i : Nat} {u : DelayedUpdate} (here : d.delayedUpdates[i]? = some u) :
    Matures id d ({ d with delayedUpdates := swapRemove d.delayedUpdates i }.applyOne u).1 := by
  obtain ⟨list, settings, table⟩ := applyOne_spec { d with delayedUpdates := swapRemove d.delayedUpdates i } u
  generalize ({ d with delayedUpdates := swapRemove d.delayedUpdates i }.applyOne u).1 = d' at list settings table ⊢
  dsimp only at list settings table
  have perm := swapRemove_perm here
  obtain ⟨inTable, width, fits⟩ := ok.entries u (List.mem_of_getElem? here)
  have forces : d'.sim.forcedSignals = d.sim.forcedSignals := congrArg CommitSim.Settings.forcedSignals settings
  have sized : d'.sim.Sized := by
    split at table
    · exact CommitSim.sized_of_settings ok.sized settings fun j inTable => by
        rw [table]
        exact ⟨ok.sized.width j inTable, ok.sized.fits j inTable⟩
    · obtain ⟨v, w, a, x, stored⟩ := table
      refine sized_store ok.sized settings stored (w.trans width) ?_
      unfold Value.Fits
      rw [w, a, x]
      exact fits
  have entries : ∀ u ∈ d'.delayedUpdates,
      u.id < d'.sim.tableLen ∧ u.val.width = d'.sim.signalWidths u.id ∧ u.val.Fits := by
    intro w member
    rw [list] at member
    rw [show d'.sim.tableLen = d.sim.tableLen from congrArg CommitSim.Settings.tableLen settings,
      show d'.sim.signalWidths = d.sim.signalWidths from congrArg CommitSim.Settings.signalWidths settings]
    exact ok.entries w (perm.mem_iff.mpr (List.mem_cons_of_mem _ member))
  have delayed : d'.sim.delayedNow (d'.sim.sdfDelays ≠ []) id = d.sim.delayedNow (d.sim.sdfDelays ≠ []) id := by
    simp only [CommitSim.delayedNow,
      show d'.sim.sdfDelays = d.sim.sdfDelays from congrArg CommitSim.Settings.sdfDelays settings,
      show d'.sim.time = d.sim.time from congrArg CommitSim.Settings.time settings]
  have filtered := perm.filter (fun u => decide (u.id = id))
  have after : d'.pending id = (swapRemove d.delayedUpdates i).filter (·.id = id) := by rw [pending, list]
  by_cases mine : u.id = id
  · -- The signal's only update is applied.
    rw [List.filter_cons_of_pos (by simp [mine])] at filtered
    have count := filtered.length_eq
    have one := ok.one
    unfold pending at one
    rw [List.length_cons] at count
    have gone : (swapRemove d.delayedUpdates i).filter (·.id = id) = [] := by
      rw [← List.length_eq_zero_iff]
      omega
    rw [gone] at filtered after
    have only : d.pending id = [u] := List.perm_singleton.mp filtered
    refine ⟨⟨sized, entries, by rw [after]; exact Nat.zero_le _, fun some => absurd after some⟩, settings, ?_,
      .inl after⟩
    intro j
    unfold promisedCode
    rw [promised_of_none after, promised_of_pending only]
    dsimp only
    subst mine
    split at table
    · rename_i forced
      rw [if_pos forced, table]
    · rename_i free
      obtain ⟨v, -, a, x, stored⟩ := table
      rw [if_neg free, stored, Function.update_self, planeCode, planeCode, a, x]
  · -- Another signal's update leaves the signal alone.
    rw [List.filter_cons_of_neg (by simp [mine])] at filtered
    have entry : d'.sim.signalTable id = d.sim.signalTable id := by
      split at table
      · rw [table]
      · obtain ⟨v, -, -, -, stored⟩ := table
        rw [stored, Function.update_of_ne (Ne.symm mine)]
    have same : d'.pending id = d.pending id := by
      rw [after]
      have one := ok.one
      unfold pending at one ⊢
      generalize d.delayedUpdates.filter (·.id = id) = l at one filtered
      cases l with
      | nil => exact List.perm_nil.mp filtered.symm
      | cons w rest =>
        obtain rfl : rest = [] := List.length_eq_zero_iff.mp (by simpa using one)
        exact List.perm_singleton.mp filtered.symm
    refine ⟨⟨sized, entries, by rw [same]; exact ok.one, fun some => ?_⟩, settings, ?_, .inr ⟨same, entry⟩⟩
    · rw [same] at some
      rw [delayed]
      exact ok.now some
    · intro j
      unfold promisedCode promised
      rw [same, entry, forces]

/-- The loop applies what is due and keeps what is not. -/
theorem applyFrom_matures (rounds i : Nat) (d : DelaySim) (ok : d.Ok id) (len : rounds + i = d.delayedUpdates.length)
    (early : ∀ j < i, ∀ u, d.delayedUpdates[j]? = some u → d.sim.time < u.due) :
    Matures id d (applyFrom rounds i d).1 ∧ ∀ u ∈ (applyFrom rounds i d).1.delayedUpdates, d.sim.time < u.due := by
  induction rounds generalizing i d with
  | zero =>
    -- Every entry has been stepped past.
    refine ⟨Matures.refl ok, ?_⟩
    intro u member
    obtain ⟨j, below, rfl⟩ := List.getElem_of_mem member
    change j < d.delayedUpdates.length at below
    exact early j (by omega) _ (List.getElem?_eq_getElem below)
  | succ rounds ih =>
    have below : i < d.delayedUpdates.length := by omega
    have here := List.getElem?_eq_getElem below
    generalize d.delayedUpdates[i] = u at here
    rw [applyFrom]
    simp only [here]
    split
    · -- A due entry is taken out, and the place looked at again.
      have matures := applyEntry_matures ok here
      have list := (applyOne_spec { d with delayedUpdates := swapRemove d.delayedUpdates i } u).1
      generalize ({ d with delayedUpdates := swapRemove d.delayedUpdates i }.applyOne u) = r at matures list ⊢
      have time : r.1.sim.time = d.sim.time := congrArg CommitSim.Settings.time matures.settings
      have shorter : r.1.delayedUpdates.length + 1 = d.delayedUpdates.length := by
        rw [list, (swapRemove_perm here).length_eq, List.length_cons]
      have rest := ih i r.1 matures.ok (by omega) (by
        intro j before w entry
        rw [list, getElem?_swapRemove here before] at entry
        rw [time]
        exact early j before w entry)
      rw [time] at rest
      exact ⟨matures.trans rest.1, rest.2⟩
    · rename_i notYet
      refine ih (i + 1) d ok (by omega) ?_
      intro j before w entry
      by_cases earlier : j < i
      · exact early j earlier w entry
      · obtain rfl : j = i := by omega
        obtain rfl : u = w := by simpa [here] using entry
        omega

end Matures

section Steps

variable [GateOps] {id : Nat} {d : DelaySim}

/-- Time that moves on keeps the promised bits, applies what is due and leaves the rest. -/
theorem advance_spec (ok : d.Ok id) (ticks : Nat) :
    (d.step (.advance ticks)).Ok id ∧
      (∀ j, (d.step (.advance ticks)).promisedCode { sigId := id, bit := j } =
        d.promisedCode { sigId := id, bit := j }) ∧
      ((d.step (.advance ticks)).pending id = [] ∨ (d.step (.advance ticks)).pending id = d.pending id ∧
        (d.step (.advance ticks)).sim.signalTable id = d.sim.signalTable id) ∧
      (d.step (.advance ticks)).sim.settings =
        { d.sim.settings with time := d.sim.time + ticks } ∧
      ∀ u ∈ (d.step (.advance ticks)).delayedUpdates, d.sim.time + ticks < u.due := by
  -- Letting time pass keeps what is pending, due or not.
  have later : DelaySim.Ok { d with sim := { d.sim with time := d.sim.time + ticks } } id := by
    refine ⟨⟨ok.sized.width, ok.sized.fits, ok.sized.forced, ok.sized.quiet⟩, ok.entries, ok.one, ?_⟩
    intro some
    have now := ok.now some
    simp only [CommitSim.delayedNow, Bool.and_eq_true, decide_eq_true_eq] at now ⊢
    exact ⟨now.1, by omega⟩
  -- Every due update is applied in turn.
  have applied := applyFrom_matures d.delayedUpdates.length 0
    { d with sim := { d.sim with time := d.sim.time + ticks } } later rfl
      (fun j none => absurd none (Nat.not_lt_zero j))
  exact ⟨applied.1.ok, applied.1.promised, applied.1.kept, applied.1.settings, applied.2⟩

/-- Once everything pending of a signal is due, its bits are the promised ones. -/
theorem advance_settles (ok : d.Ok id) {ticks : Nat} (elapsed : ∀ u ∈ d.pending id, u.due ≤ d.sim.time + ticks)
    (j : Nat) :
    (d.step (.advance ticks)).sim.code { sigId := id, bit := j } = d.promisedCode { sigId := id, bit := j } := by
  obtain ⟨-, promised, kept, -, late⟩ := advance_spec ok ticks
  have none : (d.step (.advance ticks)).pending id = [] := by
    rcases kept with gone | ⟨same, -⟩
    · exact gone
    · -- A pending update that stayed would be due and not due.
      rw [List.eq_nil_iff_forall_not_mem]
      intro u member
      have before := member
      rw [same] at before
      have due := elapsed u before
      have notDue := late u (List.mem_filter.mp member).1
      omega
  rw [← promised j, promisedCode, promised_of_none none]
  rfl

variable [LawfulGateOps]

/-- The simulator without the calls it made before. -/
def called (s : CommitSim) : CommitSim := { s with scheduled := [] }

omit [GateOps] [LawfulGateOps] in
/-- The calls are no part of its widths. -/
theorem called_sized {s : CommitSim} (sized : s.Sized) : (called s).Sized :=
  ⟨sized.width, sized.fits, sized.forced, sized.quiet⟩

/-- A delayed commit schedules its signal with the driven bit replaced in what is stored now, and does nothing where
the stored bit is the driven one. -/
theorem step_delayed (ok : d.Ok id) {dst : BitRef} (has : d.sim.HasBit dst) (c : Fin 4)
    (delayed : d.sim.delayedNow (d.sim.sdfDelays ≠ []) dst.sigId = true) :
    d.step (.commit dst c) =
      if d.sim.code dst = c then { d with sim := called d.sim }
      else { d with sim := called d.sim }.scheduleDelayed dst.sigId
        ((d.sim.signalTable dst.sigId).write dst.bit 1 (c % 2) (c / 2)) := by
  have spec := CommitSim.fusedBitCommit_delayed (called_sized ok.sized) has c.isLt delayed
  simp only [step, commit]
  change (((called d.sim).fusedBitCommit dst c (d.sim.sdfDelays ≠ [])).1.scheduled.foldl
    (fun s call => s.scheduleDelayed call.1 call.2)
    { d with sim := called ((called d.sim).fusedBitCommit dst c (d.sim.sdfDelays ≠ [])).1 }) = _
  rw [spec]
  -- The one call, if any, is made.
  by_cases same : d.sim.code dst = c
  · rw [if_pos same, if_pos (show (called d.sim).code dst = c from same)]
    rfl
  · rw [if_neg same, if_neg (show ¬ (called d.sim).code dst = c from same)]
    rfl

/-- An undelayed commit schedules nothing. -/
theorem step_now (ok : d.Ok id) {dst : BitRef} (has : d.sim.HasBit dst) (c : Fin 4)
    (now : d.sim.delayedNow (d.sim.sdfDelays ≠ []) dst.sigId = false) :
    d.step (.commit dst c) =
      { d with sim := called ((called d.sim).fusedBitCommit dst c (d.sim.sdfDelays ≠ [])).1 } := by
  have none := (CommitSim.fusedBitCommit_now (called_sized ok.sized) has c.isLt now).1
  simp only [step, commit]
  change (((called d.sim).fusedBitCommit dst c (d.sim.sdfDelays ≠ [])).1.scheduled.foldl
    (fun s call => s.scheduleDelayed call.1 call.2)
    { d with sim := called ((called d.sim).fusedBitCommit dst c (d.sim.sdfDelays ≠ [])).1 }) = _
  rw [none]
  rfl

omit [LawfulGateOps] in
/-- A scheduled value of the right width replaces the update of its signal and leaves the others. -/
theorem scheduleDelayed_ok (ok : d.Ok id) {j : Nat} (inTable : j < d.sim.tableLen) {v : Value}
    (width : v.width = d.sim.signalWidths j) (fits : v.Fits)
    (now : d.sim.delayedNow (d.sim.sdfDelays ≠ []) j = true) :
    (d.scheduleDelayed j v).Ok id ∧ (d.scheduleDelayed j v).sim = d.sim ∧
      (j ≠ id → (d.scheduleDelayed j v).pending id = d.pending id) ∧
      (j = id → ∃ due, (d.scheduleDelayed j v).pending id = [{ due := due, id := id, val := v }]) := by
  -- Scheduling for another net leaves this net's updates alone.
  have others : j ≠ id → (d.scheduleDelayed j v).pending id = d.pending id := by
    intro other
    simp only [pending, scheduleDelayed, scheduleDelayedWithDelay, List.filter_append, List.filter_filter]
    rw [List.filter_cons_of_neg (by simpa using other), List.filter_nil, List.append_nil]
    refine List.filter_congr fun u _ => ?_
    by_cases here : u.id = id <;> simp [here, Ne.symm other]
  -- Scheduling for this net drops what was pending and leaves the new update alone.
  have mine : j = id → ∃ due, (d.scheduleDelayed j v).pending id = [{ due := due, id := id, val := v }] := by
    rintro rfl
    refine ⟨d.sim.time + d.transitionDelay j v (d.sim.sdfDelays[j]?.getD 0), ?_⟩
    simp only [pending, scheduleDelayed, scheduleDelayedWithDelay, List.filter_append, List.filter_filter]
    rw [List.filter_cons_of_pos (by simp), List.filter_nil, List.filter_eq_nil_iff.mpr (by simp)]
    rfl
  refine ⟨⟨ok.sized, ?_, ?_, ?_⟩, rfl, others, mine⟩
  · -- A pending update is an old one or the new one, and both fit the tables.
    intro u member
    simp only [scheduleDelayed, scheduleDelayedWithDelay, List.mem_append, List.mem_filter,
      List.mem_singleton] at member
    rcases member with ⟨old, -⟩ | rfl
    · exact ok.entries u old
    · exact ⟨inTable, width, fits⟩
  · by_cases here : j = id
    · obtain ⟨due, list⟩ := mine here
      rw [list]
      exact Nat.le_refl 1
    · rw [others here]
      exact ok.one
  · -- The new update is due in the time the net is delayed by.
    intro some
    by_cases here : j = id
    · rw [← here]
      exact now
    · rw [others here] at some
      exact ok.now some

omit [GateOps] [LawfulGateOps] in
/-- Equal settings and updates, and entries of the declared widths, are enough. -/
theorem ok_of_settings (ok : d.Ok id) {s : CommitSim} (sized : s.Sized) (settings : s.settings = d.sim.settings) :
    DelaySim.Ok { d with sim := s } id := by
  -- Sizes and delays are settings.
  refine ⟨sized, ?_, ok.one, ?_⟩
  · rw [show s.tableLen = d.sim.tableLen from congrArg CommitSim.Settings.tableLen settings,
      show s.signalWidths = d.sim.signalWidths from congrArg CommitSim.Settings.signalWidths settings]
    exact ok.entries
  · intro some
    have now := ok.now some
    simp only [CommitSim.delayedNow,
      show s.sdfDelays = d.sim.sdfDelays from congrArg CommitSim.Settings.sdfDelays settings,
      show s.time = d.sim.time from congrArg CommitSim.Settings.time settings] at now ⊢
    exact now

/-- A commit keeps the state well formed and the settings. -/
theorem commit_ok (ok : d.Ok id) {dst : BitRef} (has : d.sim.HasBit dst) (c : Fin 4) :
    (d.step (.commit dst c)).Ok id ∧ (d.step (.commit dst c)).sim.settings = d.sim.settings := by
  have quiet : DelaySim.Ok { d with sim := called d.sim } id := ok_of_settings ok (called_sized ok.sized) rfl
  cases delayed : d.sim.delayedNow (d.sim.sdfDelays ≠ []) dst.sigId with
  | true =>
    rw [step_delayed ok has c delayed]
    split
    · exact ⟨quiet, rfl⟩
    · have scheduled := scheduleDelayed_ok quiet has.1
        (v := (d.sim.signalTable dst.sigId).write dst.bit 1 (c % 2) (c / 2))
        (ok.sized.width _ has.1) ((ok.sized.fits _ has.1).write _ _ _ _) delayed
      exact ⟨scheduled.1, by rw [scheduled.2.1]; rfl⟩
  | false =>
    rw [step_now ok has c delayed]
    have settings := CommitSim.fusedBitCommit_settings (called d.sim) dst c (d.sim.sdfDelays ≠ [])
    have sized := CommitSim.fusedBitCommit_sized (called_sized ok.sized) has c.isLt (d.sim.sdfDelays ≠ [])
    exact ⟨ok_of_settings ok (called_sized sized) settings, settings⟩

/-- A commit to another signal leaves the signal and its update alone. -/
theorem commit_other (ok : d.Ok id) {dst : BitRef} (has : d.sim.HasBit dst) (other : dst.sigId ≠ id) (c : Fin 4) :
    (d.step (.commit dst c)).pending id = d.pending id ∧
      (d.step (.commit dst c)).sim.signalTable id = d.sim.signalTable id := by
  have quiet : DelaySim.Ok { d with sim := called d.sim } id := ok_of_settings ok (called_sized ok.sized) rfl
  -- The commit is scheduled or done at once, and either concerns the other net only.
  cases delayed : d.sim.delayedNow (d.sim.sdfDelays ≠ []) dst.sigId with
  | true =>
    rw [step_delayed ok has c delayed]
    split
    · exact ⟨rfl, rfl⟩
    · obtain ⟨-, sim, others, -⟩ := scheduleDelayed_ok quiet has.1
        (v := (d.sim.signalTable dst.sigId).write dst.bit 1 (c % 2) (c / 2))
        (ok.sized.width _ has.1) ((ok.sized.fits _ has.1).write _ _ _ _) delayed
      exact ⟨others other, by rw [sim]; rfl⟩
  | false =>
    rw [step_now ok has c delayed]
    exact ⟨rfl, CommitSim.fusedBitCommit_signalTable (called d.sim) dst c (d.sim.sdfDelays ≠ []) (Ne.symm other)⟩

/-- A delayed commit puts the stored signal with the driven bit replaced in place of anything pending. -/
theorem commit_delayed (ok : d.Ok id) {dst : BitRef} (has : d.sim.HasBit dst) (mine : dst.sigId = id) (c : Fin 4)
    (delayed : d.sim.delayedNow (d.sim.sdfDelays ≠ []) id = true) :
    (d.step (.commit dst c)).sim.signalTable id = d.sim.signalTable id ∧
      if d.sim.code dst = c then (d.step (.commit dst c)).pending id = d.pending id
      else ∃ due, (d.step (.commit dst c)).pending id =
        [{ due := due, id := id, val := (d.sim.signalTable id).write dst.bit 1 (c % 2) (c / 2) }] := by
  -- A delayed commit that changes nothing schedules nothing.
  subst mine
  have quiet : DelaySim.Ok { d with sim := called d.sim } dst.sigId := ok_of_settings ok (called_sized ok.sized) rfl
  rw [step_delayed ok has c delayed]
  split
  · exact ⟨rfl, rfl⟩
  · -- One that changes the bit replaces what was pending for the whole net.
    obtain ⟨-, sim, -, scheduled⟩ := scheduleDelayed_ok quiet has.1
      (v := (d.sim.signalTable dst.sigId).write dst.bit 1 (c % 2) (c / 2))
      (ok.sized.width _ has.1) ((ok.sized.fits _ has.1).write _ _ _ _) delayed
    exact ⟨by rw [sim]; rfl, scheduled rfl⟩

/-- An undelayed commit stores its bit, unless a force holds another, and touches no other bit. -/
theorem commit_now (ok : d.Ok id) {dst : BitRef} (has : d.sim.HasBit dst) (mine : dst.sigId = id) (c : Fin 4)
    (now : d.sim.delayedNow (d.sim.sdfDelays ≠ []) id = false) :
    (d.step (.commit dst c)).pending id = [] ∧ d.pending id = [] ∧
      (d.step (.commit dst c)).sim.code dst =
        (if d.sim.code dst = c then (c : Nat) else (d.sim.forcedSignals id).elim
          (c : Nat) fun fv => planeCode fv dst.bit) ∧
      ∀ b, d.sim.HasBit b → b ≠ dst → (d.step (.commit dst c)).sim.code b = d.sim.code b := by
  subst mine
  -- A net that is not delayed has nothing pending.
  have none : d.pending dst.sigId = [] := by
    by_contra some
    rw [ok.now some] at now
    exact absurd now (by decide)
  rw [step_now ok has c now]
  refine ⟨none, none, ?_, ?_⟩
  · exact (CommitSim.fusedBitCommit_now (called_sized ok.sized) has c.isLt now).2
  · intro b hasB apart
    exact CommitSim.fusedBitCommit_code (called_sized ok.sized) has hasB c.isLt _ apart

end Steps

/-- The last code a bit of a signal was driven to. -/
def noteResult (id : Nat) (last : Nat → Option (Fin 4)) : Event → Nat → Option (Fin 4)
  | .commit dst c, bit => if dst = { sigId := id, bit := bit } then some c else last bit
  | .advance _, bit => last bit

/-- The last results of the gates of a signal in a run. -/
def lastResult (id : Nat) (events : List Event) : Nat → Option (Fin 4) := events.foldl (noteResult id) fun _ => none

/-- A commit that keeps what is promised to the other bits of the signal and promises the driven one. -/
def SafeStep (d : DelaySim) (id : Nat) : Event → Prop
  | .commit dst c => dst.sigId = id →
    if d.sim.delayedNow (d.sim.sdfDelays ≠ []) id = true then
      if d.sim.code dst = c then d.promisedCode dst = c
      else d.sim.forcedSignals id = none ∧ ∀ j < d.sim.signalWidths id, j ≠ dst.bit →
        d.promisedCode { sigId := id, bit := j } = d.sim.code { sigId := id, bit := j }
    else d.sim.code dst = c ∨ ∀ fv, d.sim.forcedSignals id = some fv → planeCode fv dst.bit = c
  | .advance _ => True

/-- Every driven bit is promised its last result. -/
def Kept (d : DelaySim) (id : Nat) (last : Nat → Option (Fin 4)) : Prop :=
  ∀ bit < d.sim.signalWidths id, ∀ c, last bit = some c → d.promisedCode { sigId := id, bit := bit } = c

/-- Every other bit is promised what it is. -/
def Fresh (d : DelaySim) (id : Nat) (last : Nat → Option (Fin 4)) : Prop :=
  ∀ bit < d.sim.signalWidths id, last bit = none →
    d.promisedCode { sigId := id, bit := bit } = d.sim.code { sigId := id, bit := bit }

section Runs

variable [GateOps] [LawfulGateOps] {id : Nat} {d : DelaySim} {last : Nat → Option (Fin 4)}

omit [GateOps] [LawfulGateOps] in
/-- A commit to a bit of the signal is its result, and the other bits keep theirs. -/
theorem noteResult_commit {dst : BitRef} (mine : dst.sigId = id) (c : Fin 4) (bit : Nat) :
    noteResult id last (.commit dst c) bit = if bit = dst.bit then some c else last bit := by
  subst mine
  simp only [noteResult]
  by_cases here : bit = dst.bit
  · rw [if_pos here, if_pos (by rw [here])]
  · rw [if_neg here, if_neg]
    intro same
    exact here (congrArg BitRef.bit same).symm

omit [GateOps] [LawfulGateOps] in
/-- Last results after a commit: the driven bit has its own, the other driven bits have theirs. -/
theorem kept_commit {d' : DelaySim} {dst : BitRef} (mine : dst.sigId = id) (inside : dst.bit < d'.sim.signalWidths id)
    (c : Fin 4) :
    d'.Kept id (noteResult id last (.commit dst c)) ↔
      d'.promisedCode dst = c ∧ ∀ bit < d'.sim.signalWidths id, bit ≠ dst.bit → ∀ c', last bit = some c' →
        d'.promisedCode { sigId := id, bit := bit } = c' := by
  have same : ({ sigId := id, bit := dst.bit } : BitRef) = dst := by rw [← mine]
  -- The last result of the bit is the code committed, and the other bits keep theirs.
  constructor
  · intro all
    refine ⟨?_, ?_⟩
    · have driven := all dst.bit inside c (by rw [noteResult_commit mine, if_pos rfl])
      rwa [same] at driven
    · intro bit within apart c' result
      exact all bit within c' (by rw [noteResult_commit mine, if_neg apart]; exact result)
  · rintro ⟨driven, others⟩ bit within c' result
    rw [noteResult_commit mine] at result
    -- The bit is the one committed or another of the net.
    by_cases here : bit = dst.bit
    · rw [if_pos here] at result
      obtain rfl : c = c' := by simpa using result
      rw [here, same]
      exact driven
    · rw [if_neg here] at result
      exact others bit within here c' result

/-- A delayed commit keeps the last results precisely when it is safe. -/
theorem delayed_tracks (ok : d.Ok id) (kept : d.Kept id last) (fresh : d.Fresh id last) {dst : BitRef}
    (has : d.sim.HasBit dst) (mine : dst.sigId = id) (c : Fin 4)
    (delayed : d.sim.delayedNow (d.sim.sdfDelays ≠ []) id = true) :
    (d.step (.commit dst c)).Fresh id (noteResult id last (.commit dst c)) ∧
      ((d.step (.commit dst c)).Kept id (noteResult id last (.commit dst c)) ↔ d.SafeStep id (.commit dst c)) := by
  have settings := (commit_ok ok has c).2
  obtain ⟨table, list⟩ := commit_delayed ok has mine c delayed
  have safe : d.SafeStep id (.commit dst c) ↔ if d.sim.code dst = c then d.promisedCode dst = c
      else d.sim.forcedSignals id = none ∧ ∀ j < d.sim.signalWidths id, j ≠ dst.bit →
        d.promisedCode { sigId := id, bit := j } = d.sim.code { sigId := id, bit := j } := by
    simp only [SafeStep, mine, delayed, if_true, true_implies]
  generalize d.step (.commit dst c) = d' at settings table list ⊢
  have widths : d'.sim.signalWidths = d.sim.signalWidths := congrArg CommitSim.Settings.signalWidths settings
  have forces : d'.sim.forcedSignals = d.sim.forcedSignals := congrArg CommitSim.Settings.forcedSignals settings
  have bits : ∀ j, d'.sim.code { sigId := id, bit := j } = d.sim.code { sigId := id, bit := j } := by
    intro j
    rw [CommitSim.code, CommitSim.code, table]
  have inside : dst.bit < d.sim.signalWidths id := by rw [← mine]; exact has.2
  have width : (d.sim.signalTable id).width = d.sim.signalWidths id := by
    rw [← mine]
    exact ok.sized.width _ has.1
  rw [kept_commit mine (by rw [widths]; exact inside), safe, widths]
  split at list
  · -- The bit is there: nothing is scheduled, and what is pending stays.
    rename_i same
    have promised : ∀ b : BitRef, b.sigId = id → d'.promisedCode b = d.promisedCode b := by
      intro b here
      rw [promisedCode, promisedCode, here, DelaySim.promised, DelaySim.promised, list, table, forces]
    rw [if_pos same, promised dst mine]
    constructor
    · intro bit within undriven
      rw [widths] at within
      rw [noteResult_commit mine] at undriven
      split at undriven
      · simp at undriven
      · rw [promised _ rfl, bits]
        exact fresh bit within undriven
    · refine ⟨And.left, fun driven => ⟨driven, ?_⟩⟩
      intro bit within _ c' result
      rw [promised _ rfl]
      exact kept bit within c' result
  · -- The signal is scheduled as it is stored, the driven bit replaced.
    rename_i differs
    obtain ⟨due, list⟩ := list
    rw [if_neg differs]
    have promised : ∀ b : BitRef, b.sigId = id → d'.promisedCode b =
        if (d.sim.forcedSignals id).isSome then d.sim.code b
        else planeCode ((d.sim.signalTable id).write dst.bit 1 (c % 2) (c / 2)) b.bit := by
      intro b here
      rw [promisedCode, here, promised_of_pending list, forces, table, CommitSim.code, here]
      split <;> rfl
    have stored : ∀ bit < d.sim.signalWidths id, bit ≠ dst.bit →
        d'.promisedCode { sigId := id, bit := bit } = d.sim.code { sigId := id, bit := bit } := by
      intro bit within apart
      rw [promised _ rfl]
      split
      · rfl
      · exact CommitSim.planeCode_write_of_ne c (by rw [width]; exact within) apart
    constructor
    · intro bit within undriven
      rw [widths] at within
      rw [noteResult_commit mine] at undriven
      split at undriven
      · simp at undriven
      · rename_i apart
        rw [stored bit within apart, bits]
    · constructor
      · rintro ⟨driven, others⟩
        have free : d.sim.forcedSignals id = none := by
          by_contra forced
          rw [promised dst mine, if_pos (Option.isSome_iff_ne_none.mpr forced)] at driven
          exact differs driven
        refine ⟨free, ?_⟩
        intro j within apart
        cases result : last j with
        | none => exact fresh j within result
        | some c' => rw [kept j within c' result, ← others j within apart c' result, stored j within apart]
      · rintro ⟨free, agree⟩
        refine ⟨?_, ?_⟩
        · rw [promised dst mine, free]
          exact planeCode_write (by rw [width]; exact inside) c.isLt
        · intro bit within apart c' result
          rw [stored bit within apart, ← agree bit within apart]
          exact kept bit within c' result

/-- An undelayed commit keeps the last results precisely when no force holds another bit. -/
theorem now_tracks (ok : d.Ok id) (kept : d.Kept id last) {dst : BitRef} (has : d.sim.HasBit dst)
    (mine : dst.sigId = id) (c : Fin 4) (now : d.sim.delayedNow (d.sim.sdfDelays ≠ []) id = false) :
    (d.step (.commit dst c)).Fresh id (noteResult id last (.commit dst c)) ∧
      ((d.step (.commit dst c)).Kept id (noteResult id last (.commit dst c)) ↔ d.SafeStep id (.commit dst c)) := by
  have settings := (commit_ok ok has c).2
  obtain ⟨after, before, driven, others⟩ := commit_now ok has mine c now
  have safe : d.SafeStep id (.commit dst c) ↔
      (d.sim.code dst = c ∨ ∀ fv, d.sim.forcedSignals id = some fv → planeCode fv dst.bit = c) := by
    simp only [SafeStep, mine, now, Bool.false_eq_true, if_false, true_implies]
  generalize d.step (.commit dst c) = d' at settings after driven others ⊢
  have widths : d'.sim.signalWidths = d.sim.signalWidths := congrArg CommitSim.Settings.signalWidths settings
  have stored : ∀ b : BitRef, b.sigId = id → d'.promisedCode b = d'.sim.code b := by
    intro b here
    rw [promisedCode, here, promised_of_none after, CommitSim.code, here]
  have inside : dst.bit < d.sim.signalWidths id := by rw [← mine]; exact has.2
  refine ⟨fun bit _ _ => stored _ rfl, ?_⟩
  rw [kept_commit mine (by rw [widths]; exact inside), safe, stored dst mine, driven]
  -- The driven bit decides: nothing pending promises the others more than they are.
  have rest : ∀ bit < d'.sim.signalWidths id, bit ≠ dst.bit → ∀ c', last bit = some c' →
      d'.promisedCode { sigId := id, bit := bit } = c' := by
    intro bit within apart c' result
    rw [widths] at within
    have hasBit : d.sim.HasBit { sigId := id, bit := bit } := ⟨by rw [← mine]; exact has.1, within⟩
    have differ : ({ sigId := id, bit := bit } : BitRef) ≠ dst := fun same => apart (congrArg BitRef.bit same)
    have unchanged := kept bit within c' result
    rw [promisedCode, promised_of_none before] at unchanged
    rw [stored _ rfl, others _ hasBit differ]
    exact unchanged
  rw [and_iff_left rest]
  by_cases same : d.sim.code dst = c
  · simp [same]
  · cases forced : d.sim.forcedSignals id <;> simp [same]

/-- A step keeps the last results precisely when it is safe, and undriven bits in any case. -/
theorem step_tracks (ok : d.Ok id) (kept : d.Kept id last) (fresh : d.Fresh id last) (e : Event)
    (has : ∀ dst c, e = .commit dst c → d.sim.HasBit dst) :
    (d.step e).Ok id ∧ (d.step e).Fresh id (noteResult id last e) ∧
      ((d.step e).Kept id (noteResult id last e) ↔ d.SafeStep id e) := by
  cases e with
  | advance ticks =>
    obtain ⟨ok', promised, stays, settings, -⟩ := advance_spec ok ticks
    have widths : (d.step (.advance ticks)).sim.signalWidths = d.sim.signalWidths :=
      congrArg CommitSim.Settings.signalWidths settings
    refine ⟨ok', ?_, iff_of_true ?_ trivial⟩
    · intro bit inside undriven
      rw [widths] at inside
      rcases stays with gone | ⟨-, table⟩
      · rw [promisedCode, promised_of_none gone]
        rfl
      · rw [promised bit, fresh bit inside undriven, CommitSim.code, CommitSim.code, table]
    · intro bit inside c result
      rw [widths] at inside
      rw [promised bit]
      exact kept bit inside c result
  | commit dst c =>
    have has := has dst c rfl
    refine ⟨(commit_ok ok has c).1, ?_⟩
    by_cases mine : dst.sigId = id
    · cases delayed : d.sim.delayedNow (d.sim.sdfDelays ≠ []) id with
      | true => exact delayed_tracks ok kept fresh has mine c delayed
      | false => exact now_tracks ok kept has mine c delayed
    · -- The bits of another signal do not count.
      obtain ⟨list, table⟩ := commit_other ok has mine c
      have settings := (commit_ok ok has c).2
      have widths : (d.step (.commit dst c)).sim.signalWidths = d.sim.signalWidths :=
        congrArg CommitSim.Settings.signalWidths settings
      have forces : (d.step (.commit dst c)).sim.forcedSignals = d.sim.forcedSignals :=
        congrArg CommitSim.Settings.forcedSignals settings
      have same : noteResult id last (.commit dst c) = last := by
        funext bit
        simp only [noteResult]
        rw [if_neg]
        rintro rfl
        exact mine rfl
      have promised : (d.step (.commit dst c)).promised id = d.promised id := by
        rw [DelaySim.promised, DelaySim.promised, list, table, forces]
      rw [same]
      refine ⟨?_, iff_of_true ?_ (fun here => absurd here mine)⟩
      · intro bit inside undriven
        rw [widths] at inside
        rw [promisedCode, CommitSim.code, promised, table]
        exact fresh bit inside undriven
      · intro bit inside c' result
        rw [widths] at inside
        rw [promisedCode, promised]
        exact kept bit inside c' result

omit [LawfulGateOps] in
/-- No step changes which bits there are. -/
theorem advance_hasBit (ok : d.Ok id) (ticks : Nat) {b : BitRef} (has : d.sim.HasBit b) :
    (d.step (.advance ticks)).sim.HasBit b := by
  obtain ⟨-, -, -, settings, -⟩ := advance_spec ok ticks
  have len := congrArg CommitSim.Settings.tableLen settings
  have widths := congrArg CommitSim.Settings.signalWidths settings
  exact ⟨by rw [show (d.step (.advance ticks)).sim.tableLen = d.sim.tableLen from len]; exact has.1,
    by rw [show (d.step (.advance ticks)).sim.signalWidths = d.sim.signalWidths from widths]; exact has.2⟩

/-- The gates of a run drive bits there are. -/
def Drives (d : DelaySim) (events : List Event) : Prop := ∀ dst c, .commit dst c ∈ events → d.sim.HasBit dst

/-- They still do so after a step. -/
theorem Drives.step {e : Event} {rest : List Event} (ok : d.Ok id) (drives : d.Drives (e :: rest)) :
    (d.step e).Drives rest := by
  intro dst c member
  have has := drives dst c (List.mem_cons_of_mem _ member)
  cases e with
  | advance ticks => exact advance_hasBit ok ticks has
  | commit dst' c' =>
    exact CommitSim.HasBit.congr (commit_ok ok (drives dst' c' List.mem_cons_self) c').2 has

/-- Every step of a run is safe where it is taken. -/
def StepsSafe (d : DelaySim) (id : Nat) : List Event → Prop
  | [] => True
  | e :: rest => d.SafeStep id e ∧ StepsSafe (d.step e) id rest

/-- After every part of a run the last results are promised precisely when every step is safe. -/
theorem run_tracks (events : List Event) (d : DelaySim) (last : Nat → Option (Fin 4)) (ok : d.Ok id)
    (kept : d.Kept id last) (fresh : d.Fresh id last) (drives : d.Drives events) :
    (∀ p, p <+: events → (d.run p).Ok id ∧ (d.run p).Kept id (p.foldl (noteResult id) last)) ↔
      d.StepsSafe id events := by
  -- The run is followed event by event, and its prefixes are those of the rest and the empty one.
  induction events generalizing d last with
  | nil =>
    refine iff_of_true ?_ trivial
    intro p part
    rw [List.prefix_nil.mp part]
    exact ⟨ok, kept⟩
  | cons e rest ih =>
    obtain ⟨ok', fresh', step⟩ := step_tracks ok kept fresh e fun dst c here =>
      drives dst c (by rw [here]; exact List.mem_cons_self)
    have tail := fun kept' => ih (d.step e) (noteResult id last e) ok' kept' fresh' (drives.step ok)
    constructor
    · intro all
      -- The prefix of one event decides the first step.
      have first := all [e] (List.cons_prefix_cons.mpr ⟨rfl, List.nil_prefix⟩)
      refine ⟨step.mp first.2, (tail first.2).mp ?_⟩
      intro p part
      exact all (e :: p) (List.cons_prefix_cons.mpr ⟨rfl, part⟩)
    · rintro ⟨safe, later⟩ p part
      -- A prefix that is not empty begins with the first event.
      cases p with
      | nil => exact ⟨ok, kept⟩
      | cons e' p =>
        obtain ⟨rfl, inner⟩ := List.cons_prefix_cons.mp part
        exact (tail (step.mpr safe)).mpr later p inner

/-- A run keeps the state well formed. -/
theorem run_ok (events : List Event) (d : DelaySim) (ok : d.Ok id)
    (drives : d.Drives events) : (d.run events).Ok id := by
  induction events generalizing d with
  | nil => exact ok
  | cons e rest ih =>
    refine ih (d.step e) ?_ (drives.step ok)
    cases e with
    | advance ticks => exact (advance_spec ok ticks).1
    | commit dst c => exact (commit_ok ok (drives dst c List.mem_cons_self) c).1

end Runs

end DelaySim

/-- Gates that drive bits of a simulator, in the order and at the times of a run that starts with nothing pending for
a signal. -/
structure DelayedRun where
  start : DelaySim
  id : Nat
  events : List DelaySim.Event
  ok : start.Ok id
  idle : start.pending id = []
  drives : start.Drives events

namespace DelayedRun

variable [GateOps] (r : DelayedRun)

/-- Whenever the gates stop and the delays elapse, every bit of the signal is its gate's last result. -/
def KeepsBits : Prop :=
  ∀ p, p <+: r.events → ∀ ticks,
    (∀ u ∈ (r.start.run p).pending r.id, u.due ≤ (r.start.run p).sim.time + ticks) →
      ∀ bit < (r.start.run p).sim.signalWidths r.id, ∀ c, DelaySim.lastResult r.id p bit = some c →
        ((r.start.run p).step (.advance ticks)).sim.code { sigId := r.id, bit := bit } = c

variable [LawfulGateOps]

/-- A run keeps every bit precisely when each commit to the signal finds its bit promised where it is stored already,
and elsewhere no force and no other bit pending. -/
theorem keepsBits_iff : r.KeepsBits ↔ r.start.StepsSafe r.id r.events := by
  have promised : ∀ j, r.start.promisedCode { sigId := r.id, bit := j } =
      r.start.sim.code { sigId := r.id, bit := j } := by
    intro j
    rw [DelaySim.promisedCode, DelaySim.promised_of_none r.idle]
    rfl
  rw [← DelaySim.run_tracks r.events r.start (fun _ => none) r.ok (fun _ _ _ none => by simp at none)
    (fun bit _ _ => promised bit) r.drives]
  refine forall₂_congr fun p part => ?_
  have ok := DelaySim.run_ok p r.start r.ok fun dst c member => r.drives dst c (part.subset member)
  constructor
  · intro settles
    refine ⟨ok, ?_⟩
    intro bit inside c result
    -- Some stretch of time is long enough.
    obtain ⟨ticks, elapsed⟩ : ∃ ticks, ∀ u ∈ (r.start.run p).pending r.id,
        u.due ≤ (r.start.run p).sim.time + ticks := by
      generalize (r.start.run p).pending r.id = l
      induction l with
      | nil => exact ⟨0, by simp⟩
      | cons u l ih =>
        obtain ⟨ticks, enough⟩ := ih
        refine ⟨ticks + u.due, ?_⟩
        intro w member
        rcases List.mem_cons.mp member with rfl | member
        · omega
        · have := enough w member
          omega
    rw [← DelaySim.advance_settles ok elapsed]
    exact settles ticks elapsed bit inside c result
  · rintro ⟨-, kept⟩ ticks elapsed bit inside c result
    rw [DelaySim.advance_settles ok elapsed]
    exact kept bit inside c result

end DelayedRun

section Samples

attribute [local instance] referenceGateOps

/-- A two-bit signal annotated with a delay of five ticks. -/
def delayedPair : DelaySim where
  sim := { (heldNet 0).sim with
    signalTable := fun _ => ⟨2, 0, 0, false, false, false⟩
    signalWidths := fun _ => 2
    forcedSignals := fun _ => none
    sdfDelays := [5] }
  signalSigned := fun _ => false
  delayedUpdates := []
  gateFallDelayById := []
  gateOffDelayById := []

/-- The event drives one of its bits, if any. -/
def ofPair : DelaySim.Event → Bool
  | .commit dst _ => dst.sigId = 0 ∧ dst.bit < 2
  | .advance _ => true

/-- Its gates driving it as the events say. -/
def delayedPairRun (events : List DelaySim.Event) (inside : events.all ofPair = true) : DelayedRun where
  start := delayedPair
  id := 0
  events := events
  ok := by
    refine ⟨⟨fun _ _ => rfl, fun _ _ => ⟨Nat.two_pow_pos 2, Nat.two_pow_pos 2⟩, nofun, nofun⟩, nofun, Nat.zero_le _, ?_⟩
    intro some
    exact absurd rfl some
  idle := rfl
  drives := by
    intro dst c member
    obtain ⟨signal, bit⟩ : dst.sigId = 0 ∧ dst.bit < 2 := of_decide_eq_true (List.all_eq_true.mp inside _ member)
    exact ⟨by rw [signal]; exact Nat.one_pos, bit⟩

/-- Driven six ticks apart, each bit reaches the signal. -/
theorem delayedPair_apart :
    (delayedPairRun [.commit ⟨0, 0⟩ 1, .advance 6, .commit ⟨0, 1⟩ 1] (by decide)).KeepsBits := by
  have := referenceGateOps_lawful
  refine (DelayedRun.keepsBits_iff _).mpr ⟨?_, trivial, ?_, trivial⟩
  · intro _
    rw [if_pos (by decide), if_neg (by decide)]
    exact ⟨rfl, by decide⟩
  · intro _
    rw [if_pos (by decide), if_neg (by decide)]
    exact ⟨rfl, by decide⟩

/-- Driven in one slot, the first bit is lost. -/
theorem delayedPair_together :
    ¬ (delayedPairRun [.commit ⟨0, 0⟩ 1, .commit ⟨0, 1⟩ 1] (by decide)).KeepsBits := by
  intro keeps
  have first := keeps _ (List.prefix_refl _) 5 (by decide) 0 (by decide) 1 (by decide)
  exact absurd first (by decide)

end Samples

end Xezim.Comb
