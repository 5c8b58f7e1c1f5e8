import Xezim.Udp.TableLaws

/-! Every evaluator of a user-defined primitive does what the row search does. -/

namespace Xezim

open Digits

/-- How an evaluation is made. -/
inductive UdpVia where
  /-- `eval_udp`. -/
  | single
  /-- `eval_udp_batch` of an event net, under some forces. -/
  | batch (forced : Nat → Bool) (eventRef : BitRef)

/-- One evaluation of an instance: what the nets hold, and how it is made. -/
structure UdpStep where
  nets : Nets
  via : UdpVia

/-- Carry out an evaluation. -/
def UdpRuntime.step (rt : UdpRuntime) (step : UdpStep) : Option UdpRuntime :=
  match step.via with
  | .single => rt.evalUdp step.nets
  | .batch forced eventRef => rt.evalBatchOne step.nets forced eventRef

/-- Carry out evaluations in order, as long as none indexes past its table. -/
def UdpRuntime.run (rt : UdpRuntime) : List UdpStep → Option UdpRuntime
  | [] => some rt
  | step :: rest => (rt.step step).bind fun rt => rt.run rest

namespace UdpInstance

variable (inst : UdpInstance)

/-- The levels of the terminals. -/
def levels (nets : Nets) : List Nat := inst.inputs.map (levelCode nets)

/-- The reference after some evaluations. -/
def referenceRun (steps : List UdpStep) : UdpReference :=
  steps.foldl (fun r step => r.eval inst (inst.levels step.nets)) inst.reference

/-- A batch evaluates an instance only through the instance's own event net. -/
def Admits (step : UdpStep) : Prop :=
  match step.via with
  | .single => True
  | .batch _ eventRef =>
    ∃ e own, inst.filter.map Prod.fst = some e ∧ inst.inputs[e]? = some own ∧
      own.sigId ≠ constSig ∧ step.nets eventRef = step.nets own

/-- No terminal of an instance with an event filter is tied to a constant z. -/
def NoConstantZ : Prop := inst.filter.isSome → ∀ b ∈ inst.inputs, b.sigId = constSig → b.bit ≤ 2

/-- The first evaluation of an instance with an event filter finds the event terminal changed, or
nothing changed, or rows that hold the state on unchanged inputs. -/
def FirstSettles (nets : Nets) : Prop :=
  ∀ e ∈ inst.filter.map Prod.fst,
    (inst.levels nets).getD e 0 ≠ 2 ∨
      inst.levels nets = List.replicate inst.inputs.length 2 ∨
      udpNext inst.rows (inst.levels nets) (inst.levels nets) inst.runtime.state inst.isSequential =
        inst.runtime.state

/-- The rows of an instance that is lowered to a packed gate have neither edges nor `-` outputs. -/
def LevelRows : Prop :=
  inst.gate.isSome → ∀ row ∈ inst.rows, row.edges = [] ∧ row.output ≠ .noChange

/-- The instance after its first evaluation. -/
def evaluated (idx state : Nat) (prevInputs : List Nat) : UdpRuntime :=
  { inst.runtime with
    inputStateIdx := idx
    state
    prevInputs
    initialized := true
    driven := state }

/-- What an evaluated instance remembers of the previous inputs: all of them, or with an event
filter at least the event terminal's. -/
def Remembers (idx : Nat) (prevInputs prev : List Nat) : Prop :=
  match inst.program, inst.filter with
  | none, _ => prevInputs = prev
  | some _, none => idx = Nat.ofDigits 3 prev
  | some _, some (e, _) => digit 3 idx e = prev.getD e 0

/-- An evaluated instance agrees with an evaluated reference. -/
structure Agrees (rt : UdpRuntime) (r : UdpReference) : Prop where
  initialized : r.initialized = true
  driven : r.driven = r.state
  small : r.state < 3
  levels : Levels inst.inputs.length r.prev
  same : ∃ idx prevInputs, rt = inst.evaluated idx r.state prevInputs ∧
    inst.Remembers idx prevInputs r.prev

variable {inst}

/-- The terminals have levels. -/
theorem levels_ok (inst : UdpInstance) (nets : Nets) : Levels inst.inputs.length (inst.levels nets) where
  length := List.length_map ..
  small a member := by
    obtain ⟨b, -, rfl⟩ := List.mem_map.mp member
    unfold levelCode
    generalize (if b.sigId = constSig then b.bit else (nets b).val) = code
    dsimp only
    split <;> omega

/-- The initial state is a level. -/
theorem runtime_state_lt (inst : UdpInstance) : inst.runtime.state < 3 := by
  simp only [runtime]
  split
  · decide
  · split <;> decide

/-- Without a constant z the fast paths read the levels. -/
theorem fastCode_eq (noZ : inst.NoConstantZ) (filtered : inst.filter.isSome) {b : BitRef}
    (member : b ∈ inst.inputs) (nets : Nets) : fastCode nets b = levelCode nets b := by
  simp only [fastCode, levelCode]
  by_cases constant : b.sigId = constSig
  · have small := noZ filtered b member constant
    simp only [constant, if_true]
    split <;> omega
  · simp only [constant, if_false]
    split <;> omega

/-- Without a constant z the fast paths read all levels. -/
theorem map_fastCode (noZ : inst.NoConstantZ) (filtered : inst.filter.isSome) (nets : Nets) :
    inst.inputs.map (fastCode nets) = inst.levels nets :=
  List.map_congr_left fun _ member => fastCode_eq noZ filtered member nets

/-- An instance with an event filter has a table, and the filter's facts hold of its rows. -/
theorem filter_spec {e mask : Nat} (filtered : inst.filter = some (e, mask)) :
    (∃ lut, inst.program = some (lut, 3 ^ inst.inputs.length)) ∧
      Filtered inst.rows inst.inputs.length inst.isSequential e mask := by
  unfold filter at filtered
  split at filtered
  · obtain ⟨⟨lut, states⟩, compiled, found⟩ := Option.bind_eq_some_iff.mp filtered
    obtain rfl := states_eq compiled
    exact ⟨⟨lut, compiled⟩, filtered_of_filter compiled found⟩
  · cases filtered

/-- Refreshing the data terminals leaves the event terminal's level alone. -/
theorem digit_refreshData (noZ : inst.NoConstantZ) (filtered : inst.filter.isSome) (nets : Nets)
    (rt : UdpRuntime) (terminals : rt.inRefs = inst.inputs) (e : Nat) :
    digit 3 (rt.refreshData nets e) e = digit 3 rt.inputStateIdx e := by
  -- The refresh replaces every digit but the event terminal's own.
  unfold UdpRuntime.refreshData
  generalize List.range rt.inRefs.length = positions
  generalize rt.inputStateIdx = encoded
  induction positions generalizing encoded with
  | nil => rfl
  | cons i rest ih =>
    rw [List.foldl_cons, ih]
    cases here : rt.inRefs[i]? with
    | none => rfl
    | some b =>
      have member : b ∈ inst.inputs := terminals ▸ List.mem_of_getElem? here
      have small : fastCode nets b < 3 := by
        rw [fastCode_eq noZ filtered member]
        exact levels_ok inst nets |>.small _ (List.mem_map_of_mem member)
      simp only
      split
      · rename_i other
        rw [digit_replaceDigit small, if_neg (Ne.symm other)]
      · rfl

/-- One evaluation of the reference once there was a first one. -/
theorem reference_eval {r : UdpReference} (first : r.initialized = true) (cur : List Nat) :
    r.eval inst cur = if cur = r.prev then r else
      let next := udpNext inst.rows cur (settledPrev (inst.filter.map Prod.fst) r.prev cur) r.state
        inst.isSequential
      { prev := cur, state := next, driven := next, initialized := true } := by
  simp only [UdpReference.eval, first, if_true, true_and]

/-- A reference that searched the rows agrees with an instance that has the same new state and
remembers the new inputs. -/
theorem Agrees.of_next {cur : List Nat} (levels : Levels inst.inputs.length cur) {next idx : Nat}
    {prevInputs : List Nat} (small : next < 3) (remembers : inst.Remembers idx prevInputs cur) :
    inst.Agrees (inst.evaluated idx next prevInputs)
      { prev := cur, state := next, driven := next, initialized := true } :=
  ⟨rfl, rfl, small, levels, idx, prevInputs, rfl, remembers⟩

/-- An event of the filter's input does what the row search does. -/
theorem onEvent_agrees (idx : Nat) (prevInputs : List Nat) {e mask : Nat}
    (filtered : inst.filter = some (e, mask)) {state : Nat} {prev cur : List Nat} (small : state < 3)
    (prevOk : Levels inst.inputs.length prev) (curOk : Levels inst.inputs.length cur)
    (changed : prev.getD e 0 ≠ cur.getD e 0) :
    ∃ idx', (inst.evaluated idx state prevInputs).onEvent e (prev.getD e 0) (cur.getD e 0) cur =
        some (inst.evaluated idx'
          (udpNext inst.rows cur (cur.set e (prev.getD e 0)) state inst.isSequential) prevInputs) ∧
      digit 3 idx' e = cur.getD e 0 := by
  obtain ⟨⟨lut, compiled⟩, facts⟩ := filter_spec filtered
  have maskIs : (inst.evaluated idx state prevInputs).eventTransitionMask = mask := by
    simp [evaluated, runtime, filtered]
  have lutIs : (inst.evaluated idx state prevInputs).transitionLut = some lut := by
    simp [evaluated, runtime, compiled]
  have statesIs : (inst.evaluated idx state prevInputs).lutInputStates = 3 ^ inst.inputs.length := by
    simp [evaluated, runtime, compiled]
  unfold UdpRuntime.onEvent
  cases active : mask.testBit (prev.getD e 0 * 3 + cur.getD e 0) with
  | false =>
    -- A transition outside the mask holds every state.
    have holds := facts.inactive (prev.getD e 0) cur state curOk (prevOk.getD e) small changed active
    refine ⟨replaceDigit 3 idx e (cur.getD e 0), ?_, ?_⟩
    · rw [if_pos (by rw [maskIs, active]; rfl), holds]
      rfl
    · rw [digit_replaceDigit (curOk.getD e), if_pos rfl]
  | true =>
    have old : digit 3 (Nat.ofDigits 3 cur) e = cur.getD e 0 := digit_encode curOk e
    have prevIdx : Nat.ofDigits 3 cur - cur.getD e 0 * 3 ^ e + prev.getD e 0 * 3 ^ e =
        Nat.ofDigits 3 (cur.set e (prev.getD e 0)) := by
      rw [← replaceDigit_encode curOk facts.inside, replaceDigit, old]
    have entry := (lutAt_compiled compiled (curOk.set e (prevOk.getD e)) curOk small).2
    refine ⟨Nat.ofDigits 3 cur, ?_, old⟩
    rw [if_neg (by rw [maskIs, active]; decide)]
    simp only [encodeTernary_eq, lutIs, statesIs, prevIdx]
    show (lutAt lut (3 ^ inst.inputs.length) state _ _).map _ = _
    rw [entry]
    rfl

/-- The filter's view of an evaluation: what it does depends on whether the event terminal
changed. -/
theorem filtered_agrees {e mask : Nat} (filtered : inst.filter = some (e, mask)) {r : UdpReference}
    (initialized : r.initialized = true) (driven : r.driven = r.state) (small : r.state < 3)
    (prevOk : Levels inst.inputs.length r.prev) {cur : List Nat}
    (curOk : Levels inst.inputs.length cur) {rt' : UdpRuntime} {prevInputs : List Nat}
    (step : ∃ idx', (r.prev.getD e 0 = cur.getD e 0 ∧
          rt' = inst.evaluated idx' r.state prevInputs ∨
        r.prev.getD e 0 ≠ cur.getD e 0 ∧ rt' = inst.evaluated idx'
          (udpNext inst.rows cur (cur.set e (r.prev.getD e 0)) r.state inst.isSequential)
          prevInputs) ∧ digit 3 idx' e = cur.getD e 0) :
    inst.Agrees rt' (r.eval inst cur) := by
  obtain ⟨⟨lut, compiled⟩, facts⟩ := filter_spec filtered
  obtain ⟨idx', result, cached⟩ := step
  have remembers : inst.Remembers idx' prevInputs cur := by
    simp only [Remembers, compiled, filtered]
    exact cached
  rw [reference_eval initialized, filtered]
  rcases result with ⟨same, rfl⟩ | ⟨changed, rfl⟩
  · -- A data change alone holds the state, by the filter.
    by_cases unchanged : cur = r.prev
    · rw [if_pos unchanged]
      refine ⟨initialized, driven, small, prevOk, idx', prevInputs, rfl, ?_⟩
      rw [← unchanged]
      exact remembers
    · have holds := facts.passive r.prev cur r.state prevOk curOk small (Ne.symm unchanged) same
      have settled : settledPrev ((some (e, mask)).map Prod.fst) r.prev cur = r.prev :=
        if_neg (not_not.mpr same)
      rw [if_neg unchanged, settled, holds]
      exact .of_next curOk small remembers
  · have unequal : cur ≠ r.prev := fun equal => changed (by rw [equal])
    have settled : settledPrev ((some (e, mask)).map Prod.fst) r.prev cur =
        cur.set e (r.prev.getD e 0) := if_pos changed
    rw [if_neg unequal, settled]
    exact .of_next curOk (udpNext_lt _ _ _ small _) remembers

/-- An evaluation through the compiled table alone agrees. -/
theorem evalFull_lut_agrees {lut : List Nat} {states : Nat}
    (compiled : inst.program = some (lut, states)) (unfiltered : inst.filter = none)
    {r : UdpReference} (initialized : r.initialized = true) (driven : r.driven = r.state)
    (small : r.state < 3) (prevOk : Levels inst.inputs.length r.prev) (prevInputs : List Nat)
    (nets : Nets) :
    ∃ rt', (inst.evaluated (Nat.ofDigits 3 r.prev) r.state prevInputs).evalFull nets = some rt' ∧
      inst.Agrees rt' (r.eval inst (inst.levels nets)) := by
  have curOk := levels_ok inst nets
  have lutIs (idx state : Nat) (pv : List Nat) :
      (inst.evaluated idx state pv).transitionLut = some lut := by
    simp [evaluated, runtime, compiled]
  have statesIs (idx state : Nat) (pv : List Nat) :
      (inst.evaluated idx state pv).lutInputStates = states := by
    simp [evaluated, runtime, compiled]
  have eventIs (idx state : Nat) (pv : List Nat) :
      (inst.evaluated idx state pv).eventInput = none := by
    simp [evaluated, runtime, unfiltered]
  have remembers (idx : Nat) (pv prev : List Nat) (packed : idx = Nat.ofDigits 3 prev) :
      inst.Remembers idx pv prev := by
    simp only [Remembers, compiled, unfiltered]
    exact packed
  rw [reference_eval initialized, unfiltered]
  unfold UdpRuntime.evalFull
  simp only [lutIs, statesIs, eventIs, encodeTernary_eq]
  show ∃ rt', (if (!true || Nat.ofDigits 3 (inst.levels nets) != Nat.ofDigits 3 r.prev) = true then
    Option.map _ (lutAt lut states r.state (Nat.ofDigits 3 r.prev)
      (Nat.ofDigits 3 (inst.levels nets))) else some _) = some rt' ∧ _
  have packed := ofDigits_inj curOk.small prevOk.small (curOk.length.trans prevOk.length.symm)
  -- Unchanged inputs are left alone on both sides; changed ones read the same table entry.
  by_cases unchanged : inst.levels nets = r.prev
  · rw [if_pos unchanged, if_neg (by simp [unchanged])]
    exact ⟨_, rfl, initialized, driven, small, prevOk, _, _, rfl, remembers _ _ _ rfl⟩
  · have apart : Nat.ofDigits 3 (inst.levels nets) ≠ Nat.ofDigits 3 r.prev :=
      fun same => unchanged (packed.mp same)
    rw [if_neg unchanged, if_pos (by simp [apart]), (lutAt_compiled compiled prevOk curOk small).2]
    exact ⟨_, rfl, .of_next curOk (udpNext_lt _ _ _ small _) (remembers _ _ _ rfl)⟩

/-- An evaluation by row search agrees. -/
theorem evalFull_rows_agrees (uncompiled : inst.program = none) {r : UdpReference}
    (initialized : r.initialized = true) (driven : r.driven = r.state) (small : r.state < 3)
    (prevOk : Levels inst.inputs.length r.prev) (idx : Nat) (nets : Nets) :
    ∃ rt', (inst.evaluated idx r.state r.prev).evalFull nets = some rt' ∧
      inst.Agrees rt' (r.eval inst (inst.levels nets)) := by
  have curOk := levels_ok inst nets
  -- Without a table there is no event filter, and the rows are matched as the reference matches them.
  have unfiltered : inst.filter = none := by
    unfold filter
    rw [uncompiled]
    split <;> rfl
  have lutIs (idx state : Nat) (pv : List Nat) :
      (inst.evaluated idx state pv).transitionLut = none := by
    simp [evaluated, runtime, uncompiled]
  have remembers (idx : Nat) (pv prev : List Nat) (same : pv = prev) :
      inst.Remembers idx pv prev := by
    simp only [Remembers, uncompiled]
    exact same
  rw [reference_eval initialized, unfiltered]
  unfold UdpRuntime.evalFull
  simp only [lutIs]
  show ∃ rt', (if (!true || (List.range inst.inputs.length).any fun i =>
      (inst.levels nets).getD i 0 != r.prev.getD i 0) = true then _ else some _) = some rt' ∧ _
  by_cases unchanged : inst.levels nets = r.prev
  · rw [if_pos unchanged, if_neg (by simp [unchanged])]
    exact ⟨_, rfl, initialized, driven, small, prevOk, _, _, rfl, remembers _ _ _ rfl⟩
  · have differs : ((List.range inst.inputs.length).any fun i =>
        (inst.levels nets).getD i 0 != r.prev.getD i 0) = true := by
      by_contra alike
      refine unchanged (List.ext_getElem (curOk.length.trans prevOk.length.symm) fun i here there => ?_)
      simp only [List.any_eq_true, List.mem_range, bne_iff_ne, ne_eq, not_exists, not_and,
        not_not] at alike
      have same := alike i (curOk.length ▸ here)
      rwa [List.getD_eq_getElem _ _ here, List.getD_eq_getElem _ _ there] at same
    rw [if_neg unchanged, if_pos (by rw [differs]; rfl)]
    exact ⟨_, rfl, .of_next curOk (udpNext_lt _ _ _ small _) (remembers _ _ _ rfl)⟩

/-- Without an event filter, or before the first evaluation, `eval_udp` takes no fast path. -/
theorem evalUdp_full {rt : UdpRuntime} (few : rt.inRefs.length ≤ 32)
    (slow : rt.initialized = false ∨ rt.eventInput = none) (nets : Nets) :
    rt.evalUdp nets = rt.evalFull nets := by
  unfold UdpRuntime.evalUdp
  rw [if_neg (Nat.not_lt.mpr few)]
  split
  · -- The event path needs an event terminal and an earlier evaluation.
    rename_i e initialized event
    rcases slow with fresh | unfiltered
    · rw [initialized] at fresh
      cases fresh
    · rw [event] at unfiltered
      cases unfiltered
  · rfl

/-- The fast path of `eval_udp`. -/
theorem evalUdp_event {rt : UdpRuntime} (few : rt.inRefs.length ≤ 32)
    (initialized : rt.initialized = true) {e : Nat} (event : rt.eventInput = some e) {own : BitRef}
    (here : rt.inRefs[e]? = some own) (nets : Nets) :
    rt.evalUdp nets =
      if digit 3 rt.inputStateIdx e = fastCode nets own then
        some { rt with inputStateIdx := rt.refreshData nets e }
      else rt.onEvent e (digit 3 rt.inputStateIdx e) (fastCode nets own)
        (rt.inRefs.map (fastCode nets)) := by
  unfold UdpRuntime.evalUdp
  rw [if_neg (Nat.not_lt.mpr few)]
  split
  · rename_i e' _ event'
    obtain rfl : e' = e := Option.some.inj (event'.symm.trans event)
    rw [here]
  · rename_i other
    exact absurd event (other e initialized)

/-- An evaluation by `eval_udp` after the first one agrees. -/
theorem evalUdp_agrees (few : inst.inputs.length ≤ 32) (noZ : inst.NoConstantZ) {rt : UdpRuntime}
    {r : UdpReference} (agree : inst.Agrees rt r) (nets : Nets) :
    ∃ rt', rt.evalUdp nets = some rt' ∧ inst.Agrees rt' (r.eval inst (inst.levels nets)) := by
  obtain ⟨initialized, driven, small, prevOk, idx, prevInputs, rfl, remembers⟩ := agree
  have curOk := levels_ok inst nets
  -- The three shapes of a runtime: rows, a table without an event filter, and one with it.
  cases filtered : inst.filter with
  | none =>
    have full : (inst.evaluated idx r.state prevInputs).evalUdp nets =
        (inst.evaluated idx r.state prevInputs).evalFull nets := by
      refine evalUdp_full few ?_ nets
      simp [evaluated, runtime, filtered]
    rw [full]
    cases compiled : inst.program with
    | none =>
      simp only [Remembers, compiled] at remembers
      subst remembers
      exact evalFull_rows_agrees compiled initialized driven small prevOk idx nets
    | some p =>
      simp only [Remembers, compiled, filtered] at remembers
      subst remembers
      exact evalFull_lut_agrees compiled filtered initialized driven small prevOk prevInputs nets
  | some f =>
    obtain ⟨e, mask⟩ := f
    obtain ⟨⟨lut, compiled⟩, facts⟩ := filter_spec filtered
    have isFiltered : inst.filter.isSome := by rw [filtered]; rfl
    have eventIs : (inst.evaluated idx r.state prevInputs).eventInput = some e := by
      simp [evaluated, runtime, filtered]
    simp only [Remembers, compiled, filtered] at remembers
    obtain ⟨own, here⟩ : ∃ own, inst.inputs[e]? = some own :=
      ⟨_, List.getElem?_eq_getElem facts.inside⟩
    have code : fastCode nets own = (inst.levels nets).getD e 0 := by
      rw [fastCode_eq noZ isFiltered (List.mem_of_getElem? here)]
      simp [levels, here]
    have codes : (inst.evaluated idx r.state prevInputs).inRefs.map (fastCode nets) =
        inst.levels nets := map_fastCode noZ isFiltered nets
    have cached : digit 3 (inst.evaluated idx r.state prevInputs).inputStateIdx e =
        r.prev.getD e 0 := remembers
    rw [evalUdp_event few rfl eventIs here, code, codes, cached]
    -- An unchanged event terminal only refreshes the other digits.
    by_cases same : r.prev.getD e 0 = (inst.levels nets).getD e 0
    · rw [if_pos same]
      refine ⟨_, rfl, filtered_agrees filtered initialized driven small prevOk curOk
        ⟨_, Or.inl ⟨same, rfl⟩, ?_⟩⟩
      rw [digit_refreshData noZ isFiltered nets (inst.evaluated idx r.state prevInputs) rfl]
      exact remembers.trans same
    · rw [if_neg same]
      obtain ⟨idx', event, cached'⟩ := onEvent_agrees idx prevInputs
        filtered small prevOk curOk same
      exact ⟨_, event, filtered_agrees filtered initialized driven small prevOk curOk
        ⟨idx', Or.inr ⟨same, rfl⟩, cached'⟩⟩

end UdpInstance

end Xezim
