import Xezim.Udp.Agreement

/-! Runs of evaluations, however each is made, and the packed gate of small combinational tables. -/

namespace Xezim

open Digits

namespace UdpInstance

variable {inst : UdpInstance}

/-- An evaluation in a batch after the first one agrees. -/
theorem evalBatchOne_agrees (noZ : inst.NoConstantZ) {rt : UdpRuntime} {r : UdpReference}
    (agree : inst.Agrees rt r) (nets : Nets) {forced : Nat → Bool} {eventRef : BitRef}
    (admits : inst.Admits ⟨nets, .batch forced eventRef⟩) :
    ∃ rt', rt.evalBatchOne nets forced eventRef = some rt' ∧
      inst.Agrees rt' (r.eval inst (inst.levels nets)) := by
  obtain ⟨initialized, driven, small, prevOk, idx, prevInputs, rfl, remembers⟩ := agree
  obtain ⟨e, own, event, here, net, same⟩ := admits
  change nets eventRef = nets own at same
  obtain ⟨⟨e', mask⟩, filtered, rfl⟩ := Option.map_eq_some_iff.mp event
  have curOk := levels_ok inst nets
  obtain ⟨⟨lut, compiled⟩, facts⟩ := filter_spec filtered
  have isFiltered : inst.filter.isSome := by rw [filtered]; rfl
  have eventIs : (inst.evaluated idx r.state prevInputs).eventInput = some e' := by
    simp [evaluated, runtime, filtered]
  simp only [Remembers, compiled, filtered] at remembers
  -- The event net's code is the instance's own, forced or not.
  have ownCode : fastCode nets own = (inst.levels nets).getD e' 0 := by
    rw [fastCode_eq noZ isFiltered (List.mem_of_getElem? here)]
    simp [levels, here]
  have code : (if forced own.sigId then min (nets own).val 2 else min (nets eventRef).val 2) =
      (inst.levels nets).getD e' 0 := by
    rw [← ownCode, same, ite_self, fastCode, if_neg net]
  have codes : ((inst.evaluated idx r.state prevInputs).inRefs.mapIdx fun i b =>
      if i = e' then (inst.levels nets).getD e' 0 else fastCode nets b) = inst.levels nets := by
    refine Eq.trans ?_ (map_fastCode noZ isFiltered nets)
    refine List.ext_getElem (by simp [evaluated, runtime]) fun i inside _ => ?_
    simp only [List.getElem_mapIdx, List.getElem_map]
    have inside' : i < inst.inputs.length := by simpa [evaluated, runtime] using inside
    split
    · rename_i there
      subst there
      rw [List.getElem?_eq_getElem inside'] at here
      rw [← ownCode, ← Option.some.inj here]
    · rfl
  have cached : digit 3 (inst.evaluated idx r.state prevInputs).inputStateIdx e' =
      r.prev.getD e' 0 := remembers
  have batch : (inst.evaluated idx r.state prevInputs).evalBatchOne nets forced eventRef =
      if digit 3 (inst.evaluated idx r.state prevInputs).inputStateIdx e' =
          (inst.levels nets).getD e' 0 then some (inst.evaluated idx r.state prevInputs)
      else (inst.evaluated idx r.state prevInputs).onEvent e'
        (digit 3 (inst.evaluated idx r.state prevInputs).inputStateIdx e')
        ((inst.levels nets).getD e' 0) (inst.levels nets) := by
    unfold UdpRuntime.evalBatchOne
    rw [if_neg (by simp [evaluated]), eventIs]
    have refs : (inst.evaluated idx r.state prevInputs).inRefs = inst.inputs := rfl
    rw [refs] at codes ⊢
    simp only [here]
    simp only [code, codes]
  rw [batch, cached]
  by_cases unchanged : r.prev.getD e' 0 = (inst.levels nets).getD e' 0
  · rw [if_pos unchanged]
    exact ⟨_, rfl, filtered_agrees filtered initialized driven small prevOk curOk
      ⟨_, Or.inl ⟨unchanged, rfl⟩, remembers.trans unchanged⟩⟩
  · rw [if_neg unchanged]
    obtain ⟨idx', event', cached'⟩ := onEvent_agrees idx prevInputs
      filtered small prevOk curOk unchanged
    exact ⟨_, event', filtered_agrees filtered initialized driven small prevOk curOk
      ⟨idx', Or.inr ⟨unchanged, rfl⟩, cached'⟩⟩

/-- Every evaluation after the first one agrees. -/
theorem step_agrees (few : inst.inputs.length ≤ 32) (noZ : inst.NoConstantZ) {rt : UdpRuntime}
    {r : UdpReference} (agree : inst.Agrees rt r) {step : UdpStep} (admits : inst.Admits step) :
    ∃ rt', rt.step step = some rt' ∧ inst.Agrees rt' (r.eval inst (inst.levels step.nets)) := by
  obtain ⟨nets, via⟩ := step
  cases via with
  | single => exact evalUdp_agrees few noZ agree nets
  | batch forced eventRef => exact evalBatchOne_agrees noZ agree nets admits

/-- Every run of evaluations after the first one agrees. -/
theorem run_agrees (few : inst.inputs.length ≤ 32) (noZ : inst.NoConstantZ) {steps : List UdpStep}
    {rt : UdpRuntime} {r : UdpReference} (agree : inst.Agrees rt r)
    (admits : ∀ step ∈ steps, inst.Admits step) :
    ∃ rt', rt.run steps = some rt' ∧
      inst.Agrees rt' (steps.foldl (fun r step => r.eval inst (inst.levels step.nets)) r) := by
  induction steps generalizing rt r with
  | nil => exact ⟨rt, rfl, agree⟩
  | cons step rest ih =>
    obtain ⟨rt', stepped, agree'⟩ := step_agrees few noZ agree (admits step List.mem_cons_self)
    obtain ⟨last, run, agreeLast⟩ := ih agree' fun s member => admits s (List.mem_cons_of_mem _ member)
    exact ⟨last, by rw [UdpRuntime.run, stepped, Option.bind_some, run], agreeLast⟩

/-- Settling the data terminals one after another leaves only the event terminal at its old level. -/
theorem settle_fold {n e : Nat} {old cur : List Nat} (oldOk : Levels n old) (curOk : Levels n cur)
    (inside : e < n) :
    (List.range n).foldl (fun prevIdx i =>
        if i ≠ e then replaceDigit 3 prevIdx i (cur.getD i 0) else prevIdx) (Nat.ofDigits 3 old) =
      Nat.ofDigits 3 (cur.set e (old.getD e 0)) := by
  -- After `k` positions the vector is the current one below `k` and the old one from there on.
  let merged (k : Nat) : List Nat :=
    (List.range n).map fun i => if i < k ∧ i ≠ e then cur.getD i 0 else old.getD i 0
  have mergedOk (k : Nat) : Levels n (merged k) := by
    refine ⟨by simp [merged], fun a member => ?_⟩
    obtain ⟨i, -, rfl⟩ := List.mem_map.mp member
    split
    · exact curOk.getD i
    · exact oldOk.getD i
  have start : merged 0 = old := by
    refine List.ext_getElem (by simp [merged, oldOk.length]) fun i here there => ?_
    simp [merged, there]
  have next (k : Nat) (bound : k < n) : merged (k + 1) =
      if k ≠ e then (merged k).set k (cur.getD k 0) else merged k := by
    refine List.ext_getElem (by split <;> simp [merged]) fun i here there => ?_
    by_cases event : k = e
    · subst event
      simp only [merged, List.getElem_map, List.getElem_range, ne_eq, not_true, if_false]
      by_cases last : i = k
      · simp [last]
      · simp [last, show i < k + 1 ↔ i < k by omega]
    · simp only [ne_eq, event, not_false_eq_true, if_true]
      rw [List.getElem_set]
      by_cases last : k = i
      · subst last
        simp [merged, event]
      · have earlier : i < k + 1 ↔ i < k := by omega
        simp only [if_neg last, merged, List.getElem_map, List.getElem_range, earlier]
  have run : ∀ k ≤ n, (List.range k).foldl (fun prevIdx i =>
      if i ≠ e then replaceDigit 3 prevIdx i (cur.getD i 0) else prevIdx) (Nat.ofDigits 3 old) =
        Nat.ofDigits 3 (merged k) := by
    intro k bound
    induction k with
    | zero => rw [start]; rfl
    | succ k ih =>
      rw [List.range_succ, List.foldl_append, ih (Nat.le_of_succ_le bound), next k bound]
      simp only [List.foldl_cons, List.foldl_nil]
      split
      · exact replaceDigit_encode (mergedOk k) bound _
      · rfl
  rw [run n (Nat.le_refl n)]
  congr 1
  refine List.ext_getElem (by simp [merged, curOk.length]) fun i here there => ?_
  have bound : i < n := by simpa [merged] using here
  rw [List.getElem_set]
  by_cases event : e = i
  · simp [merged, event]
  · simp [merged, event, Ne.symm event, bound, curOk.length]

/-- The reference's first evaluation. -/
theorem reference_first (cur : List Nat) : inst.reference.eval inst cur =
    let next := udpNext inst.rows cur
      (settledPrev (inst.filter.map Prod.fst) (List.replicate cur.length 2) cur)
      inst.runtime.state inst.isSequential
    { prev := cur, state := next, driven := next, initialized := true } := by
  simp [UdpReference.eval, reference]

/-- The first evaluation agrees. -/
theorem first_agrees (few : inst.inputs.length ≤ 32) {nets : Nets}
    (settles : inst.FirstSettles nets) :
    ∃ rt, inst.runtime.evalUdp nets = some rt ∧
      inst.Agrees rt (inst.reference.eval inst (inst.levels nets)) := by
  have curOk := levels_ok inst nets
  have small := runtime_state_lt inst
  have fresh : inst.runtime.initialized = false := rfl
  rw [evalUdp_full few (Or.inl fresh), reference_first, curOk.length]
  unfold UdpRuntime.evalFull
  cases compiled : inst.program with
  | none =>
    have unfiltered : inst.filter = none := by
      unfold filter
      rw [compiled]
      split <;> rfl
    have lutIs : inst.runtime.transitionLut = none := by simp [runtime, compiled]
    simp only [lutIs, fresh, Bool.not_false, Bool.true_or, if_true, unfiltered]
    refine ⟨_, rfl, .of_next curOk (udpNext_lt _ _ _ small _) ?_⟩
    simp only [Remembers, compiled]
    rfl
  | some p =>
    obtain ⟨lut, states⟩ := p
    obtain rfl := states_eq compiled
    have lutIs : inst.runtime.transitionLut = some lut := by simp [runtime, compiled]
    have statesIs : inst.runtime.lutInputStates = 3 ^ inst.inputs.length := by
      simp [runtime, compiled]
    have allX := levels_replicate inst.inputs.length
    have terminals : inst.runtime.inRefs.length = inst.inputs.length := rfl
    have levelsIs : inst.runtime.inRefs.map (levelCode nets) = inst.levels nets := rfl
    simp only [lutIs, statesIs, fresh, Bool.not_false, Bool.true_or, if_true, encodeTernary_eq,
      ← encode_replicate, terminals, levelsIs]
    cases filtered : inst.filter with
    | none =>
      have eventIs : inst.runtime.eventInput = none := by simp [runtime, filtered]
      simp only [eventIs, (lutAt_compiled compiled allX curOk small).2]
      refine ⟨_, rfl, .of_next curOk (udpNext_lt _ _ _ small _) ?_⟩
      simp only [Remembers, compiled, filtered]
      rfl
    | some f =>
      obtain ⟨e, mask⟩ := f
      obtain ⟨-, facts⟩ := filter_spec filtered
      have eventIs : inst.runtime.eventInput = some e := by simp [runtime, filtered]
      have oldEvent : (List.replicate inst.inputs.length 2).getD e 0 = 2 := by
        rw [List.getD_eq_getElem _ _ (by simpa using facts.inside)]
        simp
      simp only [eventIs, settle_fold allX curOk facts.inside, oldEvent,
        (lutAt_compiled compiled (curOk.set e (by decide : 2 < 3)) curOk small).2]
      -- The row search agrees whether or not the event terminal left x.
      have same : udpNext inst.rows (inst.levels nets)
          (settledPrev (some e) (List.replicate inst.inputs.length 2) (inst.levels nets))
          inst.runtime.state inst.isSequential =
          udpNext inst.rows (inst.levels nets) ((inst.levels nets).set e 2) inst.runtime.state
            inst.isSequential := by
        unfold settledPrev
        simp only [oldEvent]
        by_cases changed : 2 ≠ (inst.levels nets).getD e 0
        · rw [if_pos changed]
        · rw [if_neg changed]
          have still : (inst.levels nets).getD e 0 = 2 := (not_not.mp changed).symm
          have unset : (inst.levels nets).set e 2 = inst.levels nets := by
            have inside : e < (inst.levels nets).length := curOk.length ▸ facts.inside
            rw [List.getD_eq_getElem _ _ inside] at still
            rw [← still]
            exact List.set_getElem_self inside
          rw [unset]
          rcases settles e (by rw [filtered]; rfl) with moved | quiet | holds
          · exact absurd still moved
          · rw [quiet]
          · by_cases quiet : inst.levels nets = List.replicate inst.inputs.length 2
            · rw [quiet]
            · rw [holds]
              exact facts.passive _ _ _ allX curOk small (Ne.symm quiet) (oldEvent.trans still.symm)
      simp only [Option.map_some, same]
      refine ⟨_, rfl, .of_next curOk (udpNext_lt _ _ _ small _) ?_⟩
      simp only [Remembers, compiled, filtered]
      exact digit_encode curOk e

/-- A row without an edge and with a level output answers by the current inputs alone. -/
theorem udpMatchRow_level {row : UdpTableRow} (level : row.edges = [] ∧ row.output ≠ .noChange)
    (cur prev prev' : List Nat) (state state' : Nat) :
    udpMatchRow row cur prev state false = udpMatchRow row cur prev' state' false ∧
      udpMatchRow row cur prev state false ≠ some none := by
  obtain ⟨noEdge, output⟩ := level
  have code : row.output.code ≠ none := by
    cases out : row.output with
    | level c => simp [UdpOut.code]
    | noChange => exact absurd out output
  -- Without an edge entry the row reads the current levels only, and its output is a level.
  unfold udpMatchRow
  simp only [noEdge, List.any_nil, Bool.false_and, Bool.false_eq_true, if_false]
  refine ⟨trivial, ?_⟩
  repeat' split
  all_goals simp [code]

/-- Level rows answer by the current inputs alone. -/
theorem udpNext_level {rows : List UdpTableRow}
    (levels : ∀ row ∈ rows, row.edges = [] ∧ row.output ≠ .noChange)
    (cur prev prev' : List Nat) (state state' : Nat) :
    udpNext rows cur prev state false = udpNext rows cur prev' state' false := by
  -- The first matching row decides, so the rows are peeled off one at a time.
  induction rows with
  | nil => rfl
  | cons row rest ih =>
    have head := udpMatchRow_level (levels row List.mem_cons_self) cur prev prev' state state'
    have tail := ih fun r member => levels r (List.mem_cons_of_mem _ member)
    unfold udpNext at tail ⊢
    rw [List.findSome?_cons, List.findSome?_cons, ← head.1]
    cases matched : udpMatchRow row cur prev state false with
    | none => exact tail
    | some output =>
      cases output with
      | none => exact absurd matched head.2
      | some a => rfl

/-- A two-bit field has no bits from the third on. -/
theorem testBit_field {a k : Nat} (small : a < 4) (high : 2 ≤ k) : a.testBit k = false := by
  refine Nat.testBit_lt_two_pow (small.trans_le ?_)
  calc 4 = 2 ^ 2 := rfl
    _ ≤ 2 ^ k := Nat.pow_le_pow_right Nat.two_pos high

/-- Two-bit fields packed one after another come apart again. -/
theorem packed_field (f : Nat → Nat) (small : ∀ i, f i < 4) {n i : Nat} (inside : i < n) :
    ((List.range n).foldl (fun table i => table ||| f i <<< (i * 2)) 0) >>> (i * 2) &&& 3 = f i := by
  have bit : ∀ n k, ((List.range n).foldl (fun table i => table ||| f i <<< (i * 2)) 0).testBit k =
      (decide (k / 2 < n) && (f (k / 2)).testBit (k % 2)) := by
    intro n k
    induction n with
    | zero => simp
    | succ n ih =>
      rw [List.range_succ, List.foldl_append, List.foldl_cons, List.foldl_nil, Nat.testBit_or, ih,
        Nat.testBit_shiftLeft]
      rcases Nat.lt_trichotomy (k / 2) n with below | same | above
      · simp [below, show ¬ n * 2 ≤ k by omega, show k / 2 < n + 1 by omega]
      · simp [same, show n * 2 ≤ k by omega, show k - n * 2 = k % 2 by omega]
      · -- A field has no bits from the next one on.
        have high := testBit_field (small n) (by omega : 2 ≤ k - n * 2)
        simp [high, show ¬ k / 2 < n by omega, show ¬ k / 2 < n + 1 by omega]
  refine Nat.eq_of_testBit_eq fun k => ?_
  rw [Nat.testBit_and, Nat.testBit_shiftRight, bit]
  by_cases low : k < 2
  · have three : (3 : Nat).testBit k = true := by
      rcases (by omega : k = 0 ∨ k = 1) with rfl | rfl <;> decide
    rw [three, Bool.and_true, show (i * 2 + k) / 2 = i by omega, show (i * 2 + k) % 2 = k by omega]
    simp [inside]
  · have high : 2 ≤ k := Nat.le_of_not_lt low
    rw [testBit_field (by decide : 3 < 4) high, testBit_field (small i) high, Bool.and_false]

/-- The packed gate drives the next state of the row search, whatever came before. -/
theorem gate_eval (rowsOk : inst.LevelRows) {gate : UdpLut3} (lowered : inst.gate = some gate)
    (nets : Nets) (prev : List Nat) (state : Nat) :
    gate.eval nets = udpNext inst.rows (inst.levels nets) prev state inst.isSequential := by
  -- A lowered gate has no constant input, so its ternary digits are the normalised levels.
  have rows := rowsOk (by rw [lowered]; rfl)
  have curOk := levels_ok inst nets
  unfold UdpInstance.gate at lowered
  split at lowered
  · rename_i shape
    obtain ⟨combinational, -, -, -, noConstant⟩ := shape
    obtain ⟨⟨lut, states⟩, compiled, rfl⟩ := Option.map_eq_some_iff.mp lowered
    obtain rfl := states_eq compiled
    have codes : (inst.inputs.map fun b => min (nets b).val 2) = inst.levels nets := by
      refine List.map_congr_left fun b member => ?_
      simp only [levelCode, if_neg (noConstant b member)]
      split <;> omega
    have entry := (lutAt_compiled compiled (levels_replicate inst.inputs.length) curOk
      (by decide : 2 < 3)).2
    -- Every table entry fits two bits, which is what the packed table gives an entry.
    have small (i : Nat) : (lutAt lut (3 ^ inst.inputs.length) 2
        (3 ^ inst.inputs.length - 1) i).getD 0 < 4 := by
      cases entry : lutAt lut (3 ^ inst.inputs.length) 2 (3 ^ inst.inputs.length - 1) i with
      | none => decide
      | some a => exact (lut_small compiled entry).trans (by decide)
    simp only [UdpLut3.eval, codes, encodeTernary_eq]
    rw [packed_field _ small (encode_lt curOk), ← encode_replicate, entry, Option.getD_some,
      combinational]
    exact udpNext_level rows _ _ _ _ _
  · cases lowered

/-- What a reference of an instance that is lowered to a gate drives follows from the last inputs. -/
theorem reference_gate (rowsOk : inst.LevelRows) {gate : UdpLut3} (lowered : inst.gate = some gate)
    {r : UdpReference}
    (before : r.initialized = true → ∀ nets, inst.levels nets = r.prev → r.driven = gate.eval nets)
    (nets : Nets) :
    let r' := r.eval inst (inst.levels nets)
    r'.driven = gate.eval nets ∧ ∀ nets', inst.levels nets' = r'.prev → r'.driven = gate.eval nets' := by
  have driven (nets' : Nets) (same : inst.levels nets' = inst.levels nets) (prev : List Nat) :
      udpNext inst.rows (inst.levels nets) prev r.state inst.isSequential = gate.eval nets' := by
    rw [gate_eval rowsOk lowered nets' prev r.state, same]
  -- The first evaluation always looks the table up; a later one returns early when no level changed.
  cases first : r.initialized with
  | false =>
    simp only [UdpReference.eval, first, Bool.false_eq_true, false_and, if_false]
    exact ⟨driven nets rfl _, fun nets' same => driven nets' same _⟩
  | true =>
    simp only [reference_eval first]
    split
    · exact ⟨before first nets ‹_›, before first⟩
    · exact ⟨driven nets rfl _, fun nets' same => driven nets' same _⟩

/-- After any evaluations the reference of a lowered instance drives what the gate drives. -/
theorem referenceRun_gate (rowsOk : inst.LevelRows) {gate : UdpLut3}
    (lowered : inst.gate = some gate) {steps : List UdpStep} {last : UdpStep}
    (final : last ∈ steps.getLast?) :
    gate.eval last.nets = (inst.referenceRun steps).driven := by
  -- The driven value is that of the last levels seen; the induction is on the steps from any start.
  have run : ∀ (steps : List UdpStep) (r : UdpReference),
      (r.initialized = true → ∀ nets, inst.levels nets = r.prev → r.driven = gate.eval nets) →
      ∀ last ∈ steps.getLast?,
        (steps.foldl (fun r step => r.eval inst (inst.levels step.nets)) r).driven =
          gate.eval last.nets := by
    intro steps
    induction steps with
    | nil => exact fun r _ last impossible => nomatch impossible
    | cons step rest ih =>
      intro r before last final
      have here := reference_gate rowsOk lowered before step.nets
      cases rest with
      | nil =>
        obtain rfl : step = last := by simpa using final
        exact here.1
      | cons next rest => exact ih _ (fun _ => here.2) last (by simpa using final)
  exact (run steps inst.reference (fun impossible => nomatch impossible) last final).symm

/-- Every run of evaluations, each through `eval_udp` or a batch, leaves an instance in the state
and driving the level that the row search leaves it with, and reads no table past its end; a packed
gate drives that level too. -/
theorem evaluators_agree (few : inst.inputs.length ≤ 32) (noZ : inst.NoConstantZ)
    (rowsOk : inst.LevelRows) {steps : List UdpStep} (admits : ∀ step ∈ steps, inst.Admits step)
    (settles : ∀ step ∈ steps.head?, inst.FirstSettles step.nets) :
    (∃ rt, inst.runtime.run steps = some rt ∧ rt.state = (inst.referenceRun steps).state ∧
      rt.driven = (inst.referenceRun steps).driven) ∧
    ∀ gate ∈ inst.gate, ∀ last ∈ steps.getLast?,
      gate.eval last.nets = (inst.referenceRun steps).driven := by
  refine ⟨?_, fun gate lowered last final => referenceRun_gate rowsOk lowered final⟩
  cases steps with
  | nil => exact ⟨inst.runtime, rfl, rfl, rfl⟩
  | cons step rest =>
    obtain ⟨rt, stepped, agree⟩ := first_agrees few (settles step rfl)
    -- The first evaluation is always made by `eval_udp`.
    have first : inst.runtime.step step = some rt := by
      obtain ⟨nets, via⟩ := step
      cases via with
      | single => exact stepped
      | batch forced eventRef => exact stepped
    obtain ⟨last, run, agreeLast⟩ := run_agrees few noZ agree fun s member =>
      admits s (List.mem_cons_of_mem _ member)
    obtain ⟨-, driven, -, -, idx, prevInputs, rfl, -⟩ := agreeLast
    exact ⟨_, by rw [UdpRuntime.run, first, Option.bind_some, run], rfl, driven.symm⟩

end UdpInstance

/-- A rising-edge flip-flop of a clock and a data terminal. -/
def flipFlop : List UdpTableRow :=
  [⟨[.edgeShort 'r', .level '0'], some .anyQ, .level '0'⟩,
    ⟨[.edgeShort 'r', .level '1'], some .anyQ, .level '1'⟩,
    ⟨[.edge '?' '0', .anyQ], some .anyQ, .noChange⟩,
    ⟨[.anyQ, .edgeShort '*'], some .anyQ, .noChange⟩]

/-- An instance of the flip-flop. -/
def flipFlopOf (data : BitRef) : UdpInstance :=
  ⟨flipFlop, true, none, 0, 0, [⟨0, 0⟩, data]⟩

/-- Nets of a clock and a data level. -/
def clockData (clock data : Fin 4) : Nets := fun b => if b.sigId = 0 then clock else data

/-- A data change, a clock edge and another one made in a batch. -/
def flipFlopSteps : List UdpStep :=
  [⟨clockData 0 0, .single⟩, ⟨clockData 0 1, .single⟩, ⟨clockData 1 1, .single⟩,
    ⟨clockData 0 0, .batch (fun _ => false) ⟨0, 0⟩⟩, ⟨clockData 1 3, .batch (fun _ => false) ⟨0, 0⟩⟩]

/-- The flip-flop meets every condition on those steps. -/
theorem evaluators_agree_flipFlop :
    (∃ rt, (flipFlopOf ⟨1, 0⟩).runtime.run flipFlopSteps = some rt ∧
      rt.state = ((flipFlopOf ⟨1, 0⟩).referenceRun flipFlopSteps).state ∧
      rt.driven = ((flipFlopOf ⟨1, 0⟩).referenceRun flipFlopSteps).driven) ∧
    ∀ gate ∈ (flipFlopOf ⟨1, 0⟩).gate, ∀ last ∈ flipFlopSteps.getLast?,
      gate.eval last.nets = ((flipFlopOf ⟨1, 0⟩).referenceRun flipFlopSteps).driven := by
  have clock : (flipFlopOf ⟨1, 0⟩).filter.map Prod.fst = some 0 := by decide +kernel
  have own : (flipFlopOf ⟨1, 0⟩).inputs[0]? = some ⟨0, 0⟩ := rfl
  -- The clock terminal is the filtered one, and each batch step comes through the clock's own net.
  refine UdpInstance.evaluators_agree (by decide) (fun _ => by decide)
    (fun lowered => absurd lowered (by decide)) ?_ ?_
  · simp only [flipFlopSteps, List.forall_mem_cons]
    exact ⟨trivial, trivial, trivial, ⟨0, _, clock, own, by decide, rfl⟩,
      ⟨0, _, clock, own, by decide, rfl⟩, fun _ impossible => nomatch impossible⟩
  · rintro step first e event
    rw [clock] at event
    cases first
    cases event
    exact Or.inl (by decide)

/-- A data terminal tied to a constant z reads past the table on a clock edge. -/
theorem evaluators_differ_constantZ :
    ¬ ∀ (inst : UdpInstance) (steps : List UdpStep), inst.inputs.length ≤ 32 →
      (∀ step ∈ steps, inst.Admits step) →
      ∃ rt, inst.runtime.run steps = some rt ∧ rt.state = (inst.referenceRun steps).state ∧
        rt.driven = (inst.referenceRun steps).driven := by
  intro claim
  -- With the data terminal tied to z the second evaluation indexes past the table.
  obtain ⟨rt, run, -⟩ := claim (flipFlopOf ⟨constSig, 3⟩)
    [⟨clockData 0 0, .single⟩, ⟨clockData 1 0, .single⟩] (by decide)
    (fun step member => by
      rcases List.mem_cons.mp member with rfl | later
      · trivial
      · rw [List.mem_singleton.mp later]
        trivial)
  have result : ((flipFlopOf ⟨constSig, 3⟩).runtime.run
      [⟨clockData 0 0, .single⟩, ⟨clockData 1 0, .single⟩]).isSome = false := by decide +kernel
  rw [run] at result
  cases result

end Xezim
