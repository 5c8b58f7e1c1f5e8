import Xezim.Arrays.Arms
import Xezim.Vm.Kept
import Xezim.Vm.LastWrite

/-! What an array store leaves in its element, what it leaves alone, and what an element reads as. -/

namespace Xezim.Arrays

open Function Splice

/-- The queues a run starts from: the index finds the last entry of a signal, and a cell is queued once. -/
structure QueuesOk (s : VmSim) : Prop where
  indexed : s.nbaFast.WellIndexed
  once : (s.packedNba.map Prod.fst).Nodup

/-- Two simulators hold the same value of a signal and of a packed cell. -/
def SameCell (s s' : VmSim) (id : Nat) : Prop := s'.signalTable id = s.signalTable id ∧ s'.packed id = s.packed id

/-- All bits of a value of the given width are x. -/
def IsX (w : Nat) (v : Value) : Prop := v.width = w ∧ v.val = 0 ∧ v.xz = ones w

section Reads

/-- The mask of a narrow width is the number with that many ones. -/
theorem toNat_xmask {w : Nat} (narrow : w ≤ 64) : (xmask w).toNat = ones w := by
  refine Nat.eq_of_testBit_eq fun i => ?_
  -- A bit of a word is a bit of its number, and no narrow width reaches past the word.
  rw [BitVec.testBit_toNat, getLsbD_xmask, testBit_ones]
  exact decide_eq_decide.mpr ⟨And.left, fun low => ⟨low, by omega⟩⟩

variable [VmOps] [LawfulVmOps]

/-- Writing x to bits that are x changes nothing. -/
theorem foldl_setBit_x {w : Nat} {bits : Nat → LogicBit} (positions : List Nat)
    (unknown : ∀ i ∈ positions, i < w ∧ bits i = (false, true)) (v : Value) (x : IsX w v) :
    IsX w (positions.foldl (fun v i => VmOps.setBit v i (bits i)) v) := by
  induction positions generalizing v with
  | nil => exact x
  | cons i rest ih =>
    obtain ⟨width, val, unk⟩ := x
    refine ih (fun j member => unknown j (List.mem_cons_of_mem _ member)) _ ?_
    obtain ⟨here, bit⟩ := unknown i List.mem_cons_self
    simp only [LawfulVmOps.setBit_eq, bit]
    -- Bit by bit, the written position repeats what the planes of x hold.
    refine ⟨width, Nat.eq_of_testBit_eq fun j => ?_, Nat.eq_of_testBit_eq fun j => ?_⟩
    · simp [Value.write, testBit_splice, val]
    · simp only [Value.write, testBit_splice, unk, testBit_ones, width]
      have one : min 1 (w - i) = 1 := by omega
      rw [one]
      by_cases same : j = i
      · subst same
        simp [here]
      · rw [if_neg (by omega)]

omit [VmOps] [LawfulVmOps] in
/-- The sign of a value does not matter to its bits. -/
theorem IsX.signed {w : Nat} {v : Value} (x : IsX w v) (signed : Bool) : IsX w { v with isSigned := signed } := x

/-- An all-x word stored to a register is x in all bits of the width. -/
theorem vmStore_x (w : Nat) (signed : Bool) : IsX w (vmStore 0#64 (xmask w) w signed) := by
  unfold vmStore
  split
  · -- A wide register starts all x and has its low word overwritten by x.
    rename_i wide
    refine IsX.signed ?_ signed
    refine foldl_setBit_x (List.range 64) (fun i member => ?_) _ (LawfulValueOps.new_planes w)
    have low : i < 64 := List.mem_range.mp member
    exact ⟨by omega, by simp [getLsbD_xmask, low, show i < w by omega]⟩
  · rename_i narrow
    obtain ⟨val, unk⟩ := LawfulValueOps.fromInline_planes 0#64 (xmask w) w (by omega)
    exact ⟨LawfulValueOps.fromInline_width _ _ _, val, unk.trans (toNat_xmask (by omega))⟩

/-- A new value is x. -/
theorem new_x (w : Nat) : IsX w (ValueOps.new w) := LawfulValueOps.new_planes w

omit [VmOps] [LawfulVmOps] in
/-- What is x has an unknown bit, unless it has none at all. -/
theorem IsX.unknown {w : Nat} {v : Value} (x : IsX w v) (positive : 1 ≤ w) : v.xz.testBit 0 = true := by
  rw [x.2.2, testBit_ones]
  exact decide_eq_true positive

end Reads

section Stores

variable [VmOps] (D : ArrayDesign) {s : VmSim}

/-- The value a blocking store leaves in an element of the signal table. -/
def storedValue (eid : Nat) (v : Value) (width : Nat) : Value :=
  let val := VmOps.resizeForAssign v width
  { (if D.signalTwoState eid then VmOps.toTwoState val else val) with isSigned := D.signalSigned eid }

/-- What a register receives of an element after a blocking store to it. -/
def storedElem (eid : Nat) (v : Value) (width : Nat) : Value :=
  if isPackedId eid then
    let bits := ValueOps.rawBits (VmOps.resizeForAssign v width)
    let p := packedSetRaw D.toVmDesign eid bits.1 bits.2
    vmStore p.1 p.2 (D.packedWidth eid) (D.packedSigned eid)
  else storedValue D eid v width

/-- An element after a nonblocking store of a value holds what its declaration makes of the value. A store of the
very value the element held may have been left out. -/
def Landed (before after : VmSim) (eid : Nat) (val : Value) : Prop :=
  if isPackedId eid then
    let bits := ValueOps.rawBits val
    after.packed eid = packedSetRaw D.toVmDesign eid bits.1 bits.2 ∨ before.packed eid = bits ∧ after.packed eid = bits
  else after.signalTable eid = nbaEntryValue D.toVmDesign eid val ∨
    before.signalTable eid = val ∧ after.signalTable eid = val

omit [VmOps] in
/-- A signal's value replaced where it changes is the new one, when the new one has the signal's sign. -/
theorem writeChanged_table {id : Nat} {val : Value} (free : s.forced id = false)
    (sign : val.isSigned = D.signalSigned id) : (writeChanged D.toVmDesign s id val).signalTable id = val := by
  unfold writeChanged
  split
  · -- The written value repeats the sign it already has.
    have same : { val with isSigned := D.signalSigned id } = val := by rw [← sign]
    simp [writeSig, free, VmSim.onSignals, Sim.setSignal, same]
  · rename_i unchanged
    simpa using unchanged

omit [VmOps] in
/-- Replacing one signal's value changes no other signal and no packed cell. -/
theorem writeChanged_frame {id id' : Nat} (val : Value) (other : id' ≠ id) :
    SameCell s (writeChanged D.toVmDesign s id val) id' := by
  unfold writeChanged writeSig
  split
  · split
    · exact ⟨rfl, rfl⟩
    · exact ⟨update_of_ne other _ _, rfl⟩
  · exact ⟨rfl, rfl⟩

omit [VmOps] in
/-- Replacing one packed cell changes no signal and no other cell. -/
theorem packedStore_frame {eid id' : Nat} (v x : Word) (other : id' ≠ eid) :
    SameCell s (packedStore D.toVmDesign s eid v x) id' := by
  unfold packedStore
  split
  · exact ⟨rfl, rfl⟩
  · exact ⟨rfl, update_of_ne other _ _⟩

/-- A load after a blocking store to an element no force holds shows the stored value. -/
theorem blockingAssignArray_elem {eid : Nat} (v : Value) (width : Nat) (free : s.forced eid = false) :
    elemValue D (blockingAssignArray D.toVmDesign s eid v width) eid = storedElem D eid v width := by
  unfold elemValue storedElem blockingAssignArray
  cases packed : isPackedId eid with
  | true => simp [packedStore, free]
  | false =>
    simp only [Bool.false_eq_true, if_false]
    rw [writeChanged_table D free rfl]
    rfl

/-- A blocking store changes no other signal and no other cell. -/
theorem blockingAssignArray_frame {eid id : Nat} (v : Value) (width : Nat) (other : id ≠ eid) :
    SameCell s (blockingAssignArray D.toVmDesign s eid v width) id := by
  unfold blockingAssignArray
  dsimp only
  split
  · exact packedStore_frame D _ _ other
  · exact writeChanged_frame D _ other

/-- A force keeps its element from a blocking store. -/
theorem blockingAssignArray_held {eid : Nat} (v : Value) (width : Nat) (held : s.forced eid = true) :
    blockingAssignArray D.toVmDesign s eid v width = s := by
  unfold blockingAssignArray
  cases packed : isPackedId eid with
  | true => simp [packedStore, held]
  | false => simp [writeChanged, writeSig, held]

end Stores

section Commits

variable [VmOps] (D : ArrayDesign) {s : VmSim}

/-- The committed value of a signal: the queued one as its declaration stores it, unless a force holds it. -/
theorem applyNba_signal (queues : QueuesOk s) (id : Nat) :
    (applyNba D.toVmDesign s).signalTable id =
      if s.forced id then s.signalTable id
      else ((s.nbaFast.live id).map (nbaEntryValue D.toVmDesign id)).getD (s.signalTable id) := by
  -- A forced signal keeps its value, and any other takes the last one queued.
  show s.nbaFast.replay (fun k v old => if s.forced k then old else nbaEntryValue D.toVmDesign k v)
    s.signalTable id = _
  split
  · rename_i held
    exact @KeyedLog.foldl_commit_keeps _ _ _ _ (fun k v old =>
      if s.forced k then old else nbaEntryValue D.toVmDesign k v) id (fun _ _ => if_pos held) _ _
  · rename_i free
    rw [queues.indexed.replay_eq _ _ _ fun v b b' => by rw [if_neg free, if_neg free]]
    cases s.nbaFast.live id with
    | none => rfl
    | some v => exact if_neg free

/-- The committed planes of a packed cell, unless a force holds it. -/
theorem applyNba_cell (queues : QueuesOk s) (id : Nat) :
    (applyNba D.toVmDesign s).packed id =
      if s.forced id then s.packed id
      else ((packedQueued s.packedNba id).map fun p => packedSetRaw D.toVmDesign id p.1 p.2).getD (s.packed id) := by
  -- A forced element keeps its value, and any other takes the one queued.
  show s.packedNba.foldl (fun t e => update t e.1
    (if s.forced e.1 then t e.1 else packedSetRaw D.toVmDesign e.1 e.2.1 e.2.2)) s.packed id = _
  split
  · rename_i held
    exact @KeyedLog.foldl_commit_keeps _ _ _ _ (fun k (p : Word × Word) b =>
      if s.forced k then b else packedSetRaw D.toVmDesign k p.1 p.2) id (fun _ _ => if_pos held) _ _
  · rename_i free
    rw [foldl_packed id (fun k v x old => if s.forced k then old else packedSetRaw D.toVmDesign k v x)
      (fun v x b b' => by rw [if_neg free, if_neg free]) s.packedNba s.packed queues.once]
    cases packedQueued s.packedNba id with
    | none => rfl
    | some p => exact if_neg free

omit [VmOps] in
/-- A whole nonblocking write queues its value for its signal, unless the signal holds it and has nothing queued. -/
theorem tsStoreNbaVal_live (queues : QueuesOk s) (id : Nat) (val : Value) (id' : Nat) :
    (tsStoreNbaVal s.toSim id val).nbaFast.live id' =
      if id' = id ∧ ¬(s.nbaFast.index id = none ∧ s.signalTable id = val) then some val else s.nbaFast.live id' := by
  unfold tsStoreNbaVal
  cases found : s.nbaFast.index id with
  | some i =>
    show (s.nbaFast.modify i fun _ => val).live id' = _
    by_cases same : id' = id
    · subst same
      -- The signal has a live entry, which the write overwrites.
      have live := queues.indexed.live_isSome id'
      rw [queues.indexed.live_modify found]
      obtain ⟨v, there⟩ := Option.isSome_iff_exists.mp (live.trans (by rw [found]; rfl))
      simp [there]
    · rw [queues.indexed.live_modify_of_ne found same]
      simp [same]
  | none =>
    dsimp only
    split
    · rename_i changed
      show (s.nbaFast.push id val).live id' = _
      by_cases same : id' = id
      · subst same
        simp [changed]
      · rw [queues.indexed.live_push_of_ne same]
        simp [same]
    · rename_i unchanged
      rw [ne_eq, not_not] at unchanged
      simp [unchanged]

omit [VmOps] in
/-- Queueing planes for a cell queues them, unless the cell holds them and has nothing queued. -/
theorem queuePackedNba_queued (eid : Nat) (v x : Word) (id : Nat) :
    packedQueued (queuePackedNba s eid v x).packedNba id =
      if id = eid ∧ ¬(packedQueued s.packedNba eid = none ∧ s.packed eid = (v, x)) then some (v, x)
      else packedQueued s.packedNba id := by
  -- An entry that is there is replaced, and a new one is added where the value differs.
  unfold queuePackedNba
  split
  · rename_i p there
    simp only [packedQueued_replace, there, Option.map_some, reduceCtorEq, false_and, not_false_eq_true, and_true]
  · rename_i nothing
    split
    · rename_i changed
      rw [packedQueued_append _ _ _ _ nothing]
      simp [changed]
    · rename_i unchanged
      rw [ne_eq, not_not] at unchanged
      simp [nothing, unchanged]

/-- A nonblocking write keeps the queues sound. -/
theorem QueuesOk.nba (queues : QueuesOk s) (eid : Nat) (v : Value) (width : Nat) :
    QueuesOk (nbaAssignArray s eid v width) := by
  unfold nbaAssignArray
  dsimp only
  split
  · refine ⟨?_, ?_⟩
    · unfold queuePackedNba
      split <;> [skip; split] <;> exact queues.indexed
    · unfold queuePackedNba
      split
      · rw [map_fst_packedReplace]
        exact queues.once
      · rename_i nothing
        split
        · -- The appended cell was not queued before.
          rw [List.map_append]
          refine List.nodup_append.mpr ⟨queues.once, by simp, ?_⟩
          rintro a member b stored rfl
          rw [List.map_singleton, List.mem_singleton] at stored
          subst stored
          exact packedQueued_eq_none.mp nothing member
        · exact queues.once
  · refine ⟨?_, queues.once⟩
    show (tsStoreNbaVal s.toSim eid _).nbaFast.WellIndexed
    unfold tsStoreNbaVal
    split
    · rename_i i _
      exact queues.indexed.modify i fun _ => VmOps.resize v width
    · split
      · exact queues.indexed.push _ _
      · exact queues.indexed

/-- A nonblocking store changes the queues alone. -/
theorem nbaAssignArray_tables (eid : Nat) (v : Value) (width : Nat) :
    (nbaAssignArray s eid v width).signalTable = s.signalTable ∧ (nbaAssignArray s eid v width).packed = s.packed ∧
      (nbaAssignArray s eid v width).forced = s.forced := by
  unfold nbaAssignArray
  dsimp only
  split
  · unfold queuePackedNba
    split <;> [skip; split] <;> exact ⟨rfl, rfl, rfl⟩
  · exact ⟨tsStoreNbaVal_table _ _, rfl, rfl⟩

/-- A nonblocking store queues its value for its signal, unless the signal holds it and has nothing queued. -/
theorem nbaAssignArray_live (queues : QueuesOk s) {eid : Nat} (v : Value) (width : Nat)
    (signal : isPackedId eid = false) (id : Nat) :
    (nbaAssignArray s eid v width).nbaFast.live id =
      if id = eid ∧ ¬(s.nbaFast.index eid = none ∧ s.signalTable eid = VmOps.resize v width) then
        some (VmOps.resize v width)
      else s.nbaFast.live id := by
  have queued := tsStoreNbaVal_live queues eid (VmOps.resize v width) id
  unfold nbaAssignArray
  rw [signal]
  exact queued

/-- A nonblocking store to a packed cell queues its planes, unless the cell holds them and has nothing queued. -/
theorem nbaAssignArray_queued {eid : Nat} (v : Value) (width : Nat) (packed : isPackedId eid = true) (id : Nat) :
    packedQueued (nbaAssignArray s eid v width).packedNba id =
      if id = eid ∧ ¬(packedQueued s.packedNba eid = none ∧
          s.packed eid = ValueOps.rawBits (VmOps.resize v width)) then
        some (ValueOps.rawBits (VmOps.resize v width))
      else packedQueued s.packedNba id := by
  have queued := queuePackedNba_queued (s := s) eid (ValueOps.rawBits (VmOps.resize v width)).1
    (ValueOps.rawBits (VmOps.resize v width)).2 id
  unfold nbaAssignArray
  rw [packed]
  exact queued

/-- A store to one kind of element leaves the other kind's queue alone. -/
theorem nbaAssignArray_other (eid : Nat) (v : Value) (width : Nat) :
    (isPackedId eid = true → (nbaAssignArray s eid v width).nbaFast = s.nbaFast) ∧
      (isPackedId eid = false → (nbaAssignArray s eid v width).packedNba = s.packedNba) := by
  unfold nbaAssignArray
  -- The two kinds of cells have a queue each.
  refine ⟨fun packed => ?_, fun signal => ?_⟩
  · rw [packed]
    show (queuePackedNba s eid _ _).nbaFast = _
    unfold queuePackedNba
    split <;> [skip; split] <;> rfl
  · rw [signal]
    rfl

/-- Once the queue is applied, an element that no force holds holds what a nonblocking store gave it. -/
theorem applyNba_landed (queues : QueuesOk s) {eid : Nat} (v : Value) (width : Nat) (free : s.forced eid = false) :
    Landed D s (applyNba D.toVmDesign (nbaAssignArray s eid v width)) eid (VmOps.resize v width) := by
  obtain ⟨table, cells, forces⟩ := nbaAssignArray_tables (s := s) eid v width
  have sound := queues.nba eid v width
  unfold Landed
  cases packed : isPackedId eid with
  | true =>
    have committed := applyNba_cell D sound eid
    rw [forces, free, nbaAssignArray_queued v width packed, cells] at committed
    by_cases elided : packedQueued s.packedNba eid = none ∧ s.packed eid = ValueOps.rawBits (VmOps.resize v width)
    · -- The cell held the planes already, and nothing is queued for it.
      refine Or.inr ⟨elided.2, committed.trans ?_⟩
      simp [elided]
    · refine Or.inl (committed.trans ?_)
      simp [elided]
  | false =>
    have committed := applyNba_signal D sound eid
    rw [forces, free, nbaAssignArray_live queues v width packed, table] at committed
    by_cases elided : s.nbaFast.index eid = none ∧ s.signalTable eid = VmOps.resize v width
    · refine Or.inr ⟨elided.2, committed.trans ?_⟩
      simp [elided, KeyedLog.live_none elided.1]
    · refine Or.inl (committed.trans ?_)
      simp [elided]

/-- A force keeps its signal or packed cell when the queue is applied. -/
theorem applyNba_held (queues : QueuesOk s) {id : Nat} (held : s.forced id = true) :
    SameCell s (applyNba D.toVmDesign s) id := by
  refine ⟨?_, ?_⟩
  · rw [applyNba_signal D queues, if_pos held]
  · rw [applyNba_cell D queues, if_pos held]

/-- A nonblocking store changes nothing another signal or cell holds once the queue is applied. -/
theorem applyNba_frame (queues : QueuesOk s) {eid id : Nat} (v : Value) (width : Nat) (other : id ≠ eid) :
    SameCell (applyNba D.toVmDesign s) (applyNba D.toVmDesign (nbaAssignArray s eid v width)) id := by
  obtain ⟨table, cells, forces⟩ := nbaAssignArray_tables (s := s) eid v width
  have sound := queues.nba eid v width
  -- Neither queue changes for another cell.
  have live : (nbaAssignArray s eid v width).nbaFast.live id = s.nbaFast.live id := by
    cases packed : isPackedId eid with
    | true => rw [(nbaAssignArray_other eid v width).1 packed]
    | false => rw [nbaAssignArray_live queues v width packed, if_neg fun both => other both.1]
  have queued : packedQueued (nbaAssignArray s eid v width).packedNba id = packedQueued s.packedNba id := by
    cases packed : isPackedId eid with
    | true => rw [nbaAssignArray_queued v width packed, if_neg fun both => other both.1]
    | false => rw [(nbaAssignArray_other eid v width).2 packed]
  refine ⟨?_, ?_⟩
  · rw [applyNba_signal D sound, applyNba_signal D queues, forces, table, live]
  · rw [applyNba_cell D sound, applyNba_cell D queues, forces, cells, queued]

end Commits

section Entries

/-- Nothing is overwritten only where the signal has no entry. -/
theorem replaceLast_eq_none {id : Nat} {val : Value} {out : NbaOut} (missing : replaceLast id val out = none) :
    ∀ e ∈ out, e.1 ≠ id := by
  -- The last entry of the signal would be the one replaced.
  induction out with
  | nil => simp
  | cons e rest ih =>
    unfold replaceLast at missing
    cases later : replaceLast id val rest with
    | some _ => simp [later] at missing
    | none =>
      simp only [later, ite_eq_right_iff, reduceCtorEq, imp_false] at missing
      exact List.forall_mem_cons.mpr ⟨missing, ih later⟩

/-- Overwriting the last entry of a signal changes no other entry. -/
theorem replaceLast_eq_some {id : Nat} {val : Value} {out out' : NbaOut} (found : replaceLast id val out = some out') :
    ∃ front old back, out = front ++ (id, old) :: back ∧ out' = front ++ (id, val) :: back ∧
      ∀ e ∈ back, e.1 ≠ id := by
  induction out generalizing out' with
  | nil => cases found
  | cons e rest ih =>
    unfold replaceLast at found
    cases later : replaceLast id val rest with
    | some changed =>
      rw [later] at found
      obtain ⟨front, old, back, was, now, last⟩ := ih later
      cases found
      exact ⟨e :: front, old, back, by rw [was, List.cons_append], by rw [now, List.cons_append], last⟩
    | none =>
      rw [later] at found
      dsimp only at found
      split at found
      · rename_i here
        cases found
        -- Had a later entry been for the signal, it would have been the one found.
        exact ⟨[], e.2, rest, by rw [← here]; rfl, rfl, replaceLast_eq_none later⟩
      · cases found

/-- Queueing for one signal leaves the entries of every other signal as they were. -/
theorem queueIsolated_filter {id id' : Nat} (other : id' ≠ id) (nbaDup : Bool) (out : NbaOut) (val : Value)
    (elided : Bool) :
    (queueIsolated nbaDup out id val elided).filter (fun e => e.1 == id') = out.filter fun e => e.1 == id' := by
  -- Only an entry of the signal itself is replaced or added.
  unfold queueIsolated
  split
  · rename_i changed found
    split at found
    · obtain ⟨front, old, back, was, now, _⟩ := replaceLast_eq_some found
      simp [was, now, Ne.symm other]
    · cases found
  · split
    · rfl
    · simp [Ne.symm other]

/-- What is queued for a signal is its last entry, unless it was left out for a signal without entries. -/
theorem queueIsolated_last {id : Nat} {nbaDup : Bool} {out : NbaOut} (val : Value) (elided : Bool)
    (once : nbaDup = true ∨ ∀ e ∈ out, e.1 ≠ id) :
    (∃ front, (queueIsolated nbaDup out id val elided).filter (fun e => e.1 == id) = front ++ [(id, val)]) ∨
      elided = true ∧ queueIsolated nbaDup out id val elided = out ∧ ∀ e ∈ out, e.1 ≠ id := by
  unfold queueIsolated
  split
  · -- The entry replaced is the last of the signal.
    rename_i changed found
    split at found
    · obtain ⟨front, old, back, was, now, last⟩ := replaceLast_eq_some found
      have none_behind : back.filter (fun e => e.1 == id) = [] := by simpa using last
      exact Or.inl ⟨front.filter fun e => e.1 == id, by simp [now, none_behind]⟩
    · cases found
  · -- Without duplicates a missing entry means that the signal is not queued.
    rename_i missing
    have absent : ∀ e ∈ out, e.1 ≠ id := by
      rcases once with scans | absent
      · rw [if_pos scans] at missing
        exact replaceLast_eq_none missing
      · exact absent
    split
    · rename_i left
      exact Or.inr ⟨left, rfl, absent⟩
    · exact Or.inl ⟨out.filter fun e => e.1 == id, by simp⟩

end Entries

section Isolated

variable [VmOps] (D : ArrayDesign) {s : VmSim}

/-- Committing an entry keeps the forces. -/
theorem applyNbaEntry_forced (s : VmSim) (e : Nat × Value) : (applyNbaEntry D s e).forced = s.forced := by
  unfold applyNbaEntry packedStore writeChanged writeSig
  split <;> split <;> [rfl; rfl; split; rfl] <;> rfl

/-- Committing an entry changes no other signal and no other cell. -/
theorem applyNbaEntry_frame {e : Nat × Value} {id : Nat} (other : id ≠ e.1) : SameCell s (applyNbaEntry D s e) id := by
  unfold applyNbaEntry
  split
  · exact packedStore_frame D _ _ other
  · exact writeChanged_frame D _ other

/-- What a committed entry leaves in its own cell depends on that cell alone. -/
theorem applyNbaEntry_congr {s s' : VmSim} (e : Nat × Value) {id : Nat} (same : SameCell s s' id)
    (forces : s'.forced = s.forced) : SameCell (applyNbaEntry D s e) (applyNbaEntry D s' e) id := by
  -- An entry is applied to its own cell from what that cell holds.
  by_cases here : id = e.1
  · subst here
    obtain ⟨table, cell⟩ := same
    unfold applyNbaEntry SameCell
    cases packed : isPackedId e.1 with
    | true =>
      simp only [if_true, packedStore, forces]
      split
      · exact ⟨table, cell⟩
      · exact ⟨table, by simp⟩
    | false =>
      simp only [Bool.false_eq_true, if_false, writeChanged, writeSig, table, forces]
      split
      · split
        · exact ⟨table, cell⟩
        · exact ⟨by simp [VmSim.onSignals, Sim.setSignal], cell⟩
      · exact ⟨table, cell⟩
  · have left := applyNbaEntry_frame D (s := s) here
    have right := applyNbaEntry_frame D (s := s') here
    exact ⟨right.1.trans (same.1.trans left.1.symm), right.2.trans (same.2.trans left.2.symm)⟩

/-- Committing entries keeps the forces. -/
theorem foldl_applyNbaEntry_forced (out : NbaOut) (s : VmSim) :
    (out.foldl (applyNbaEntry D) s).forced = s.forced := by
  induction out generalizing s with
  | nil => rfl
  | cons e rest ih => rw [List.foldl_cons, ih, applyNbaEntry_forced]

/-- What committed entries leave in a cell depends on that cell's entries alone. -/
theorem foldl_applyNbaEntry_filter (id : Nat) (out : NbaOut) {s s' : VmSim} (same : SameCell s s' id)
    (forces : s'.forced = s.forced) :
    SameCell (out.foldl (applyNbaEntry D) s) ((out.filter fun e => e.1 == id).foldl (applyNbaEntry D) s') id := by
  -- Entries of other cells do not reach this one.
  induction out generalizing s s' with
  | nil => exact same
  | cons e rest ih =>
    by_cases here : e.1 = id
    · rw [List.filter_cons_of_pos (by simpa using here)]
      exact ih (applyNbaEntry_congr D e same forces) (by rw [applyNbaEntry_forced, applyNbaEntry_forced, forces])
    · rw [List.filter_cons_of_neg (by simpa using here)]
      have frame := applyNbaEntry_frame D (s := s) (Ne.symm here)
      exact ih ⟨same.1.trans frame.1.symm, same.2.trans frame.2.symm⟩ (by rw [applyNbaEntry_forced, forces])

/-- A committed entry lands in an element no force holds. -/
theorem applyNbaEntry_landed (s : VmSim) {eid : Nat} (val : Value) (free : s.forced eid = false) (before : VmSim) :
    Landed D before (applyNbaEntry D s (eid, val)) eid val := by
  unfold Landed applyNbaEntry
  cases packed : isPackedId eid with
  | true => exact Or.inl (by simp [packedStore, free])
  | false => exact Or.inl (writeChanged_table D free rfl)

/-- Once everything queued is applied, an element that no force holds and nothing else was queued for holds what an
isolated nonblocking store gave it. -/
theorem applyIsolated_landed (queues : QueuesOk s) {eid : Nat} {nbaDup : Bool} {out : NbaOut} (val : Value)
    (free : s.forced eid = false) (nothing : s.nbaFast.index eid = none)
    (once : nbaDup = true ∨ ∀ e ∈ out, e.1 ≠ eid) :
    Landed D s (applyIsolated D s
      (queueIsolated nbaDup out eid val (!isPackedId eid && decide (s.signalTable eid = val)))) eid val := by
  have relevant := foldl_applyNbaEntry_filter D eid
    (queueIsolated nbaDup out eid val (!isPackedId eid && decide (s.signalTable eid = val)))
    (s := applyNba D.toVmDesign s) ⟨rfl, rfl⟩ rfl
  rcases queueIsolated_last val (!isPackedId eid && decide (s.signalTable eid = val)) once with
    ⟨front, last⟩ | ⟨elided, same, absent⟩
  · -- The store's own entry is the last one committed to the element.
    rw [last, List.foldl_append] at relevant
    have landed := applyNbaEntry_landed D (front.foldl (applyNbaEntry D) (applyNba D.toVmDesign s)) val
      (by rw [foldl_applyNbaEntry_forced]; exact free) s
    unfold Landed at landed ⊢
    obtain ⟨table, cell⟩ := relevant
    simp only [applyIsolated, List.foldl_cons, List.foldl_nil] at table cell ⊢
    rw [← table, ← cell]
    exact landed
  · -- The store was left out: the signal holds its value, and nothing is queued for it.
    rw [Bool.and_eq_true, Bool.not_eq_true', decide_eq_true_eq] at elided
    obtain ⟨signal, holds⟩ := elided
    have nothing_left : (queueIsolated nbaDup out eid val (!isPackedId eid && decide (s.signalTable eid = val))).filter
        (fun e => e.1 == eid) = [] := by
      rw [same]
      simpa using absent
    rw [nothing_left] at relevant
    have table : (applyNba D.toVmDesign s).signalTable eid = s.signalTable eid := by
      rw [applyNba_signal D queues, KeyedLog.live_none nothing]
      simp
    unfold Landed
    rw [if_neg (by rw [signal]; exact Bool.false_ne_true)]
    exact Or.inr ⟨holds, relevant.1.symm.trans (table.trans holds)⟩

/-- An isolated store changes nothing another signal or cell holds once everything queued is applied. -/
theorem applyIsolated_frame {eid id : Nat} (nbaDup : Bool) (out : NbaOut) (val : Value) (elided : Bool)
    (other : id ≠ eid) :
    SameCell (applyIsolated D s out) (applyIsolated D s (queueIsolated nbaDup out eid val elided)) id := by
  have before := foldl_applyNbaEntry_filter D id out (s := applyNba D.toVmDesign s) ⟨rfl, rfl⟩ rfl
  have after := foldl_applyNbaEntry_filter D id (queueIsolated nbaDup out eid val elided)
    (s := applyNba D.toVmDesign s) ⟨rfl, rfl⟩ rfl
  rw [queueIsolated_filter other] at after
  exact ⟨after.1.symm.trans before.1, after.2.symm.trans before.2⟩

end Isolated

end Xezim.Arrays
