import Mathlib.Data.List.Nodup
import Xezim.Soa.Writes
import Xezim.Vm.Reference

/-! Runs of a store: every signal shows what was last written to it. -/

namespace Xezim.Soa

section Counts

/-- How many of the first `n` signals differ. -/
def changedPlanes (n : Nat) (before after : Nat → Planes) : Nat :=
  (List.range n).countP fun id => after id ≠ before id

/-- A change of one signal counts once. -/
theorem changedPlanes_update {n id : Nat} (inside : id < n) (shown : Nat → Planes) (q : Planes) :
    changedPlanes n shown (Function.update shown id q) = if q ≠ shown id then 1 else 0 := by
  unfold changedPlanes
  split
  · -- Only the entry written differs, and it is counted once.
    rename_i differs
    have only : ∀ j ∈ List.range n, (decide (Function.update shown id q j ≠ shown j) = true ↔ (j == id) = true) := by
      intro j _
      by_cases same : j = id
      · subst same
        simp [differs]
      · simp [same]
    rw [List.countP_congr only]
    exact List.count_eq_one_of_mem List.nodup_range (List.mem_range.mpr inside)
  · rename_i same
    refine List.countP_eq_zero.mpr fun j _ => ?_
    -- Writing what is shown changes nothing.
    have held : Function.update shown id q = shown := by
      rw [not_not.mp same, Function.update_eq_self]
    simp [held]

/-- Changes of different signals add up. -/
theorem changedPlanes_add {n : Nat} {a b c : Nat → Planes} (apart : ∀ id, b id = a id ∨ c id = b id) :
    changedPlanes n a c = changedPlanes n a b + changedPlanes n b c := by
  unfold changedPlanes
  -- Position by position, at most one of the two steps changes it.
  induction List.range n with
  | nil => rfl
  | cons id ids ih =>
    rw [List.countP_cons, List.countP_cons, List.countP_cons, ih]
    rcases apart id with same | same
    · simp only [same, ne_eq, not_true_eq_false, decide_false, Bool.false_eq_true, if_false]
      omega
    · simp only [same, ne_eq, not_true_eq_false, decide_false, Bool.false_eq_true, if_false]
      omega

end Counts

section Runs

variable [VmOps] [LawfulVmOps]

section Steps

variable {s : SoaSignalStore} {n : Nat} {decl : Nat → SignalDecl} {shown : Nat → Planes}

/-- A store shows the planes it keeps. -/
theorem Stores.shows (stores : Stores s n decl shown) : Shows s n decl shown where
  value id inside := (stores.slot id inside).read (stores.fits id inside)
  low id inside := by
    rw [(stores.slot id inside).read (stores.fits id inside)]
    exact (stores.slot id inside).low
  unknown id inside := by
    rw [(stores.slot id inside).read (stores.fits id inside)]
    exact (stores.slot id inside).unknown (stores.fits id inside)

/-- Signals read differently precisely when their planes differ. -/
theorem Stores.changedReads {s' : SoaSignalStore} {shown' : Nat → Planes} (stores : Stores s n decl shown)
    (stores' : Stores s' n decl shown') : changedReads s s' n = changedPlanes n shown shown' := by
  refine List.countP_congr fun id here => ?_
  have inside := List.mem_range.mp here
  rw [decide_eq_true_eq, decide_eq_true_eq, stores.shows.value id inside, stores'.shows.value id inside, Ne,
    SignalDecl.value_inj]

/-- The planes after a table from position `k` on is written. -/
def synced (decl : Nat → SignalDecl) (aos : List Value) (k : Nat) (shown : Nat → Planes) (id : Nat) : Planes :=
  match if k ≤ id then aos[id - k]? else none with
  | some v => (decl id).held (v.val, v.xz)
  | none => shown id

omit [VmOps] [LawfulVmOps] in
/-- A table written from its first entry on. -/
theorem synced_cons (decl : Nat → SignalDecl) (v : Value) (aos : List Value) (k : Nat) (shown : Nat → Planes) :
    synced decl (v :: aos) k shown =
      synced decl aos (k + 1) (Function.update shown k ((decl k).held (v.val, v.xz))) := by
  funext id
  unfold synced
  -- The copy goes on from the position after the first value.
  rcases Nat.lt_trichotomy id k with before | here | after
  · rw [if_neg (by omega), if_neg (by omega), Function.update_of_ne (by omega)]
  · subst here
    rw [if_pos (Nat.le_refl id), if_neg (by omega), Nat.sub_self, Function.update_self]
    rfl
  · rw [if_pos (by omega), if_pos (by omega), show id - k = id - (k + 1) + 1 by omega, List.getElem?_cons_succ,
      Function.update_of_ne (by omega)]

/-- The loop of `sync_from_aos` from a position on. -/
theorem Stores.syncFrom (aos : List Value) : ∀ (k : Nat) (s : SoaSignalStore) (shown : Nat → Planes),
    Stores s n decl shown → k + aos.length ≤ n →
    (∀ (i : Nat) v, aos[i]? = some v → v.width = (decl (k + i)).width) →
    let s' := (aos.zipIdx k).foldl (fun s entry => (s.writeValue entry.2 entry.1).1) s
    Stores s' n decl (synced decl aos k shown) ∧
      s'.generation = s.generation + BitVec.ofNat 64 (changedPlanes n shown (synced decl aos k shown)) := by
  induction aos with
  | nil =>
    intro k s shown stores _ _
    have same : synced decl [] k shown = shown := by
      funext id
      unfold synced
      split
      · rename_i v found
        split at found <;> simp at found
      · rfl
    have none : changedPlanes n shown shown = 0 := by simp [changedPlanes]
    rw [same, none]
    exact ⟨stores, (BitVec.add_zero _).symm⟩
  | cons v aos ih =>
    intro k s shown stores room widths
    rw [List.length_cons] at room
    have inside : k < n := by omega
    have written := stores.writeValue inside (widths 0 v rfl)
    obtain ⟨rest, generation⟩ := ih (k + 1) _ _ written.stores (by omega) (by
      intro i w found
      rw [show k + 1 + i = k + (i + 1) by omega]
      exact widths (i + 1) w found)
    dsimp only
    rw [List.zipIdx_cons, List.foldl_cons, synced_cons]
    refine ⟨rest, ?_⟩
    rw [generation, written.generation, written.changed]
    -- The first entry changes its own signal, the others change later ones.
    rw [changedPlanes_add (a := shown) (b := Function.update shown k ((decl k).held (v.val, v.xz))),
      changedPlanes_update inside]
    · by_cases differs : (decl k).held (v.val, v.xz) ≠ shown k
      · rw [if_pos (by simpa using differs), if_pos differs, BitVec.ofNat_add, ← BitVec.add_assoc]
        rfl
      · rw [if_neg (by simpa using differs), if_neg differs, Nat.zero_add]
    · intro id
      by_cases after : k + 1 ≤ id
      · exact .inl (Function.update_of_ne (by omega) ..)
      · refine .inr ?_
        unfold synced
        rw [if_neg after]

omit [VmOps] [LawfulVmOps] in
/-- The numbered entries of a shortened table. -/
theorem take_zipIdx {α : Type*} (l : List α) : ∀ n k, (l.zipIdx k).take n = (l.take n).zipIdx k := by
  induction l with
  | nil =>
    intro n k
    simp
  | cons a l ih =>
    intro n k
    cases n with
    | zero => rfl
    | succ n => rw [List.zipIdx_cons, List.take_succ_cons, List.take_succ_cons, List.zipIdx_cons, ih]

/-- What one call writes to every signal. -/
def afterCall (n : Nat) (decl : Nat → SignalDecl) (c : Call) (shown : Nat → Planes) (id : Nat) : Planes :=
  match c.written n id with
  | some p => (decl id).held p
  | none => shown id

omit [LawfulVmOps] in
/-- A generation advanced once for every changed signal moves precisely when some signal changed. -/
theorem advanced_iff {s s' : SoaSignalStore} {n : Nat}
    (generation : s'.generation = s.generation + BitVec.ofNat 64 (changedReads s s' n)) (small : n < 2 ^ 64) :
    s'.generation ≠ s.generation ↔ ∃ id < n, s'.readTransientValue id ≠ s.readTransientValue id := by
  -- The generation wraps at 2^64, and fewer signals than that can change in one step.
  have bound : Soa.changedReads s s' n ≤ n := by
    have most := List.countP_le_length
      (p := fun id => decide (s'.readTransientValue id ≠ s.readTransientValue id)) (l := List.range n)
    rwa [List.length_range] at most
  have moved : s'.generation ≠ s.generation ↔ 0 < Soa.changedReads s s' n := by
    rw [generation]
    constructor
    · -- A change of the generation means that something was counted.
      intro differs
      by_contra none
      rw [Nat.eq_zero_of_not_pos none] at differs
      exact differs (BitVec.add_zero _)
    · intro some same
      have number := congrArg BitVec.toNat same
      rw [BitVec.toNat_add, BitVec.toNat_ofNat] at number
      omega
  rw [moved, Soa.changedReads, List.countP_pos_iff]
  constructor
  · rintro ⟨id, here, differs⟩
    exact ⟨id, List.mem_range.mp here, by simpa using differs⟩
  · rintro ⟨id, here, differs⟩
    exact ⟨id, List.mem_range.mpr here, by simpa using differs⟩

/-- One call keeps what it writes and reports what it changes. -/
theorem Stores.call {c : Call} (stores : Stores s n decl shown) (valid : c.Valid n decl) :
    Stores (s.call c).1 n decl (afterCall n decl c shown) ∧ Reports s n c := by
  -- A call that writes one signal.
  have single : ∀ (id : Nat) (q : Planes) (r : SoaSignalStore × Bool), id < n →
      Written s n decl shown id q r → s.call c = (r.1, some r.2) → (∀ j, c.target = some j → j = id) →
      afterCall n decl c shown = Function.update shown id q →
      Stores (s.call c).1 n decl (afterCall n decl c shown) ∧ Reports s n c := by
    intro id q r inside written result only same
    have generation : (s.call c).1.generation =
        s.generation + BitVec.ofNat 64 (Soa.changedReads s (s.call c).1 n) := by
      rw [result, stores.changedReads written.stores, changedPlanes_update inside, written.generation, written.changed]
      by_cases differs : q ≠ shown id
      · rw [if_pos (by simpa using differs), if_pos differs]
        rfl
      · rw [if_neg (by simpa using differs), if_neg differs]
        exact (BitVec.add_zero _).symm
    refine ⟨by rw [result, same]; exact written.stores, ?_, generation, advanced_iff generation⟩
    · intro j targeted
      obtain rfl := only j targeted
      have reads : r.1.readTransientValue j ≠ s.readTransientValue j ↔ q ≠ shown j := by
        rw [written.stores.shows.value j inside, stores.shows.value j inside, Function.update_self]
        exact not_congr (decl j).value_inj
      rw [result, written.changed]
      exact congrArg some (decide_eq_decide.mpr reads.symm)
  have updated : ∀ (id : Nat) (p : Planes),
      (∀ j, c.written n j = if id = j then some p else none) →
      afterCall n decl c shown = Function.update shown id ((decl id).held p) := by
    intro id p writes
    funext j
    unfold afterCall
    rw [writes j]
    by_cases same : id = j
    · subst same
      rw [if_pos rfl, Function.update_self]
    · rw [if_neg same, Function.update_of_ne (Ne.symm same)]
  cases c with
  | writeBits id val xz =>
    refine single id _ _ valid.1 (stores.writeBits valid.1 valid.2 val xz) rfl ?_ (updated id _ fun _ => rfl)
    intro j targeted
    exact (Option.some.inj targeted).symm
  | writeValue id v =>
    refine single id _ _ valid.1 (stores.writeValue valid.1 valid.2) rfl ?_ (updated id _ fun _ => rfl)
    intro j targeted
    exact (Option.some.inj targeted).symm
  | syncSignalFromAos id v =>
    refine single id _ _ valid.1 (stores.writeValue valid.1 valid.2) rfl ?_ (updated id _ fun _ => rfl)
    intro j targeted
    exact (Option.some.inj targeted).symm
  | syncFromAos aos =>
    have same : afterCall n decl (.syncFromAos aos) shown = synced decl (aos.take n) 0 shown := by
      funext id
      simp only [afterCall, Call.written, synced, Nat.zero_le, if_true, Nat.sub_zero, List.getElem?_take]
      by_cases inside : id < n
      · simp only [inside, if_true]
        cases aos[id]? <;> rfl
      · simp only [inside, if_false]
    have loop : (s.call (.syncFromAos aos)).1 =
        ((aos.take n).zipIdx).foldl (fun s entry => (s.writeValue entry.2 entry.1).1) s := by
      change s.syncFromAos aos = _
      rw [SoaSignalStore.syncFromAos, take_zipIdx, stores.total]
    obtain ⟨after, generation⟩ := Stores.syncFrom (aos.take n) 0 s shown stores
      (by rw [Nat.zero_add, List.length_take]; omega) (by
        intro i v found
        rw [List.getElem?_take] at found
        split at found
        · rename_i inside
          rw [Nat.zero_add]
          exact valid i v inside found
        · simp at found)
    have generation : (s.call (.syncFromAos aos)).1.generation =
        s.generation + BitVec.ofNat 64 (Soa.changedReads s (s.call (.syncFromAos aos)).1 n) := by
      rw [loop, stores.changedReads after]
      exact generation
    refine ⟨by rw [same, loop]; exact after, ?_, generation, advanced_iff generation⟩
    intro id targeted
    simp [Call.target] at targeted

/-- A run keeps for every signal what was last written to it. -/
theorem Stores.run (start : Nat → Planes) (stores : Stores s n decl fun id => (decl id).held (start id))
    (calls : List Call) (valid : ∀ c ∈ calls, c.Valid n decl) :
    Stores (s.run calls) n decl fun id => (decl id).held (lastWritten n start calls id) := by
  induction calls using List.reverseRecOn with
  -- The last call decides what is written last.
  | nil => exact stores
  | append_singleton calls c ih =>
    have before := ih fun c' inCalls => valid c' (List.mem_append_left _ inCalls)
    have after := (before.call (valid c (List.mem_append_right _ (List.mem_singleton_self c)))).1
    rw [SoaSignalStore.run, List.foldl_append]
    refine after.congr (fun _ _ => rfl) fun id _ => ?_
    rw [lastWritten, List.foldl_append]
    change afterCall n decl c _ id = (decl id).held ((c.written n id).getD (lastWritten n start calls id))
    -- A call that writes the signal replaces what was written before.
    unfold afterCall
    cases c.written n id <;> rfl

end Steps

section Construction

/-- What the routing loop of `from_values` has found for some values. -/
structure Routed (values : List Value) (acc : List Value × List Nat) : Prop where
  length : acc.2.length = values.length
  wide : acc.1 = values.filter fun v => 64 < v.width
  narrow : ∀ (id : Nat) v, values[id]? = some v → v.width ≤ 64 → acc.2[id]? = some inlineSentinel
  broad : ∀ (id : Nat) v, values[id]? = some v → 64 < v.width →
    ∃ k : Nat, acc.2[id]? = some k ∧ k ≠ inlineSentinel ∧ acc.1[k]? = some v
  below : ∀ (i k : Nat), acc.2[i]? = some k → k ≠ inlineSentinel → k < acc.1.length
  apart : ∀ i j k : Nat, acc.2[i]? = some k → acc.2[j]? = some k → k ≠ inlineSentinel → i = j

omit [VmOps] [LawfulVmOps] in
/-- While the wide values fit a `u32` index, each gets an index of its own. -/
theorem routed (values : List Value) (few : (values.filter fun v => 64 < v.width).length < 2 ^ 32) :
    Routed values (values.foldl SoaSignalStore.routeValue ([], [])) := by
  induction values using List.reverseRecOn with
  | nil => exact ⟨rfl, rfl, by simp, by simp, by simp, by simp⟩
  | append_singleton values v ih =>
    rw [List.filter_append, List.length_append] at few
    have before := ih (by omega)
    rw [List.foldl_append, List.foldl_cons, List.foldl_nil]
    generalize values.foldl SoaSignalStore.routeValue ([], []) = acc at before ⊢
    obtain ⟨wideValues, wideMap⟩ := acc
    obtain ⟨length, wide, narrow, broad, below, apart⟩ := before
    dsimp only at length wide narrow broad below apart
    -- An entry of the longer list is an old one or the last.
    have split : ∀ {α : Type} (l : List α) (a : α) (i : Nat) (b : α), (l ++ [a])[i]? = some b →
        l[i]? = some b ∨ i = l.length ∧ a = b := by
      intro α l a i b found
      rcases Nat.lt_trichotomy i l.length with old | last | beyond
      · rw [List.getElem?_append_left old] at found
        exact .inl found
      · subst last
        simp at found
        exact .inr ⟨rfl, found⟩
      · rw [List.getElem?_eq_none (by simp; omega)] at found
        simp at found
    have keep : ∀ {α : Type} (l : List α) (a : α) (i : Nat) (b : α), l[i]? = some b → (l ++ [a])[i]? = some b := by
      intro α l a i b found
      rw [List.getElem?_append_left (lt_of_getElem?_some found)]
      exact found
    have last : ∀ {α : Type} (l : List α) (a : α) (i : Nat), i = l.length → (l ++ [a])[i]? = some a := by
      intro α l a i here
      simp [here]
    unfold SoaSignalStore.routeValue
    by_cases isWide : 64 < v.width
    · have index : wideValues.length % 2 ^ 32 = wideValues.length := by
        rw [wide]
        exact Nat.mod_eq_of_lt (by omega)
      have own : wideValues.length ≠ inlineSentinel := by
        have more : ([v].filter fun v => 64 < v.width).length = 1 := by simp [isWide]
        rw [wide]
        unfold inlineSentinel
        omega
      rw [if_pos isWide]
      dsimp only
      rw [index]
      refine ⟨by simp [length], by simp [wide, isWide], ?_, ?_, ?_, ?_⟩
      · intro id w found small
        rcases split _ _ _ _ found with old | ⟨_, rfl⟩
        · exact keep _ _ _ _ (narrow id w old small)
        · omega
      · intro id w found big
        rcases split _ _ _ _ found with old | ⟨here, rfl⟩
        · obtain ⟨k, routed, other, held⟩ := broad id w old big
          exact ⟨k, keep _ _ _ _ routed, other, keep _ _ _ _ held⟩
        · exact ⟨wideValues.length, last _ _ _ (by omega), own, last _ _ _ rfl⟩
      · intro i k found other
        rw [List.length_append, List.length_singleton]
        rcases split _ _ _ _ found with old | ⟨_, rfl⟩
        · have := below i k old other
          omega
        · omega
      · intro i j k foundI foundJ other
        rcases split _ _ _ _ foundI with oldI | ⟨hereI, rfl⟩
        · rcases split _ _ _ _ foundJ with oldJ | ⟨_, rfl⟩
          · exact apart i j k oldI oldJ other
          · have := below i _ oldI other
            omega
        · rcases split _ _ _ _ foundJ with oldJ | ⟨hereJ, _⟩
          · have := below j _ oldJ other
            omega
          · omega
    · rw [if_neg isWide]
      refine ⟨by simp [length], by simp [wide, isWide], ?_, ?_, ?_, ?_⟩
      · intro id w found small
        rcases split _ _ _ _ found with old | ⟨here, rfl⟩
        · exact keep _ _ _ _ (narrow id w old small)
        · exact last _ _ _ (here.trans length.symm)
      · intro id w found big
        rcases split _ _ _ _ found with old | ⟨_, rfl⟩
        · obtain ⟨k, routed, other, held⟩ := broad id w old big
          exact ⟨k, keep _ _ _ _ routed, other, held⟩
        · omega
      · intro i k found other
        rcases split _ _ _ _ found with old | ⟨_, rfl⟩
        · exact below i k old other
        · exact absurd rfl other
      · intro i j k foundI foundJ other
        rcases split _ _ _ _ foundI with oldI | ⟨_, rfl⟩
        · rcases split _ _ _ _ foundJ with oldJ | ⟨_, rfl⟩
          · exact apart i j k oldI oldJ other
          · exact absurd rfl other
        · exact absurd rfl other

/-- A new store keeps the initial values of its signals, all four-state. -/
theorem stores_fromValues (values : List Value) (few : (values.filter fun v => 64 < v.width).length < 2 ^ 32) :
    Stores (SoaSignalStore.fromValues values) values.length (declOf values [])
      fun id => (declOf values [] id).held (initialPlanes values id) := by
  have routes := routed values few
  unfold SoaSignalStore.fromValues
  generalize values.foldl SoaSignalStore.routeValue ([], []) = acc at routes ⊢
  obtain ⟨wideValues, wideMap⟩ := acc
  obtain ⟨length, wide, narrow, broad, below, apart⟩ := routes
  dsimp only at length wide narrow broad below apart ⊢
  have again : wideValues.filter (fun v => 64 < v.width) = wideValues := by
    rw [wide, List.filter_filter]
    simp
  refine ⟨rfl, ?_, fun id _ => (declOf values [] id).held_fits _, ?_⟩
  · intro id inside
    have found : values[id]? = some values[id] := List.getElem?_eq_getElem inside
    have decl : declOf values [] id = ⟨values[id].width, values[id].isSigned, values[id].isReal, false⟩ := by
      simp [declOf, found]
    have initial : initialPlanes values id = (values[id].val, values[id].xz) := by simp [initialPlanes, found]
    rw [decl, initial]
    generalize values[id] = v at found
    -- A four-state signal keeps both planes as they are.
    have words := maskedWords ⟨v.width, v.isSigned, v.isReal, false⟩ v.planes.1 v.planes.2
    have bytes := foldedBytes ⟨v.width, v.isSigned, v.isReal, false⟩ (v := v) rfl
    rw [if_neg Bool.false_ne_true] at words bytes
    by_cases small : v.width ≤ 64
    · rw [SignalDecl.held_planes _ small v] at words
      refine .inline small ?_ (valueFlags v) ?_ ?_ (declares_valueFlags v) ?_ ?_
      · change wideMap[id]?.getD inlineSentinel = inlineSentinel
        rw [narrow id v found small]
        rfl
      · simp [InlineSignalArray.fromValues, found]
      · simp [InlineSignalArray.fromValues, found]
      · rw [← words]
        simp [InlineSignalArray.fromValues, found, small, LawfulValueOps.rawBits_eq]
      · rw [← words]
        simp [InlineSignalArray.fromValues, found, small, LawfulValueOps.rawBits_eq]
    · obtain ⟨k, route, other, held⟩ := broad id v found (by omega)
      have routeEq : wideMap[id]?.getD inlineSentinel = k := by
        rw [route]
        rfl
      refine .wide (Nat.lt_of_not_le small) ?_ (valueFlags v) ?_ ?_ ?_ (declares_valueFlags v) ?_
      · change wideMap[id]?.getD inlineSentinel ≠ inlineSentinel
        rw [routeEq]
        exact other
      · change wideMap[id]?.getD inlineSentinel < (PackedWideSignalArray.fromWideValues wideValues).len
        rw [routeEq, PackedWideSignalArray.fromWideValues, again]
        exact below id k route other
      · change (PackedWideSignalArray.fromWideValues wideValues).widths[wideMap[id]?.getD inlineSentinel]? = _
        rw [routeEq, PackedWideSignalArray.fromWideValues, again]
        simp [held]
      · change (PackedWideSignalArray.fromWideValues wideValues).flags[wideMap[id]?.getD inlineSentinel]? = _
        rw [routeEq, PackedWideSignalArray.fromWideValues, again]
        simp [held]
      · change (PackedWideSignalArray.fromWideValues wideValues).data[wideMap[id]?.getD inlineSentinel]? = _
        rw [routeEq, PackedWideSignalArray.fromWideValues, again, ← bytes]
        simp [held]
  · intro i inI j inJ same other
    change wideMap[i]?.getD inlineSentinel = wideMap[j]?.getD inlineSentinel at same
    change wideMap[i]?.getD inlineSentinel ≠ inlineSentinel at other
    have inMap : ∀ i, i < values.length → ∃ k, wideMap[i]? = some k := fun i inside =>
      ⟨wideMap[i], List.getElem?_eq_getElem (by omega)⟩
    obtain ⟨k, foundI⟩ := inMap i inI
    obtain ⟨k', foundJ⟩ := inMap j inJ
    rw [foundI, foundJ] at same
    rw [foundI] at other
    obtain rfl : k = k' := same
    exact apart i j k foundI foundJ other

omit [VmOps] [LawfulVmOps] in
/-- The declaration of a signal is settled by the two-state declarations so far. -/
theorem declOf_append {values : List Value} (twoState : List Bool) (isTwoState : Bool)
    (inside : twoState.length < values.length) :
    declOf values (twoState ++ [isTwoState]) =
      if isTwoState then
        Function.update (declOf values twoState) twoState.length
          { declOf values twoState twoState.length with twoState := true }
      else declOf values twoState := by
  have last : twoState[twoState.length]?.getD false = false := by simp
  -- The new flag is the one of the last position so far.
  funext id
  rcases Nat.lt_trichotomy id twoState.length with before | here | after
  · have kept : (twoState ++ [isTwoState])[id]? = twoState[id]? := List.getElem?_append_left before
    have same : declOf values (twoState ++ [isTwoState]) id = declOf values twoState id := by
      unfold declOf
      rw [kept]
    rw [same]
    split
    · rw [Function.update_of_ne (by omega)]
    · rfl
  · subst here
    have found : values[twoState.length]? = some values[twoState.length] := List.getElem?_eq_getElem inside
    cases isTwoState
    · simp [declOf, found]
    · simp [declOf, found]
  · -- Past the flags every signal is declared with four states.
    have none : (twoState ++ [isTwoState])[id]?.getD false = false := by
      rw [List.getElem?_eq_none (by simp; omega)]
      rfl
    have none' : twoState[id]?.getD false = false := by
      rw [List.getElem?_eq_none (by omega)]
      rfl
    have same : declOf values (twoState ++ [isTwoState]) id = declOf values twoState id := by
      unfold declOf
      rw [none, none']
    rw [same]
    split
    · rw [Function.update_of_ne (by omega)]
    · rfl

/-- The loop of `from_values_with_two_state` folds the initial values of the signals it declares. -/
theorem stores_foldInitial (values : List Value) (few : (values.filter fun v => 64 < v.width).length < 2 ^ 32)
    (twoState : List Bool) (short : twoState.length ≤ values.length) :
    Stores (twoState.zipIdx.foldl (fun s entry => s.foldInitial entry.2 values entry.1)
      (SoaSignalStore.fromValues values)) values.length (declOf values twoState)
      fun id => (declOf values twoState id).held (initialPlanes values id) := by
  induction twoState using List.reverseRecOn with
  | nil => exact stores_fromValues values few
  -- The flags are folded in one after the other.
  | append_singleton twoState isTwoState ih =>
    rw [List.length_append, List.length_singleton] at short
    have before := ih (by omega)
    have inside : twoState.length < values.length := by omega
    rw [List.zipIdx_append, List.foldl_append, Nat.zero_add, List.zipIdx_singleton, List.foldl_cons, List.foldl_nil,
      declOf_append twoState isTwoState inside]
    unfold SoaSignalStore.foldInitial
    dsimp only
    cases isTwoState with
    | false => exact before
    -- A signal declared with two states is written once more, which clears its unknown bits.
    | true =>
      rw [if_pos rfl, if_pos rfl]
      have found : values[twoState.length]? = some values[twoState.length] := List.getElem?_eq_getElem inside
      rw [found]
      have declared := before.declareTwoState inside
      have width : values[twoState.length].width =
          (Function.update (declOf values twoState) twoState.length
            { declOf values twoState twoState.length with twoState := true } twoState.length).width := by
        rw [Function.update_self]
        simp [declOf, found]
      refine (declared.writeValue inside width).stores.congr (fun _ _ => rfl) fun id _ => ?_
      have initial : initialPlanes values twoState.length =
          (values[twoState.length].val, values[twoState.length].xz) := by simp [initialPlanes, found]
      by_cases same : id = twoState.length
      · subst same
        rw [Function.update_self, initial]
      · rw [Function.update_of_ne same, Function.update_of_ne same]

end Construction

/-- A store built from initial values, with or without two-state declarations. -/
def Built (values : List Value) (twoState : List Bool) (s : SoaSignalStore) : Prop :=
  s = SoaSignalStore.fromValuesWithTwoState values twoState ∨ twoState = [] ∧ s = SoaSignalStore.fromValues values

/-- After any calls every signal shows what was last written to it, on every reading path, and the next call reports
what it changes. -/
theorem run_shows_last_written (values : List Value) (twoState : List Bool)
    (few : (values.filter fun v => 64 < v.width).length < 2 ^ 32) {s : SoaSignalStore} (built : Built values twoState s)
    (calls : List Call) (valid : ∀ c ∈ calls, c.Valid values.length (declOf values twoState)) :
    Shows (s.run calls) values.length (declOf values twoState) (fun id =>
      (declOf values twoState id).held (lastWritten values.length (initialPlanes values) calls id)) ∧
      ∀ c, c.Valid values.length (declOf values twoState) → Reports (s.run calls) values.length c := by
  have start : Stores s values.length (declOf values twoState) fun id =>
      (declOf values twoState id).held (initialPlanes values id) := by
    rcases built with rfl | ⟨rfl, rfl⟩
    · have loop := stores_foldInitial values few (twoState.take values.length) (by rw [List.length_take]; omega)
      have decls : ∀ id < values.length, declOf values (twoState.take values.length) id =
        declOf values twoState id := by
        intro id inside
        unfold declOf
        rw [List.getElem?_take, if_pos inside]
      have same : Stores _ values.length (declOf values twoState) fun id =>
          (declOf values twoState id).held (initialPlanes values id) :=
        loop.congr decls fun id inside => by rw [decls id inside]
      -- The generation is no part of what is shown.
      exact ⟨same.total, fun id inside => by
        cases same.slot id inside with
        | inline narrow routed f width flags declares val xz =>
          exact .inline narrow routed f width flags declares val xz
        | wide broad routed f room width flags declares data =>
          exact .wide broad routed f room width flags declares data, same.fits, same.apart⟩
    · exact stores_fromValues values few
  have after := start.run (initialPlanes values) calls valid
  exact ⟨after.shows, fun c validC => (after.call validC).2⟩

end Runs

section Samples

attribute [local instance] referenceVmOps

/-- A net of 65 bits that holds one. -/
def wideOne : Value := ⟨65, 1, 0, false, false, false⟩

/-- A nibble and a wide net. -/
def nibbleAndWide : List Value := [⟨4, 0, 0, false, false, false⟩, wideOne]

/-- The nibble written `x1`, the top bit of the wide net, and both nets taken over from a table with an `x` in the
wide one. -/
def nibbleCalls : List Call :=
  [.writeBits 0 3 2, .writeValue 1 ⟨65, 2 ^ 64, 0, false, false, false⟩,
    .syncFromAos [⟨4, 1, 0, false, false, false⟩, ⟨65, 2 ^ 64 + 1, 1, false, false, false⟩]]

/-- A two-state nibble and a wide net show what was last written to them. -/
theorem nibbleRun_shows :
    Shows ((SoaSignalStore.fromValuesWithTwoState nibbleAndWide [true]).run nibbleCalls) 2
      (declOf nibbleAndWide [true]) fun id => (declOf nibbleAndWide [true] id).held
        (lastWritten 2 (initialPlanes nibbleAndWide) nibbleCalls id) := by
  have := referenceVmOps_lawful
  refine (run_shows_last_written nibbleAndWide [true] (by decide) (.inl rfl) nibbleCalls ?_).1
  intro c here
  -- The calls write a narrow signal, write a wide one and copy both back.
  simp only [nibbleCalls, List.mem_cons, List.not_mem_nil, or_false] at here
  rcases here with rfl | rfl | rfl
  · exact ⟨by decide, by decide⟩
  · exact ⟨by decide, by decide⟩
  · intro id v inside found
    have inside : id < 2 := inside
    rcases (by omega : id = 0 ∨ id = 1) with rfl | rfl
    · obtain rfl := Option.some.inj found
      decide
    · obtain rfl := Option.some.inj found
      decide

/-- The route of the last of `n + 1` wide signals is its number as a `u32`. -/
theorem route_replicate (v : Value) (wide : 64 < v.width) (n : Nat) :
    (SoaSignalStore.fromValues (List.replicate (n + 1) v)).route n = n % 2 ^ 32 := by
  -- Every wide value takes the next number of the side table, cut off at 32 bits.
  have loop : ∀ n, (List.replicate n v).foldl SoaSignalStore.routeValue ([], []) =
      (List.replicate n v, (List.range n).map (· % 2 ^ 32)) := by
    intro n
    induction n with
    | zero => rfl
    | succ n ih =>
      rw [List.replicate_succ', List.foldl_append, ih, List.foldl_cons, List.foldl_nil, SoaSignalStore.routeValue,
        if_pos wide, List.range_succ, List.map_append, List.length_replicate]
      rfl
  unfold SoaSignalStore.fromValues SoaSignalStore.route
  rw [loop]
  simp

/-- A signal whose route is the sentinel is read from its inline placeholder. -/
theorem placeholder_read {n : Nat} (sentinel : n % 2 ^ 32 = inlineSentinel) :
    (SoaSignalStore.fromValues (List.replicate (n + 1) wideOne)).readTransientValue n ≠ wideOne := by
  intro same
  have shown := congrArg Value.val same
  unfold SoaSignalStore.readTransientValue at shown
  rw [route_replicate wideOne (by decide) n, sentinel, if_neg (not_not_intro rfl)] at shown
  simp [SoaSignalStore.fromValues, InlineSignalArray.fromValues, InlineSignalArray.toTransientValue,
    InlineSignalArray.getBits, wideOne, ValueOps.fromInline] at shown

/-- Bits written to a wide signal are reported as a change that no read shows; and of `2 ^ 32` wide signals the last is
read from its inline placeholder. -/
theorem placeholder_observed :
    (((SoaSignalStore.fromValues nibbleAndWide).call (.writeBits 1 1 0)).2 = some true ∧
      ((SoaSignalStore.fromValues nibbleAndWide).call (.writeBits 1 1 0)).1.readTransientValue 1 =
        (SoaSignalStore.fromValues nibbleAndWide).readTransientValue 1) ∧
      (SoaSignalStore.fromValues (List.replicate (4294967295 + 1) wideOne)).readTransientValue 4294967295 ≠ wideOne :=
  ⟨⟨by decide +kernel, by decide +kernel⟩, placeholder_read rfl⟩

end Samples

end Xezim.Soa
