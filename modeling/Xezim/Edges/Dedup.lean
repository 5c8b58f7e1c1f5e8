import Xezim.Edges.GroupLaws

/-! When one answer a group is the answer of every member. -/

namespace Xezim.Edges

open Comb Relation

/-- An item copies whole signals, not single bits. -/
def wholeCopy : CombItem → Bool
  | .directCopy .. | .fastDirectCopy .. | .fastDirectFanout .. => true
  | _ => false

/-- Two signals read the same now and at the previous snapshot. -/
def SameReading (st : Snapshots) (d s : Nat) : Prop :=
  (st.signalTable d).planes = (st.signalTable s).planes ∧ st.prevVal d = st.prevVal s ∧ st.prevXz d = st.prevXz s

/-- Two signals have the same bit 0 now and at the previous snapshot. -/
def SameBit (st : Snapshots) (d s : Nat) : Prop :=
  (st.signalTable d).planes.1.getLsbD 0 = (st.signalTable s).planes.1.getLsbD 0 ∧
    (st.signalTable d).planes.2.getLsbD 0 = (st.signalTable s).planes.2.getLsbD 0 ∧
    (st.prevVal d).getLsbD 0 = (st.prevVal s).getLsbD 0 ∧ (st.prevXz d).getLsbD 0 = (st.prevXz s).getLsbD 0

/-- A settled state: the values are of the declared widths, and the destination of each copy that counts (the
signal of a whole copy, bit 0 of a buffer) equals its source. -/
structure Settled (T : SignalTables) (entries : List CombEntry) (st : Snapshots) : Prop where
  width : ∀ sid, (st.signalTable sid).width = T.signalWidths sid
  fits : ∀ sid, (st.signalTable sid).Fits
  prevFits : ∀ sid, T.signalWidths sid ≤ 64 →
    (st.prevVal sid).toNat < 2 ^ T.signalWidths sid ∧ (st.prevXz sid).toNat < 2 ^ T.signalWidths sid
  equal : ∀ e ∈ entries, ∀ d s, (d, s) ∈ copies e.item → eligible T entries d s →
    if wholeCopy e.item then SameReading st d s else SameBit st d s

/-- A copy that counts and copies every bit its signals have. -/
def ExactEdge (T : SignalTables) (entries : List CombEntry) (d s : Nat) : Prop :=
  ∃ e ∈ entries, (d, s) ∈ copies e.item ∧ eligible T entries d s ∧ (wholeCopy e.item ∨ T.signalWidths d ≤ 1)

/-- No two edge signals whose copies lead to one root are parted by a buffer of bit 0 between vectors: from both
the exact copies lead to one signal. -/
def NoPartialCopies (T : SignalTables) (entries : List CombEntry) (ids : List Nat) : Prop :=
  ∀ (p q s t m n root : Nat), p ≠ q → ids[p]? = some s → ids[q]? = some t →
    0 < m → m < maxCopyHops → Hops (CopyEdge T entries) m s root →
    0 < n → n < maxCopyHops → Hops (CopyEdge T entries) n t root → (∀ src, ¬ CopyEdge T entries root src) →
    ∃ u, ReflTransGen (ExactEdge T entries) s u ∧ ReflTransGen (ExactEdge T entries) t u

/-- The tables a run of passes works with; ids may have been appended since the groups were built. -/
def detectTables (T : SignalTables) (entries : List CombEntry) (noDedup : Bool) (ids appended : List Nat) :
    DetectTables :=
  ⟨T, ids ++ appended, (buildEdgeSigGroups T entries noDedup ids).1⟩

/-- The runs from fresh memo slots. -/
def runs (T : SignalTables) (entries : List CombEntry) (noDedup : Bool) (ids appended : List Nat)
    (passes : List Pass) : List (Pass × List (Nat × EdgeAnswer)) :=
  (detectTables T entries noDedup ids appended).detect 0
    (List.replicate (buildEdgeSigGroups T entries noDedup ids).2 default) passes

/-- The walks end, only copies of one root share a group, and every answer used, reused or not, is the one of
the position's own signal. -/
structure Deduplicated (T : SignalTables) (entries : List CombEntry) (noDedup : Bool) (ids : List Nat) : Prop where
  walks : ∀ sid, ∃ n ≤ maxCopyHops, Hops (CopyEdge T entries) n sid (rootOf (copySrc T entries) sid)
  copies : ∀ (p q g : Nat), (buildEdgeSigGroups T entries noDedup ids).1[p]? = some (some g) →
    (buildEdgeSigGroups T entries noDedup ids).1[q]? = some (some g) →
    ∃ s t root : Nat, ids[p]? = some s ∧ ids[q]? = some t ∧ TransGen (CopyEdge T entries) s root ∧
      TransGen (CopyEdge T entries) t root ∧ ∀ st, Settled T entries st → SameReading st s t
  answers : ∀ appended passes, (∀ pass ∈ passes, pass.forced = false → Settled T entries pass.snapshots) →
    ∀ r ∈ runs T entries noDedup ids appended passes, ∀ a ∈ r.2,
      ∃ sid, (ids ++ appended)[a.1]? = some sid ∧ a.2 = ownAnswer T r.1.snapshots sid

section Readings

variable {T : SignalTables} {entries : List CombEntry} {st : Snapshots}

/-- Words of at most one bit are their bit 0. -/
theorem word_eq_of_bit {a b : Word} (smallA : a.toNat < 2) (smallB : b.toNat < 2)
    (bit : a.getLsbD 0 = b.getLsbD 0) : a = b := by
  refine BitVec.eq_of_toNat_eq ?_
  have bitA : a.getLsbD 0 = decide (a.toNat % 2 = 1) := by simp [BitVec.getLsbD, Nat.testBit_zero]
  have bitB : b.getLsbD 0 = decide (b.toNat % 2 = 1) := by simp [BitVec.getLsbD, Nat.testBit_zero]
  rw [bitA, bitB, decide_eq_decide] at bit
  omega

/-- The planes of a value of one bit at most. -/
theorem planes_small {v : Value} (fits : v.Fits) (narrow : v.width ≤ 1) :
    v.planes.1.toNat < 2 ∧ v.planes.2.toNat < 2 := by
  have bound : 2 ^ v.width ≤ 2 ^ 1 := Nat.pow_le_pow_right (by omega) narrow
  have val : v.val < 2 := Nat.lt_of_lt_of_le fits.1 bound
  have xz : v.xz < 2 := Nat.lt_of_lt_of_le fits.2 bound
  simp only [Value.planes, BitVec.toNat_ofNat]
  omega

/-- The signals of a copy that counts have one width, at most a word. -/
theorem CopyEdge.widths {d s : Nat} (edge : CopyEdge T entries d s) :
    T.signalWidths d = T.signalWidths s ∧ T.signalWidths d ≤ 64 := by
  obtain ⟨_, _, _, counts⟩ := edge
  simp only [eligible, Bool.and_eq_true, decide_eq_true_eq] at counts
  exact ⟨counts.1.1.1.1.2, counts.1.1.1.1.1.2⟩

/-- An exact copy is a copy. -/
theorem ExactEdge.copyEdge {d s : Nat} (edge : ExactEdge T entries d s) : CopyEdge T entries d s := by
  obtain ⟨e, inEntries, copy, counts, _⟩ := edge
  exact ⟨e, inEntries, copy, counts⟩

/-- A copy of one-bit signals is exact. -/
theorem CopyEdge.exact {d s : Nat} (edge : CopyEdge T entries d s) (narrow : T.signalWidths d ≤ 1) :
    ExactEdge T entries d s := by
  obtain ⟨e, inEntries, copy, counts⟩ := edge
  exact ⟨e, inEntries, copy, counts, .inr narrow⟩

/-- Across an exact copy the two signals read the same. -/
theorem ExactEdge.sameReading {d s : Nat} (settled : Settled T entries st) (edge : ExactEdge T entries d s) :
    SameReading st d s := by
  have widths := edge.copyEdge.widths
  obtain ⟨e, inEntries, copy, counts, exact⟩ := edge
  have equal := settled.equal e inEntries d s copy counts
  cases whole : wholeCopy e.item with
  | true => simpa [whole] using equal
  | false =>
    -- A buffer between one-bit signals copies all there is.
    have narrow : T.signalWidths d ≤ 1 := by simpa [whole] using exact
    rw [whole, if_neg (by decide)] at equal
    obtain ⟨curV, curX, prevV, prevX⟩ := equal
    have smallD := planes_small (settled.fits d) (by rw [settled.width]; exact narrow)
    have smallS := planes_small (settled.fits s) (by rw [settled.width]; omega)
    have bound : ∀ w, w ≤ 1 → 2 ^ w ≤ 2 ^ 1 := fun w le => Nat.pow_le_pow_right (by omega) le
    have prevD := settled.prevFits d (by omega)
    have prevS := settled.prevFits s (by omega)
    have boundD := bound _ narrow
    have boundS := bound (T.signalWidths s) (by omega)
    exact ⟨Prod.ext (word_eq_of_bit smallD.1 smallS.1 curV) (word_eq_of_bit smallD.2 smallS.2 curX),
      word_eq_of_bit (by omega) (by omega) prevV, word_eq_of_bit (by omega) (by omega) prevX⟩

/-- So do signals that exact copies lead to. -/
theorem sameReading_of_path (settled : Settled T entries st) {s u : Nat}
    (path : ReflTransGen (ExactEdge T entries) s u) : SameReading st s u := by
  induction path with
  | refl => exact ⟨rfl, rfl, rfl⟩
  | tail _ edge ih =>
    have here := edge.sameReading settled
    exact ⟨ih.1.trans here.1, ih.2.1.trans here.2.1, ih.2.2.trans here.2.2⟩

/-- Signals of at most a word that read the same answer the same. -/
theorem ownAnswer_congr {s t : Nat} (same : SameReading st s t) (narrowS : T.signalWidths s ≤ 64)
    (narrowT : T.signalWidths t ≤ 64) : ownAnswer T st s = ownAnswer T st t := by
  obtain ⟨planes, prevV, prevX⟩ := same
  have smallS : ¬ 64 < T.signalWidths s := by omega
  have smallT : ¬ 64 < T.signalWidths t := by omega
  simp only [ownAnswer, planes, prevV, prevX, smallS, smallT, if_false]

/-- A path of copies keeps the width. -/
theorem widths_of_hops {n s root : Nat} (hops : Hops (CopyEdge T entries) n s root) :
    T.signalWidths s = T.signalWidths root := by
  induction hops with
  | here a => rfl
  | hop edge _ ih => rw [edge.widths.1, ih]

/-- A path of copies of one-bit signals is exact. -/
theorem exact_of_hops {n s root : Nat} (hops : Hops (CopyEdge T entries) n s root) (narrow : T.signalWidths s ≤ 1) :
    ReflTransGen (ExactEdge T entries) s root := by
  induction hops with
  | here a => exact .refl
  | hop edge _ ih => exact .head (edge.exact narrow) (ih (by rw [← edge.widths.1]; exact narrow))

/-- A signal that takes a hop is at most a word wide. -/
theorem narrow_of_hops {n s root : Nat} (positive : 0 < n) (hops : Hops (CopyEdge T entries) n s root) :
    T.signalWidths s ≤ 64 := by
  cases hops with
  | here a => omega
  | hop edge _ => exact edge.widths.2

/-- A positive number of hops is a path of at least one. -/
theorem transGen_of_hops {R : Nat → Nat → Prop} {n s root : Nat} (positive : 0 < n) (hops : Hops R n s root) :
    TransGen R s root := by
  cases hops with
  | here a => omega
  | hop edge rest => exact .head' edge rest.path

/-- Exact copies in any direction between two signals lead to one signal, each having one source. -/
theorem meet_of_eqvGen {a b : Nat} (linked : EqvGen (ExactEdge T entries) a b) :
    ∃ u, ReflTransGen (ExactEdge T entries) a u ∧ ReflTransGen (ExactEdge T entries) b u := by
  have unique : Relator.RightUnique (ExactEdge T entries) :=
    fun _ _ _ first second => first.copyEdge.unique second.copyEdge
  induction linked with
  | rel a b edge => exact ⟨b, .single edge, .refl⟩
  | refl a => exact ⟨a, .refl, .refl⟩
  | symm a b _ ih =>
    obtain ⟨u, left, right⟩ := ih
    exact ⟨u, right, left⟩
  | trans a b c _ _ ihAB ihBC =>
    obtain ⟨u, fromA, fromB⟩ := ihAB
    obtain ⟨v, fromB', fromC⟩ := ihBC
    -- The two paths from the middle are one path.
    rcases ReflTransGen.total_of_right_unique unique fromB fromB' with ahead | behind
    · exact ⟨v, fromA.trans ahead, fromC⟩
    · exact ⟨u, fromA, fromC.trans behind⟩

/-- Exact copies link signals of one width. -/
theorem widths_of_eqvGen {a b : Nat} (linked : EqvGen (ExactEdge T entries) a b) :
    T.signalWidths a = T.signalWidths b := by
  induction linked with
  | rel a b edge => exact edge.copyEdge.widths.1
  | refl a => rfl
  | symm a b _ ih => exact ih.symm
  | trans a b c _ _ ihAB ihBC => exact ihAB.trans ihBC

end Readings

section Scan

variable {D : DetectTables} {p : Pass} {generation : Nat} {memo : List EdgeGroupMemo}

/-- Members of one group answer alike in a pass. -/
def Alike (D : DetectTables) (p : Pass) : Prop :=
  (∀ pos g, D.groupAt p pos = some g → ∃ sid, D.edgeSignalIds[pos]? = some sid) ∧
    ∀ pos pos' g s t, D.groupAt p pos = some g → D.groupAt p pos' = some g → D.edgeSignalIds[pos]? = some s →
      D.edgeSignalIds[pos']? = some t → ownAnswer D.tables p.snapshots s = ownAnswer D.tables p.snapshots t

/-- A slot is stale, or holds the answer of a member of its group in this pass. -/
def MemoOk (D : DetectTables) (p : Pass) (generation : Nat) (memo : List EdgeGroupMemo) : Prop :=
  ∀ (g : Nat) m, memo[g]? = some m → m.generation < generation ∨ m.generation = generation ∧
    ∃ pos sid, D.groupAt p pos = some g ∧ D.edgeSignalIds[pos]? = some sid ∧
      m.answer = ownAnswer D.tables p.snapshots sid

/-- An answer is the one of the position's own signal. -/
def Own (D : DetectTables) (p : Pass) (a : Nat × EdgeAnswer) : Prop :=
  ∃ sid, D.edgeSignalIds[a.1]? = some sid ∧ a.2 = ownAnswer D.tables p.snapshots sid

/-- One position keeps the slots sound and uses its own answer. -/
theorem scanPos_ok (alike : Alike D p) (ok : MemoOk D p generation memo) (pos : Nat) :
    MemoOk D p generation (D.scanPos p generation memo pos).1 ∧
      ∀ a, (D.scanPos p generation memo pos).2 = some a → Own D p (pos, a) := by
  unfold DetectTables.scanPos
  split
  · exact ⟨ok, fun a used => by simp at used⟩
  · split
    · -- The slot was written in this pass, by a member of the same group.
      rename_i m hit
      obtain ⟨g, inGroup, found⟩ := Option.bind_eq_some_iff.mp hit
      obtain ⟨slot, fresh⟩ := Option.filter_eq_some_iff.mp found
      have fresh : m.generation = generation := by simpa using fresh
      refine ⟨ok, ?_⟩
      intro a used
      obtain rfl : m.answer = a := by simpa using used
      obtain ⟨sid, here⟩ := alike.1 pos g inGroup
      rcases ok g m slot with stale | ⟨_, pos', t, inGroup', there, answer⟩
      · omega
      · exact ⟨sid, here, by rw [answer]; exact alike.2 pos' pos g t sid inGroup' inGroup there here⟩
    · split
      · exact ⟨ok, fun a used => by simp at used⟩
      · rename_i sid here
        split
        · refine ⟨ok, fun a used => ?_⟩
          obtain rfl : ownAnswer D.tables p.snapshots sid = a := by simpa using used
          exact ⟨sid, here, rfl⟩
        · -- The first member scanned leaves its answer in the slot.
          rename_i g inGroup
          refine ⟨?_, fun a used => ?_⟩
          · intro g' m slot
            by_cases same : g = g'
            · subst same
              have bound : g < memo.length := by
                have := (List.getElem?_eq_some_iff.mp slot).1
                simpa using this
              rw [List.getElem?_set_self bound] at slot
              obtain rfl : ⟨generation, ownAnswer D.tables p.snapshots sid⟩ = m := by simpa using slot
              exact .inr ⟨rfl, pos, sid, inGroup, here, rfl⟩
            · rw [List.getElem?_set_ne same] at slot
              exact ok g' m slot
          · obtain rfl : ownAnswer D.tables p.snapshots sid = a := by simpa using used
            exact ⟨sid, here, rfl⟩

/-- So does a whole scan. -/
theorem scan_ok (alike : Alike D p) (ok : MemoOk D p generation memo) (positions : List Nat) :
    MemoOk D p generation (D.scan p generation memo positions).1 ∧
      ∀ a ∈ (D.scan p generation memo positions).2, Own D p a := by
  induction positions generalizing memo with
  | nil => exact ⟨ok, by simp [DetectTables.scan]⟩
  | cons pos positions ih =>
    obtain ⟨kept, own⟩ := scanPos_ok alike ok pos
    obtain ⟨kept', owns⟩ := ih kept
    rw [DetectTables.scan]
    refine ⟨kept', ?_⟩
    intro a listed
    rcases List.mem_append.mp listed with here | later
    · obtain ⟨answer, used, rfl⟩ := Option.map_eq_some_iff.mp (Option.mem_toList.mp here)
      exact own answer used
    · exact owns a later

/-- The slots after a pass are of its generation at most. -/
theorem MemoOk.bound (ok : MemoOk D p generation memo) : ∀ (g : Nat) m, memo[g]? = some m →
    m.generation ≤ generation := by
  intro g m slot
  rcases ok g m slot with stale | ⟨fresh, _⟩ <;> omega

/-- In a run of passes whose groups answer alike, every answer is the position's own. -/
theorem detect_own {passes : List Pass} (alike : ∀ pass ∈ passes, Alike D pass)
    (bound : ∀ (g : Nat) m, memo[g]? = some m → m.generation ≤ generation) :
    ∀ r ∈ D.detect generation memo passes, ∀ a ∈ r.2, Own D r.1 a := by
  induction passes generalizing generation memo with
  | nil => simp [DetectTables.detect]
  | cons pass passes ih =>
    have stale : MemoOk D pass (generation + 1) memo := fun g m slot => .inl (Nat.lt_succ_of_le (bound g m slot))
    obtain ⟨kept, own⟩ := scan_ok (alike pass List.mem_cons_self) stale pass.positions
    intro r listed
    rw [DetectTables.detect] at listed
    rcases List.mem_cons.mp listed with rfl | later
    · exact own
    · exact ih (fun pass' inPasses => alike pass' (List.mem_cons_of_mem pass inPasses)) kept.bound r later

end Scan

section Main

variable {T : SignalTables} {entries : List CombEntry} {noDedup : Bool} {ids appended : List Nat}

/-- Paths of the table are paths of the copies. -/
theorem hops_copySrc {n a b : Nat} :
    Hops (fun d s => copySrc T entries d = some s) n a b ↔ Hops (CopyEdge T entries) n a b := by
  simp only [copySrc_eq_some]

/-- Under the condition the members of a group read the same in every settled state. -/
theorem sameReading_of_group (condition : noDedup = true ∨ NoPartialCopies T entries ids) {p q g : Nat}
    (atP : (buildEdgeSigGroups T entries noDedup ids).1[p]? = some (some g))
    (atQ : (buildEdgeSigGroups T entries noDedup ids).1[q]? = some (some g)) :
    ∃ s t root m n, ids[p]? = some s ∧ ids[q]? = some t ∧ 0 < m ∧ Hops (CopyEdge T entries) m s root ∧
      0 < n ∧ Hops (CopyEdge T entries) n t root ∧ ∀ st, Settled T entries st → SameReading st s t := by
  obtain ⟨root, ⟨s, m, hereP, positive, bound, path, ends⟩, ⟨t, n, hereQ, positive', bound', path', _⟩⟩ :=
    reaches_of_group atP atQ
  have path := hops_copySrc.mp path
  have path' := hops_copySrc.mp path'
  refine ⟨s, t, root, m, n, hereP, hereQ, positive, path, positive', path', ?_⟩
  intro st settled
  by_cases same : p = q
  · obtain rfl : s = t := by
      rw [same, hereQ] at hereP
      exact (Option.some.inj hereP).symm
    exact ⟨rfl, rfl, rfl⟩
  · have noPartial : NoPartialCopies T entries ids := by
      rcases condition with off | noPartial
      · simp [buildEdgeSigGroups, off] at atP
      · exact noPartial
    obtain ⟨u, fromS, fromT⟩ := noPartial p q s t m n root same hereP hereQ positive bound path positive' bound' path'
      (copySrc_eq_none.mp ends)
    have readS := sameReading_of_path settled fromS
    have readT := sameReading_of_path settled fromT
    exact ⟨readS.1.trans readT.1.symm, readS.2.1.trans readT.2.1.symm, readS.2.2.trans readT.2.2.symm⟩

/-- Under the condition a group answers alike in every unforced settled pass, and in every forced one. -/
theorem alike_of_condition (condition : noDedup = true ∨ NoPartialCopies T entries ids) {pass : Pass}
    (settled : pass.forced = false → Settled T entries pass.snapshots) :
    Alike (detectTables T entries noDedup ids appended) pass := by
  have group : ∀ {pos g}, (detectTables T entries noDedup ids appended).groupAt pass pos = some g →
      pass.forced = false ∧ (buildEdgeSigGroups T entries noDedup ids).1[pos]? = some (some g) := by
    intro pos g inGroup
    unfold DetectTables.groupAt at inGroup
    split at inGroup
    · rename_i active
      exact ⟨active.2, Option.join_eq_some_iff.mp inGroup⟩
    · simp at inGroup
  have listed : ∀ {pos sid : Nat}, ids[pos]? = some sid → (ids ++ appended)[pos]? = some sid := by
    intro pos sid here
    rw [List.getElem?_append_left (List.getElem?_eq_some_iff.mp here).1, here]
  constructor
  · intro pos g inGroup
    obtain ⟨s, _, _, _, _, here, _⟩ := sameReading_of_group condition (group inGroup).2 (group inGroup).2
    exact ⟨s, listed here⟩
  · intro pos pos' g s t inGroup inGroup' here there
    obtain ⟨s', t', root, m, n, here', there', positive, path, positive', path', same⟩ :=
      sameReading_of_group condition (group inGroup).2 (group inGroup').2
    obtain rfl : s' = s := Option.some.inj ((listed here').symm.trans here)
    obtain rfl : t' = t := Option.some.inj ((listed there').symm.trans there)
    exact ownAnswer_congr (same _ (settled (group inGroup).1)) (narrow_of_hops positive path)
      (narrow_of_hops positive' path')

/-- The state in which the signals linked to `s` by exact copies have moved from 0 to 2, and no other has. -/
noncomputable def partedState (T : SignalTables) (entries : List CombEntry) (s : Nat) : Snapshots :=
  open Classical in
  { signalTable := fun x =>
      ⟨T.signalWidths x, if EqvGen (ExactEdge T entries) s x then 2 else 0, 0, false, false, false⟩
    prevVal := fun _ => 0
    prevXz := fun _ => 0
    prevWide := fun _ => none }

/-- It is settled when the signal is a vector. -/
theorem partedState_settled {s : Nat} (vector : 2 ≤ T.signalWidths s) :
    Settled T entries (partedState T entries s) where
  width _ := rfl
  fits x := by
    refine ⟨?_, Nat.two_pow_pos _⟩
    simp only [partedState]
    split
    · -- A linked signal is as wide.
      rename_i linked
      have wide : 2 ≤ T.signalWidths x := by rw [← widths_of_eqvGen linked]; exact vector
      calc 2 < 2 ^ 2 := by decide
        _ ≤ 2 ^ T.signalWidths x := Nat.pow_le_pow_right (by omega) wide
    · exact Nat.two_pow_pos _
  prevFits _ _ := ⟨Nat.two_pow_pos _, Nat.two_pow_pos _⟩
  equal e inEntries d t copy counts := by
    cases whole : wholeCopy e.item with
    | true =>
      -- A whole copy is exact, so both ends are linked or neither is.
      have edge : ExactEdge T entries d t := ⟨e, inEntries, copy, counts, .inl whole⟩
      have both : EqvGen (ExactEdge T entries) s d ↔ EqvGen (ExactEdge T entries) s t :=
        ⟨fun linked => .trans _ _ _ linked (.rel _ _ edge),
          fun linked => .trans _ _ _ linked (.symm _ _ (.rel _ _ edge))⟩
      rw [if_pos rfl]
      refine ⟨?_, rfl, rfl⟩
      simp only [partedState, Value.planes]
      by_cases linked : EqvGen (ExactEdge T entries) s d
      · rw [if_pos linked, if_pos (both.mp linked)]
      · rw [if_neg linked, if_neg (mt both.mpr linked)]
    | false =>
      -- Bit 0 is zero everywhere.
      have bit : ∀ x, ((partedState T entries s).signalTable x).planes.1.getLsbD 0 = false := by
        intro x
        simp only [partedState, Value.planes]
        split <;> decide
      rw [if_neg (by decide)]
      exact ⟨by rw [bit, bit], rfl, rfl, rfl⟩

/-- Of two positions of one group scanned in a first pass, the second gets the answer of the first. -/
theorem scan_pair {p q g s : Nat} {st : Snapshots} (slot : g < (buildEdgeSigGroups T entries false ids).2)
    (atP : (buildEdgeSigGroups T entries false ids).1[p]? = some (some g))
    (atQ : (buildEdgeSigGroups T entries false ids).1[q]? = some (some g)) (hereP : ids[p]? = some s) :
    (q, ownAnswer T st s) ∈ ((detectTables T entries false ids []).scan ⟨st, [p, q], fun _ => true, false⟩ 1
      (List.replicate (buildEdgeSigGroups T entries false ids).2 default) [p, q]).2 := by
  have nonempty : (buildEdgeSigGroups T entries false ids).1 ≠ [] := List.ne_nil_of_mem (List.mem_of_getElem? atP)
  have group : ∀ {pos : Nat}, (buildEdgeSigGroups T entries false ids).1[pos]? = some (some g) →
      (detectTables T entries false ids []).groupAt ⟨st, [p, q], fun _ => true, false⟩ pos = some g := by
    intro pos here
    simp [DetectTables.groupAt, detectTables, nonempty, here]
  have found : (detectTables T entries false ids []).edgeSignalIds[p]? = some s := by
    simpa [detectTables] using hereP
  -- The first finds a slot of generation 0 and writes it, the second finds that.
  have first : (detectTables T entries false ids []).scanPos ⟨st, [p, q], fun _ => true, false⟩ 1
      (List.replicate (buildEdgeSigGroups T entries false ids).2 default) p =
        ((List.replicate (buildEdgeSigGroups T entries false ids).2 default).set g ⟨1, ownAnswer T st s⟩,
          some (ownAnswer T st s)) := by
    simp only [DetectTables.scanPos, Bool.not_true, Bool.false_eq_true, if_false, group atP, Option.bind_some,
      List.getElem?_replicate, slot, if_true, found]
    rfl
  have second : ((detectTables T entries false ids []).scanPos ⟨st, [p, q], fun _ => true, false⟩ 1
      ((List.replicate (buildEdgeSigGroups T entries false ids).2 default).set g ⟨1, ownAnswer T st s⟩) q).2 =
        some (ownAnswer T st s) := by
    have written : ((List.replicate (buildEdgeSigGroups T entries false ids).2 default).set g
        (⟨1, ownAnswer T st s⟩ : EdgeGroupMemo))[g]? = some ⟨1, ownAnswer T st s⟩ := by
      rw [List.getElem?_set_self (by simpa using slot)]
    simp only [DetectTables.scanPos, Bool.not_true, Bool.false_eq_true, if_false, group atQ, Option.bind_some, written]
    rfl
  simp [DetectTables.scan, first, second]

/-- Without the condition two positions of one group, scanned one after the other, show the difference. -/
theorem noPartialCopies_of_answers (exact : Deduplicated T entries false ids) : NoPartialCopies T entries ids := by
  intro p q s t m n root differ hereP hereQ positive bound path positive' bound' path' ends
  by_contra apart
  -- The copies to the root cross a buffer of bit 0 between vectors.
  have vector : 2 ≤ T.signalWidths s := by
    by_contra narrow
    have widths : T.signalWidths s = T.signalWidths t := by rw [widths_of_hops path, widths_of_hops path']
    exact apart ⟨root, exact_of_hops path (by omega), exact_of_hops path' (by omega)⟩
  have unlinked : ¬ EqvGen (ExactEdge T entries) s t := fun linked => apart (meet_of_eqvGen linked)
  obtain ⟨g, slot, atP, atQ⟩ := group_of_reaches differ
    ⟨s, m, hereP, positive, bound, hops_copySrc.mpr path, copySrc_eq_none.mpr ends⟩
    ⟨t, n, hereQ, positive', bound', hops_copySrc.mpr path', copySrc_eq_none.mpr ends⟩
  -- One pass over the two, in the state that parts them, answers for the second with the first.
  obtain ⟨pass, isPass⟩ : ∃ pass : Pass, pass = ⟨partedState T entries s, [p, q], fun _ => true, false⟩ := ⟨_, rfl⟩
  have used : (q, ownAnswer T pass.snapshots s) ∈
      ((detectTables T entries false ids []).scan pass 1
        (List.replicate (buildEdgeSigGroups T entries false ids).2 default) pass.positions).2 := by
    subst isPass
    exact scan_pair slot atP atQ hereP
  have settled : ∀ pass' ∈ [pass], pass'.forced = false → Settled T entries pass'.snapshots := by
    intro pass' listed _
    obtain rfl := List.mem_singleton.mp listed
    subst isPass
    exact partedState_settled vector
  obtain ⟨t', there, equal⟩ := exact.answers [] [pass] settled (pass, _) List.mem_cons_self _ used
  obtain rfl : t' = t := by
    rw [List.append_nil, hereQ] at there
    exact (Option.some.inj there).symm
  -- The first reads 2 and the second 0.
  have planes : (pass.snapshots.signalTable s).planes.1 = (pass.snapshots.signalTable t').planes.1 :=
    congrArg EdgeAnswer.curV equal
  subst isPass
  simp only [partedState, EqvGen.refl, unlinked, if_true, if_false, Value.planes] at planes
  exact absurd planes (by decide)

/-- The dedup is exact precisely when it is off or no buffer of bit 0 between vectors parts two members. -/
theorem deduplicated_iff (T : SignalTables) (entries : List CombEntry) (noDedup : Bool) (ids : List Nat) :
    Deduplicated T entries noDedup ids ↔ noDedup = true ∨ NoPartialCopies T entries ids := by
  constructor
  · intro exact
    cases noDedup with
    | true => exact .inl rfl
    | false => exact .inr (noPartialCopies_of_answers exact)
  · intro condition
    constructor
    · intro sid
      obtain ⟨path, bound, _⟩ := follow_hops (copySrc T entries) maxCopyHops sid
      exact ⟨_, Nat.sub_le _ _, hops_copySrc.mp path⟩
    · intro p q g atP atQ
      obtain ⟨s, t, root, m, n, here, there, positive, path, positive', path', same⟩ :=
        sameReading_of_group condition atP atQ
      exact ⟨s, t, root, here, there, transGen_of_hops positive path, transGen_of_hops positive' path', same⟩
    · intro appended passes settled
      refine detect_own (fun pass inPasses => alike_of_condition condition (settled pass inPasses)) ?_
      intro g m slot
      have fresh : m = default := List.eq_of_mem_replicate (List.mem_of_getElem? slot)
      subst fresh
      exact Nat.le_refl 0

end Main

/-- `assign b[0] = a[0]; assign c[0] = a[0];` with signals 0, 1 and 2 for `a`, `b` and `c`. -/
def bitZeroBuffers : List CombEntry :=
  [⟨.fusedGate (.buf1 ⟨1, 0⟩ ⟨0, 0⟩ false), [1], fun _ => Nat.le_refl _⟩,
    ⟨.fusedGate (.buf1 ⟨2, 0⟩ ⟨0, 0⟩ false), [2], fun _ => Nat.le_refl _⟩]

/-- Three logic vectors of eight bits. -/
def threeBytes : SignalTables := ⟨3, fun _ => 8, fun _ => false, fun _ => false, fun _ => 0⟩

/-- `c[1]` has just been written. -/
def writtenByte : Snapshots :=
  ⟨fun sid => ⟨8, if sid = 2 then 2 else 0, 0, false, false, false⟩, fun _ => 0, fun _ => 0, fun _ => none⟩

/-- The written vector is answered for by the other one, which has not changed. -/
theorem bitZeroBuffers_not_deduplicated : ¬ Deduplicated threeBytes bitZeroBuffers false [1, 2] := by
  intro exact
  have settled : Settled threeBytes bitZeroBuffers writtenByte := by
    refine ⟨fun _ => rfl, fun sid => ⟨?_, Nat.two_pow_pos 8⟩, fun _ _ => ⟨Nat.two_pow_pos 8, Nat.two_pow_pos 8⟩, ?_⟩
    · simp only [writtenByte]
      split <;> decide
    · intro e inEntries d s copy _
      -- Only bit 0 is copied, which is zero in all three.
      simp only [bitZeroBuffers, List.mem_cons, List.not_mem_nil, or_false] at inEntries
      rcases inEntries with rfl | rfl <;>
      · obtain ⟨rfl, rfl⟩ : d = _ ∧ s = _ := by simpa [copies] using copy
        exact ⟨by decide, by decide, by decide, by decide⟩
  have used : (⟨writtenByte, [0, 1], fun _ => true, false⟩, _) ∈
      runs threeBytes bitZeroBuffers false [1, 2] [] [⟨writtenByte, [0, 1], fun _ => true, false⟩] :=
    List.mem_cons_self
  obtain ⟨sid, here, equal⟩ := exact.answers [] _
    (fun pass listed _ => by rw [List.mem_singleton.mp listed]; exact settled) _ used
    (1, ownAnswer threeBytes writtenByte 1) (by decide)
  obtain rfl : 2 = sid := by simpa using here
  exact absurd equal (by decide)

end Xezim.Edges
