import Mathlib.Logic.Relation
import Mathlib.Data.List.NodupEquivFin
import Mathlib.Tactic.Convert
import Xezim.Edges.Groups

/-! The grouping as a relation: two positions share a group when their copies lead to one root. -/

namespace Xezim.Edges

open Comb

/-- `n` steps of a relation lead from `a` to `b`. -/
inductive Hops (R : Nat → Nat → Prop) : Nat → Nat → Nat → Prop
  | here (a : Nat) : Hops R 0 a a
  | hop {n a b c : Nat} : R a b → Hops R n b c → Hops R (n + 1) a c

/-- Steps of a relation are a path of it. -/
theorem Hops.path {R : Nat → Nat → Prop} {n a b : Nat} (hops : Hops R n a b) : Relation.ReflTransGen R a b := by
  induction hops with
  | here a => exact .refl
  | hop step _ ih => exact .head step ih

/-- The walk is a path of the table, and ends without hops left or at a signal that is no copy. -/
theorem follow_hops (table : Nat → Option Nat) (left cur : Nat) :
    Hops (fun d s => table d = some s) (left - (follow table left cur).2) cur (follow table left cur).1 ∧
      (follow table left cur).2 ≤ left ∧
      ((follow table left cur).2 ≠ 0 → table (follow table left cur).1 = none) := by
  -- The fuel left says how many hops were taken.
  induction left generalizing cur with
  | zero => exact ⟨.here cur, Nat.le_refl 0, fun some => absurd rfl some⟩
  | succ left ih =>
    rw [follow]
    split
    · rename_i root
      refine ⟨?_, Nat.le_refl _, fun _ => root⟩
      simpa using Hops.here (R := fun d s => table d = some s) cur
    · rename_i s step
      obtain ⟨path, bound, ends⟩ := ih s
      refine ⟨?_, by omega, ends⟩
      have count : left + 1 - (follow table left s).2 = (left - (follow table left s).2) + 1 := by omega
      rw [count]
      exact .hop step path

/-- A path to a signal that is no copy is the walk, when there are hops enough. -/
theorem follow_eq {table : Nat → Option Nat} {n cur root : Nat}
    (path : Hops (fun d s => table d = some s) n cur root) (ends : table root = none) {left : Nat} (enough : n < left) :
    follow table left cur = (root, left - n) := by
  -- A path shorter than the fuel is walked to its end.
  induction path generalizing left with
  | here a =>
    obtain ⟨left, rfl⟩ : ∃ k, left = k + 1 := ⟨left - 1, by omega⟩
    simp [follow, ends]
  | @hop n a b c step _ ih =>
    obtain ⟨left, rfl⟩ : ∃ k, left = k + 1 := ⟨left - 1, by omega⟩
    rw [follow]
    simp only [step]
    rw [ih ends (by omega)]
    congr 1
    omega

/-- The walk from a signal puts it in a group: it took a hop and had one left. -/
def Grouped (table : Nat → Option Nat) (sid : Nat) : Prop :=
  ¬ ((follow table maxCopyHops sid).2 = maxCopyHops ∨ (follow table maxCopyHops sid).2 = 0)

instance (table : Nat → Option Nat) (sid : Nat) : Decidable (Grouped table sid) := by
  unfold Grouped
  infer_instance

/-- The end of the walk from a signal. -/
def rootOf (table : Nat → Option Nat) (sid : Nat) : Nat := (follow table maxCopyHops sid).1

/-- A grouped signal reaches its root by at least one copy and fewer than the bound. -/
theorem grouped_iff {table : Nat → Option Nat} {sid root : Nat} :
    Grouped table sid ∧ rootOf table sid = root ↔
      ∃ n, 0 < n ∧ n < maxCopyHops ∧ Hops (fun d s => table d = some s) n sid root ∧ table root = none := by
  constructor
  · -- A path of at least one hop that ends within the bound is exactly what grouping asks.
    rintro ⟨grouped, rfl⟩
    obtain ⟨path, bound, ends⟩ := follow_hops table maxCopyHops sid
    simp only [Grouped, not_or] at grouped
    exact ⟨maxCopyHops - (follow table maxCopyHops sid).2, by omega, by omega, path, ends grouped.2⟩
  · rintro ⟨n, positive, bound, path, ends⟩
    have walk := follow_eq path ends bound
    refine ⟨?_, by rw [rootOf, walk]⟩
    rw [Grouped, walk]
    simp only [maxCopyHops] at bound ⊢
    omega

/-- Every grouped signal is numbered by the place of its root among the roots found. -/
theorem assignGroups_spec (table : Nat → Option Nat) (roots ids : List Nat) :
    roots <+: (assignGroups table roots ids).2 ∧
      (∀ sid ∈ ids, Grouped table sid → rootOf table sid ∈ (assignGroups table roots ids).2) ∧
      (assignGroups table roots ids).1 = ids.map fun sid =>
        if Grouped table sid then some ((assignGroups table roots ids).2.idxOf (rootOf table sid)) else none := by
  induction ids generalizing roots with
  | nil => simp [assignGroups]
  | cons sid ids ih =>
    by_cases grouped : Grouped table sid
    · -- The root is among those found, at the end when it is new.
      obtain ⟨known, isKnown⟩ : ∃ known, known =
          if rootOf table sid ∈ roots then roots else roots ++ [rootOf table sid] := ⟨_, rfl⟩
      have eq : assignGroups table roots (sid :: ids) =
          (some (known.idxOf (rootOf table sid)) :: (assignGroups table known ids).1,
            (assignGroups table known ids).2) := by
        subst isKnown
        rw [assignGroups]
        exact if_neg grouped
      have listed : rootOf table sid ∈ known := by
        rw [isKnown]
        split <;> simp_all
      have extends' : roots <+: known := by
        rw [isKnown]
        split
        · exact List.prefix_refl _
        · exact List.prefix_append _ _
      obtain ⟨more, members, groups⟩ := ih known
      rw [eq]
      refine ⟨extends'.trans more, ?_, ?_⟩
      · intro s inIds inGroup
        rcases List.mem_cons.mp inIds with rfl | inIds
        · exact more.subset listed
        · exact members s inIds inGroup
      · -- Roots found later do not move it.
        obtain ⟨others, whole⟩ := more
        have place : known.idxOf (rootOf table sid) =
            (assignGroups table known ids).2.idxOf (rootOf table sid) := by
          rw [← whole, List.idxOf_append_of_mem listed]
        rw [List.map_cons, if_pos grouped, ← groups, place]
    · have eq : assignGroups table roots (sid :: ids) =
          (none :: (assignGroups table roots ids).1, (assignGroups table roots ids).2) := by
        rw [assignGroups]
        exact if_pos (not_not.mp grouped)
      obtain ⟨more, members, groups⟩ := ih roots
      rw [eq]
      refine ⟨more, ?_, ?_⟩
      · intro s inIds inGroup
        rcases List.mem_cons.mp inIds with rfl | inIds
        · exact absurd inGroup grouped
        · exact members s inIds inGroup
      · rw [List.map_cons, if_neg grouped, ← groups]

section Build

variable {T : SignalTables} {entries : List CombEntry} {ids : List Nat}

/-- The position's signal reaches `root` by copies, fewer than the bound. -/
def Reaches (table : Nat → Option Nat) (ids : List Nat) (pos root : Nat) : Prop :=
  ∃ sid n, ids[pos]? = some sid ∧ 0 < n ∧ n < maxCopyHops ∧ Hops (fun d s => table d = some s) n sid root ∧
    table root = none

/-- Positions of one group reach one root. -/
theorem reaches_of_group {noDedup : Bool} {p q g : Nat}
    (atP : (buildEdgeSigGroups T entries noDedup ids).1[p]? = some (some g))
    (atQ : (buildEdgeSigGroups T entries noDedup ids).1[q]? = some (some g)) :
    ∃ root, Reaches (copySrc T entries) ids p root ∧ Reaches (copySrc T entries) ids q root := by
  obtain ⟨_, members, groups⟩ := assignGroups_spec (copySrc T entries) [] ids
  unfold buildEdgeSigGroups at atP atQ
  split at atP
  · simp at atP
  · rename_i built
    rw [if_neg built] at atQ
    -- A live group is a group before the small ones are dissolved.
    have numbered : ∀ {pos : Nat}, ((assignGroups (copySrc T entries) [] ids).1.map fun g' => g'.filter fun g' =>
          2 ≤ (assignGroups (copySrc T entries) [] ids).1.count (some g'))[pos]? = some (some g) →
        ∃ sid, ids[pos]? = some sid ∧ Grouped (copySrc T entries) sid ∧
          (assignGroups (copySrc T entries) [] ids).2.idxOf (rootOf (copySrc T entries) sid) = g := by
      intro pos at'
      rw [List.getElem?_map, Option.map_eq_some_iff] at at'
      obtain ⟨old, here, filtered⟩ := at'
      obtain ⟨rfl, _⟩ := Option.filter_eq_some_iff.mp filtered
      rw [groups, List.getElem?_map, Option.map_eq_some_iff] at here
      obtain ⟨sid, there, number⟩ := here
      split at number
      · rename_i grouped
        exact ⟨sid, there, grouped, by simpa using number⟩
      · simp at number
    obtain ⟨s, hereP, groupedP, numberP⟩ := numbered atP
    obtain ⟨t, hereQ, groupedQ, numberQ⟩ := numbered atQ
    -- Equal numbers are equal places, hence equal roots.
    have same : rootOf (copySrc T entries) t = rootOf (copySrc T entries) s :=
      (List.idxOf_inj (members t (List.mem_of_getElem? hereQ) groupedQ)).mp (numberQ.trans numberP.symm)
    obtain ⟨n, positive, bound, path, ends⟩ := grouped_iff.mp ⟨groupedP, rfl⟩
    obtain ⟨m, positive', bound', path', ends'⟩ := grouped_iff.mp ⟨groupedQ, same⟩
    exact ⟨_, ⟨s, n, hereP, positive, bound, path, ends⟩, ⟨t, m, hereQ, positive', bound', path', ends'⟩⟩

/-- Two positions that reach one root share a group. -/
theorem group_of_reaches {p q root : Nat} (differ : p ≠ q) (atP : Reaches (copySrc T entries) ids p root)
    (atQ : Reaches (copySrc T entries) ids q root) :
    ∃ g, g < (buildEdgeSigGroups T entries false ids).2 ∧
      (buildEdgeSigGroups T entries false ids).1[p]? = some (some g) ∧
      (buildEdgeSigGroups T entries false ids).1[q]? = some (some g) := by
  obtain ⟨_, members, groups⟩ := assignGroups_spec (copySrc T entries) [] ids
  obtain ⟨s, n, hereP, positive, bound, path, ends⟩ := atP
  obtain ⟨t, m, hereQ, positive', bound', path', ends'⟩ := atQ
  obtain ⟨groupedP, rootP⟩ := grouped_iff.mpr ⟨n, positive, bound, path, ends⟩
  obtain ⟨groupedQ, rootQ⟩ := grouped_iff.mpr ⟨m, positive', bound', path', ends'⟩
  have some' : ¬ (false || ids.isEmpty) = true := by
    have nonempty : ids ≠ [] := List.ne_nil_of_mem (List.mem_of_getElem? hereP)
    simpa using nonempty
  obtain ⟨number, isNumber⟩ : ∃ number, number = (assignGroups (copySrc T entries) [] ids).2.idxOf root := ⟨_, rfl⟩
  have before : ∀ {pos sid : Nat}, ids[pos]? = some sid → Grouped (copySrc T entries) sid →
      rootOf (copySrc T entries) sid = root →
      (assignGroups (copySrc T entries) [] ids).1[pos]? = some (some number) := by
    intro pos sid here grouped isRoot
    rw [groups, List.getElem?_map, here]
    simp [grouped, isRoot, isNumber]
  have oldP := before hereP groupedP rootP
  have oldQ := before hereQ groupedQ rootQ
  -- The group has the two positions as members, so it is kept.
  have members2 : 2 ≤ (assignGroups (copySrc T entries) [] ids).1.count (some number) := by
    obtain ⟨inP, getP⟩ := List.getElem?_eq_some_iff.mp oldP
    obtain ⟨inQ, getQ⟩ := List.getElem?_eq_some_iff.mp oldQ
    have twice : List.Duplicate (some number) (assignGroups (copySrc T entries) [] ids).1 := by
      refine List.duplicate_iff_exists_distinct_get.mpr ?_
      rcases Nat.lt_or_gt_of_ne differ with before' | after
      · exact ⟨⟨p, inP⟩, ⟨q, inQ⟩, before', getP.symm, getQ.symm⟩
      · exact ⟨⟨q, inQ⟩, ⟨p, inP⟩, after, getQ.symm, getP.symm⟩
    convert List.duplicate_iff_two_le_count.mp twice
  refine ⟨number, ?_, ?_, ?_⟩
  · rw [buildEdgeSigGroups, if_neg some', isNumber]
    refine List.idxOf_lt_length_iff.mpr ?_
    rw [← rootP]
    exact members s (List.mem_of_getElem? hereP) groupedP
  · rw [buildEdgeSigGroups, if_neg some']
    simp [oldP, members2]
  · rw [buildEdgeSigGroups, if_neg some']
    simp [oldQ, members2]

end Build

/-- The copy an entry makes that counts. -/
def CopyEdge (T : SignalTables) (entries : List CombEntry) (d s : Nat) : Prop :=
  ∃ e ∈ entries, (d, s) ∈ copies e.item ∧ eligible T entries d s

section CopySrc

variable {T : SignalTables} {entries : List CombEntry}

/-- A table of the loop holds only copies that count. -/
theorem foldl_copies_sound (cs : List (Nat × Nat)) (table : Nat → Option Nat) {d s : Nat}
    (found : cs.foldl (fun (table : Nat → Option Nat) c => if eligible T entries c.1 c.2 then
      Function.update table c.1 (some c.2) else table) table d = some s) : table d = some s ∨ (d, s) ∈ cs ∧ eligible T entries d s := by
  -- An entry of the table was there before, or a copy of the list put it there.
  induction cs generalizing table with
  | nil => exact .inl found
  | cons c cs ih =>
    rw [List.foldl_cons] at found
    rcases ih _ found with old | ⟨listed, counts⟩
    · split at old
      · rename_i counts
        by_cases here : d = c.1
        · subst here
          rw [Function.update_self] at old
          obtain rfl : c.2 = s := by simpa using old
          exact .inr ⟨List.mem_cons_self, counts⟩
        · rw [Function.update_of_ne here] at old
          exact .inl old
      · exact .inl old
    · exact .inr ⟨List.mem_cons_of_mem c listed, counts⟩

/-- A destination that has a copy that counts is no driver of its own. -/
theorem foldl_copies_isSome (cs : List (Nat × Nat)) (table : Nat → Option Nat) {d : Nat}
    (listed : (table d).isSome ∨ ∃ s, (d, s) ∈ cs ∧ eligible T entries d s) :
    (cs.foldl (fun (table : Nat → Option Nat) c => if eligible T entries c.1 c.2 then Function.update table c.1
      (some c.2)
      else table) table d).isSome := by
  -- Once set, a destination stays set.
  induction cs generalizing table with
  | nil => simpa using listed
  | cons c cs ih =>
    rw [List.foldl_cons]
    refine ih _ ?_
    rcases listed with old | ⟨s, listed, counts⟩
    · refine .inl ?_
      split
      · by_cases here : d = c.1
        · simp [here]
        · simpa [Function.update_of_ne here] using old
      · exact old
    · rcases List.mem_cons.mp listed with rfl | listed
      · exact .inl (by simp [counts])
      · exact .inr ⟨s, listed, counts⟩

/-- The destinations of an item's copies are driven by it. -/
theorem count_copies_le (item : CombItem) (d : Nat) : ((copies item).map Prod.fst).count d ≤ item.dstIds.count d := by
  -- Each shape of entry lists a destination's copy at most as often as it lists the destination.
  cases item with
  | fusedGate op =>
    cases op with
    | buf1 dst src invert =>
      by_cases plain : (!invert && src.bit = 0 && dst.bit = 0) = true
      · simp [copies, plain, CombItem.dstIds, FusedGate.dst]
      · simp [copies, plain]
    | _ => simp [copies]
  | fusedBufFanout src dsts invert =>
    rw [copies]
    split
    · simp
    · rw [List.map_map]
      exact (List.filter_sublist.map _).count_le d
  | fastDirectFanout src dsts =>
    simp [copies, CombItem.dstIds, Function.comp_def]
  | _ => simp [copies, CombItem.dstIds]

/-- A destination of one writer has one copy at most. -/
theorem count_le_writerCount (entries : List CombEntry) (d : Nat) :
    ((entries.flatMap fun e => copies e.item).map Prod.fst).count d ≤
      (entries.flatMap CombEntry.writeSignalIds).count d := by
  induction entries with
  | nil => simp
  | cons e entries ih =>
    simp only [List.flatMap_cons, List.map_append, List.count_append]
    exact Nat.add_le_add ((count_copies_le e.item d).trans (e.writes d)) ih

/-- Two copies that count have one source when they have one destination. -/
theorem CopyEdge.unique {d s t : Nat} (first : CopyEdge T entries d s) (second : CopyEdge T entries d t) : s = t := by
  obtain ⟨e, inE, copyE, counts⟩ := first
  obtain ⟨f, inF, copyF, _⟩ := second
  have listedS : (d, s) ∈ (entries.flatMap fun e => copies e.item) := List.mem_flatMap.mpr ⟨e, inE, copyE⟩
  have listedT : (d, t) ∈ (entries.flatMap fun e => copies e.item) := List.mem_flatMap.mpr ⟨f, inF, copyF⟩
  -- The destination is written once, so the copies into it are at most one.
  have once : writerCount entries d = 1 := by
    simp only [eligible, Bool.and_eq_true, decide_eq_true_eq] at counts
    exact counts.1.1.1.1.1.1.2
  have few : ((entries.flatMap fun e => copies e.item).filter fun c => c.1 = d).length ≤ 1 := by
    have bound := count_le_writerCount entries d
    have count : ((entries.flatMap fun e => copies e.item).filter fun c => c.1 = d).length =
        ((entries.flatMap fun e => copies e.item).map Prod.fst).count d := by
      rw [List.count, List.countP_map, ← List.countP_eq_length_filter]
      rfl
    simp only [writerCount] at once
    omega
  have inS : (d, s) ∈ (entries.flatMap fun e => copies e.item).filter fun c => c.1 = d :=
    List.mem_filter.mpr ⟨listedS, by simp⟩
  have inT : (d, t) ∈ (entries.flatMap fun e => copies e.item).filter fun c => c.1 = d :=
    List.mem_filter.mpr ⟨listedT, by simp⟩
  match single : (entries.flatMap fun e => copies e.item).filter fun c => c.1 = d with
  | [] => simp [single] at inS
  | [c] =>
    rw [single, List.mem_singleton] at inS inT
    exact (Prod.mk.inj (inS.trans inT.symm)).2
  | _ :: _ :: _ => simp [single] at few

/-- The table is the relation of the copies that count. -/
theorem copySrc_eq_some {d s : Nat} : copySrc T entries d = some s ↔ CopyEdge T entries d s := by
  constructor
  · intro found
    rcases foldl_copies_sound _ _ found with none | ⟨listed, counts⟩
    · simp at none
    · obtain ⟨e, inEntries, copy⟩ := List.mem_flatMap.mp listed
      exact ⟨e, inEntries, copy, counts⟩
  · intro edge
    -- A destination of a copy is set, and its one driver is the source found.
    have some' : (copySrc T entries d).isSome := by
      obtain ⟨e, inEntries, copy, counts⟩ := edge
      exact foldl_copies_isSome _ _ (.inr ⟨s, List.mem_flatMap.mpr ⟨e, inEntries, copy⟩, counts⟩)
    obtain ⟨t, found⟩ := Option.isSome_iff_exists.mp some'
    have other : CopyEdge T entries d t := by
      rcases foldl_copies_sound _ _ found with none | ⟨listed, counts⟩
      · simp at none
      · obtain ⟨e, inEntries, copy⟩ := List.mem_flatMap.mp listed
        exact ⟨e, inEntries, copy, counts⟩
    rw [found, other.unique edge]

/-- A signal is no copy when nothing is copied to it. -/
theorem copySrc_eq_none {d : Nat} : copySrc T entries d = none ↔ ∀ s, ¬ CopyEdge T entries d s := by
  simp only [← copySrc_eq_some, Option.eq_none_iff_forall_ne_some]

end CopySrc

end Xezim.Edges
