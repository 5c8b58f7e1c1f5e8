import Mathlib.Data.List.Perm.Subperm
import Mathlib.Data.List.Dedup
import Mathlib.Data.Nat.Size
import Xezim.Csp.LinearLaws

/-! Enforcing membership, difference and counting nodes: no assignment that satisfies one is lost, and over
fixed variables they succeed only where they hold. -/

namespace Xezim

variable {csp : Csp} {a : Nat → Int} {s : Search} {P : (Nat → Int) → Prop}

section Inside

variable {l : Lin} {set : Dom} {neg : Bool} {fits : List Fit} {src : Nat} {wrap : Option Wrap}

/-- The values of the one variable of a form, with coefficient one or minus one, that bring the form
into a set. -/
theorem solved_set (okSet : set.Ok) {c k : Int} (unit : c = 1 ∨ c = -1) :
    Dom.Ok (if c = 1 then set.map fun p => (p.1 - k, p.2 - k)
        else domNorm (set.map fun p => (k - p.2, k - p.1))) ∧
      ∀ x, Dom.Has (if c = 1 then set.map fun p => (p.1 - k, p.2 - k)
        else domNorm (set.map fun p => (k - p.2, k - p.1))) x ↔ Dom.Has set (k + c * x) := by
  rcases unit with rfl | rfl
  · rw [if_pos rfl]
    refine ⟨⟨fun q member => ?_, List.pairwise_map.mpr (okSet.apart.imp fun {p q} apart => ?_)⟩,
      fun x => ?_⟩
    · obtain ⟨p, inside, rfl⟩ := List.mem_map.mp member
      have := okSet.valid p inside
      dsimp only
      omega
    · dsimp only
      omega
    · simp only [Dom.Has, List.mem_map, exists_exists_and_eq_and]
      refine exists_congr fun p => and_congr_right fun _ => ?_
      omega
  · rw [if_neg (by decide)]
    refine ⟨Dom.ok_norm _, fun x => ?_⟩
    rw [Dom.has_norm]
    simp only [Dom.Has, List.mem_map, exists_exists_and_eq_and]
    refine exists_congr fun p => and_congr_right fun _ => ?_
    omega

/-- What a form of one variable is. -/
theorem single_term {p : Nat × Int}
    (single : (l.t.head?.filter fun p => l.t.length = 1 ∧ (p.2 = 1 ∨ p.2 = -1)) = some p) :
    l.t = [p] ∧ (p.2 = 1 ∨ p.2 = -1) := by
  obtain ⟨first, here⟩ := Option.filter_eq_some_iff.mp single
  obtain ⟨one, unit⟩ := of_decide_eq_true here
  obtain ⟨q, here⟩ := List.length_eq_one_iff.mp one
  rw [here] at first
  cases first
  exact ⟨here, unit⟩

/-- A membership node with fits that describes its source holds where the evaluator accepts the source. -/
theorem inside_accepted (described : Exact csp (.inside l set neg fits src wrap)) (fitted : fits ≠ [])
    (assign : csp.Assignment a) :
    nodeHolds csp a (.inside l set neg fits src wrap) ↔ csp.truth src a ≠ neg := by
  obtain ⟨-, -, -, agree, -⟩ := described
  unfold nodeHolds
  by_cases fit : ∀ f ∈ fits, f.Holds a
  · exact (fitted_linear fit).trans (agree fitted a assign fit)
  · exact ⟨fun here => (here.resolve_left fun both => fit both.1).2, fun here => .inr ⟨fit, here⟩⟩

/-- The linear reading of a membership loses no assignment whose form is in the set, or outside it with
`neg`. -/
theorem enforced_member (okLin : l.Ok) (okSet : set.Ok) (oks : ∀ v, (s.d v).Ok)
    (member : ∀ a, P a → Ranged a ∧ domHas set (l.at a) ≠ neg) :
    Enforced csp P s
      (match l.t.head?.filter fun p => l.t.length = 1 ∧ (p.2 = 1 ∨ p.2 = -1) with
      | some (v, c) =>
        let allowed : Dom :=
          if c = 1 then set.map fun p => (p.1 - l.k, p.2 - l.k)
          else domNorm (set.map fun p => (l.k - p.2, l.k - p.1))
        s.set v (if neg then domMinus (s.d v) allowed else domMeet (s.d v) allowed)
      | none =>
        let (lo, hi) := linBounds s.d l
        if lo = hi then (domHas set lo != neg, s)
        else if neg ∨ set = [] then (decide (set ≠ []) || neg, s)
        else
          let (smin, smax) := domBounds set
          if 2 ^ 100 < |l.k - smax| ∨ 2 ^ 100 < |l.k - smin| then (true, s)
          else
            match s.propBound { l with k := l.k - smax } true with
            | (true, s) => s.propBound { l with k := l.k - smin } false
            | (false, s) => (false, s)) := by
  split
  · rename_i v c single
    obtain ⟨term, unit⟩ := single_term single
    obtain ⟨okAllowed, solved⟩ := solved_set (k := l.k) okSet unit
    have value (a : Nat → Int) : l.at a = l.k + c * a v := by simp [Lin.at, term]
    dsimp only at okAllowed solved ⊢
    generalize (if c = 1 then set.map fun p => (p.1 - l.k, p.2 - l.k)
      else domNorm (set.map fun p => (l.k - p.2, l.k - p.1))) = allowed at *
    cases neg with
    | true =>
      rw [if_pos rfl]
      refine enforced_set csp s v (fun here => here.minus okAllowed)
        (fun x here => ((Dom.has_minus (oks v) okAllowed).mp here).1) fun a holds within => ?_
      refine (Dom.has_minus (oks v) okAllowed).mpr ⟨within v, fun here => (member a holds).2 ?_⟩
      rw [value, Dom.domHas_iff]
      exact (solved (a v)).mp here
    | false =>
      rw [if_neg Bool.false_ne_true]
      refine enforced_meet csp oks v okAllowed fun a holds within => (solved (a v)).mpr ?_
      have here := (member a holds).2
      rwa [ne_eq, Bool.not_eq_false, Dom.domHas_iff, value] at here
  · dsimp only
    split
    · rename_i single
      refine Enforced.told (Quiet.refl csp s) fun a holds within => ?_
      have bounds := linBounds_at oks within l
      have here := (member a holds).2
      rw [show (linBounds s.d l).1 = l.at a by omega]
      exact bne_iff_ne.mpr here
    · split
      · refine Enforced.told (Quiet.refl csp s) fun a holds _ => ?_
        have here := (member a holds).2
        cases neg with
        | true => exact Bool.or_true _
        | false =>
          rw [Bool.or_false, decide_eq_true_eq]
          rintro rfl
          exact here rfl
      · rename_i live
        obtain ⟨plain, nonempty⟩ := not_or.mp live
        split
        · exact Enforced.quiet (Quiet.refl csp s)
        · -- The form stays between the ends of the set.
          have between (a) (holds : P a) :
              (domBounds set).1 ≤ l.at a ∧ l.at a ≤ (domBounds set).2 := by
            have here := (member a holds).2
            rw [Bool.eq_false_iff.mpr plain, ne_eq, Bool.not_eq_false, Dom.domHas_iff] at here
            exact okSet.bounds here
          have shifted (k : Int) (a : Nat → Int) :
              ({ l with k := l.k - k } : Lin).at a = l.at a - k := by
            simp only [Lin.at]
            omega
          have okShifted (k : Int) : ({ l with k := l.k - k } : Lin).Ok :=
            ⟨okLin.nodup, okLin.nonzero⟩
          refine Enforced.andThen (enforced_propBound csp (okShifted _) oks true fun a holds => ?_)
            fun step => enforced_propBound csp (okShifted _) (step.ok oks) false fun a holds => ?_
          · have := between a holds
            rw [if_pos rfl, shifted]
            exact ⟨(member a holds).1, by omega⟩
          · have := between a holds
            rw [if_neg Bool.false_ne_true, shifted]
            exact ⟨(member a holds).1, by omega⟩

/-- Enforcing a membership loses no assignment that satisfies it. -/
theorem enforced_inside (ok : csp.Ok) (described : Exact csp (.inside l set neg fits src wrap))
    (oks : ∀ v, (s.d v).Ok) :
    Enforced csp (Satisfies csp (.inside l set neg fits src wrap)) s
      (s.enforceInside csp l set neg fits src wrap) := by
  have accepted (fitted : fits ≠ []) (a) (holds : Satisfies csp (.inside l set neg fits src wrap) a) :=
    (inside_accepted described fitted holds.1).mp holds.2
  obtain ⟨okLin, -, okSet, -, wrapped⟩ := described
  unfold Search.enforceInside
  split
  · rename_i fit
    refine Enforced.mono (fun a within holds => ⟨holds, within⟩)
      (enforced_member (P := fun a => Satisfies csp (.inside l set neg fits src wrap) a ∧
        Within a s.d) okLin okSet oks fun a holds => ⟨ok.ranged holds.1.1, ?_⟩)
    have satisfied := holds.1.2
    unfold nodeHolds at satisfied
    exact (fitted_linear (fitsHold_sound oks holds.2 fit)).mp satisfied
  · rename_i unfit
    have accepted := accepted (fits_ne_nil unfit)
    have judged := enforced_judge (s := s) ok accepted
    cases wrap with
    | none => exact judged
    | some wr =>
      dsimp only [Option.bind]
      split
      · rename_i fit
        cases done : cspWrapSet l set neg wr.w wr.s s with
        | none => exact judged
        | some r =>
          refine Enforced.mono (fun a within holds => ⟨holds, within⟩)
            (enforced_wrapSet (P := fun a => Satisfies csp (.inside l set neg fits src (some wr)) a ∧
              Within a s.d) csp okSet oks (fun a holds => ?_) done)
          exact (wrapped wr rfl a holds.1.1 (fitsHoldMod_sound oks holds.2 fit)).mpr
            (accepted a holds.1)
      · exact judged

/-- A replaced domain is nonempty when the replacement succeeds, unless nothing changed. -/
theorem set_succeeds {v : Nat} {nd : Dom} (alive : s.d v ≠ []) (done : (s.set v nd).1 = true) :
    nd ≠ [] := by
  unfold Search.set at done
  split at done
  · rename_i same
    rwa [same]
  · rintro rfl
    cases done

/-- Enforcing a membership over fixed variables succeeds only where it holds. -/
theorem settled_inside (ok : csp.Ok) (described : Exact csp (.inside l set neg fits src wrap))
    (assign : csp.Assignment a) (oks : ∀ v, (s.d v).Ok) (within : Within a s.d)
    (fixed : ∀ v ∈ (Node.inside l set neg fits src wrap).deps csp, s.d v = [(a v, a v)])
    (done : (s.enforceInside csp l set neg fits src wrap).1 = true) :
    nodeHolds csp a (.inside l set neg fits src wrap) := by
  have accepted (fitted : fits ≠ []) := inside_accepted described fitted assign
  obtain ⟨okLin, -, okSet, -, wrapped⟩ := described
  have onLin (p) (member : p ∈ l.t) : s.d p.1 = [(a p.1, a p.1)] := by
    refine fixed p.1 ?_
    simp only [Node.deps, List.mem_append]
    exact .inl (.inl (List.mem_map_of_mem member))
  have onSrc (v) (member : v ∈ (csp.src src).deps) : s.d v = [(a v, a v)] := by
    refine fixed v ?_
    simp only [Node.deps, List.mem_append]
    exact .inr member
  unfold Search.enforceInside at done
  split at done
  · rename_i fit
    unfold nodeHolds
    refine (fitted_linear (fitsHold_sound oks within fit)).mpr ?_
    split at done
    · rename_i v c single
      obtain ⟨term, unit⟩ := single_term single
      obtain ⟨okAllowed, solved⟩ := solved_set (k := l.k) okSet unit
      have value : l.at a = l.k + c * a v := by simp [Lin.at, term]
      have here := onLin (v, c) (by simp [term])
      dsimp only at okAllowed solved done here
      generalize (if c = 1 then set.map fun p => (p.1 - l.k, p.2 - l.k)
        else domNorm (set.map fun p => (l.k - p.2, l.k - p.1))) = allowed at *
      -- What is left of the one value is that value.
      obtain ⟨p, inside⟩ := List.exists_mem_of_ne_nil _
        (set_succeeds (by rw [here]; exact List.cons_ne_nil _ _) done)
      cases neg with
      | true =>
        rw [if_pos rfl] at inside
        have left := Dom.Ok.minus (oks v) okAllowed
        obtain ⟨old, apart⟩ := (Dom.has_minus (oks v) okAllowed).mp
          ⟨p, inside, le_refl _, left.valid p inside⟩
        rw [here] at old
        have same : p.1 = a v := by simpa [le_antisymm_iff, and_comm] using old
        rw [ne_eq, Dom.domHas_iff, value, ← solved, ← same]
        exact apart
      | false =>
        rw [if_neg Bool.false_ne_true] at inside
        have left := Dom.Ok.meet (oks v) okAllowed
        obtain ⟨old, both⟩ := (Dom.has_meet (oks v) okAllowed).mp
          ⟨p, inside, le_refl _, left.valid p inside⟩
        rw [here] at old
        have same : p.1 = a v := by simpa [le_antisymm_iff, and_comm] using old
        rw [ne_eq, Bool.not_eq_false, Dom.domHas_iff, value, ← solved, ← same]
        exact both
    · have bounds : linBounds s.d l = (l.at a, l.at a) :=
        linBounds_fixed fun p member => by rw [onLin p member, Dom.fixed_single]
      rw [bounds] at done
      dsimp only at done
      rw [if_pos rfl] at done
      exact bne_iff_ne.mp done
  · rename_i unfit
    refine (accepted (fits_ne_nil unfit)).mpr ?_
    cases wrap with
    | none => exact settled_judge ok within onSrc done
    | some wr =>
      dsimp only [Option.bind] at done
      split at done
      · rename_i fit
        cases here : cspWrapSet l set neg wr.w wr.s s with
        | none => exact settled_judge ok within onSrc (by rwa [here] at done)
        | some r =>
          rw [here] at done
          exact (wrapped wr rfl a assign (fitsHoldMod_sound oks within fit)).mp
            (settled_wrapSet okSet within onLin (here.trans (congrArg some (Prod.ext done rfl))))
      · exact settled_judge ok within onSrc done

end Inside

end Xezim
