import Xezim.Csp.WrapLaws

/-! Enforcing a linear node: no assignment that satisfies it is lost, and over fixed variables it succeeds
only where the node holds. -/

namespace Xezim

variable {csp : Csp} {a : Nat → Int} {s : Search} {P : (Nat → Int) → Prop}

/-- The assignments a node is enforced for. -/
def Satisfies (csp : Csp) (n : Node) (a : Nat → Int) : Prop := csp.Assignment a ∧ nodeHolds csp a n

/-- The variables of an assignment are 128-bit numbers. -/
theorem Csp.Ok.ranged (ok : csp.Ok) (assign : csp.Assignment a) : Ranged a :=
  fun v => ok.range v (a v) (assign.within v)

section Judge

/-- The evaluator's verdict on a fixed source loses no assignment it accepts. -/
theorem enforced_judge (ok : csp.Ok) {i : Nat} {neg : Bool} (accepted : ∀ a, P a → csp.truth i a ≠ neg) :
    Enforced csp P s (s.judge csp i neg) := by
  unfold Search.judge
  split
  · rename_i fixed
    refine Enforced.told (quiet_evalSrc csp s i) fun a holds within => ?_
    show ((s.evalSrc csp i).1 != neg) = true
    rw [evalSrc_truth ok within fixed]
    exact bne_iff_ne.mpr (accepted a holds)
  · exact Enforced.quiet (Quiet.refl csp s)

/-- A source over fixed variables is ready for the evaluator. -/
theorem srcFixed_of (ok : csp.Ok) {d : Nat → Dom} {i : Nat}
    (fixed : ∀ v ∈ (csp.src i).deps, d v = [(a v, a v)]) : srcFixed csp d i = true := by
  rw [srcFixed, ok.fresh i, allFixed, List.all_eq_true.mpr fun v member => ?_]
  · rfl
  · rw [fixed v member, Dom.fixed_single]
    rfl

/-- The evaluator's verdict over fixed variables. -/
theorem settled_judge (ok : csp.Ok) (within : Within a s.d) {i : Nat} {neg : Bool}
    (fixed : ∀ v ∈ (csp.src i).deps, s.d v = [(a v, a v)])
    (done : (s.judge csp i neg).1 = true) : csp.truth i a ≠ neg := by
  have ready := srcFixed_of ok fixed
  unfold Search.judge at done
  rw [if_pos ready] at done
  rw [← evalSrc_truth ok within ready]
  exact bne_iff_ne.mp done

end Judge

section Bounds

/-- Bounds over fixed variables succeed only on the right side of zero. -/
theorem settled_propBound {l : Lin} (upper : Bool) (fixed : ∀ p ∈ l.t, s.d p.1 = [(a p.1, a p.1)])
    (done : (s.propBound l upper).1 = true) : if upper then l.at a ≤ 0 else 0 ≤ l.at a := by
  have bounds : linBounds s.d l = (l.at a, l.at a) :=
    linBounds_fixed fun p member => by rw [fixed p member, Dom.fixed_single]
  unfold Search.propBound at done
  rw [bounds] at done
  dsimp only at done
  split at done
  · cases done
  · rename_i inside
    cases upper with
    | true =>
      simp only [true_and, not_true, false_and, or_false] at inside
      rw [if_pos rfl]
      omega
    | false =>
      simp only [Bool.false_eq_true, false_and, not_false_eq_true, true_and, false_or] at inside
      rw [if_neg Bool.false_ne_true]
      omega

/-- `lin != 0` over fixed variables succeeds only where it holds. -/
theorem settled_propNe {l : Lin} (within : Within a s.d)
    (fixed : ∀ p ∈ l.t, s.d p.1 = [(a p.1, a p.1)]) (done : (s.propNe l).1 = true) : l.at a ≠ 0 := by
  obtain ⟨rest, opened⟩ := openTerm_fixed fixed l.k
  have sum := openTerm_lin within opened
  simp only [Option.elim, add_zero] at sum
  unfold Search.propNe at done
  rw [opened] at done
  rw [sum]
  exact of_decide_eq_true done

end Bounds

section Relations

variable {l : Lin} {rel : Rel} {fits : List Fit} {src : Nat} {sneg : Bool} {wrap : Option Wrap}

/-- A node with fits that describes its source holds where the evaluator accepts the source. -/
theorem lin_accepted (described : Exact csp (.lin l rel fits src sneg wrap)) (fitted : fits ≠ [])
    (assign : csp.Assignment a) :
    nodeHolds csp a (.lin l rel fits src sneg wrap) ↔ csp.truth src a ≠ sneg := by
  obtain ⟨-, -, agree, -⟩ := described
  unfold nodeHolds
  by_cases fit : ∀ f ∈ fits, f.Holds a
  · exact (fitted_linear fit).trans (agree fitted a assign fit)
  · exact ⟨fun here => (here.resolve_left fun both => fit both.1).2, fun here => .inr ⟨fit, here⟩⟩

/-- Enforcing a linear relation loses no assignment that satisfies it. -/
theorem enforced_lin (ok : csp.Ok) (described : Exact csp (.lin l rel fits src sneg wrap))
    (oks : ∀ v, (s.d v).Ok) :
    Enforced csp (Satisfies csp (.lin l rel fits src sneg wrap)) s
      (s.enforceLin csp l rel fits src sneg wrap) := by
  have accepted (fitted : fits ≠ []) (a) (holds : Satisfies csp (.lin l rel fits src sneg wrap) a) :=
    (lin_accepted described fitted holds.1).mp holds.2
  obtain ⟨okLin, -, -, wrapped⟩ := described
  unfold Search.enforceLin
  split
  · rename_i fit
    -- Where the fits hold, the relation itself is what the assignment satisfies.
    have linear (a) (holds : Satisfies csp (.lin l rel fits src sneg wrap) a ∧ Within a s.d) :
        relHolds rel (l.at a) = true := by
      have satisfied := holds.1.2
      unfold nodeHolds at satisfied
      exact (fitted_linear (fitsHold_sound oks holds.2 fit)).mp satisfied
    have reduce {r : Bool × Search} (here : Enforced csp
        (fun a => Satisfies csp (.lin l rel fits src sneg wrap) a ∧ Within a s.d) s r) :
        Enforced csp (Satisfies csp (.lin l rel fits src sneg wrap)) s r :=
      here.mono fun a within holds => ⟨holds, within⟩
    have ranged (a) (holds : Satisfies csp (.lin l rel fits src sneg wrap) a ∧ Within a s.d) :=
      ok.ranged holds.1.1
    cases rel with
    | le =>
      exact reduce (enforced_propBound csp okLin oks true fun a holds =>
        ⟨ranged a holds, of_decide_eq_true (linear a holds)⟩)
    | eq =>
      have zero (a) (holds) : l.at a = 0 := of_decide_eq_true (linear a holds)
      refine reduce (Enforced.andThen (enforced_propBound csp okLin oks true fun a holds =>
        ⟨ranged a holds, (zero a holds).le⟩) fun step => ?_)
      exact enforced_propBound csp okLin (step.ok oks) false fun a holds =>
        ⟨ranged a holds, (zero a holds).ge⟩
    | ne =>
      exact reduce (enforced_propNe csp okLin oks fun a holds => of_decide_eq_true (linear a holds))
  · rename_i unfit
    have accepted := accepted (fits_ne_nil unfit)
    have judged := enforced_judge (s := s) ok accepted
    cases wrap with
    | none => exact judged
    | some wr =>
      obtain ⟨unit, modular⟩ := wrapped wr rfl
      dsimp only [Option.bind]
      split
      · rename_i fit
        have holdsMod (a) (holds : Satisfies csp (.lin l rel fits src sneg (some wr)) a ∧
            Within a s.d) : wrapRelHolds l rel fits wr a :=
          (modular a holds.1.1 (fitsHoldMod_sound oks holds.2 fit)).mpr (accepted a holds.1)
        cases rel with
        | eq =>
          cases done : cspWrapEq l wr.w s with
          | none => exact judged
          | some r =>
            exact (enforced_wrapEq csp oks (fun a holds => holdsMod a holds) done).mono
              fun a within holds => ⟨holds, within⟩
        | le =>
          cases done : cspWrapRel l .le fits wr s with
          | none => exact judged
          | some r =>
            exact (enforced_wrapRel csp (by decide) unit oks holdsMod done).mono
              fun a within holds => ⟨holds, within⟩
        | ne =>
          cases done : cspWrapRel l .ne fits wr s with
          | none => exact judged
          | some r =>
            exact (enforced_wrapRel csp (by decide) unit oks holdsMod done).mono
              fun a within holds => ⟨holds, within⟩
      · exact judged

/-- Where the fits hold, enforcing a linear relation over fixed variables succeeds only where the linear
reading does. -/
theorem settled_relation (okLin : l.Ok) (oks : ∀ v, (s.d v).Ok) (within : Within a s.d)
    (fixed : ∀ p ∈ l.t, s.d p.1 = [(a p.1, a p.1)]) (fit : fitsHold s.d fits = true)
    (done : (s.enforceLin csp l rel fits src sneg wrap).1 = true) : relHolds rel (l.at a) = true := by
  unfold Search.enforceLin at done
  rw [if_pos fit] at done
  cases rel with
  | le => exact decide_eq_true (settled_propBound true fixed done)
  | eq =>
    dsimp only at done
    split at done
    · rename_i t first
      have upper := settled_propBound true fixed (congrArg Prod.fst first)
      -- The first half leaves the fixed domains as they are.
      have still (p) (member : p ∈ l.t) : t.d p.1 = [(a p.1, a p.1)] := by
        have here := (enforced_propBound (P := fun _ => False) csp okLin oks true
          (fun _ impossible => impossible.elim)).same oks (congrArg Prod.fst first) (fixed p member)
        rwa [first] at here
      have lower := settled_propBound false still done
      simp only [if_true, Bool.false_eq_true, if_false] at upper lower
      exact decide_eq_true (by omega)
    · cases done
  | ne => exact decide_eq_true (settled_propNe within fixed done)

/-- The variables of a linear relation are among those its node reads. -/
theorem fixed_lin (fixed : ∀ v ∈ (Node.lin l rel fits src sneg wrap).deps csp, s.d v = [(a v, a v)]) :
    (∀ p ∈ l.t, s.d p.1 = [(a p.1, a p.1)]) ∧
      (∀ f ∈ fits, ∀ p ∈ f.lin.t, s.d p.1 = [(a p.1, a p.1)]) ∧
      ∀ v ∈ (csp.src src).deps, s.d v = [(a v, a v)] := by
  simp only [Node.deps, List.mem_append] at fixed
  exact ⟨fun p member => fixed p.1 (.inl (.inl (List.mem_map_of_mem member))),
    fun f member p term =>
      fixed p.1 (.inl (.inr (List.mem_flatMap.mpr ⟨f, member, List.mem_map_of_mem term⟩))),
    fun v member => fixed v (.inr member)⟩

/-- Enforcing a linear relation over fixed variables succeeds only where it holds. -/
theorem settled_lin (ok : csp.Ok) (described : Exact csp (.lin l rel fits src sneg wrap))
    (assign : csp.Assignment a) (oks : ∀ v, (s.d v).Ok) (within : Within a s.d)
    (fixed : ∀ v ∈ (Node.lin l rel fits src sneg wrap).deps csp, s.d v = [(a v, a v)])
    (done : (s.enforceLin csp l rel fits src sneg wrap).1 = true) :
    nodeHolds csp a (.lin l rel fits src sneg wrap) := by
  obtain ⟨onLin, onFits, onSrc⟩ := fixed_lin fixed
  by_cases fit : fitsHold s.d fits = true
  · unfold nodeHolds
    exact (fitted_linear (fitsHold_sound oks within fit)).mpr
      (settled_relation described.1 oks within onLin fit done)
  · refine (lin_accepted described (fits_ne_nil fit) assign).mpr ?_
    obtain ⟨okLin, -, -, wrapped⟩ := described
    unfold Search.enforceLin at done
    rw [if_neg fit] at done
    cases wrap with
    | none => exact settled_judge ok within onSrc done
    | some wr =>
      obtain ⟨unit, modular⟩ := wrapped wr rfl
      dsimp only [Option.bind] at done
      split at done
      · rename_i fit
        have told (holds : wrapRelHolds l rel fits wr a) : csp.truth src a ≠ sneg :=
          (modular a assign (fitsHoldMod_sound oks within fit)).mp holds
        have ran (o : Option (Bool × Search)) (done : (o.getD (s.judge csp src sneg)).1 = true)
            (modularly : ∀ t, o = some (true, t) → wrapRelHolds l rel fits wr a) :
            csp.truth src a ≠ sneg := by
          cases here : o with
          | none => exact settled_judge ok within onSrc (by rwa [here] at done)
          | some r =>
            rw [here] at done
            exact told (modularly r.2 (here.trans (congrArg some (Prod.ext done rfl))))
        cases rel with
        | eq => exact ran _ done fun t here => settled_wrapEq within onLin here
        | le => exact ran _ done fun t here => settled_wrapRel (by decide) within onFits here
        | ne => exact ran _ done fun t here => settled_wrapRel (by decide) within onFits here
      · exact settled_judge ok within onSrc done

end Relations

end Xezim
