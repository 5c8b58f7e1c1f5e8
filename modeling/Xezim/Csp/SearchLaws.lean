import Xezim.Csp.PickLaws

/-! The search: the decisions and what they leave open cover every solution, so an exhausted search refutes
the problem and a solved one found a solution. -/

namespace Xezim

variable {csp : Csp} {a : Nat → Int} {s t : Search} {aux : Aux} {rng : Nat → Nat} {cut : Bool}

/-- The decisions that lead to the current domains, latest first. A decision keeps every solution with
its value, so what is not in the current domains differs from some decision. -/
inductive Path [WordRead] (csp : Csp) (cut : Bool) :
    List (Nat × Int × Nat) → List (Nat × Dom) → (Nat → Dom) → Prop
  | root {trail d} (all : cut = false → ∀ a, Sought csp a → Within a d) (good : Good csp d) :
    Path csp cut [] trail d
  | level {stack trail d v val new d'} (base : Path csp cut stack trail d) (undone : unwind new d' = d)
    (kept : cut = false → ∀ a, Sought csp a → Within a d → a v = val → Within a d')
    (good : Good csp d') :
    Path csp cut ((v, val, trail.length) :: stack) (new ++ trail) d'

/-- A refuted decision: what is left are the solutions that differ from it, and none at all when there is
no decision. -/
def Conflict [WordRead] (csp : Csp) (cut : Bool) : List (Nat × Int × Nat) → List (Nat × Dom) → (Nat → Dom) → Prop
  | [], _, _ => cut = false → ∀ a, ¬ Sought csp a
  | (v, val, mark) :: stack, trail, d => ∃ new trail₀ d₀, trail = new ++ trail₀ ∧ unwind new d = d₀ ∧
    mark = trail₀.length ∧ Path csp cut stack trail₀ d₀ ∧
    (cut = false → ∀ a, Sought csp a → Within a d₀ → a v ≠ val)

namespace Path

theorem good [WordRead] {stack : List (Nat × Int × Nat)} {trail : List (Nat × Dom)} {d : Nat → Dom}
    (path : Path csp cut stack trail d) : Good csp d := by
  cases path with
  | root _ good => exact good
  | level _ _ _ good => exact good

/-- A search that has cut a branch claims less. -/
theorem weaken [WordRead] {cut' : Bool} (still : cut' = false → cut = false) {stack : List (Nat × Int × Nat)}
    {trail : List (Nat × Dom)} {d : Nat → Dom} (path : Path csp cut stack trail d) :
    Path csp cut' stack trail d := by
  induction path with
  | root all good => exact .root (fun uncut => all (still uncut)) good
  | level _ undone kept good ih => exact .level ih undone (fun uncut => kept (still uncut)) good

/-- Undoing two stretches of a trail. -/
theorem unwind_append (new new' : List (Nat × Dom)) (d : Nat → Dom) :
    unwind (new' ++ new) d = unwind new (unwind new' d) := by
  rw [unwind, List.foldl_append]
  rfl

/-- Narrowing that loses no solution stays on the same decisions. -/
theorem narrow [WordRead] {stack : List (Nat × Int × Nat)} {trail : List (Nat × Dom)} {d d' : Nat → Dom}
    {new : List (Nat × Dom)} (path : Path csp cut stack trail d) (undone : unwind new d' = d)
    (kept : cut = false → ∀ a, Sought csp a → Within a d → Within a d') (good : Good csp d') :
    Path csp cut stack (new ++ trail) d' := by
  cases path with
  | root all _ => exact .root (fun uncut a sought => kept uncut a sought (all uncut a sought)) good
  | level base undone₀ kept₀ _ =>
    rw [← List.append_assoc]
    refine .level base ?_ (fun uncut a sought within same =>
      kept uncut a sought (kept₀ uncut a sought within same)) good
    rw [unwind_append, undone, undone₀]

/-- Domains without a solution refute the last decision. -/
theorem refuted [WordRead] {stack : List (Nat × Int × Nat)} {trail : List (Nat × Dom)} {d d' : Nat → Dom}
    {new : List (Nat × Dom)} (path : Path csp cut stack trail d) (undone : unwind new d' = d)
    (lost : cut = false → ∀ a, Sought csp a → ¬ Within a d) :
    Conflict csp cut stack (new ++ trail) d' := by
  cases path with
  | root all _ => exact fun uncut a sought => lost uncut a sought (all uncut a sought)
  | @level _ trail₀ d₀ _ _ new₀ _ base undone₀ kept₀ _ =>
    refine ⟨new ++ new₀, trail₀, d₀, by rw [List.append_assoc], ?_, rfl, base,
      fun uncut a sought within same => lost uncut a sought (kept₀ uncut a sought within same)⟩
    rw [unwind_append, undone, undone₀]

end Path

section Backtrack

/-- What a backtracking run ends in. -/
structure Backtracked [WordRead] (csp : Csp) (s : Search) (r : Backtrack × Nat × Search) : Prop where
  untouched : Untouched csp s r.2.2
  cut : r.2.2.cut = false → s.cut = false
  exhausted : r.1 = .exhausted → r.2.2.cut = false → ∀ a, ¬ Sought csp a
  resume : ∀ stack refuted, r.1 = .resume stack refuted →
    Path csp r.2.2.cut stack r.2.2.trail r.2.2.d

/-- A run that first changes the counters. -/
theorem Backtracked.after [WordRead] {r : Backtrack × Nat × Search} (untouched : Untouched csp s t)
    (cut : t.cut = false → s.cut = false) (rest : Backtracked csp t r) : Backtracked csp s r :=
  ⟨untouched.trans rest.untouched, fun here => cut (rest.cut here), rest.exhausted, rest.resume⟩

/-- A run that stops for lack of budget. -/
theorem Backtracked.outOfBudget [WordRead] {budget : Nat} (untouched : Untouched csp s t)
    (cut : t.cut = false → s.cut = false) : Backtracked csp s (.outOfBudget, budget, t) :=
  ⟨untouched, cut, fun impossible => (by cases impossible), fun _ _ impossible => by cases impossible⟩

/-- Replacing a domain fails on an empty one only. -/
theorem set_fails {v : Nat} (nd : Dom) (fails : (s.set v nd).1 = false) : nd = [] := by
  unfold Search.set at fails
  split at fails
  · cases fails
  · simpa using fails

/-- Backtracking from a refuted decision finds an open one, or shows that no solution is left. -/
theorem backtracked [WordRead] [LawfulWordRead] (ok : csp.Ok) (stack : List (Nat × Int × Nat)) (refuted : List Nat)
    (budget : Nat)
    (s : Search) (conflict : Conflict csp s.cut stack s.trail s.d) :
    Backtracked csp s (backtrack csp stack refuted budget s) := by
  induction stack generalizing refuted budget s with
  | nil =>
    exact ⟨(.of_same rfl), fun here => here, fun _ => conflict,
      fun _ _ impossible => by cases impossible⟩
  | cons entry stack ih =>
    obtain ⟨v, val, mark⟩ := entry
    obtain ⟨new, trail₀, d₀, joined, undone, rfl, path, differs⟩ := conflict
    -- Undoing the decision gives back its domains and its trail.
    obtain ⟨restored, shorter⟩ : (s.undo trail₀.length).d = d₀ ∧
        (s.undo trail₀.length).trail = trail₀ := by
      unfold Search.undo
      rw [joined, rewind_append, undone]
      exact ⟨rfl, rfl⟩
    have untouched : Untouched csp s (s.undo trail₀.length) := .of_same rfl
    have sameCut : (s.undo trail₀.length).cut = s.cut := rfl
    unfold backtrack
    dsimp only
    generalize s.undo trail₀.length = u at *
    subst restored shorter
    generalize (if u.levelTries = 0 then refuted
      else (resizeCounts (stack.length + 1) refuted).modify stack.length (· + 1)) = counts
    split
    · refine Backtracked.after (t := { u with cut := true, levelCut := true }) untouched
        (fun impossible => by cases impossible) (ih _ budget _ ?_)
      have cutNow : true = false → s.cut = false := fun impossible => by cases impossible
      have refuted := (path.weaken cutNow).refuted (show unwind [] u.d = u.d from rfl)
      exact refuted fun impossible => by cases impossible
    · split
      · exact Backtracked.outOfBudget untouched fun here => sameCut ▸ here
      · split
        · exact Backtracked.outOfBudget untouched fun here => sameCut ▸ here
        · have point := Dom.ok_single (le_refl val)
          have good := path.good
          have smaller (x : Int) (here : Dom.Has (domMinus (u.d v) [(val, val)]) x) :=
            ((Dom.has_minus (good.ok v) point).mp here).1
          -- A solution that differs from the decision is in the domain without its value.
          have other (uncut : s.cut = false) (a) (sought : Sought csp a) (within : Within a u.d) :
              Dom.Has (domMinus (u.d v) [(val, val)]) (a v) := by
            refine (Dom.has_minus (good.ok v) point).mpr ⟨within v, fun same => ?_⟩
            have := (Dom.has_single ..).mp same
            exact differs uncut a sought within (by omega)
          have okNew := (good.ok v).minus point
          have choice : domMinus (u.d v) [(val, val)] = [(val, val)] ∧ Dom.Has (u.d v) val ∨
              domMinus (u.d v) [(val, val)] = domMinus (u.d v) [(val, val)] := .inr rfl
          generalize made : domMinus (u.d v) [(val, val)] = nd at *
          have step := step_set csp { u with work := u.work + (u.d v).length, dirty := [] } okNew smaller
          have decided := decided_propagate (s := { u with work := u.work + (u.d v).length, dirty := [] })
            ok good rfl (v := v) (x := val) (made ▸ choice) okNew
          have stored := store_set { u with work := u.work + (u.d v).length, dirty := [] } v nd
          have empty := set_fails (s := { u with work := u.work + (u.d v).length, dirty := [] })
            (v := v) nd
          rcases replaced : ({ u with work := u.work + (u.d v).length, dirty := [] } : Search).set v nd
            with ⟨b, w⟩
          rw [replaced] at step decided empty stored
          have cutW : w.cut = s.cut := step.cut.trans sameCut
          cases b with
          | false =>
            obtain ⟨new', joined', undone'⟩ := step.trail
            refine Backtracked.after (untouched.trans (.of_same stored)) (fun here => cutW ▸ here)
              (ih _ (budget - 1) w ?_)
            rw [joined', cutW]
            refine path.refuted undone' fun uncut a sought within => ?_
            have here := other uncut a sought within
            rw [empty rfl] at here
            exact Dom.has_nil _ here
          | true =>
            have decided := decided rfl smaller
            dsimp only
            split
            · rename_i x run
              rw [run] at decided
              obtain ⟨new', joined', undone'⟩ := decided.moved.trail
              refine ⟨untouched.trans decided.moved.untouched, fun here => sameCut ▸ decided.moved.cut here,
                fun impossible => (by cases impossible), fun stack' refuted' here => ?_⟩
              cases here
              rw [joined']
              refine (path.weaken fun here => sameCut ▸ decided.moved.cut here).narrow undone'
                (fun uncut a sought within => ?_) (decided.good rfl)
              exact decided.keeps rfl a sought within
                (other (sameCut ▸ decided.moved.cut uncut) a sought within)
            · rename_i x run
              rw [run] at decided
              obtain ⟨new', joined', undone'⟩ := decided.moved.trail
              have cutX : x.cut = false → s.cut = false := fun here => sameCut ▸ decided.moved.cut here
              refine Backtracked.after (untouched.trans decided.moved.untouched) cutX (ih _ (budget - 1) x ?_)
              rw [joined']
              refine (path.weaken cutX).refuted undone' fun uncut a sought within => ?_
              exact decided.refutes rfl uncut a sought within (other (cutX uncut) a sought within)
            · rename_i x run
              rw [run] at decided
              exact Backtracked.outOfBudget (untouched.trans decided.moved.untouched)
                fun here => sameCut ▸ decided.moved.cut here

end Backtrack

section Loop

/-- Every variable of the problem is fixed in domains between two decisions. -/
structure Solved [WordRead] (csp : Csp) (d : Nat → Dom) : Prop where
  good : Good csp d
  fixed : ∀ v < csp.vars.length, (domFixed (d v)).isSome

/-- What one search ends in. -/
structure Searched [WordRead] (csp : Csp) (s : Search) (r : Option Bool × Nat × Search) : Prop where
  untouched : Untouched csp s r.2.2
  cut : r.2.2.cut = false → s.cut = false
  solved : r.1 = some true → Solved csp r.2.2.d
  exhausted : r.1 = some false → r.2.2.cut = false → ∀ a, ¬ Sought csp a

theorem Searched.after [WordRead] {r : Option Bool × Nat × Search} (untouched : Untouched csp s t)
    (cut : t.cut = false → s.cut = false) (rest : Searched csp t r) : Searched csp s r :=
  ⟨untouched.trans rest.untouched, fun here => cut (rest.cut here), rest.solved, rest.exhausted⟩

theorem Searched.outOfBudget [WordRead] {budget : Nat} (untouched : Untouched csp s t)
    (cut : t.cut = false → s.cut = false) : Searched csp s (none, budget, t) :=
  ⟨untouched, cut, fun impossible => (by cases impossible), fun impossible => by cases impossible⟩

/-- The decision loop finds a state with every variable fixed, or shows that no solution is left. -/
theorem searched_loop [WordRead] [LawfulWordRead] (ok : csp.Ok) (fuel : Nat) (stack : List (Nat × Int × Nat))
    (refuted : List Nat)
    (budget : Nat) (s : Search) (path : Path csp s.cut stack s.trail s.d) :
    Searched csp s (searchLoop csp aux rng fuel stack refuted budget s) := by
  induction fuel generalizing stack refuted budget s with
  | zero => exact Searched.outOfBudget (.of_same rfl) fun here => here
  | succ fuel ih =>
    obtain ⟨picked, allFixed⟩ := pickVar_spec aux rng path.good.reached
    unfold searchLoop
    split
    · rename_i t done
      rw [done] at picked allFixed
      refine ⟨picked.untouched, picked.cut, fun _ => ⟨?_, fun v small => ?_⟩,
        fun impossible => by cases impossible⟩
      · exact picked.d ▸ path.good
      · exact picked.d ▸ allFixed rfl v small
    · rename_i v t picks
      rw [picks] at picked
      have path : Path csp t.cut stack t.trail t.d := by
        rw [picked.d, picked.trail]
        exact path.weaken picked.cut
      refine Searched.after picked.untouched picked.cut ?_
      split
      · exact Searched.outOfBudget (.of_same rfl) fun here => here
      · obtain ⟨valued, inside⟩ := picks_val aux rng ok path.good v
        split
        · rename_i u stuck
          rw [stuck] at valued
          exact Searched.outOfBudget valued.untouched valued.cut
        · rename_i val u chosen
          rw [chosen] at valued inside
          have path : Path csp u.cut stack u.trail u.d := by
            rw [valued.d, valued.trail]
            exact path.weaken valued.cut
          refine Searched.after valued.untouched valued.cut ?_
          have decided := decided_try (s := u) ok path.good (v := v) (x := val) (valued.d ▸ inside val rfl)
          -- A solution with the decided value is in the decided domain.
          have value {a : Nat → Int} (same : a v = val) : Dom.Has [(val, val)] (a v) :=
            (Dom.has_single ..).mpr ⟨same.ge, same.le⟩
          obtain ⟨new, joined, undone⟩ := decided.moved.trail
          dsimp only
          split
          · rename_i w run
            rw [run] at decided joined undone
            refine Searched.after decided.moved.untouched decided.moved.cut (ih _ _ _ w ?_)
            rw [joined]
            exact .level (path.weaken decided.moved.cut) undone
              (fun _ a sought within same => decided.keeps rfl a sought within (value same))
              (decided.good rfl)
          · rename_i w run
            rw [run] at decided
            exact Searched.outOfBudget decided.moved.untouched decided.moved.cut
          · rename_i w run
            rw [run] at decided joined undone
            have conflict : Conflict csp w.cut ((v, val, u.trail.length) :: stack) w.trail w.d :=
              ⟨new, u.trail, u.d, joined, undone, rfl, path.weaken decided.moved.cut,
                fun uncut a sought within same =>
                  decided.refutes rfl uncut a sought within (value same)⟩
            have back := backtracked ok ((v, val, u.trail.length) :: stack) refuted (budget - 1) w
              conflict
            refine Searched.after decided.moved.untouched decided.moved.cut ?_
            split
            · rename_i left x run
              rw [run] at back
              exact ⟨back.untouched, back.cut, fun impossible => (by cases impossible), fun _ => back.exhausted rfl⟩
            · rename_i left x run
              rw [run] at back
              exact Searched.outOfBudget back.untouched back.cut
            · rename_i stack' refuted' left x run
              rw [run] at back
              exact Searched.after back.untouched back.cut
                (ih stack' refuted' left x (back.resume stack' refuted' rfl))

/-- One search from the initial domains. -/
theorem searched [WordRead] [LawfulWordRead] (aux : Aux) (rng : Nat → Nat) (ok : csp.Ok) (budget : Nat) (s : Search)
    (start : s.d = csp.dom) :
    Searched csp s (cspSearch csp aux rng budget s) := by
  have propagated := propagated_loop ok (1000 + 2 * csp.vars.length) workBudget
    (enqueue [] (List.range csp.nodes.length)) (fun _ => 0) s (start ▸ ok.doms)
    (fun v x here => start ▸ here) (fun v _ nonempty => start ▸ nonempty)
    (fun i here => List.mem_range.mp ((mem_enqueue.mp here).resolve_left List.not_mem_nil))
    (fun i small => .inl (mem_enqueue.mpr (.inr (List.mem_range.mpr small)))) (start ▸ .start)
  -- Every solution is in the initial domains.
  have within (a) (sought : Sought csp a) : Within a s.d := start ▸ sought.2.1.within
  unfold cspSearch
  change Propagated csp s (cspPropagate csp (List.range csp.nodes.length) s) at propagated
  split
  · rename_i t run
    rw [run] at propagated
    refine Searched.after propagated.moved.untouched propagated.moved.cut (searched_loop ok _ [] [] _ t ?_)
    exact .root (fun _ a sought => propagated.keeps rfl a sought (within a sought))
      (propagated.good rfl)
  · rename_i t run
    rw [run] at propagated
    exact ⟨propagated.moved.untouched, propagated.moved.cut, fun impossible => (by cases impossible),
      fun _ uncut a sought => propagated.refutes rfl uncut a sought (within a sought)⟩
  · rename_i t run
    rw [run] at propagated
    exact Searched.outOfBudget propagated.moved.untouched propagated.moved.cut

/-- What the restarts end in. -/
structure Found [WordRead] (csp : Csp) (s : Search) (r : Option CspOutcome × Search) : Prop where
  untouched : Untouched csp s r.2
  solved : r.1 = none → Solved csp r.2.d
  unsat : r.1 = some .unsat → ∀ a, ¬ Sought csp a

theorem Found.after [WordRead] {r : Option CspOutcome × Search} (untouched : Untouched csp s t) (rest : Found csp t r) :
    Found csp s r :=
  ⟨untouched.trans rest.untouched, rest.solved, rest.unsat⟩

theorem Found.gaveUp [WordRead] (untouched : Untouched csp s t) : Found csp s (some .gaveUp, t) :=
  ⟨untouched, fun impossible => (by cases impossible), fun impossible => by cases impossible⟩

/-- Every restart begins with the initial domains, so what one search shows holds of them all. -/
theorem found_loop [WordRead] [LawfulWordRead] (ok : csp.Ok) (fuel budget runBudget levelTries : Nat) (s : Search) :
    Found csp s (findLoop csp aux rng fuel budget runBudget levelTries s) := by
  induction fuel generalizing budget runBudget levelTries s with
  | zero => exact Found.gaveUp (.of_same rfl)
  | succ fuel ih =>
    unfold findLoop
    dsimp only
    generalize started : ({ s with
      d := csp.dom
      trail := []
      dirty := []
      levelTries := if csp.hasSubs then levelTries else 0
      levelCut := false } : Search) = t
    have fresh : Untouched csp s t := by
      subst started
      exact .of_same rfl
    have start : t.d = csp.dom := by
      subst started
      rfl
    have run := searched aux rng ok (min runBudget budget) t start
    refine Found.after fresh ?_
    generalize cspSearch csp aux rng (min runBudget budget) t = result at *
    obtain ⟨r, left, u⟩ := result
    dsimp only
    split
    · exact ⟨run.untouched, fun _ => run.solved rfl, fun impossible => by cases impossible⟩
    · split
      · exact Found.after run.untouched (ih _ _ _ u)
      · split
        · exact Found.gaveUp run.untouched
        · rename_i uncut
          exact ⟨run.untouched, fun impossible => (by cases impossible),
            fun _ => run.exhausted rfl (Bool.eq_false_iff.mpr uncut)⟩
    · split
      · exact Found.gaveUp run.untouched
      · exact Found.after run.untouched (ih _ _ _ u)

end Loop

section Solution

/-- A state with every variable fixed is a solution. -/
theorem Solved.solution [WordRead] (ok : csp.Ok) (solved : Solved csp s.d) : csp.Solution s.solution := by
  have points (v : Nat) : s.d v = [(s.solution v, s.solution v)] := by
    unfold Search.solution
    by_cases small : v < csp.vars.length
    · obtain ⟨x, fixed⟩ := Option.isSome_iff_exists.mp (solved.fixed v small)
      rw [fixed]
      exact Dom.has_of_fixed fixed
    · -- Past the last variable only the dummy value is left.
      have dummy : csp.dom v = [(0, 0)] := by
        have := ok.sized
        exact List.getD_eq_default _ _ (by omega)
      have nonempty := solved.good.beyond v (not_lt.mp small) (by simp [dummy])
      have zero : s.d v = [(0, 0)] := (solved.good.ok v).eq_single nonempty fun x here => by
        have := solved.good.small v x here
        rw [dummy, Dom.has_single] at this
        omega
      rw [zero, Dom.fixed_single]
      rfl
  have within : Within s.solution s.d := fun v => by
    rw [points v]
    exact (Dom.has_single ..).mpr ⟨le_refl _, le_refl _⟩
  have small : Within s.solution csp.dom := fun v => solved.good.small v _ (within v)
  have assign : csp.Assignment s.solution := by
    refine ⟨small, ok.linked _ small fun l rel src sneg member => ?_⟩
    exact (solved.good.kept _ member _ within fun v _ => points v).2 l rel src sneg rfl
  exact ⟨assign, fun n member => (solved.good.kept n member _ within fun v _ => points v).1 assign⟩

end Solution

end Xezim
