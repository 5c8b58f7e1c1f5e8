import Xezim.Csp.Propagate

/-! Choosing a variable and a value leaves the domains alone: a variable is found while one is open, and its
value comes from its domain. -/

namespace Xezim

variable {csp : Csp} {a : Nat → Int} {s t u : Search} {aux : Aux} {rng : Nat → Nat}

/-- Only the object, the random numbers and the counters have changed. -/
structure Still [WordRead] (csp : Csp) (s t : Search) : Prop where
  d : t.d = s.d
  trail : t.trail = s.trail
  cut : t.cut = false → s.cut = false
  untouched : Untouched csp s t

theorem Still.refl [WordRead] (csp : Csp) (s : Search) : Still csp s s := ⟨rfl, rfl, fun h => h, .of_same rfl⟩

theorem Still.trans [WordRead] (first : Still csp s t) (second : Still csp t u) : Still csp s u :=
  ⟨second.d.trans first.d, second.trail.trans first.trail, fun here => first.cut (second.cut here),
    first.untouched.trans second.untouched⟩

theorem Quiet.still [WordRead] (quiet : Quiet csp s t) (untouched : Untouched csp s t) : Still csp s t :=
  ⟨quiet.d, quiet.trail, fun here => quiet.cut ▸ here, untouched⟩

theorem Still.moved [WordRead] (still : Still csp s t) : Moved csp s t :=
  ⟨⟨[], still.trail, still.d⟩, fun _ _ here => still.d ▸ here, fun ok => still.d ▸ ok, still.cut,
    still.untouched⟩

theorem still_draw [WordRead] (csp : Csp) (rng : Nat → Nat) (s : Search) (bound : Nat) :
    Still csp s (s.draw rng bound).2 := ⟨rfl, rfl, fun h => h, .of_same rfl⟩

section Variable

/-- Judging the guards of a dist, of which it is enough that the problem has them. -/
theorem still_guardLoop [WordRead] (reached : Reached csp s.d []) {dist : Dist} (listed : dist ∈ csp.dists)
    (gs : List Node) (guards : ∀ g ∈ gs, g ∈ dist.guards) (all isOpen : Bool) :
    Still csp s (s.guardLoop csp gs all isOpen).2 := by
  induction gs generalizing all isOpen s with
  | nil => exact Still.refl csp s
  | cons g gs ih =>
    -- The status of a guard leaves the domains and the trail alone.
    have quiet := quiet_cspStatus csp g s
    have first := quiet.still fun silent =>
      silent.guards s reached dist listed g (guards g List.mem_cons_self)
    have reached := quiet.d ▸ reached
    have guards := fun g member => guards g (List.mem_cons_of_mem _ member)
    unfold Search.guardLoop
    -- A guard that is refuted ends the loop, and an open one leaves the dist open.
    split
    · rename_i t status
      rw [status] at first reached
      exact first.trans (ih reached guards all isOpen)
    · rename_i t status
      rwa [status] at first
    · rename_i t status
      rw [status] at first reached
      exact first.trans (ih reached guards false true)

/-- Finding the dist in force. -/
theorem still_distState [WordRead] (reached : Reached csp s.d []) (is : List Nat) (isOpen : Bool) :
    Still csp s (s.distState csp is isOpen).2 := by
  induction is generalizing isOpen s with
  | nil => exact Still.refl csp s
  | cons i is ih =>
    have first : Still csp s (s.guardLoop csp (csp.dists.getD i default).guards true isOpen).2 := by
      by_cases listed : i < csp.dists.length
      · have member : csp.dists.getD i default ∈ csp.dists := by
          rw [List.getD_eq_getElem _ _ listed]
          exact List.getElem_mem listed
        exact still_guardLoop reached member _ (fun g inside => inside) true isOpen
      · -- Past the last dist there are no guards.
        rw [List.getD_eq_default _ _ (not_lt.mp listed)]
        exact Still.refl csp s
    have reached := first.d ▸ reached
    unfold Search.distState
    split
    · rename_i isOpen' t guards
      rwa [guards] at first
    · rename_i isOpen' t guards
      rw [guards] at first reached
      exact first.trans (ih reached isOpen')

/-- The rank of an open variable is found quietly. -/
theorem still_tier [WordRead] (reached : Reached csp s.d []) (aux : Aux) (v : Nat) :
    Still csp s (if aux.dists v = [] then (1, s)
      else match s.distState csp (aux.dists v) false with
        | ((some _, _), s) => (0, s)
        | ((none, true), s) => (2, s)
        | ((none, false), s) => ((1 : Nat), s)).2 := by
  split
  · exact Still.refl csp s
  · have first := still_distState reached (aux.dists v) false
    split <;> (rename_i state; rwa [state] at first)

/-- Once a candidate is known one stays known, and one is known as soon as an open variable is met. -/
theorem pickVarLoop_spec [WordRead] (aux : Aux) (rng : Nat → Nat) (vs : List Nat) (p : Search.Pick)
    (reached : Reached csp s.d []) :
    Still csp s (s.pickVarLoop csp aux rng vs p).2 ∧
      ((s.pickVarLoop csp aux rng vs p).1.best = none →
        (s.pickVarLoop csp aux rng vs p).1.composite = none →
        p.best = none ∧ p.composite = none ∧ ∀ v ∈ vs, (domFixed (s.d v)).isSome) := by
  induction vs generalizing p s with
  | nil => exact ⟨Still.refl csp s, fun best composite => ⟨best, composite, by simp⟩⟩
  | cons v vs ih =>
    unfold Search.pickVarLoop
    split
    · rename_i fixed
      obtain ⟨still, undecided⟩ := ih p reached
      refine ⟨still, fun best composite => ?_⟩
      obtain ⟨noBest, noComposite, rest⟩ := undecided best composite
      exact ⟨noBest, noComposite, List.forall_mem_cons.mpr ⟨fixed, rest⟩⟩
    · split
      · obtain ⟨still, undecided⟩ := ih { p with composite := p.composite.or (some v) } reached
        refine ⟨still, fun best composite => ?_⟩
        have impossible := (undecided best composite).2.1
        cases here : p.composite <;> simp [here] at impossible
      · dsimp only
        have first := still_tier reached aux v
        generalize (if aux.dists v = [] then (1, s)
          else match s.distState csp (aux.dists v) false with
            | ((some _, _), s) => (0, s)
            | ((none, true), s) => (2, s)
            | ((none, false), s) => ((1 : Nat), s)) = tier at *
        have reached : Reached csp tier.2.d [] := first.d ▸ reached
        -- In every branch that follows there is a best candidate.
        split
        · obtain ⟨still, undecided⟩ := ih { p with best := some _, ties := 0 } reached
          exact ⟨first.trans still, fun best composite => nomatch (undecided best composite).1⟩
        · rename_i old br bn w known
          split
          · obtain ⟨still, undecided⟩ := ih p reached
            refine ⟨first.trans still, fun best composite => ?_⟩
            rw [known] at undecided
            cases (undecided best composite).1
          · split
            · have drawn := still_draw csp rng tier.2 (p.ties + 2)
              obtain ⟨still, undecided⟩ := ih (s := (tier.2.draw rng (p.ties + 2)).2) { p with
                best := if (tier.2.draw rng (p.ties + 2)).1 = 0 then some _ else p.best
                ties := p.ties + 1 } reached
              refine ⟨(first.trans drawn).trans still, fun best composite => ?_⟩
              have impossible := (undecided best composite).1
              dsimp only at impossible
              split at impossible
              · cases impossible
              · rw [known] at impossible
                cases impossible
            · obtain ⟨still, undecided⟩ := ih { p with best := some _, ties := 0 } reached
              exact ⟨first.trans still, fun best composite => nomatch (undecided best composite).1⟩

/-- A variable is picked while one is open. -/
theorem pickVar_spec [WordRead] (aux : Aux) (rng : Nat → Nat) (reached : Reached csp s.d []) :
    Still csp s (s.pickVar csp aux rng).2 ∧ ((s.pickVar csp aux rng).1 = none →
      ∀ v < csp.vars.length, (domFixed (s.d v)).isSome) := by
  obtain ⟨still, undecided⟩ := pickVarLoop_spec aux rng (List.range csp.vars.length) ⟨none, 0, none⟩ reached
  refine ⟨still, fun nothing v small => ?_⟩
  obtain ⟨best, composite⟩ := Option.or_eq_none_iff.mp nothing
  exact (undecided (Option.map_eq_none_iff.mp best) composite).2.2 v (List.mem_range.mpr small)

end Variable

section Value

/-- A way of picking a value picks one of a domain, and leaves the domains alone. -/
def Picks [WordRead] (csp : Csp) (d : Dom) (s : Search) (r : Option Int × Search) : Prop :=
  Still csp s r.2 ∧ ∀ x, r.1 = some x → d.Has x

/-- A way of picking that failed leaves the choice to the next one. -/
theorem picks_orPick [WordRead] {d : Dom} {first second : Search → Option Int × Search}
    (one : Picks csp d s (first s)) (two : ∀ t, Still csp s t → Picks csp d t (second t)) :
    Picks csp d s (Search.orPick first second s) := by
  unfold Search.orPick
  -- The first pick decides where it has a value.
  split
  · rename_i x t here
    rwa [here] at one
  · -- Otherwise the second picks from what the first left.
    rename_i t here
    rw [here] at one
    obtain ⟨still, picks⟩ := two t one.1
    exact ⟨one.1.trans still, picks⟩

/-- Picking nothing. -/
theorem picks_none [WordRead] {d : Dom} (still : Still csp s t) : Picks csp d s (none, t) :=
  ⟨still, fun _ impossible => nomatch impossible⟩

/-- A uniform draw from part of a domain. -/
theorem picks_nth [WordRead] (csp : Csp) (rng : Nat → Nat) {d part : Dom} (ok : part.Ok)
    (inside : ∀ x, part.Has x → d.Has x)
    (positive : 0 < domSize part) :
    Picks csp d s (some (domNth part (s.draw rng (domSize part)).1), (s.draw rng (domSize part)).2) := by
  refine ⟨still_draw csp rng s (domSize part), fun x here => ?_⟩
  cases here
  exact inside _ (Dom.has_nth ok (Nat.mod_lt _ positive))

theorem picks_drawFrom [WordRead] {d part : Dom} (ok : part.Ok) (inside : ∀ x, part.Has x → d.Has x) :
    Picks csp d s (s.drawFrom rng part) := by
  unfold Search.drawFrom
  split
  · exact picks_none (Still.refl csp s)
  · exact picks_nth csp rng ok inside (by omega)

/-- A weighed choice is one of the list. -/
theorem weighed_mem {α : Type} {l : List (α × Nat)} {r : Nat} {x : α}
    (picked : Search.weighed l r = some x) : x ∈ l.map Prod.fst := by
  -- The last entry takes whatever weight is left.
  induction l generalizing r with
  | nil => cases picked
  | cons p l ih =>
    cases l with
    | nil =>
      cases picked
      simp
    | cons q l =>
      unfold Search.weighed at picked
      split at picked
      · cases picked
        simp
      · exact List.mem_cons_of_mem _ (ih picked)

/-- A nonempty domain has a size. -/
theorem size_pos {d : Dom} (nonempty : d ≠ []) : 0 < domSize d := by
  obtain ⟨p, rest, rfl⟩ := List.exists_cons_of_ne_nil nonempty
  rw [domSize]
  omega

theorem picks_dist [WordRead] (good : Good csp s.d) (v : Nat) :
    Picks csp (s.d v) s (s.pickDist csp aux rng v) := by
  unfold Search.pickDist
  split
  · exact picks_none (Still.refl csp s)
  · have first := still_distState good.reached (aux.dists v) false
    split
    · rename_i isOpen t state
      rw [state] at first
      exact picks_none first
    · rename_i i isOpen t state
      rw [state] at first
      dsimp only
      split
      · exact picks_none first
      · split
        · exact picks_none (first.trans (still_draw csp rng t _))
        · rename_i part chosen
          -- A live item is a nonempty part of the domain.
          obtain ⟨item, live, rfl⟩ := List.mem_map.mp (weighed_mem chosen)
          obtain ⟨source, -, here⟩ := List.mem_filterMap.mp live
          split at here
          · cases here
          · rename_i alive
            cases here
            have drawn := first.trans (still_draw csp rng t (List.filterMap (fun item =>
              if domClip (t.d v) item.1 item.2.1 = [] then none
              else some (domClip (t.d v) item.1 item.2.1, item.2.2))
              (csp.dists.getD i default).items |>.map Prod.snd).sum)
            obtain ⟨still, picks⟩ := picks_nth csp rng (d := s.d v)
              (s := (t.draw rng (List.filterMap (fun item =>
                if domClip (t.d v) item.1 item.2.1 = [] then none
                else some (domClip (t.d v) item.1 item.2.1, item.2.2))
                (csp.dists.getD i default).items |>.map Prod.snd).sum).2)
              (first.d ▸ (good.ok v).clip source.1 source.2.1)
              (fun x inside => first.d ▸ ((Dom.has_clip ..).mp inside).1) (size_pos alive)
            exact ⟨drawn.trans still, picks⟩

theorem picks_popCount [WordRead] (csp : Csp) (d : Dom) (w : Nat) : Picks csp d s (Search.popCount rng d w s) := by
  unfold Search.popCount
  dsimp only
  split
  · exact picks_none (Still.refl csp s)
  · -- The count is drawn from what the domain allows.
    refine ⟨still_draw csp rng s 0, fun x here => ?_⟩
    obtain ⟨p, member, rfl⟩ := List.mem_map.mp (weighed_mem here)
    obtain ⟨n, value, rfl⟩ := List.mem_map.mp member
    exact ((Dom.has_clip ..).mp (Dom.mem_values.mp value)).1

theorem still_popBits [WordRead] (csp : Csp) (rng : Nat → Nat) (k : Nat) (pos : List Nat) (s : Search) :
    Still csp s (Search.popBits rng k pos s).2 := by
  induction k generalizing pos s with
  | zero => exact Still.refl csp s
  | succ k ih =>
    cases pos with
    | nil => exact Still.refl csp s
    | cons p pos => exact (still_draw csp rng s (pos.length + 1)).trans (ih _ (s.draw rng (pos.length + 1)).2)

theorem picks_pop [WordRead] (var : CspVar) (v c tries : Nat) (s : Search) :
    Picks csp (s.d v) s (Search.pickPop rng var v c tries s) := by
  induction tries generalizing s with
  | zero => exact picks_none (Still.refl csp s)
  | succ tries ih =>
    unfold Search.pickPop
    dsimp only
    -- Drawing the count leaves the search as it was.
    have counted : Still csp s (Search.pickCount rng var c s).2 := by
      unfold Search.pickCount
      split
      · exact Still.refl csp s
      · exact (picks_popCount csp (s.d c) var.width).1
    split
    · rename_i t here
      rw [here] at counted
      exact picks_none counted
    · rename_i n t here
      rw [here] at counted
      generalize (if 0 ≤ (domBounds (t.d v)).1 then min (Nat.size (domBounds (t.d v)).2.toNat) var.width
        else var.width) = span
      split
      · exact picks_none counted
      · have drawn := counted.trans
          (still_popBits csp rng n.toNat (List.range (min span (min var.width 64))) t)
        split
        · -- The drawn number is in the domain, so it is picked.
          rename_i inside
          refine ⟨drawn, fun x chosen => ?_⟩
          cases chosen
          have here := (Dom.domHas_iff _ _).mp inside
          exact drawn.d ▸ here
        · -- A number outside the domain is drawn again.
          obtain ⟨still, picks⟩ := ih (Search.popDraw rng var.width span n.toNat var.signed t).2
          refine ⟨drawn.trans still, fun x chosen => ?_⟩
          exact drawn.d ▸ picks x chosen

/-- Trying every value of a domain and undoing it. -/
theorem weighLoop_spec [WordRead] [LawfulWordRead] (ok : csp.Ok) (good : Good csp s.d) {v : Nat} (xs : List Int)
    (live : Bool)
    (inside : ∀ x ∈ xs, (s.d v).Has x) :
    Still csp s (Search.weighLoop csp v xs live s).2 ∧
      ((Search.weighLoop csp v xs live s).1 = some true → live = true ∨ xs ≠ []) := by
  induction xs generalizing s live with
  | nil =>
    refine ⟨Still.refl csp s, fun told => .inl ?_⟩
    cases told
    rfl
  | cons x xs ih =>
    -- The value is tried and undone, so only the work counts remain.
    have tried := (decided_try ok good (inside x List.mem_cons_self)).moved
    rcases run : cspTry csp v [(x, x)] s with ⟨r, t⟩
    rw [run] at tried
    obtain ⟨d, trail⟩ := tried.undo
    have still (work estWork : Nat) :
        Still csp s { t.undo s.trail.length with estWork := estWork, work := work } :=
      ⟨d, trail, tried.cut, tried.untouched⟩
    unfold Search.weighLoop
    rw [run]
    dsimp only
    split
    · -- Running out of work ends the weighing without a pick.
      exact ⟨still _ _, fun impossible => nomatch impossible⟩
    · obtain ⟨rest, -⟩ := ih (s := { t.undo s.trail.length with
          estWork := (t.undo s.trail.length).estWork + (t.work - s.work), work := s.work })
        (show Good csp (t.undo s.trail.length).d by rwa [d])
        (live || _) (fun y member => by
          show ((t.undo s.trail.length).d v).Has y
          rw [d]
          exact inside y (List.mem_cons_of_mem _ member))
      exact ⟨(still _ _).trans rest, fun _ => .inr (List.cons_ne_nil _ _)⟩

theorem picks_weigh [WordRead] [LawfulWordRead] (ok : csp.Ok) (good : Good csp s.d) (v : Nat) :
    Picks csp (s.d v) s (s.weigh csp rng v) := by
  obtain ⟨still, weighed⟩ := weighLoop_spec (s := s) ok good (v := v) (domValues (s.d v)) false
    fun x member => Dom.mem_values.mp member
  unfold Search.weigh
  -- A value that survived its trial makes the domain one to draw from.
  split
  · rename_i t run
    rw [run] at still weighed
    have nonempty : s.d v ≠ [] := by
      rintro empty
      exact ((weighed rfl).resolve_left Bool.false_ne_true) (by rw [empty]; rfl)
    obtain ⟨drawn, picks⟩ := picks_nth csp rng (d := s.d v) (s := t)
      (still.d ▸ good.ok v) (fun x here => still.d ▸ here)
      (size_pos (still.d ▸ nonempty))
    exact ⟨still.trans drawn, picks⟩
  · rename_i t _ run
    rw [run] at still
    exact picks_none still

/-- A value is picked from the domain of its variable. -/
theorem picks_val [WordRead] [LawfulWordRead] (aux : Aux) (rng : Nat → Nat) (ok : csp.Ok) (good : Good csp s.d)
    (v : Nat) :
    Picks csp (s.d v) s (s.pickVal csp aux rng v) := by
  unfold Search.pickVal
  -- The ways to pick are tried in the order of the source.
  refine picks_orPick (picks_dist good v) fun t first => ?_
  refine picks_orPick ?_ fun u second => ?_
  · split
    · exact first.d ▸ picks_popCount _ _ _
    · exact picks_none (Still.refl csp t)
  have here := first.trans second
  refine picks_orPick ?_ fun w third => ?_
  · split
    · rw [← here.d]
      exact picks_pop _ v _ 64 u
    · exact picks_none (Still.refl csp u)
  have here := here.trans third
  have good : Good csp w.d := here.d ▸ good
  -- With everything else passed the value is drawn from the domain.
  rw [← here.d]
  split
  · exact picks_drawFrom ((good.ok v).clip _ _) fun x inside => ((Dom.has_clip ..).mp inside).1
  · refine picks_orPick ?_ fun x fourth => ?_
    · split
      · exact picks_weigh ok good v
      · exact picks_none (Still.refl csp w)
    · exact picks_drawFrom (fourth.d ▸ good.ok v) fun y inside => fourth.d ▸ inside

end Value

end Xezim
