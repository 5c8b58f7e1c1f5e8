import Xezim.Csp.EnforceLaws
import Xezim.Csp.Find

/-! Propagation: its queue holds every node that may not be settled, it loses no solution, and it changes the object
only by enforcing a node that does. -/

namespace Xezim

open Function

variable {csp : Csp} {a : Nat → Int} {s t u : Search}

/-- The solutions a search does not lose: those read safely. -/
def Sought (csp : Csp) (a : Nat → Int) : Prop :=
  allReadSafe csp a csp.nodes ∧ csp.Assignment a ∧ ∀ n ∈ csp.nodes, nodeHolds csp a n

/-- Once the variables of a node are fixed, every assignment left in the domains satisfies it. -/
def Kept (csp : Csp) (d : Nat → Dom) (n : Node) : Prop :=
  ∀ a, Within a d → (∀ v ∈ n.deps csp, d v = [(a v, a v)]) →
    (csp.Assignment a → nodeHolds csp a n) ∧
      ∀ l rel src sneg, n = .lin l rel [] src sneg none → relHolds rel (l.at a) = true

/-- The domains and the queue of a search that decides on variables in any order and on any value of theirs: at the
start, after a node that holds was enforced, and after a value was tried or excluded where the queue was empty. -/
inductive Reached [WordRead] (csp : Csp) : (Nat → Dom) → List Nat → Prop
  | start : Reached csp csp.dom (enqueue [] (List.range csp.nodes.length))
  | enforced {i : Nat} {queue : List Nat} {s t : Search} (before : Reached csp s.d (i :: queue)) (fresh : s.dirty = [])
      (holds : cspEnforce csp (csp.nodes.getD i .true) s = (true, t)) :
      Reached csp t.d (t.dirty.foldl (fun q v => enqueue q (cspWatch csp v)) queue)
  | decided {v : Nat} {x : Int} {nd : Dom} {s : Search} (before : Reached csp s.d []) (fresh : s.dirty = [])
      (choice : nd = [(x, x)] ∧ Dom.Has (s.d v) x ∨ nd = domMinus (s.d v) [(x, x)])
      (left : (s.set v nd).1 = true) :
      Reached csp (s.set v nd).2.d (enqueue [] (cspWatchers csp (s.set v nd).2.dirty))

/-- No such search enforces a node, or asks about a guard, that has the evaluator judge a source on the object and
leaves the object changed. -/
structure Csp.Silent [WordRead] (csp : Csp) : Prop where
  enforces : ∀ (s : Search) i queue, Reached csp s.d (i :: queue) →
    (cspEnforce csp (csp.nodes.getD i .true) s).2.store = s.store
  guards : ∀ s : Search, Reached csp s.d [] → ∀ dist ∈ csp.dists, ∀ g ∈ dist.guards,
    (cspStatus csp g s).2.store = s.store

/-- The object has changed at most where the problem is not silent. -/
def Untouched [WordRead] (csp : Csp) (s t : Search) : Prop := csp.Silent → t.store = s.store

theorem Untouched.of_same [WordRead] (same : t.store = s.store) : Untouched csp s t := fun _ => same

theorem Untouched.trans [WordRead] (first : Untouched csp s t) (second : Untouched csp t u) : Untouched csp s u :=
  fun silent => (second silent).trans (first silent)

/-- The domains of a search between two decisions. -/
structure Good [WordRead] (csp : Csp) (d : Nat → Dom) : Prop where
  ok : ∀ v, (d v).Ok
  small : ∀ v x, Dom.Has (d v) x → Dom.Has (csp.dom v) x
  /-- Past the last variable there are dummies only. -/
  beyond : ∀ v, csp.vars.length ≤ v → csp.dom v ≠ [] → d v ≠ []
  kept : ∀ n ∈ csp.nodes, Kept csp d n
  reached : Reached csp d []

/-- The search has narrowed domains, and the trail undoes it. -/
structure Moved [WordRead] (csp : Csp) (s t : Search) : Prop where
  trail : ∃ new, t.trail = new ++ s.trail ∧ unwind new t.d = s.d
  shrink : ∀ v x, Dom.Has (t.d v) x → Dom.Has (s.d v) x
  ok : (∀ v, (s.d v).Ok) → ∀ v, (t.d v).Ok
  cut : t.cut = false → s.cut = false
  untouched : Untouched csp s t

theorem Moved.refl [WordRead] (csp : Csp) (s : Search) : Moved csp s s :=
  ⟨⟨[], rfl, rfl⟩, fun _ _ here => here, fun ok => ok, fun here => here, .of_same rfl⟩

theorem Moved.trans [WordRead] (first : Moved csp s t) (second : Moved csp t u) : Moved csp s u where
  trail := by
    obtain ⟨new, joined, undone⟩ := first.trail
    obtain ⟨new', joined', undone'⟩ := second.trail
    refine ⟨new' ++ new, by rw [joined', joined, List.append_assoc], ?_⟩
    rw [unwind, List.foldl_append]
    exact (congrArg (unwind new) undone').trans undone
  shrink v x here := first.shrink v x (second.shrink v x here)
  ok here := second.ok (first.ok here)
  cut here := first.cut (second.cut here)
  untouched := first.untouched.trans second.untouched

theorem Step.moved [WordRead] (step : Step csp s t) (untouched : Untouched csp s t) : Moved csp s t :=
  ⟨step.trail, step.shrink, step.ok, fun here => step.cut ▸ here, untouched⟩

/-- Nothing but counters and the list of dirty variables has changed. -/
theorem Moved.of_same [WordRead] (d : t.d = s.d) (trail : t.trail = s.trail) (cut : t.cut = false → s.cut = false)
    (store : t.store = s.store) : Moved csp s t :=
  ⟨⟨[], trail, d⟩, fun _ _ here => d ▸ here, fun ok => d ▸ ok, cut, .of_same store⟩

/-- A node whose variables did not change stays kept. -/
theorem Kept.shrink {d e : Nat → Dom} {n : Node} (kept : Kept csp d n)
    (smaller : ∀ v x, Dom.Has (e v) x → Dom.Has (d v) x) (same : ∀ v ∈ n.deps csp, e v = d v) :
    Kept csp e n := fun a within fixed =>
  kept a (fun v => smaller v _ (within v)) fun v member => same v member ▸ fixed v member

/-- A node just enforced is kept unless it changed its own variables. -/
theorem kept_enforced [WordRead] [LawfulWordRead] (ok : csp.Ok) {n : Node} (described : Exact csp n)
    (oks : ∀ v, (s.d v).Ok)
    (done : (cspEnforce csp n s).1 = true)
    (same : ∀ v ∈ n.deps csp, (cspEnforce csp n s).2.d v = s.d v) :
    Kept csp (cspEnforce csp n s).2.d n := by
  intro a after fixed
  have fixed : ∀ v ∈ n.deps csp, s.d v = [(a v, a v)] := fun v member =>
    same v member ▸ fixed v member
  refine ⟨fun assign => settled_node ok assign n s oks described fixed done after, ?_⟩
  rintro l rel src sneg rfl
  -- A link has no fits, so its linear reading is what was enforced.
  exact settled_relation described.1 oks (before ok _ oks described after) (fixed_lin fixed).1 rfl done

section Queue

/-- Nothing leaves the queue when nodes are queued. -/
theorem mem_enqueue {queue new : List Nat} {i : Nat} : i ∈ enqueue queue new ↔ i ∈ queue ∨ i ∈ new := by
  -- A node that is queued already is not queued again.
  unfold enqueue
  induction new generalizing queue with
  | nil => simp
  | cons j new ih =>
    rw [List.foldl_cons, ih]
    split
    · rename_i listed
      simp only [List.mem_cons]
      constructor
      · rintro (here | here)
        · exact .inl here
        · exact .inr (.inr here)
      · rintro (here | rfl | here)
        · exact .inl here
        · exact .inl listed
        · exact .inr here
    · rw [List.mem_append, List.mem_singleton, List.mem_cons, or_assoc]

/-- The readers of every dirty variable are queued. -/
theorem mem_requeue (csp : Csp) (dirty : List Nat) {queue : List Nat} {i : Nat} :
    i ∈ dirty.foldl (fun q v => enqueue q (cspWatch csp v)) queue ↔
      i ∈ queue ∨ ∃ v ∈ dirty, i ∈ cspWatch csp v := by
  induction dirty generalizing queue with
  | nil => simp
  | cons v dirty ih =>
    rw [List.foldl_cons, ih, mem_enqueue]
    simp only [List.mem_cons, exists_eq_or_imp, or_assoc]

/-- The watchers of a variable are the nodes that read it. -/
theorem mem_watch {v i : Nat} : i ∈ cspWatch csp v ↔
    i < csp.nodes.length ∧ v ∈ (csp.nodes.getD i .true).deps csp := by
  simp [cspWatch]

theorem mem_watchers {vars : List Nat} {i : Nat} :
    i ∈ cspWatchers csp vars ↔ i < csp.nodes.length ∧ ∃ v ∈ vars, i ∈ cspWatch csp v := by
  simp [cspWatchers]

/-- Every node is queued or kept. -/
def Queued (csp : Csp) (queue : List Nat) (d : Nat → Dom) : Prop :=
  ∀ i < csp.nodes.length, i ∈ queue ∨ Kept csp d (csp.nodes.getD i .true)

/-- What propagation leaves: a fixpoint that keeps every solution, or a conflict where there was none. -/
structure Propagated [WordRead] (csp : Csp) (s : Search) (r : Option Bool × Search) : Prop where
  moved : Moved csp s r.2
  good : r.1 = some true → Good csp r.2.d
  keeps : r.1 = some true → ∀ a, Sought csp a → Within a s.d → Within a r.2.d
  refutes : r.1 = some false → r.2.cut = false → ∀ a, Sought csp a → ¬ Within a s.d

/-- Out of budget nothing is claimed. -/
theorem Propagated.gaveUp [WordRead] (moved : Moved csp s t) : Propagated csp s (none, t) :=
  ⟨moved, fun impossible => (nomatch impossible), fun impossible => (nomatch impossible),
    fun impossible => (nomatch impossible)⟩

/-- A conflict where no solution was, unless the branch was cut. -/
theorem Propagated.refuted [WordRead] (moved : Moved csp s t)
    (no : t.cut = false → ∀ a, Sought csp a → ¬ Within a s.d) : Propagated csp s (some false, t) :=
  ⟨moved, fun impossible => (nomatch impossible), fun impossible => (nomatch impossible), fun _ => no⟩

/-- What holds of a list holds of each of its elements. -/
theorem allExact_get : ∀ {ns : List Node} {n : Node}, allExact csp ns → n ∈ ns → Exact csp n
  | m :: ns, n, described, member => by
    rcases List.mem_cons.mp member with rfl | member
    · exact described.1
    · exact allExact_get described.2 member

theorem allReadSafe_get : ∀ {ns : List Node} {n : Node}, allReadSafe csp a ns → n ∈ ns → ReadSafe csp a n
  | m :: ns, n, safe, member => by
    rcases List.mem_cons.mp member with rfl | member
    · exact safe.1
    · exact allReadSafe_get safe.2 member

/-- The propagation loop reaches a fixpoint that keeps every solution, or refutes them all. -/
theorem propagated_loop [WordRead] [LawfulWordRead] (ok : csp.Ok) (stall fuel : Nat) (queue : List Nat)
    (runs : Nat → Nat)
    (s : Search) (oks : ∀ v, (s.d v).Ok)
    (small : ∀ v x, Dom.Has (s.d v) x → Dom.Has (csp.dom v) x)
    (beyond : ∀ v, csp.vars.length ≤ v → csp.dom v ≠ [] → s.d v ≠ [])
    (inside : ∀ i ∈ queue, i < csp.nodes.length) (queued : Queued csp queue s.d)
    (reached : Reached csp s.d queue) :
    Propagated csp s (propagateLoop csp stall fuel queue runs s) := by
  induction fuel generalizing queue runs s with
  | zero =>
    cases queue <;> exact Propagated.gaveUp (Moved.refl csp s)
  | succ fuel ih =>
    cases queue with
    | nil =>
      refine ⟨Moved.refl csp s, fun _ => ⟨oks, small, beyond, fun n member => ?_, reached⟩,
        fun _ a _ within => within, fun impossible => (nomatch impossible)⟩
      obtain ⟨i, here, rfl⟩ := List.getElem_of_mem member
      have kept := (queued i here).resolve_left List.not_mem_nil
      rwa [List.getD_eq_getElem _ _ here] at kept
    | cons i queue =>
      have listed := inside i List.mem_cons_self
      have member : csp.nodes.getD i .true ∈ csp.nodes := by
        rw [List.getD_eq_getElem _ _ listed]
        exact List.getElem_mem listed
      have described := ok.described _ member
      unfold propagateLoop
      split
      · -- The branch is cut, so nothing is claimed of its solutions.
        exact Propagated.refuted (Moved.of_same rfl rfl (fun impossible => nomatch impossible) rfl)
          fun impossible => nomatch impossible
      · split
        · exact Propagated.gaveUp (Moved.of_same rfl rfl (fun here => here) rfl)
        · have counted : Moved csp s { s with work := s.work + 1, dirty := [] } :=
            Moved.of_same rfl rfl (fun here => here) rfl
          have enforced := enforced_node ok (csp.nodes.getD i .true)
            { s with work := s.work + 1, dirty := [] } oks described
          have settled := kept_enforced (s := { s with work := s.work + 1, dirty := [] }) ok described oks
          have safely (a) (sought : Sought csp a) : SafelySatisfies csp (csp.nodes.getD i .true) a :=
            ⟨allReadSafe_get sought.1 member, sought.2.1, sought.2.2 _ member⟩
          have untouched : Untouched csp { s with work := s.work + 1, dirty := [] } (cspEnforce csp
              (csp.nodes.getD i .true) { s with work := s.work + 1, dirty := [] }).2 :=
            fun silent => silent.enforces { s with work := s.work + 1, dirty := [] } i queue reached
          split
          · rename_i t done
            rw [done] at enforced untouched
            refine Propagated.refuted (counted.trans (enforced.step.moved untouched)) fun _ a sought within => ?_
            exact absurd (enforced.keeps a (safely a sought) within).1 Bool.false_ne_true
          · rename_i t done
            rw [done] at enforced settled untouched
            have step := enforced.step
            -- A node left out of the queue reads nothing that changed.
            have rest := ih (t.dirty.foldl (fun q v => enqueue q (cspWatch csp v)) queue)
              (update runs i (runs i + 1)) { t with dirty := [] } (step.ok oks)
              (fun v x here => small v x (step.shrink v x here))
              (fun v far alive => enforced.alive rfl v (beyond v far alive))
              (fun j here => by
                rcases (mem_requeue csp t.dirty).mp here with here | ⟨v, _, here⟩
                · exact inside j (List.mem_cons_of_mem _ here)
                · exact (mem_watch.mp here).1)
              (fun j small => by
                by_cases changed : ∃ v ∈ (csp.nodes.getD j .true).deps csp, t.d v ≠ s.d v
                · obtain ⟨v, reads, diff⟩ := changed
                  exact .inl ((mem_requeue csp t.dirty).mpr (.inr ⟨v, step.changed v diff,
                    mem_watch.mpr ⟨small, reads⟩⟩))
                · have same : ∀ v ∈ (csp.nodes.getD j .true).deps csp, t.d v = s.d v :=
                    fun v reads => by_contra fun diff => changed ⟨v, reads, diff⟩
                  rcases queued j small with here | kept
                  · rcases List.mem_cons.mp here with rfl | here
                    · exact .inr (settled rfl same)
                    · exact .inl ((mem_requeue csp t.dirty).mpr (.inl here))
                  · exact .inr (kept.shrink step.shrink same))
              (Reached.enforced (s := { s with work := s.work + 1, dirty := [] }) (t := t) reached rfl done)
            have cleared : Moved csp t { t with dirty := [] } :=
              Moved.of_same rfl rfl (fun here => here) rfl
            refine ⟨(counted.trans (step.moved untouched)).trans (cleared.trans rest.moved), rest.good,
              fun yes a sought within => ?_, fun no uncut a sought within => ?_⟩
            · exact rest.keeps yes a sought (enforced.keeps a (safely a sought) within).2
            · exact rest.refutes no uncut a sought (enforced.keeps a (safely a sought) within).2

end Queue

section Decide

/-- Where every variable keeps its domain, a smaller one for `v` leaves an assignment of that domain in. -/
theorem within_set {v : Nat} {nd : Dom} (within : Within a s.d) (here : nd.Has (a v)) :
    Within a (s.set v nd).2.d := by
  unfold Search.set
  split
  · exact within
  · intro u
    by_cases same : u = v
    · subst same
      simpa using here
    · simpa [same] using within u

/-- Replacing a domain by a smaller one is a step. -/
theorem step_set (csp : Csp) (s : Search) {v : Nat} {nd : Dom} (ok : nd.Ok)
    (smaller : ∀ x, nd.Has x → (s.d v).Has x) : Step csp s (s.set v nd).2 :=
  (enforced_set (P := fun _ => False) csp s v (fun _ => ok) smaller fun _ impossible =>
    impossible.elim).step

/-- Replacing a domain leaves the object. -/
theorem store_set (s : Search) (v : Nat) (nd : Dom) : (s.set v nd).2.store = s.store := by
  unfold Search.set
  split <;> rfl

/-- What propagating a replaced domain leaves: a fixpoint that keeps every solution of the new domain,
or a conflict where there was none. -/
structure Decided [WordRead] (csp : Csp) (v : Nat) (nd : Dom) (s : Search) (r : Option Bool × Search) :
    Prop where
  moved : Moved csp s r.2
  good : r.1 = some true → Good csp r.2.d
  keeps : r.1 = some true → ∀ a, Sought csp a → Within a s.d → nd.Has (a v) → Within a r.2.d
  refutes : r.1 = some false → r.2.cut = false → ∀ a, Sought csp a → Within a s.d → ¬ nd.Has (a v)

/-- Replacing a domain of a fixpoint and propagating to its readers. -/
theorem decided_propagate [WordRead] [LawfulWordRead] (ok : csp.Ok) (good : Good csp s.d) (fresh : s.dirty = [])
    {v : Nat} {x : Int} {nd : Dom} (choice : nd = [(x, x)] ∧ Dom.Has (s.d v) x ∨ nd = domMinus (s.d v) [(x, x)])
    (okNew : nd.Ok) (left : (s.set v nd).1 = true)
    (smaller : ∀ x, nd.Has x → (s.d v).Has x) :
    Decided csp v nd s (cspPropagate csp (cspWatchers csp (s.set v nd).2.dirty)
      { (s.set v nd).2 with dirty := [] }) := by
  -- The write is the one change, so only nodes that read the variable lose what they knew, and they are
  -- queued.
  have step := step_set csp s okNew smaller
  have cleared : Moved csp (s.set v nd).2 { (s.set v nd).2 with dirty := [] } :=
    Moved.of_same rfl rfl (fun here => here) rfl
  have changed (u : Nat) (diff : (s.set v nd).2.d u ≠ s.d u) : u = v :=
    by_contra fun other => diff (s.set_other nd other)
  have propagated := propagated_loop ok (1000 + 2 * csp.vars.length) workBudget
    (enqueue [] (cspWatchers csp (s.set v nd).2.dirty)) (fun _ => 0)
    { (s.set v nd).2 with dirty := [] } (step.ok good.ok)
    (fun u x here => good.small u x (step.shrink u x here))
    (fun u far alive => by
      by_cases same : (s.set v nd).2.d u = s.d u
      · exact same ▸ good.beyond u far alive
      · have eq := changed u same
        subst eq
        unfold Search.set at left ⊢
        split at left
        · rw [if_pos ‹_›]
          exact good.beyond u far alive
        · rw [if_neg ‹_›]
          simpa using left)
    (fun i queued => by
      have here := (mem_enqueue.mp queued).resolve_left List.not_mem_nil
      exact (mem_watchers.mp here).1)
    (fun i small => by
      have member : csp.nodes.getD i .true ∈ csp.nodes := by
        rw [List.getD_eq_getElem _ _ small]
        exact List.getElem_mem small
      by_cases reads : ∃ u ∈ (csp.nodes.getD i .true).deps csp, (s.set v nd).2.d u ≠ s.d u
      · obtain ⟨u, reads, diff⟩ := reads
        exact .inl (mem_enqueue.mpr (.inr (mem_watchers.mpr ⟨small, u, step.changed u diff,
          mem_watch.mpr ⟨small, reads⟩⟩)))
      · exact .inr ((good.kept _ member).shrink step.shrink fun u here =>
          by_contra fun diff => reads ⟨u, here, diff⟩))
    (.decided good.reached fresh choice left)
  have moved := ((step.moved (.of_same (store_set s v nd))).trans cleared).trans propagated.moved
  exact ⟨moved, propagated.good,
    fun yes a sought within here => propagated.keeps yes a sought (within_set within here),
    fun no uncut a sought within here => propagated.refutes no uncut a sought (within_set within here)⟩

/-- Trying a domain in a fixpoint. -/
theorem decided_try [WordRead] [LawfulWordRead] (ok : csp.Ok) (good : Good csp s.d) {v : Nat} {x : Int}
    (inside : Dom.Has (s.d v) x) : Decided csp v [(x, x)] s (cspTry csp v [(x, x)] s) := by
  -- A try is the propagation of a single value from a clean list of changes.
  have cleared : Moved csp s { s with dirty := [] } :=
    Moved.of_same rfl rfl (fun here => here) rfl
  have succeeds : (({ s with dirty := [] } : Search).set v [(x, x)]).1 = true := by
    unfold Search.set
    split
    · rfl
    · rfl
  have tried := decided_propagate (s := { s with dirty := [] }) ok good rfl (.inl ⟨rfl, inside⟩)
    (Dom.ok_single (le_refl x)) succeeds fun y here => by
      obtain rfl : y = x := by
        have := (Dom.has_single ..).mp here
        omega
      exact inside
  exact ⟨cleared.trans tried.moved, tried.good, tried.keeps, tried.refutes⟩

/-- Undoing to a mark gives back the domains and the trail of that moment. -/
theorem rewind_append (new trail : List (Nat × Dom)) (d : Nat → Dom) :
    Search.rewind trail.length (new ++ trail) d = (unwind new d, trail) := by
  -- The entries above the mark are undone one by one.
  induction new generalizing d with
  | nil =>
    cases trail with
    | nil => rfl
    | cons p trail =>
      obtain ⟨v, old⟩ := p
      simp [Search.rewind, unwind]
  | cons p new ih =>
    obtain ⟨v, old⟩ := p
    have deeper : trail.length < (new ++ trail).length + 1 := by
      rw [List.length_append]
      omega
    rw [List.cons_append, Search.rewind, if_pos deeper, ih]
    rfl

/-- Undoing what moved the search. -/
theorem Moved.undo [WordRead] (moved : Moved csp s t) :
    (t.undo s.trail.length).d = s.d ∧ (t.undo s.trail.length).trail = s.trail := by
  obtain ⟨new, joined, undone⟩ := moved.trail
  unfold Search.undo
  rw [joined, rewind_append, undone]
  exact ⟨rfl, rfl⟩

end Decide

end Xezim
