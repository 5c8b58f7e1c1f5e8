import Xezim.Csp.StatusLaws

/-! Narrowing domains: every change is on the trail and among the dirty variables, and the values of an
assignment that meets the narrowed constraint stay. -/

namespace Xezim

open Function

variable {csp : Csp} {a : Nat → Int} {s t u : Search} {P Q : (Nat → Int) → Prop}

/-- The domains before the changes of a trail, latest first. -/
def unwind (new : List (Nat × Dom)) (d : Nat → Dom) : Nat → Dom :=
  new.foldl (fun d p => update d p.1 p.2) d

/-- The search has narrowed domains: the trail undoes it and the dirty variables name it. -/
structure Step (csp : Csp) (s t : Search) : Prop where
  trail : ∃ new, t.trail = new ++ s.trail ∧ unwind new t.d = s.d
  changed : ∀ v, t.d v ≠ s.d v → v ∈ t.dirty
  dirty : ∀ v ∈ s.dirty, v ∈ t.dirty
  shrink : ∀ v x, Dom.Has (t.d v) x → Dom.Has (s.d v) x
  ok : (∀ v, (s.d v).Ok) → ∀ v, (t.d v).Ok
  cut : t.cut = s.cut
  levelTries : t.levelTries = s.levelTries
  levelCut : t.levelCut = s.levelCut

theorem Step.refl (csp : Csp) (s : Search) : Step csp s s :=
  ⟨⟨[], rfl, rfl⟩, fun _ diff => absurd rfl diff, fun _ here => here, fun _ _ here => here,
    fun ok => ok, rfl, rfl, rfl⟩

theorem Step.trans (first : Step csp s t) (second : Step csp t u) : Step csp s u where
  trail := by
    -- The second step's trail is undone first, then the first one's.
    obtain ⟨new, joined, undone⟩ := first.trail
    obtain ⟨new', joined', undone'⟩ := second.trail
    refine ⟨new' ++ new, by rw [joined', joined, List.append_assoc], ?_⟩
    rw [unwind, List.foldl_append]
    exact (congrArg (unwind new) undone').trans undone
  changed v diff := by
    by_cases same : t.d v = s.d v
    · exact second.changed v (same ▸ diff)
    · exact second.dirty v (first.changed v same)
  dirty v here := second.dirty v (first.dirty v here)
  shrink v x here := first.shrink v x (second.shrink v x here)
  ok here := second.ok (first.ok here)
  cut := second.cut.trans first.cut
  levelTries := second.levelTries.trans first.levelTries
  levelCut := second.levelCut.trans first.levelCut

/-- A quiet change narrows nothing. -/
theorem Quiet.step (quiet : Quiet csp s t) : Step csp s t where
  trail := ⟨[], quiet.trail, quiet.d⟩
  changed v diff := absurd (congrFun quiet.d v) diff
  dirty _ here := quiet.dirty ▸ here
  shrink _ _ here := quiet.d ▸ here
  ok here := quiet.d ▸ here
  cut := quiet.cut
  levelTries := quiet.levelTries
  levelCut := quiet.levelCut

/-- One attempt to make something hold: a step that refutes no assignment meeting `P` and keeps it in
the domains, and that empties no domain unless it fails. -/
structure Enforced (csp : Csp) (P : (Nat → Int) → Prop) (s : Search) (r : Bool × Search) : Prop where
  step : Step csp s r.2
  keeps : ∀ a, P a → Within a s.d → r.1 = true ∧ Within a r.2.d
  alive : r.1 = true → ∀ v, s.d v ≠ [] → r.2.d v ≠ []

namespace Enforced

/-- Nothing was learnt. -/
theorem quiet (here : Quiet csp s t) : Enforced csp P s (true, t) :=
  ⟨here.step, fun a _ within => ⟨rfl, by rw [here.d]; exact within⟩,
    fun _ v alive => by rw [here.d]; exact alive⟩

/-- No assignment in the domains meets `P`. -/
theorem refuted (here : Quiet csp s t) (no : ∀ a, P a → Within a s.d → False) :
    Enforced csp P s (false, t) :=
  ⟨here.step, fun a holds within => (no a holds within).elim, fun impossible => nomatch impossible⟩

/-- A truth value that every assignment in the domains meeting `P` agrees with. -/
theorem told {b : Bool} (here : Quiet csp s t) (yes : ∀ a, P a → Within a s.d → b = true) :
    Enforced csp P s (b, t) := by
  cases b with
  | true => exact quiet here
  | false => exact refuted here fun a holds within => Bool.noConfusion (yes a holds within)

/-- An attempt after a quiet change. -/
theorem after {r : Bool × Search} (first : Quiet csp s t) (second : Enforced csp P t r) :
    Enforced csp P s r :=
  ⟨first.step.trans second.step, fun a holds within => second.keeps a holds (by rwa [first.d]),
    fun yes v alive => second.alive yes v (by rwa [first.d])⟩

/-- Two attempts, the second made when the first succeeds. -/
theorem andThen {first : Bool × Search} {next : Search → Bool × Search} :
    Enforced csp P s first → (Step csp s first.2 → Enforced csp P first.2 (next first.2)) →
    Enforced csp P s (match first with
      | (true, t) => next t
      | (false, t) => (false, t)) := by
  -- A refuted first part ends the attempt; otherwise the second part starts from the search it left.
  intro one two
  obtain ⟨b, t⟩ := first
  cases b with
  | false => exact one
  | true =>
    have two := two one.step
    refine ⟨one.step.trans two.step, fun a holds within => ?_, fun yes v alive => ?_⟩
    · exact two.keeps a holds (one.keeps a holds within).2
    · exact two.alive yes v (one.alive rfl v alive)

/-- A weaker constraint keeps more assignments. -/
theorem mono {r : Bool × Search} (weaker : ∀ a, Within a s.d → P a → Q a)
    (here : Enforced csp Q s r) : Enforced csp P s r :=
  ⟨here.step, fun a holds within => here.keeps a (weaker a within holds) within, here.alive⟩

/-- An attempt that succeeds leaves fixed domains as they are. -/
theorem same {r : Bool × Search} (here : Enforced csp P s r) (oks : ∀ v, (s.d v).Ok)
    (yes : r.1 = true) {v : Nat} {x : Int} (fixed : s.d v = [(x, x)]) : r.2.d v = [(x, x)] :=
  (here.step.ok oks v).eq_single (here.alive yes v (by simp [fixed])) fun y member =>
    Dom.eq_of_fixed (by rw [fixed, Dom.fixed_single]) (here.step.shrink v y member)

end Enforced

/-- Replacing a domain leaves the others. -/
theorem Search.set_other {u v : Nat} (s : Search) (nd : Dom) (other : u ≠ v) :
    (s.set v nd).2.d u = s.d u := by
  unfold Search.set
  split
  · rfl
  · exact update_of_ne other _ _

/-- Replacing a domain by a smaller one that keeps the values of every assignment meeting `P`. -/
theorem enforced_set (csp : Csp) (s : Search) (v : Nat) {nd : Dom}
    (ok : (s.d v).Ok → nd.Ok) (smaller : ∀ x, nd.Has x → (s.d v).Has x)
    (keeps : ∀ a, P a → Within a s.d → nd.Has (a v)) : Enforced csp P s (s.set v nd) := by
  -- Setting a domain to itself is quiet; otherwise the old one goes on the trail and the variable is dirty.
  unfold Search.set
  split
  · exact Enforced.quiet (Quiet.refl csp s)
  · constructor
    · refine ⟨⟨[(v, s.d v)], rfl, ?_⟩, fun u diff => ?_, fun u here => ?_, fun u x here => ?_,
        fun oks u => ?_, rfl, rfl, rfl⟩
      · show update (update s.d v nd) v (s.d v) = s.d
        rw [update_idem, update_eq_self]
      · by_cases same : u = v
        · simp [same]
        · exact absurd (update_of_ne same _ _) diff
      · simp [here]
      · by_cases same : u = v
        · subst same
          exact smaller x (by simpa using here)
        · simpa [same] using here
      · by_cases same : u = v
        · subst same
          simpa using ok (oks u)
        · simpa [same] using oks u
    · intro a holds within
      have kept := keeps a holds within
      have nonempty : nd ≠ [] := fun empty => by
        rw [empty] at kept
        exact Dom.has_nil _ kept
      refine ⟨by simpa using nonempty, fun u => ?_⟩
      by_cases same : u = v
      · subst same
        simpa using kept
      · simpa [same] using within u
    · intro yes u alive
      by_cases same : u = v
      · subst same
        simpa using yes
      · simpa [same] using alive

/-- Narrowing by what a term may differ from its extreme keeps the values that differ no more. -/
theorem narrowTerm_spec {d : Dom} {c slack : Int} {upper : Bool} {nd : Dom} (nonzero : c ≠ 0)
    (narrowed : narrowTerm d c slack upper = some nd) :
    (d.Ok → nd.Ok) ∧ (∀ x, nd.Has x → d.Has x) ∧
      ∀ x, d.Has x → -2 ^ 127 ≤ x ∧ x ≤ 2 ^ 127 - 1 →
        (if upper then
          c * x ≤ (if 0 < c then c * (domBounds d).1 else c * (domBounds d).2) - slack
        else (if 0 < c then c * (domBounds d).2 else c * (domBounds d).1) - slack ≤ c * x) →
        nd.Has x := by
  unfold narrowTerm at narrowed
  -- Whether the quotient bounds the variable from above or from below depends on both signs.
  rcases lt_or_gt_of_ne nonzero with neg | pos
  · simp only [not_lt.mpr neg.le, decide_false, if_false] at narrowed ⊢
    cases upper with
    | true =>
      simp only [Bool.true_eq_false, if_false, if_true] at narrowed ⊢
      split at narrowed
      · cases narrowed
      · cases narrowed
        exact ⟨fun ok => ok.clip _ _, fun x here => ((Dom.has_clip ..).mp here).1,
          fun x here inside low =>
            (Dom.has_clip ..).mpr ⟨here, (Dom.ceilDiv_le_neg neg).mpr low, inside.2⟩⟩
    | false =>
      simp only [Bool.false_eq_true, if_false, if_true] at narrowed ⊢
      split at narrowed
      · cases narrowed
      · cases narrowed
        exact ⟨fun ok => ok.clip _ _, fun x here => ((Dom.has_clip ..).mp here).1,
          fun x here inside high =>
            (Dom.has_clip ..).mpr ⟨here, inside.1, (Dom.le_floorDiv_neg neg).mpr high⟩⟩
  · simp only [pos, decide_true, if_true] at narrowed ⊢
    cases upper with
    | true =>
      simp only [if_true] at narrowed ⊢
      split at narrowed
      · cases narrowed
      · cases narrowed
        exact ⟨fun ok => ok.clip _ _, fun x here => ((Dom.has_clip ..).mp here).1,
          fun x here inside low =>
            (Dom.has_clip ..).mpr ⟨here, inside.1, (Dom.le_floorDiv pos).mpr low⟩⟩
    | false =>
      simp only [Bool.false_eq_true, if_false] at narrowed ⊢
      split at narrowed
      · cases narrowed
      · cases narrowed
        exact ⟨fun ok => ok.clip _ _, fun x here => ((Dom.has_clip ..).mp here).1,
          fun x here inside high =>
            (Dom.has_clip ..).mpr ⟨here, (Dom.ceilDiv_le pos).mpr high, inside.2⟩⟩

/-- An assignment of 128-bit numbers. -/
def Ranged (a : Nat → Int) : Prop := ∀ v, -2 ^ 127 ≤ a v ∧ a v ≤ 2 ^ 127 - 1

/-- The loop of `prop_bound` keeps the assignments whose terms differ from their extremes by no more
than the slack. -/
theorem enforced_propTerms (csp : Csp) (slack : Int) (upper : Bool) (terms : List (Nat × Int))
    (nodup : (terms.map Prod.fst).Nodup) (nonzero : ∀ p ∈ terms, p.2 ≠ 0) {d : Nat → Dom}
    (same : ∀ p ∈ terms, s.d p.1 = d p.1)
    (near : ∀ a, P a → Ranged a ∧ ∀ p ∈ terms,
      if upper then p.2 * a p.1 ≤ termMin d p - slack else termMax d p - slack ≤ p.2 * a p.1) :
    Enforced csp P s (s.propTerms slack upper terms) := by
  induction terms generalizing s with
  | nil => exact Enforced.quiet (Quiet.refl csp s)
  | cons p terms ih =>
    obtain ⟨fresh, nodup'⟩ := List.nodup_cons.mp nodup
    have nonzero' : ∀ q ∈ terms, q.2 ≠ 0 := fun q member => nonzero q (List.mem_cons_of_mem _ member)
    have near' : ∀ a, P a → Ranged a ∧ ∀ q ∈ terms,
        if upper then q.2 * a q.1 ≤ termMin d q - slack else termMax d q - slack ≤ q.2 * a q.1 :=
      fun a holds => ⟨(near a holds).1, fun q member =>
        (near a holds).2 q (List.mem_cons_of_mem _ member)⟩
    unfold Search.propTerms
    cases narrowed : narrowTerm (s.d p.1) p.2 slack upper with
    | none => exact ih nodup' nonzero' (fun q member => same q (List.mem_cons_of_mem _ member)) near'
    | some nd =>
      obtain ⟨ok, smaller, kept⟩ := narrowTerm_spec (nonzero p List.mem_cons_self) narrowed
      have one : Enforced csp P s (s.set p.1 nd) := by
        refine enforced_set csp s p.1 ok smaller fun a holds within => ?_
        refine kept (a p.1) (within p.1) ((near a holds).1 p.1) ?_
        have here := (near a holds).2 p List.mem_cons_self
        rw [same p List.mem_cons_self]
        exact here
      refine Enforced.andThen one fun _ => ih nodup' nonzero' (fun q member => ?_) near'
      -- The terms left are over other variables.
      have other : q.1 ≠ p.1 := fun eq => fresh (List.mem_map.mpr ⟨q, member, eq⟩)
      rw [← same q (List.mem_cons_of_mem _ member)]
      exact s.set_other nd other

/-- `prop_bound` keeps the assignments on its side of zero. -/
theorem enforced_propBound (csp : Csp) {l : Lin} (okLin : l.Ok) (oks : ∀ v, (s.d v).Ok)
    (upper : Bool) (side : ∀ a, P a → Ranged a ∧ if upper then l.at a ≤ 0 else 0 ≤ l.at a) :
    Enforced csp P s (s.propBound l upper) := by
  unfold Search.propBound
  dsimp only
  -- Bounds beyond zero refute the relation; within them each term is narrowed by the slack of the others.
  split
  · rename_i beyond
    refine Enforced.refuted (Quiet.refl csp s) fun a holds within => ?_
    obtain ⟨low, high⟩ := linBounds_at oks within l
    have here := (side a holds).2
    cases upper with
    | true =>
      simp only [if_true] at here
      simp only [true_and, not_true, false_and, or_false] at beyond
      omega
    | false =>
      simp only [Bool.false_eq_true, if_false] at here
      simp only [Bool.false_eq_true, false_and, not_false_eq_true, true_and, false_or] at beyond
      omega
  · have narrowed : Enforced csp (fun a => P a ∧ Within a s.d) s
        (s.propTerms (if upper then (linBounds s.d l).1 else (linBounds s.d l).2) upper l.t) := by
      refine enforced_propTerms csp _ upper l.t okLin.nodup okLin.nonzero (fun _ _ => rfl)
        fun a holds => ⟨(side a holds.1).1, fun p member => ?_⟩
      obtain ⟨low, high⟩ := term_slack oks holds.2 l member
      have here := (side a holds.1).2
      cases upper with
      | true =>
        simp only [if_true] at here ⊢
        omega
      | false =>
        simp only [Bool.false_eq_true, if_false] at here ⊢
        omega
    exact narrowed.mono fun a within holds => ⟨holds, within⟩

/-- The constant part and the open term add up to the form. -/
theorem openTerm_at {d : Nat → Dom} (terms : List (Nat × Int))
    (within : ∀ p ∈ terms, (d p.1).Has (a p.1)) (rest : Int) (free : Option (Nat × Int)) {rest' : Int}
    {free' : Option (Nat × Int)}
    (opened : openTerm d terms rest free = some (rest', free')) :
    rest + (terms.map fun p => p.2 * a p.1).sum + free.elim 0 (fun p => p.2 * a p.1) =
      rest' + free'.elim 0 (fun p => p.2 * a p.1) := by
  -- The sum so far and the free term together stay the value of the whole form.
  induction terms generalizing rest free with
  | nil =>
    cases opened
    simp
  | cons p terms ih =>
    unfold openTerm at opened
    split at opened
    · rename_i x fixed
      have value := Dom.eq_of_fixed fixed (within p List.mem_cons_self)
      rw [← ih (fun q member => within q (List.mem_cons_of_mem _ member)) _ _ opened, List.map_cons,
        List.sum_cons, value]
      ring
    · rw [← ih (fun q member => within q (List.mem_cons_of_mem _ member)) _ _ opened, List.map_cons,
        List.sum_cons]
      simp only [Option.elim]
      ring
    · cases opened

/-- Over fixed variables no term is open. -/
theorem openTerm_fixed {d : Nat → Dom} {terms : List (Nat × Int)}
    (fixed : ∀ p ∈ terms, d p.1 = [(a p.1, a p.1)]) (rest : Int) :
    ∃ rest', openTerm d terms rest none = some (rest', none) := by
  induction terms generalizing rest with
  | nil => exact ⟨rest, rfl⟩
  | cons p terms ih =>
    unfold openTerm
    rw [fixed p List.mem_cons_self, Dom.fixed_single]
    exact ih (fun q member => fixed q (List.mem_cons_of_mem _ member)) _

/-- A linear form as the constant part and the open term of the current domains. -/
theorem openTerm_on {d : Nat → Dom} {l : Lin} (within : ∀ p ∈ l.t, (d p.1).Has (a p.1)) {rest : Int}
    {free : Option (Nat × Int)} (opened : openTerm d l.t l.k none = some (rest, free)) :
    l.at a = rest + free.elim 0 (fun p => p.2 * a p.1) := by
  have sum := openTerm_at l.t within l.k none opened
  rw [← sum, Lin.at]
  simp

/-- The same of an assignment in the domains. -/
theorem openTerm_lin {d : Nat → Dom} (within : Within a d) {l : Lin} {rest : Int}
    {free : Option (Nat × Int)} (opened : openTerm d l.t l.k none = some (rest, free)) :
    l.at a = rest + free.elim 0 (fun p => p.2 * a p.1) :=
  openTerm_on (fun p _ => within p.1) opened

/-- The open term is a term of the form. -/
theorem openTerm_mem {d : Nat → Dom} {terms : List (Nat × Int)} {rest rest' : Int}
    {free : Option (Nat × Int)} {p : Nat × Int}
    (opened : openTerm d terms rest free = some (rest', some p)) : p ∈ terms ∨ free = some p := by
  -- The free term was the one given, or was met on the way.
  induction terms generalizing rest free with
  | nil => cases opened; exact .inr rfl
  | cons q terms ih =>
    unfold openTerm at opened
    split at opened
    · exact (ih opened).imp_left (List.mem_cons_of_mem _)
    · rcases ih opened with inside | same
      · exact .inl (List.mem_cons_of_mem _ inside)
      · cases same
        exact .inl List.mem_cons_self
    · cases opened

/-- `lin != 0` keeps the assignments it holds of. -/
theorem enforced_propNe (csp : Csp) {l : Lin} (okLin : l.Ok) (oks : ∀ v, (s.d v).Ok)
    (differs : ∀ a, P a → l.at a ≠ 0) : Enforced csp P s (s.propNe l) := by
  unfold Search.propNe
  split
  · exact Enforced.quiet (Quiet.refl csp s)
  · rename_i rest opened
    refine Enforced.told (Quiet.refl csp s) fun a holds within => ?_
    have sum := openTerm_lin within opened
    have := differs a holds
    simp only [Option.elim, add_zero] at sum
    exact decide_eq_true (by omega)
  · rename_i rest v c opened
    have nonzero : c ≠ 0 := by
      rcases openTerm_mem opened with member | impossible
      · exact okLin.nonzero (v, c) member
      · cases impossible
    split
    · exact Enforced.quiet (Quiet.refl csp s)
    · rename_i divides
      have divides : (-rest).tmod c = 0 := not_not.mp divides
      have point := Dom.ok_single (le_refl ((-rest).tdiv c))
      refine enforced_set csp s v (fun ok => ok.minus point)
        (fun x here => ((Dom.has_minus (oks v) point).mp here).1) fun a holds within => ?_
      refine (Dom.has_minus (oks v) point).mpr ⟨within v, fun here => differs a holds ?_⟩
      -- The removed value is the root of the form.
      have root : a v = (-rest).tdiv c := by
        have := (Dom.has_single _ _ _).mp here
        omega
      rw [openTerm_lin within opened]
      have product := Int.mul_tdiv_cancel_of_tmod_eq_zero divides
      simp only [Option.elim, root]
      omega

end Xezim
