import Xezim.Csp.StateLaws

/-! `csp_status`: it leaves the search as it is, what it entails or refutes is entailed or refuted, and
it decides every node whose variables are fixed. -/

namespace Xezim

variable {csp : Csp} {a : Nat → Int} {s t u : Search}

/-- The search differs in its object, its random numbers and its work count only. -/
structure Quiet (csp : Csp) (s t : Search) : Prop where
  d : t.d = s.d
  trail : t.trail = s.trail
  dirty : t.dirty = s.dirty
  cut : t.cut = s.cut
  levelTries : t.levelTries = s.levelTries
  levelCut : t.levelCut = s.levelCut

theorem Quiet.refl (csp : Csp) (s : Search) : Quiet csp s s :=
  ⟨rfl, rfl, rfl, rfl, rfl, rfl⟩

theorem Quiet.trans (first : Quiet csp s t) (second : Quiet csp t u) : Quiet csp s u :=
  ⟨second.d.trans first.d, second.trail.trans first.trail, second.dirty.trans first.dirty,
    second.cut.trans first.cut, second.levelTries.trans first.levelTries,
    second.levelCut.trans first.levelCut⟩

section Evaluator

/-- One write is quiet. -/
theorem quiet_write (csp : Csp) (s : Search) (v : Nat) (x : Int) : Quiet csp s (s.write csp v x) :=
  ⟨rfl, rfl, rfl, rfl, rfl, rfl⟩

/-- Writing the fixed dependencies is quiet. -/
theorem quiet_writeFixed (csp : Csp) (deps : List Nat) (s : Search) :
    Quiet csp s (s.writeFixed csp deps) := by
  induction deps generalizing s with
  | nil => exact Quiet.refl csp s
  | cons v deps ih =>
    refine Quiet.trans ?_ (ih _)
    dsimp only
    split
    · exact quiet_write csp s v _
    · exact Quiet.refl csp s

/-- Judging a source is quiet. -/
theorem quiet_evalSrc (csp : Csp) (s : Search) (i : Nat) : Quiet csp s (s.evalSrc csp i).2 :=
  quiet_writeFixed csp _ s

/-- Writing the fixed dependencies writes the values they are fixed to. -/
theorem writeFixed_store (csp : Csp) (within : Within a s.d) (deps : List Nat) :
    (s.writeFixed csp deps).store =
      csp.written (deps.filter fun v => (domFixed (s.d v)).isSome) a s.store := by
  induction deps generalizing s with
  | nil => rfl
  | cons v deps ih =>
    cases fixed : domFixed (s.d v) with
    -- Each dependency is written in turn where it is fixed, and skipped where it is open.
    | none =>
      have step : s.writeFixed csp (v :: deps) = s.writeFixed csp deps := by simp [Search.writeFixed, fixed]
      rw [step]
      simpa [fixed] using ih within
    | some x =>
      have step : s.writeFixed csp (v :: deps) = (s.write csp v x).writeFixed csp deps := by
        simp [Search.writeFixed, fixed]
      rw [step]
      have value := Dom.eq_of_fixed fixed (within v)
      subst value
      rw [List.filter_cons_of_pos (by simp [fixed])]
      -- The written value is the one every assignment in the domains gives the variable.
      exact ih (s := s.write csp v (a v)) within

/-- Writing dependencies that are all fixed writes them all. -/
theorem writeFixed_all (within : Within a s.d) {deps : List Nat}
    (fixed : allFixed s.d deps = true) :
    (s.writeFixed csp deps).store = csp.written deps a s.store := by
  rw [writeFixed_store csp within, List.filter_eq_self.mpr (List.all_eq_true.mp fixed)]

/-- The verdict on a fixed source is its truth at any assignment in the domains. -/
theorem evalSrc_truth (ok : csp.Ok) (within : Within a s.d) {i : Nat}
    (fixed : srcFixed csp s.d i = true) : (s.evalSrc csp i).1 = csp.truth i a := by
  simp only [srcFixed, Bool.and_eq_true] at fixed
  rw [Search.evalSrc, writeFixed_all within fixed.2]
  exact (ok.judged i a s.store).1

/-- The value of a fixed source is its value at any assignment in the domains. -/
theorem evalValue_at (ok : csp.Ok) (within : Within a s.d) {i : Nat}
    (fixed : srcFixed csp s.d i = true) : (s.evalValue csp i).1 = csp.valueAt i a := by
  simp only [srcFixed, Bool.and_eq_true] at fixed
  rw [Search.evalValue, writeFixed_all within fixed.2]
  exact (ok.judged i a s.store).2

end Evaluator

section Quietness

theorem quiet_statusEval (csp : Csp) (s : Search) (i : Nat) (neg : Bool) :
    Quiet csp s (statusEval csp s i neg).2 := by
  unfold statusEval
  split
  · exact quiet_evalSrc csp s i
  · exact Quiet.refl csp s

mutual

/-- `csp_status` leaves the search as it is. -/
theorem quiet_cspStatus (csp : Csp) : ∀ (n : Node) (s : Search), Quiet csp s (cspStatus csp n s).2
  | .true, s | .false, s | .allDiff _, s | .pop _ _ _, s => Quiet.refl csp s
  | .lin l rel fits src sneg _, s => by
    -- Only a node that falls back to its source runs the evaluator, and that is quiet.
    unfold cspStatus
    split
    · exact Quiet.refl csp s
    · exact quiet_statusEval csp s src sneg
  | .inside l set neg fits src _, s => by
    unfold cspStatus
    split
    · exact Quiet.refl csp s
    · exact quiet_statusEval csp s src neg
  | .eval src neg, s => quiet_statusEval csp s src neg
  | .fn _ _ _ whole neg, s => quiet_statusEval csp s whole neg
  | .and ns, s => quiet_cspStatusAll csp ns true s
  | .or ns, s => quiet_cspStatusAny csp ns true s
  | .ite cond _ thn els, s => by
    have first := quiet_cspStatus csp cond s
    unfold cspStatus
    split
    · rename_i t here
      rw [here] at first
      -- The condition is judged first, and the branches are judged after it.
      exact first.trans (quiet_cspStatus csp thn t)
    · rename_i t here
      rw [here] at first
      exact first.trans (quiet_cspStatus csp els t)
    · rename_i t here
      rw [here] at first
      exact (first.trans (quiet_cspStatus csp thn t)).trans (quiet_cspStatus csp els _)

theorem quiet_cspStatusAll (csp : Csp) :
    ∀ (ns : List Node) (all : Bool) (s : Search), Quiet csp s (cspStatusAll csp ns all s).2
  | [], all, s => Quiet.refl csp s
  | n :: ns, all, s => by
    -- The scan stops at the first conjunct that is refuted.
    have first := quiet_cspStatus csp n s
    unfold cspStatusAll
    split
    · rename_i t here
      rw [here] at first
      exact first
    · rename_i t here
      rw [here] at first
      exact first.trans (quiet_cspStatusAll csp ns all t)
    · rename_i t here
      rw [here] at first
      exact first.trans (quiet_cspStatusAll csp ns false t)

theorem quiet_cspStatusAny (csp : Csp) :
    ∀ (ns : List Node) (allFalse : Bool) (s : Search), Quiet csp s (cspStatusAny csp ns allFalse s).2
  | [], allFalse, s => Quiet.refl csp s
  | n :: ns, allFalse, s => by
    -- The scan stops at the first disjunct that is entailed.
    have first := quiet_cspStatus csp n s
    unfold cspStatusAny
    split
    · rename_i t here
      rw [here] at first
      exact first
    · rename_i t here
      rw [here] at first
      exact first.trans (quiet_cspStatusAny csp ns allFalse t)
    · rename_i t here
      rw [here] at first
      exact first.trans (quiet_cspStatusAny csp ns false t)

end

end Quietness

section Soundness

variable {d : Nat → Dom}

/-- What the bounds of a linear form tell is so. -/
theorem relStatus_sound {rel : Rel} {lo hi x : Int} (inside : lo ≤ x ∧ x ≤ hi) {b : Bool}
    (told : relStatus rel lo hi = some b) : relHolds rel x = b := by
  unfold relStatus relHolds at *
  -- Each relation is told by which side of zero the bounds lie on.
  cases rel with
  | le =>
    simp only at told ⊢
    split at told
    · cases told
      exact decide_eq_true (by omega)
    · split at told
      · cases told
        exact decide_eq_false (by omega)
      · cases told
  | eq =>
    simp only at told ⊢
    split at told
    · cases told
      exact decide_eq_true (by omega)
    · split at told
      · cases told
        exact decide_eq_false (by omega)
      · cases told
  | ne =>
    simp only at told ⊢
    split at told
    · cases told
      exact decide_eq_false (by omega)
    · split at told
      · cases told
        exact decide_eq_true (by omega)
      · cases told

/-- What the bounds of a linear form tell of its membership is so. -/
theorem insideStatus_sound {set : Dom} {neg : Bool} {lo hi x : Int}
    (inside : lo ≤ x ∧ x ≤ hi) {b : Bool} (told : insideStatus set neg lo hi = some b) :
    (domHas set x != neg) = b := by
  unfold insideStatus at told
  split at told
  · -- With one value left, its membership decides.
    rename_i same
    cases told
    rw [show x = lo by omega]
  · split at told
    · -- No part of the set meets the bounds.
      rename_i apart
      cases told
      have out : domHas set x = false := by
        rw [Bool.eq_false_iff, ne_eq, Dom.domHas_iff]
        intro here
        have clipped := (Dom.has_clip set lo hi x).mpr ⟨here, inside⟩
        rw [List.isEmpty_iff.mp apart] at clipped
        exact Dom.has_nil x clipped
      rw [out]
      cases neg <;> rfl
    · split at told
      · -- One part of the set covers the bounds.
        rename_i covered
        cases told
        obtain ⟨p, member, around⟩ := List.any_eq_true.mp covered
        simp only [Bool.and_eq_true, decide_eq_true_eq] at around
        have here : domHas set x = true :=
          (Dom.domHas_iff set x).mpr ⟨p, member, by omega⟩
        rw [here]
        cases neg <;> rfl
      · cases told

/-- A judged source tells whether it holds. -/
theorem statusEval_sound (ok : csp.Ok) (within : Within a s.d) {i : Nat} {neg b : Bool}
    (told : (statusEval csp s i neg).1 = some b) : (csp.truth i a != neg) = b := by
  unfold statusEval at told
  split at told
  · -- Only a fixed source is judged, and then by its truth.
    rename_i fixed
    have verdict := evalSrc_truth ok within fixed
    simp only [Option.some.injEq] at told
    rw [← verdict]
    exact told
  · cases told

/-- The shared shape of `Lin` and `In`: linear where the fits hold, else the source. -/
theorem fitted_sound {fits : List Fit} (linear : Bool) {i : Nat} {neg b : Bool}
    (agree : (∀ f ∈ fits, f.Holds a) → (linear = true ↔ csp.truth i a ≠ neg))
    (told : (csp.truth i a != neg) = b) :
    ((∀ f ∈ fits, f.Holds a) ∧ linear = true ∨
      (¬ ∀ f ∈ fits, f.Holds a) ∧ csp.truth i a ≠ neg) ↔ b = true := by
  rw [← told, bne_iff_ne]
  -- Where the parts fit the linear reading agrees with the source, and elsewhere the source counts.
  constructor
  · rintro (⟨fit, holds⟩ | ⟨-, holds⟩)
    · exact (agree fit).mp holds
    · exact holds
  · intro holds
    by_cases fit : ∀ f ∈ fits, f.Holds a
    · exact .inl ⟨fit, (agree fit).mpr holds⟩
    · exact .inr ⟨fit, holds⟩

/-- A node whose fits do not hold has some. -/
theorem fits_ne_nil {d : Nat → Dom} {fits : List Fit} (unfit : ¬ fitsHold d fits = true) : fits ≠ [] := by
  rintro rfl
  exact unfit rfl

/-- Where the fits hold only the linear reading counts. -/
theorem fitted_linear {fit linear judged : Prop} (holds : fit) :
    (fit ∧ linear ∨ ¬ fit ∧ judged) ↔ linear := by
  simp only [holds, true_and, not_true, false_and, or_false]

/-- What `Pop` tells is so. -/
theorem popStatus_sound (within : Within a d) {x c w : Nat} {b : Bool}
    (told : popStatus d x c w = some b) : a c = countOnes (bitsAt (a x) w) ↔ b = true := by
  unfold popStatus at told
  split at told
  · cases told
  · -- The count is told only of a fixed argument.
    rename_i v fixed
    have value := Dom.eq_of_fixed fixed (within x)
    subst value
    split at told
    · -- The counted value is still possible, and the count itself is fixed.
      rename_i possible
      obtain ⟨n, fixedC, rfl⟩ := Option.map_eq_some_iff.mp told
      have count := Dom.eq_of_fixed fixedC ((Dom.domHas_iff _ _).mp possible)
      exact ⟨fun _ => rfl, fun _ => (Dom.eq_of_fixed fixedC (within c)).trans count.symm⟩
    · -- A count that is no longer possible refutes the node.
      rename_i impossible
      cases told
      refine ⟨fun same => absurd ?_ impossible, fun impossible => nomatch impossible⟩
      rw [Dom.domHas_iff, ← same]
      exact within c

/-- The values fixed variables show are the assignment's. -/
theorem map_fixed (within : Within a d) {vs : List Nat} (fixed : allFixed d vs = true) :
    (vs.map fun v => (domFixed (d v)).getD 0) = vs.map a := by
  refine List.map_congr_left fun v member => ?_
  obtain ⟨x, here⟩ := Option.isSome_iff_exists.mp (List.all_eq_true.mp fixed v member)
  rw [here, Dom.eq_of_fixed here (within v)]
  rfl

/-- What `AllDiff` tells is so. -/
theorem allDiffStatus_sound (within : Within a d) {vs : List Nat} {b : Bool}
    (told : allDiffStatus d vs = some b) : (vs.map a).Nodup ↔ b = true := by
  unfold allDiffStatus at told
  split at told
  · rename_i fixed
    cases told
    rw [decide_eq_true_iff, map_fixed within fixed]
  · cases told

mutual

/-- What `csp_status` tells of a node is so for every assignment in the domains. -/
theorem cspStatus_sound (ok : csp.Ok) (assign : csp.Assignment a) :
    ∀ (n : Node) (s : Search) (b : Bool), (∀ v, (s.d v).Ok) → Within a s.d → Exact csp n →
      (cspStatus csp n s).1 = some b → (nodeHolds csp a n ↔ b = true)
  | .true, s, b, _, _, _, told => by
    cases told
    exact ⟨fun _ => rfl, fun _ => trivial⟩
  | .false, s, b, _, _, _, told => by
    cases told
    exact ⟨fun holds => holds.elim, fun impossible => nomatch impossible⟩
  | .lin l rel fits src sneg wrap, s, b, doms, within, described, told => by
    obtain ⟨-, -, agree, -⟩ := described
    unfold cspStatus at told
    unfold nodeHolds
    split at told
    · rename_i fit
      have holds := fitsHold_sound doms within fit
      rw [fitted_linear holds, relStatus_sound (linBounds_at doms within l) told]
    · rename_i unfit
      exact fitted_sound _ (agree (fits_ne_nil unfit) a assign) (statusEval_sound ok within told)
  | .inside l set neg fits src wrap, s, b, doms, within, described, told => by
    obtain ⟨-, -, -, agree, -⟩ := described
    unfold cspStatus at told
    unfold nodeHolds
    split at told
    · rename_i fit
      have holds := fitsHold_sound doms within fit
      rw [fitted_linear holds, ← bne_iff_ne (a := domHas set _),
        insideStatus_sound (linBounds_at doms within l) told]
    · rename_i unfit
      have shape := fitted_sound (domHas set (l.at a) != neg)
        (fun fit => bne_iff_ne.trans (agree (fits_ne_nil unfit) a assign fit))
        (statusEval_sound ok within told)
      rwa [bne_iff_ne] at shape
  | .allDiff vs, s, b, _, within, _, told => allDiffStatus_sound within told
  | .pop x c w, s, b, _, within, _, told => popStatus_sound within told
  | .eval src neg, s, b, _, within, _, told => by
    rw [← statusEval_sound ok within told, bne_iff_ne]
    rfl
  | .fn _ _ _ whole neg, s, b, _, within, _, told => by
    rw [← statusEval_sound ok within told, bne_iff_ne]
    rfl
  | .and ns, s, b, doms, within, described, told => by
    have := cspStatusAll_sound ok assign ns true s b doms within described told
    cases b with
    | true => exact ⟨fun _ => rfl, fun _ => (this.1 rfl).2⟩
    | false => exact ⟨fun holds => absurd holds (this.2 rfl), fun impossible => nomatch impossible⟩
  | .or ns, s, b, doms, within, described, told => by
    have := cspStatusAny_sound ok assign ns true s b doms within described told
    cases b with
    | true => exact ⟨fun _ => rfl, fun _ => this.1 rfl⟩
    | false => exact ⟨fun holds => absurd holds (this.2 rfl).2, fun impossible => nomatch impossible⟩
  | .ite cond ncond thn els, s, b, doms, within, described, told => by
    obtain ⟨exactC, -, exactT, exactE, -⟩ := described
    have quiet := quiet_cspStatus csp cond s
    have judged := cspStatus_sound ok assign cond s
    unfold cspStatus at told
    unfold nodeHolds
    -- The branch is known, or both branches tell the same.
    split at told
    · rename_i t here
      rw [here] at quiet judged
      have yes := judged true doms within exactC rfl
      have branch := cspStatus_sound ok assign thn t b (by rwa [quiet.d]) (by rwa [quiet.d])
        exactT told
      simp only [yes, branch, not_true, true_and, false_and, or_false]
    · rename_i t here
      rw [here] at quiet judged
      have no := judged false doms within exactC rfl
      have branch := cspStatus_sound ok assign els t b (by rwa [quiet.d]) (by rwa [quiet.d])
        exactE told
      simp only [no, branch, Bool.false_eq_true, not_false_eq_true, true_and, false_and, false_or]
    · rename_i t here
      rw [here] at quiet
      have quietT := quiet.trans (quiet_cspStatus csp thn t)
      dsimp only at told
      split at told
      · rename_i same
        have branchT := cspStatus_sound ok assign thn t b (by rwa [quiet.d]) (by rwa [quiet.d])
          exactT told
        have branchE := cspStatus_sound ok assign els _ b (by rwa [quietT.d]) (by rwa [quietT.d])
          exactE (same.2 ▸ told)
        rw [branchT, branchE]
        by_cases holds : nodeHolds csp a cond
        · simp [holds]
        · simp [holds]
      · cases told

/-- The loop over `And`: true when nothing was open and all hold, false when one fails. -/
theorem cspStatusAll_sound (ok : csp.Ok) (assign : csp.Assignment a) :
    ∀ (ns : List Node) (all : Bool) (s : Search) (b : Bool), (∀ v, (s.d v).Ok) → Within a s.d →
      allExact csp ns → (cspStatusAll csp ns all s).1 = some b →
      (b = true → all = true ∧ allHold csp a ns) ∧ (b = false → ¬ allHold csp a ns)
  | [], all, s, b, _, _, _, told => by
    unfold cspStatusAll at told
    split at told
    · rename_i here
      cases told
      exact ⟨fun _ => ⟨here, trivial⟩, fun impossible => nomatch impossible⟩
    · cases told
  | n :: ns, all, s, b, doms, within, described, told => by
    have quiet := quiet_cspStatus csp n s
    have judged := cspStatus_sound ok assign n s
    unfold cspStatusAll at told
    unfold allHold
    split at told
    · rename_i t here
      rw [here] at judged
      -- One refuted conjunct refutes the whole.
      have no := judged false doms within described.1 rfl
      cases told
      exact ⟨fun impossible => (nomatch impossible), fun _ both => by simpa using no.mp both.1⟩
    · rename_i t here
      rw [here] at quiet judged
      -- An entailed conjunct leaves the verdict to the others.
      have yes := (judged true doms within described.1 rfl).mpr rfl
      have rest := cspStatusAll_sound ok assign ns all t b (by rwa [quiet.d]) (by rwa [quiet.d])
        described.2 told
      exact ⟨fun here => ⟨(rest.1 here).1, yes, (rest.1 here).2⟩,
        fun here both => rest.2 here both.2⟩
    · rename_i t here
      -- An open conjunct only leaves room for a refutation.
      rw [here] at quiet
      have rest := cspStatusAll_sound ok assign ns false t b (by rwa [quiet.d]) (by rwa [quiet.d])
        described.2 told
      exact ⟨fun here => (nomatch (rest.1 here).1), fun here both => rest.2 here both.2⟩

/-- The loop over `Or`: true when one holds, false when nothing was open and all fail. -/
theorem cspStatusAny_sound (ok : csp.Ok) (assign : csp.Assignment a) :
    ∀ (ns : List Node) (allFalse : Bool) (s : Search) (b : Bool), (∀ v, (s.d v).Ok) → Within a s.d →
      allExact csp ns → (cspStatusAny csp ns allFalse s).1 = some b →
      (b = true → anyHolds csp a ns) ∧ (b = false → allFalse = true ∧ ¬ anyHolds csp a ns)
  | [], allFalse, s, b, _, _, _, told => by
    unfold cspStatusAny at told
    split at told
    · rename_i here
      cases told
      exact ⟨fun impossible => (nomatch impossible), fun _ => ⟨here, fun holds => holds⟩⟩
    · cases told
  | n :: ns, allFalse, s, b, doms, within, described, told => by
    have quiet := quiet_cspStatus csp n s
    have judged := cspStatus_sound ok assign n s
    unfold cspStatusAny at told
    unfold anyHolds
    split at told
    · rename_i t here
      rw [here] at judged
      -- One entailed disjunct entails the whole.
      have yes := (judged true doms within described.1 rfl).mpr rfl
      cases told
      exact ⟨fun _ => .inl yes, fun impossible => nomatch impossible⟩
    · rename_i t here
      rw [here] at quiet judged
      -- A refuted disjunct leaves the verdict to the others.
      have no := judged false doms within described.1 rfl
      have rest := cspStatusAny_sound ok assign ns allFalse t b (by rwa [quiet.d]) (by rwa [quiet.d])
        described.2 told
      refine ⟨fun here => .inr (rest.1 here), fun here => ⟨(rest.2 here).1, ?_⟩⟩
      rintro (holds | holds)
      · simpa using no.mp holds
      · exact (rest.2 here).2 holds
    · rename_i t here
      -- An open disjunct only leaves room for an entailment.
      rw [here] at quiet
      have rest := cspStatusAny_sound ok assign ns false t b (by rwa [quiet.d]) (by rwa [quiet.d])
        described.2 told
      exact ⟨fun here => .inr (rest.1 here), fun here => nomatch (rest.2 here).1⟩

end

end Soundness

section Decided

variable {d : Nat → Dom}

/-- A source whose dependencies are fixed is judged. -/
theorem statusEval_decided (ok : csp.Ok) {i : Nat} {neg : Bool}
    (fixed : ∀ v ∈ (csp.src i).deps, (domFixed (s.d v)).isSome) :
    (statusEval csp s i neg).1.isSome := by
  have ready : srcFixed csp s.d i = true := by
    rw [srcFixed, ok.fresh i, allFixed, List.all_eq_true.mpr fixed]
    rfl
  simp [statusEval, ready]

mutual

/-- A node whose variables are fixed is entailed or refuted. -/
theorem cspStatus_decided (ok : csp.Ok) :
    ∀ (n : Node) (s : Search), Within a s.d → (∀ v ∈ n.deps csp, (domFixed (s.d v)).isSome) →
      (cspStatus csp n s).1.isSome
  | .true, s, _, _ | .false, s, _, _ => rfl
  | .lin l rel fits src sneg _, s, within, fixed => by
    unfold cspStatus
    split
    · -- Every variable of the sum is fixed to its value, so the bounds are one number.
      have value : ∀ p ∈ l.t, domFixed (s.d p.1) = some (a p.1) := fun p member => by
        obtain ⟨x, here⟩ := Option.isSome_iff_exists.mp (fixed p.1 (by
          simp only [Node.deps, List.mem_append, List.mem_map]
          exact .inl (.inl ⟨p, member, rfl⟩)))
        rw [here, Dom.eq_of_fixed here (within p.1)]
      rw [linBounds_fixed value]
      cases rel with
      | le => simp only [relStatus]; split <;> [rfl; (rw [if_pos (by omega)]; rfl)]
      | eq => simp only [relStatus]; split <;> [rfl; (rw [if_pos (by omega)]; rfl)]
      | ne => simp only [relStatus]; split <;> [rfl; (rw [if_pos (by omega)]; rfl)]
    · exact statusEval_decided ok fun v member => fixed v (by simp [Node.deps, member])
  | .inside l set neg fits src _, s, within, fixed => by
    unfold cspStatus
    split
    · have value : ∀ p ∈ l.t, domFixed (s.d p.1) = some (a p.1) := fun p member => by
        obtain ⟨x, here⟩ := Option.isSome_iff_exists.mp (fixed p.1 (by
          simp only [Node.deps, List.mem_append, List.mem_map]
          exact .inl (.inl ⟨p, member, rfl⟩)))
        rw [here, Dom.eq_of_fixed here (within p.1)]
      rw [linBounds_fixed value]
      simp [insideStatus]
    · exact statusEval_decided ok fun v member => fixed v (by simp [Node.deps, member])
  | .allDiff vs, s, _, fixed => by
    -- Every variable of the list is fixed.
    have all : allFixed s.d vs = true := List.all_eq_true.mpr fixed
    simp [cspStatus, allDiffStatus, all]
  | .pop x c w, s, _, fixed => by
    obtain ⟨v, hereX⟩ := Option.isSome_iff_exists.mp (fixed x (by simp [Node.deps]))
    obtain ⟨n, hereC⟩ := Option.isSome_iff_exists.mp (fixed c (by simp [Node.deps]))
    simp only [cspStatus, popStatus, hereX, hereC]
    split <;> rfl
  | .eval src neg, s, _, fixed => statusEval_decided ok fun v member => fixed v member
  | .fn _ _ _ whole neg, s, _, fixed =>
    statusEval_decided ok fun v member => fixed v (by simp [Node.deps, member])
  | .and ns, s, within, fixed => cspStatusAll_decided ok ns s within fixed
  | .or ns, s, within, fixed => cspStatusAny_decided ok ns s within fixed
  | .ite cond _ thn els, s, within, fixed => by
    -- The condition is decided first, and then the branch it selects.
    have first := cspStatus_decided ok cond s within fun v member =>
      fixed v (by simp [Node.deps, member])
    have quiet := quiet_cspStatus csp cond s
    unfold cspStatus
    split
    · rename_i t here
      rw [here] at quiet
      exact cspStatus_decided ok thn t (by rwa [quiet.d]) fun v member => by
        rw [quiet.d]; exact fixed v (by simp [Node.deps, member])
    · rename_i t here
      rw [here] at quiet
      exact cspStatus_decided ok els t (by rwa [quiet.d]) fun v member => by
        rw [quiet.d]; exact fixed v (by simp [Node.deps, member])
    · rename_i t here
      rw [here] at first
      cases first

theorem cspStatusAll_decided (ok : csp.Ok) :
    ∀ (ns : List Node) (s : Search), Within a s.d →
      (∀ v ∈ Node.deps.depsList csp ns, (domFixed (s.d v)).isSome) →
      (cspStatusAll csp ns true s).1.isSome
  | [], s, _, _ => rfl
  | n :: ns, s, within, fixed => by
    have first := cspStatus_decided ok n s within fun v member =>
      fixed v (by simp [Node.deps.depsList, member])
    have quiet := quiet_cspStatus csp n s
    unfold cspStatusAll
    split
    · rfl
    · rename_i t here
      rw [here] at quiet
      exact cspStatusAll_decided ok ns t (by rwa [quiet.d]) fun v member => by
        rw [quiet.d]; exact fixed v (by simp [Node.deps.depsList, member])
    · rename_i t here
      rw [here] at first
      cases first

theorem cspStatusAny_decided (ok : csp.Ok) :
    ∀ (ns : List Node) (s : Search), Within a s.d →
      (∀ v ∈ Node.deps.depsList csp ns, (domFixed (s.d v)).isSome) →
      (cspStatusAny csp ns true s).1.isSome
  | [], s, _, _ => rfl
  | n :: ns, s, within, fixed => by
    have first := cspStatus_decided ok n s within fun v member =>
      fixed v (by simp [Node.deps.depsList, member])
    have quiet := quiet_cspStatus csp n s
    unfold cspStatusAny
    split
    · rfl
    · rename_i t here
      rw [here] at quiet
      exact cspStatusAny_decided ok ns t (by rwa [quiet.d]) fun v member => by
        rw [quiet.d]; exact fixed v (by simp [Node.deps.depsList, member])
    · rename_i t here
      rw [here] at first
      cases first

end

end Decided

end Xezim
