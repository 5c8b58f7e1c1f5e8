import Xezim.Csp.SetLaws

/-! Enforcing difference and counting nodes: pigeonholes and counts of ones. -/

namespace Xezim

variable {csp : Csp} {a : Nat → Int} {s : Search} {P : (Nat → Int) → Prop}

section AllDiff

/-- Different values of a domain are no more than its size. -/
theorem pigeonhole {d : Dom} (ok : d.Ok) {xs : List Int} (nodup : xs.Nodup)
    (inside : ∀ x ∈ xs, d.Has x) : xs.length ≤ domSize d := by
  rw [← ok.length_values]
  exact (List.subperm_of_subset nodup fun x member => Dom.mem_values.mpr (inside x member)).length_le

/-- The values taken are different exactly when they make up a domain of their number. -/
theorem nodup_of_taken {xs : List Int} (many : xs.length ≤ domSize (domNorm (xs.map fun x => (x, x)))) :
    xs.Nodup := by
  have ok := Dom.ok_norm (xs.map fun x => (x, x))
  rw [← ok.length_values] at many
  have sub : domValues (domNorm (xs.map fun x => (x, x))) ⊆ xs := fun x member => by
    obtain ⟨p, inside, low, high⟩ := (Dom.has_norm _ _).mp (Dom.mem_values.mp member)
    exact has_points.mp ⟨p, inside, low, high⟩
  have perm := (List.subperm_of_subset ok.nodup_values sub).perm_of_length_le many
  exact perm.nodup_iff.mp ok.nodup_values

/-- What the loop of `AllDiff` knows of an assignment: the open variables still to come take values that
are not taken, and those before them took different values of the pool. -/
structure Pooled (taken : Dom) (vs : List Nat) (free : Nat) (pool : List (Int × Int)) (s : Search)
    (a : Nat → Int) : Prop where
  nodup : (vs.map a).Nodup
  unfixed : ∀ v ∈ vs, domFixed (s.d v) = none → ¬ taken.Has (a v)
  met : ∃ xs : List Int, xs.Nodup ∧ xs.length = free ∧
    (∀ x ∈ xs, ∃ p ∈ pool, p.1 ≤ x ∧ x ≤ p.2) ∧ ∀ v ∈ vs, a v ∉ xs

/-- The loop of `AllDiff` loses no assignment of different values. -/
theorem enforced_allDiffLoop {taken : Dom} (okTaken : taken.Ok) (vs : List Nat) (free : Nat)
    (pool : List (Int × Int)) (oks : ∀ v, (s.d v).Ok)
    (pooled : ∀ a, P a → Within a s.d → Pooled taken vs free pool s a) :
    Enforced csp P s (s.allDiffLoop taken vs free pool) := by
  induction vs generalizing s free pool with
  | nil =>
    refine Enforced.told (Quiet.refl csp s) fun a holds within => ?_
    obtain ⟨-, -, xs, nodup, rfl, inside, -⟩ := pooled a holds within
    have room := pigeonhole (Dom.ok_norm pool) nodup fun x member =>
      (Dom.has_norm pool x).mpr (inside x member)
    simp [room]
  | cons v vs ih =>
    unfold Search.allDiffLoop
    split
    · refine ih free pool oks fun a holds within => ?_
      obtain ⟨nodup, unfixed, xs, different, count, inside, apart⟩ := pooled a holds within
      exact ⟨(List.nodup_cons.mp nodup).2, fun u member => unfixed u (List.mem_cons_of_mem _ member),
        xs, different, count, inside, fun u member => apart u (List.mem_cons_of_mem _ member)⟩
    · rename_i notFixed
      have notFixed : domFixed (s.d v) = none := Option.not_isSome_iff_eq_none.mp notFixed
      have narrowed : Enforced csp P s (s.set v (domMinus (s.d v) taken)) :=
        enforced_set csp s v (fun here => here.minus okTaken)
          (fun x here => ((Dom.has_minus (oks v) okTaken).mp here).1) fun a holds within =>
          (Dom.has_minus (oks v) okTaken).mpr ⟨within v,
            (pooled a holds within).unfixed v List.mem_cons_self notFixed⟩
      refine Enforced.andThen narrowed fun step => ih _ _ (step.ok oks) fun a holds within => ?_
      have before : Within a s.d := fun u => step.shrink u (a u) (within u)
      obtain ⟨nodup, unfixed, xs, different, count, inside, apart⟩ := pooled a holds before
      obtain ⟨fresh, nodup'⟩ := List.nodup_cons.mp nodup
      -- The variables still to come are others, so their domains have not changed.
      have same (u) (member : u ∈ vs) : (s.set v (domMinus (s.d v) taken)).2.d u = s.d u :=
        s.set_other _ fun eq => fresh (eq ▸ List.mem_map_of_mem member)
      refine ⟨nodup', fun u member here => unfixed u (List.mem_cons_of_mem _ member)
        (by rwa [same u member] at here), a v :: xs,
        List.nodup_cons.mpr ⟨apart v List.mem_cons_self, different⟩, by simp [count],
        fun x member => ?_, fun u member here => ?_⟩
      · rcases List.mem_cons.mp member with rfl | member
        · obtain ⟨p, here, low, high⟩ := within v
          exact ⟨p, List.mem_append_right _ here, low, high⟩
        · obtain ⟨p, here, bounds⟩ := inside x member
          exact ⟨p, List.mem_append_left _ here, bounds⟩
      · rcases List.mem_cons.mp here with equal | here
        · exact fresh (equal ▸ List.mem_map_of_mem member)
        · exact apart u (List.mem_cons_of_mem _ member) here

/-- The values of the fixed variables of a list. -/
theorem fixed_values (within : Within a s.d) (vs : List Nat) :
    (vs.filterMap fun v => domFixed (s.d v)) =
      (vs.filter fun v => (domFixed (s.d v)).isSome).map a := by
  induction vs with
  | nil => rfl
  | cons v vs ih =>
    cases here : domFixed (s.d v) with
    | none => simp [here, ih]
    | some x => simp [here, ih, Dom.eq_of_fixed here (within v)]

/-- Enforcing `AllDiff` loses no assignment that satisfies it. -/
theorem enforced_allDiff (vs : List Nat) (oks : ∀ v, (s.d v).Ok) :
    Enforced csp (Satisfies csp (.allDiff vs)) s (s.enforceAllDiff vs) := by
  -- The values of the fixed variables are among those of the list.
  have part (a) (holds : Satisfies csp (.allDiff vs) a) (within : Within a s.d) :
      (vs.filterMap fun v => domFixed (s.d v)).Nodup := by
    rw [fixed_values within]
    exact List.Nodup.sublist (List.Sublist.map a List.filter_sublist) holds.2
  unfold Search.enforceAllDiff
  dsimp only
  split
  · rename_i few
    refine Enforced.refuted (Quiet.refl csp s) fun a holds within => ?_
    have room := pigeonhole (Dom.ok_norm _) (part a holds within) fun x member =>
      (Dom.has_norm _ _).mpr ⟨(x, x), List.mem_map.mpr ⟨x, member, rfl⟩, le_refl _, le_refl _⟩
    omega
  · refine enforced_allDiffLoop (Dom.ok_norm _) vs 0 [] oks fun a holds within => ?_
    refine ⟨holds.2, fun v member here taken => ?_, [], List.nodup_nil, rfl, by simp, by simp⟩
    obtain ⟨p, inside, low, high⟩ := (Dom.has_norm _ _).mp taken
    have value := has_points.mp ⟨p, inside, low, high⟩
    rw [fixed_values within] at value
    -- A taken value belongs to a fixed variable, which is then the same one.
    obtain ⟨u, fixed, same⟩ := List.mem_map.mp value
    obtain ⟨listed, isSome⟩ := List.mem_filter.mp fixed
    have eq := List.inj_on_of_nodup_map holds.2 listed member same
    rw [eq, here] at isSome
    cases isSome

/-- `AllDiff` over fixed variables succeeds only where it holds. -/
theorem settled_allDiff {vs : List Nat} (within : Within a s.d)
    (fixed : ∀ v ∈ vs, s.d v = [(a v, a v)]) (done : (s.enforceAllDiff vs).1 = true) :
    (vs.map a).Nodup := by
  have all : (vs.filterMap fun v => domFixed (s.d v)) = vs.map a := by
    rw [fixed_values within, List.filter_eq_self.mpr]
    intro v member
    rw [fixed v member, Dom.fixed_single]
    rfl
  unfold Search.enforceAllDiff at done
  dsimp only at done
  split at done
  · cases done
  · rename_i enough
    rw [all] at enough
    exact nodup_of_taken (not_lt.mp enough)

end AllDiff

section Pop

/-- The set bits of a number are those of its half and its lowest one. -/
theorem countOnes_half (n : Nat) : countOnes n = n % 2 + countOnes (n / 2) := by
  unfold countOnes
  rcases Nat.mod_two_eq_zero_or_one n with even | odd
  · by_cases zero : n = 0
    · simp [zero]
    · have double : n = 2 * (n / 2) := by omega
      rw [even, double, Nat.bit0_bits _ (by omega), List.count_cons_of_ne (by decide),
        Nat.mul_div_cancel_left _ (by decide)]
      omega
  · have double : n = 2 * (n / 2) + 1 := by omega
    rw [odd]
    conv_lhs => rw [double, Nat.bit1_bits]
    rw [List.count_cons_self]
    omega

/-- A number below `2 ^ k` has at most `k` ones, and fewer unless it is all ones. -/
theorem countOnes_le {n k : Nat} (small : n < 2 ^ k) :
    countOnes n ≤ k ∧ (n + 1 < 2 ^ k → countOnes n < k) := by
  induction k generalizing n with
  | zero =>
    have : n = 0 := by omega
    subst this
    exact ⟨by decide, fun h => absurd h (by decide)⟩
  | succ k ih =>
    have double := pow_succ 2 k
    obtain ⟨most, fewer⟩ := ih (n := n / 2) (by omega)
    rw [countOnes_half]
    refine ⟨by omega, fun gap => ?_⟩
    rcases Nat.mod_two_eq_zero_or_one n with even | odd
    · omega
    · have := fewer (by omega)
      omega

/-- A nonzero number has a one. -/
theorem countOnes_pos {n : Nat} (nonzero : n ≠ 0) : 0 < countOnes n := by
  induction n using Nat.strong_induction_on with
  | _ n ih =>
    rw [countOnes_half]
    rcases Nat.mod_two_eq_zero_or_one n with even | odd
    · have := ih (n / 2) (by omega) (by omega)
      omega
    · omega

/-- The most ones of the numbers up to a bound. -/
theorem countOnes_upTo {n h : Nat} (le : n ≤ h) :
    (countOnes n : Int) ≤ max (countOnes h : Int) ((Nat.size h : Int) - 1) := by
  have small := lt_of_le_of_lt le (Nat.lt_size_self h)
  obtain ⟨-, fewer⟩ := countOnes_le small
  by_cases gap : n + 1 < 2 ^ Nat.size h
  · have := fewer gap
    omega
  · -- All ones at the width of the bound leave no number between.
    have bound := Nat.lt_size_self h
    have same : n = h := by omega
    subst same
    omega

/-- The bits of a small number are the number. -/
theorem bitsAt_of_small {x : Int} {w : Nat} (low : 0 ≤ x) (high : x < 2 ^ w) : bitsAt x w = x.toNat := by
  rw [bitsAt, Int.emod_eq_of_lt low high]

/-- Enforcing `Pop` loses no assignment that satisfies it. -/
theorem enforced_pop {x c w : Nat} (described : Exact csp (.pop x c w)) (oks : ∀ v, (s.d v).Ok) :
    Enforced csp (Satisfies csp (.pop x c w)) s (s.enforcePop x c w) := by
  obtain ⟨other, narrow⟩ := described
  have count (a) (holds : Satisfies csp (.pop x c w) a) : a c = countOnes (bitsAt (a x) w) := holds.2
  unfold Search.enforcePop
  split
  · rename_i v fixed
    refine enforced_meet csp oks c (Dom.ok_single (le_refl _)) fun a holds within => ?_
    rw [count a holds, Dom.eq_of_fixed fixed (within x), Dom.has_single]
    exact ⟨le_refl _, le_refl _⟩
  · split
    · have kept (a) (holds : Satisfies csp (.pop x c w) a) (within : Within a s.d) :
          a x ∈ (domValues (s.d x)).filter fun v => domHas (s.d c) (countOnes (bitsAt v w)) :=
        List.mem_filter.mpr ⟨Dom.mem_values.mpr (within x), by
          rw [Dom.domHas_iff, ← count a holds]
          exact within c⟩
      refine Enforced.mono (fun a within holds => ⟨holds, within⟩)
        (Enforced.andThen (P := fun a => Satisfies csp (.pop x c w) a ∧ Within a s.d)
          (enforced_set csp s x (fun _ => Dom.ok_norm _) (fun y here => ?_) fun a holds _ => ?_)
          fun step => enforced_set csp _ c (fun _ => Dom.ok_norm _) (fun y here => ?_)
            fun a holds _ => ?_)
      · obtain ⟨p, inside, bounds⟩ := (Dom.has_norm _ _).mp here
        have member := has_points.mp ⟨p, inside, bounds⟩
        exact Dom.mem_values.mp (List.mem_filter.mp member).1
      · exact (Dom.has_norm _ _).mpr ⟨(a x, a x),
          List.mem_map.mpr ⟨a x, kept a holds.1 holds.2, rfl⟩, le_refl _, le_refl _⟩
      · -- The counts were taken from the domain of the count, which is still the same.
        obtain ⟨p, inside, bounds⟩ := (Dom.has_norm _ _).mp here
        obtain ⟨v, member, rfl⟩ := List.mem_map.mp inside
        have value : y = countOnes (bitsAt v w) := by
          dsimp only at bounds
          omega
        have possible := (Dom.domHas_iff _ _).mp (List.mem_filter.mp member).2
        rwa [value, s.set_other _ (Ne.symm other)]
      · refine (Dom.has_norm _ _).mpr ⟨_, List.mem_map.mpr ⟨a x, kept a holds.1 holds.2, rfl⟩, ?_⟩
        rw [count a holds.1]
        exact ⟨le_refl _, le_refl _⟩
    · dsimp only
      split
      · rename_i low
        refine enforced_set csp s c (fun ok => ok.clip _ _)
          (fun y here => ((Dom.has_clip ..).mp here).1) fun a holds within => ?_
        obtain ⟨above, below⟩ := (oks x).bounds (within x)
        have value := bitsAt_of_small (by omega) (narrow a holds.1)
        have most := countOnes_upTo (n := (a x).toNat) (h := (domBounds (s.d x)).2.toNat) (by omega)
        refine (Dom.has_clip ..).mpr ⟨within c, ?_, ?_⟩
        · rw [count a holds, value]
          split
          · have := countOnes_pos (n := (a x).toNat) (by omega)
            omega
          · omega
        · rw [count a holds, value]
          exact most
      · exact Enforced.quiet (Quiet.refl csp s)

/-- `Pop` over fixed variables succeeds only where it holds. -/
theorem settled_pop {x c w : Nat} (oks : ∀ v, (s.d v).Ok) (onX : s.d x = [(a x, a x)])
    (onC : s.d c = [(a c, a c)]) (done : (s.enforcePop x c w).1 = true) :
    a c = countOnes (bitsAt (a x) w) := by
  unfold Search.enforcePop at done
  rw [onX, Dom.fixed_single] at done
  have left := set_succeeds (by rw [onC]; exact List.cons_ne_nil _ _) done
  obtain ⟨p, inside⟩ := List.exists_mem_of_ne_nil _ left
  have point := Dom.ok_single (le_refl (countOnes (bitsAt (a x) w) : Int))
  obtain ⟨old, here⟩ := (Dom.has_meet (oks c) point).mp
    ⟨p, inside, le_refl _, ((oks c).meet point).valid p inside⟩
  rw [onC, Dom.has_single] at old
  rw [Dom.has_single] at here
  omega

end Pop

end Xezim
