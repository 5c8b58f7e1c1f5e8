import Xezim.Csp.WrapLaws

/-! What the wrapped relations leave of the one open variable is exactly its solutions. -/

namespace Xezim

variable {s : Search} {x : Nat} {P : Int → Prop}

/-- Every variable of a form but `x` is fixed. -/
def Lin.OpenOnly (d : Nat → Dom) (l : Lin) (x : Nat) : Prop :=
  ∀ p ∈ l.t, p.1 ≠ x → (domFixed (d p.1)).isSome

/-- The variable `x` is `y` and the other ones have their fixed values. -/
def openAssign (d : Nat → Dom) (x : Nat) (y : Int) (v : Nat) : Int :=
  if v = x then y else (domFixed (d v)).getD 0

/-- The value of a form with the value `y` for its open variable `x`. -/
def Lin.openAt (d : Nat → Dom) (l : Lin) (x : Nat) (y : Int) : Int := l.at (openAssign d x y)

/-- A search narrowed to the values of `x` that meet a condition. -/
structure NarrowedTo (P : Int → Prop) (x : Nat) (s : Search) (r : Bool × Search) : Prop where
  /-- It is refuted when no value meets the condition. -/
  refuted : r.1 = false ↔ ∀ y, (s.d x).Has y → ¬ P y
  /-- Otherwise exactly the values that meet the condition are left. -/
  precise : r.1 = true → ∀ y, (r.2.d x).Has y ↔ (s.d x).Has y ∧ P y
  /-- No other domain changes. -/
  frame : ∀ v, v ≠ x → r.2.d v = s.d v

section Open

/-- The assignment that gives `x` the value `y` is inside the domains of the form. -/
theorem Lin.OpenOnly.within {l : Lin} (onlyOpen : l.OpenOnly s.d x) {y : Int} (here : (s.d x).Has y) :
    ∀ p ∈ l.t, (s.d p.1).Has (openAssign s.d x y p.1) := by
  intro p member
  unfold openAssign
  split
  · rename_i same
    rwa [same]
  · rename_i other
    obtain ⟨z, fixed⟩ := Option.isSome_iff_exists.mp (onlyOpen p member other)
    rw [fixed, Option.getD_some, Dom.has_of_fixed fixed]
    exact (Dom.has_single ..).mpr ⟨le_refl _, le_refl _⟩

/-- Without an open term the form is constant. -/
theorem Lin.OpenOnly.constant {l : Lin} (onlyOpen : l.OpenOnly s.d x) {rest : Int}
    (opened : openTerm s.d l.t l.k none = some (rest, none)) {y : Int} (here : (s.d x).Has y) :
    l.openAt s.d x y = rest := by
  have sum := openTerm_on (onlyOpen.within here) opened
  simp only [Option.elim, add_zero] at sum
  exact sum

/-- The open term is fixed by no domain. -/
theorem openTerm_open {d : Nat → Dom} {terms : List (Nat × Int)} {rest rest' : Int}
    {free : Option (Nat × Int)} {p : Nat × Int}
    (opened : openTerm d terms rest free = some (rest', some p)) :
    domFixed (d p.1) = none ∨ free = some p := by
  -- The free term was given, or was met with no fixed value.
  induction terms generalizing rest free with
  | nil =>
    cases opened
    exact .inr rfl
  | cons q terms ih =>
    unfold openTerm at opened
    split at opened
    · exact ih opened
    · rename_i unfixed
      rcases ih opened with here | same
      · exact .inl here
      · cases same
        exact .inl unfixed
    · cases opened

/-- The open term is the one of `x`. -/
theorem Lin.OpenOnly.linear {l : Lin} (onlyOpen : l.OpenOnly s.d x) {rest c : Int} {v : Nat}
    (opened : openTerm s.d l.t l.k none = some (rest, some (v, c))) :
    v = x ∧ ∀ y, (s.d x).Has y → l.openAt s.d x y = rest + c * y := by
  -- The open term is no fixed one, so it is the variable that stays open.
  have same : v = x := by
    by_contra other
    have member := (openTerm_mem opened).resolve_right nofun
    have unfixed := (openTerm_open opened).resolve_right nofun
    have fixed := onlyOpen _ member other
    rw [unfixed] at fixed
    cases fixed
  subst same
  refine ⟨rfl, fun y here => ?_⟩
  have sum := openTerm_on (onlyOpen.within here) opened
  simp only [Option.elim, openAssign, if_true] at sum
  exact sum

end Open

namespace NarrowedTo

/-- A verdict that does not depend on the value of `x`. -/
theorem told {b : Bool} (live : s.d x ≠ []) (ok : (s.d x).Ok)
    (all : ∀ y, (s.d x).Has y → (P y ↔ b = true)) : NarrowedTo P x s (b, s) where
  refuted := by
    constructor
    · rintro no y here holds
      exact Bool.false_ne_true (no.symm.trans ((all y here).mp holds))
    · intro noValue
      -- A domain that is not empty has a value to judge by.
      obtain ⟨p, rest, here⟩ := List.exists_cons_of_ne_nil live
      have inside : (s.d x).Has p.1 :=
        ⟨p, here ▸ List.mem_cons_self, le_refl _, ok.valid p (here ▸ List.mem_cons_self)⟩
      exact Bool.eq_false_iff.mpr fun yes => noValue p.1 inside ((all _ inside).mpr yes)
  precise yes y := (and_iff_left_of_imp fun here => (all y here).mpr yes).symm
  frame _ _ := rfl

/-- A domain has a value unless it is empty. -/
theorem empty_iff {d : Dom} (ok : d.Ok) : d = [] ↔ ∀ y, ¬ d.Has y := by
  constructor
  · rintro rfl y
    exact Dom.has_nil y
  · intro noValue
    cases d with
    | nil => rfl
    | cons p d => exact absurd ⟨p, List.mem_cons_self, le_refl _, ok.valid p List.mem_cons_self⟩ (noValue p.1)

/-- Meeting the domain of `x` with values that are, inside it, exactly those that meet the condition. -/
theorem meet (live : s.d x ≠ []) (ok : (s.d x).Ok) {e : Dom} (okE : e.Ok)
    (solves : ∀ y, (s.d x).Has y → (e.Has y ↔ P y)) :
    NarrowedTo P x s (s.set x (domMeet (s.d x) e)) := by
  have has (y : Int) : (domMeet (s.d x) e).Has y ↔ (s.d x).Has y ∧ P y := by
    rw [Dom.has_meet ok okE]
    exact and_congr_right (solves y)
  have empty : domMeet (s.d x) e = [] ↔ ∀ y, (s.d x).Has y → ¬ P y := by
    rw [empty_iff (ok.meet okE)]
    exact forall_congr' fun y => by rw [has, not_and]
  refine ⟨?_, fun _ y => ?_, fun v other => Search.set_other s _ other⟩
  · unfold Search.set
    split
    · rename_i same
      -- The domain stays, and it is not empty.
      exact ⟨nofun, fun noValue => absurd (same ▸ empty.mpr noValue) live⟩
    · rw [← empty, Bool.not_eq_false']
      exact List.isEmpty_iff
  · unfold Search.set
    split
    · rename_i same
      rw [← has y, same]
    · dsimp only
      rw [Function.update_self, has]

/-- Conditions that agree on the domain of `x` narrow it alike. -/
theorem congr {Q : Int → Prop} {r : Bool × Search} (same : ∀ y, (s.d x).Has y → (P y ↔ Q y))
    (here : NarrowedTo P x s r) : NarrowedTo Q x s r where
  refuted := here.refuted.trans (forall_congr' fun y => forall_congr' fun inside =>
    not_congr (same y inside))
  precise yes y := (here.precise yes y).trans (and_congr_right (same y))
  frame := here.frame

end NarrowedTo

section Equality

/-- `csp_wrap_eq` leaves exactly the values at which the form vanishes modulo `2 ^ w`. -/
theorem narrowed_wrapEq {l : Lin} {w : Nat} (live : s.d x ≠ []) (ok : (s.d x).Ok)
    (onlyOpen : l.OpenOnly s.d x) {r : Bool × Search} (done : cspWrapEq l w s = some r) :
    NarrowedTo (fun y => l.openAt s.d x y % 2 ^ w = 0) x s r := by
  unfold cspWrapEq at done
  split at done
  · cases done
  · dsimp only at done
    split at done
    · cases done
    · rename_i rest opened
      cases done
      refine NarrowedTo.told live ok fun y here => ?_
      rw [onlyOpen.constant opened here, decide_eq_true_eq]
    · rename_i rest v c opened
      obtain ⟨rfl, linear⟩ := onlyOpen.linear opened
      split at done
      · cases done
      · rename_i unit
        obtain ⟨cands, listed, rfl⟩ := Option.map_eq_some_iff.mp done
        have pos : (0 : Int) < 2 ^ w := by positivity
        refine NarrowedTo.meet live ok (ok_points (residues_sorted pos listed).1) fun y here => ?_
        obtain ⟨low, high⟩ := ok.bounds here
        rw [has_points, mem_residues_class pos listed low high, linear y here]
        have reduced := Int.dvd_self_sub_emod (x := -rest * c) (m := 2 ^ w)
        -- The coefficient is its own inverse.
        have square : c * c = 1 := by
          rcases (by omega : c = 1 ∨ c = -1) with rfl | rfl <;> rfl
        constructor
        · intro congruent
          refine Int.emod_eq_zero_of_dvd ?_
          obtain ⟨q, multiple⟩ := congruent
          obtain ⟨e, low⟩ := reduced
          refine ⟨c * q - c * e, ?_⟩
          linear_combination c * multiple - c * low - rest * square
        · intro vanishes
          obtain ⟨q, multiple⟩ := Int.dvd_of_emod_eq_zero vanishes
          obtain ⟨e, low⟩ := reduced
          refine ⟨c * q + e, ?_⟩
          linear_combination c * multiple + low - y * square

end Equality

section Membership

/-- The wrapped values aimed at are values of the type. -/
theorem target_range {set : Dom} (ok : set.Ok) {neg : Bool} {lo hi z : Int} (valid : lo ≤ hi)
    (here : Dom.Has (if neg then domMinus [(lo, hi)] set else domClip set lo hi) z) :
    lo ≤ z ∧ z ≤ hi := by
  cases neg with
  | true =>
    rw [if_pos rfl, Dom.has_minus (Dom.ok_single valid) ok] at here
    exact (Dom.has_single ..).mp here.1
  | false =>
    rw [if_neg Bool.false_ne_true, Dom.has_clip] at here
    exact here.2

/-- A number in a moved target interval wraps into the target. -/
theorem of_has_moved {target : Dom} {m rlo ylo yhi y x : Int}
    (range : ∀ z, target.Has z → rlo ≤ z ∧ z < rlo + m) (solve : Int → Int → Int × Int)
    (solved : ∀ a b, (solve a b).1 ≤ x → x ≤ (solve a b).2 → a ≤ y ∧ y ≤ b)
    (here : Dom.Has (domNorm ((domValues [(floorDiv (ylo - rlo) m, floorDiv (yhi - rlo) m)]).flatMap
      fun j => target.filterMap fun p =>
        if max (p.1 + j * m) ylo ≤ min (p.2 + j * m) yhi then
          some (solve (max (p.1 + j * m) ylo) (min (p.2 + j * m) yhi))
        else none)) x) : target.Has (rlo + (y - rlo) % m) := by
  obtain ⟨q, member, above, below⟩ := (Dom.has_norm _ _).mp here
  obtain ⟨j, -, moved⟩ := List.mem_flatMap.mp member
  obtain ⟨p, aimed, kept⟩ := List.mem_filterMap.mp moved
  split at kept
  · cases kept
    obtain ⟨low, high⟩ := solved _ _ above below
    -- Moved back by its modulus, the number is in the interval itself.
    have inside : target.Has (y - j * m) := ⟨p, aimed, by omega, by omega⟩
    obtain ⟨least, most⟩ := range _ inside
    have wrapped : (y - rlo) % m = y - j * m - rlo := by
      have moved : y - rlo = y - j * m - rlo + m * j := by ring
      rw [moved, Int.add_mul_emod_self_left]
      exact Int.emod_eq_of_lt (by omega) (by omega)
    rwa [wrapped, show rlo + (y - j * m - rlo) = y - j * m by ring]
  · cases kept

/-- `csp_wrap_set` leaves exactly the values whose wrapped result lies in the set, or outside it with
`neg`. -/
theorem narrowed_wrapSet {l : Lin} {set : Dom} {neg sg : Bool} {w : Nat} (okSet : set.Ok)
    (live : s.d x ≠ []) (ok : (s.d x).Ok) (onlyOpen : l.OpenOnly s.d x) {r : Bool × Search}
    (done : cspWrapSet l set neg w sg s = some r) :
    NarrowedTo (fun y => domHas set (wrapValue w sg (l.openAt s.d x y)) ≠ neg) x s r := by
  unfold cspWrapSet at done
  split at done
  · cases done
  · rename_i width
    have width : 0 < w ∧ w ≤ 64 := by omega
    have pos : (0 : Int) < 2 ^ w := by positivity
    have span := wsRange_span width.1 width.2 sg
    have aimed (z : Int) : Dom.Has (if neg then domMinus [wsRange w sg] set
        else domClip set (wsRange w sg).1 (wsRange w sg).2) (wrapValue w sg z) ↔
          domHas set (wrapValue w sg z) ≠ neg := by
      obtain ⟨low, high⟩ := wrapValue_range width.1 width.2 sg z
      exact has_target okSet neg low high
    have range (z : Int) (here : Dom.Has (if neg then domMinus [wsRange w sg] set
        else domClip set (wsRange w sg).1 (wsRange w sg).2) z) :
          (wsRange w sg).1 ≤ z ∧ z ≤ (wsRange w sg).2 :=
      target_range okSet (by omega) here
    simp only [← aimed]
    clear aimed
    dsimp only at done
    split at done
    · cases done
    · rename_i rest free opened
      generalize (if neg then domMinus [wsRange w sg] set
        else domClip set (wsRange w sg).1 (wsRange w sg).2) = target at *
      split at done
      · cases done
        refine NarrowedTo.told live ok fun y here => ?_
        rw [onlyOpen.constant opened here, Dom.domHas_iff]
      · rename_i v c
        obtain ⟨rfl, linear⟩ := onlyOpen.linear opened
        split at done
        · rename_i empty
          cases done
          -- Bounds the wrong way round are those of an empty domain.
          refine NarrowedTo.told live ok fun y here => ?_
          have := ok.bounds here
          omega
        · split at done
          · rename_i unit
            rcases unit with rfl | rfl
            · simp only [if_true] at done
              split at done
              · cases done
              · cases done
                refine NarrowedTo.meet live ok (Dom.ok_norm _) fun y here => ?_
                obtain ⟨low, high⟩ := ok.bounds here
                have value := linear y here
                constructor
                · exact of_has_moved (fun z inside => by have := range z inside; omega)
                    (fun a b => (a - rest, b - rest)) fun a b _ _ => by dsimp only at *; omega
                · intro inside
                  exact has_moved pos inside (wrapValue_add w sg _) (by omega) (by omega)
                    (fun a b => (a - rest, b - rest))
                    fun a b _ _ => ⟨by dsimp only; omega, by dsimp only; omega⟩
            · simp only [show ((-1 : Int) = 1) = False by decide, if_false] at done
              split at done
              · cases done
              · cases done
                refine NarrowedTo.meet live ok (Dom.ok_norm _) fun y here => ?_
                obtain ⟨low, high⟩ := ok.bounds here
                have value := linear y here
                constructor
                · exact of_has_moved (fun z inside => by have := range z inside; omega)
                    (fun a b => (rest - b, rest - a)) fun a b _ _ => by dsimp only at *; omega
                · intro inside
                  exact has_moved pos inside (wrapValue_add w sg _) (by omega) (by omega)
                    (fun a b => (rest - b, rest - a))
                    fun a b _ _ => ⟨by dsimp only; omega, by dsimp only; omega⟩
          · split at done
            · cases done
            · split at done
              · cases done
                refine NarrowedTo.told live ok fun y here => ?_
                -- The open term is a multiple of the modulus.
                rename_i all
                have same : (2 : Int) ^ w ∣ l.openAt s.d v y - rest := by
                  rw [linear y here, add_sub_cancel_left]
                  exact ((all ▸ (trailingZerosUpTo_spec c w).2.1)).mul_right _
                rw [wrapValue_congr same, Dom.domHas_iff]
              · rename_i notAll
                have small : trailingZerosUpTo c w < w := by
                  have := (trailingZerosUpTo_spec c w).1
                  omega
                obtain ⟨allowed, collected, rfl⟩ := Option.map_eq_some_iff.mp done
                refine NarrowedTo.meet live ok (Dom.ok_norm _) fun y here => ?_
                obtain ⟨low, high⟩ := ok.bounds here
                have found := mem_wrapSolutions
                  (Int.ediv_pos_of_pos_of_dvd pos (by positivity) (pow_dvd_pow 2 small.le))
                  (fun x r => wrap_root width.2 small) low high collected
                rw [Dom.has_norm, ← Dom.Has, has_points, found, or_iff_right List.not_mem_nil]
                have wrapped := dvd_sub_wrapValue w sg (l.openAt s.d v y)
                constructor
                · rintro ⟨t, member, congruent⟩
                  have inside := Dom.mem_values.mp member
                  have same : (2 : Int) ^ w ∣ l.openAt s.d v y - t := by
                    rwa [linear y here, show rest + c * y - t = c * y - (t - rest) by ring]
                  rwa [wrapValue_congr same, wrapValue_self width.1 width.2 (range t inside)]
                · intro inside
                  refine ⟨_, Dom.mem_values.mpr inside, ?_⟩
                  rw [linear y here] at wrapped ⊢
                  convert wrapped using 1
                  ring

end Membership

section Relation

/-- The open side is narrowed to exactly the wrapped values related to the other side's. -/
theorem narrowed_wrapSide {rel : Rel} {wr : Wrap} {delta k : Int} {l : Lin} {left : Bool}
    (width : 0 < wr.w ∧ wr.w ≤ 64) (unit : wr.sg = 1 ∨ wr.sg = -1) (live : s.d x ≠ [])
    (ok : (s.d x).Ok) (onlyOpen : l.OpenOnly s.d x) {r : Bool × Search}
    (done : cspWrapSide rel wr delta l k left s = some r) :
    NarrowedTo (fun y => relHolds rel (wr.sg * (if left then
      wrapValue wr.w wr.s (l.openAt s.d x y) - k else k - wrapValue wr.w wr.s (l.openAt s.d x y)) +
        delta) = true) x s r := by
  have side (y : Int) := @wrapSide_iff rel wr delta k _ left unit
    (wrapValue_range width.1 width.2 wr.s (l.openAt s.d x y))
  unfold cspWrapSide at done
  -- Each relation is one set of the wrapped value, which the set's own narrowing then meets.
  cases rel with
  | le =>
    dsimp only at done
    refine (narrowed_wrapSet (ok_interval _) live ok onlyOpen done).congr fun y _ => ?_
    rw [side y, ne_eq, Bool.not_eq_false, Dom.domHas_iff]
    exact has_interval _ _
  | eq =>
    dsimp only at done
    refine (narrowed_wrapSet (Dom.ok_single (le_refl _)) live ok onlyOpen done).congr fun y _ => ?_
    rw [side y, show decide (Rel.eq = Rel.ne) = false from rfl, ne_eq, Bool.not_eq_false,
      Dom.domHas_iff, Dom.has_single]
    exact ⟨fun same => le_antisymm same.2 same.1, fun same => ⟨same.ge, same.le⟩⟩
  | ne =>
    dsimp only at done
    refine (narrowed_wrapSet (Dom.ok_single (le_refl _)) live ok onlyOpen done).congr fun y _ => ?_
    rw [side y, show decide (Rel.ne = Rel.ne) = true from rfl, ne_eq, Dom.domHas_iff, Dom.has_single]
    exact not_congr ⟨fun same => le_antisymm same.2 same.1, fun same => ⟨same.ge, same.le⟩⟩

/-- `csp_wrap_rel` leaves exactly the values whose wrapped sides are related. -/
theorem narrowed_wrapRel {l : Lin} {rel : Rel} {fits : List Fit} {wr : Wrap} {fa fb : Fit}
    (left : fits[wr.n]? = some fa) (right : fits[wr.n + 1]? = some fb)
    (unit : wr.sg = 1 ∨ wr.sg = -1) (live : s.d x ≠ []) (ok : (s.d x).Ok)
    (openA : fa.lin.OpenOnly s.d x) (openB : fb.lin.OpenOnly s.d x) {r : Bool × Search}
    (done : cspWrapRel l rel fits wr s = some r) :
    NarrowedTo (fun y => relHolds rel (wr.sg * (wrapValue wr.w wr.s (fa.lin.openAt s.d x y) -
      wrapValue wr.w wr.s (fb.lin.openAt s.d x y)) + wr.delta l fa.lin fb.lin) = true) x s r := by
  have valueA {k : Int} (fixed : linValue s.d fa.lin = some k) {y : Int} (here : (s.d x).Has y) :
      fa.lin.openAt s.d x y = k := linValue_on (openA.within here) fixed
  have valueB {k : Int} (fixed : linValue s.d fb.lin = some k) {y : Int} (here : (s.d x).Has y) :
      fb.lin.openAt s.d x y = k := linValue_on (openB.within here) fixed
  unfold cspWrapRel at done
  rw [left, right] at done
  dsimp only at done
  -- A fixed side is a constant, and the other is narrowed against it; two open sides say nothing.
  split at done
  · cases done
  · rename_i width
    have width : 0 < wr.w ∧ wr.w ≤ 64 := by omega
    split at done
    · rename_i i j leftFixed rightFixed
      cases done
      refine NarrowedTo.told live ok fun y here => ?_
      rw [valueA leftFixed here, valueB rightFixed here]
      rfl
    · rename_i j rightFixed
      refine (narrowed_wrapSide width unit live ok openA done).congr fun y here => ?_
      rw [valueB rightFixed here]
      rfl
    · rename_i i leftFixed rightFixed
      refine (narrowed_wrapSide width unit live ok openB done).congr fun y here => ?_
      rw [valueA leftFixed here]
      rfl
    · cases done

end Relation

end Xezim
