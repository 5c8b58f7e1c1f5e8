import Mathlib.Algebra.Order.BigOperators.Group.List
import Mathlib.Tactic.Linarith
import Xezim.Csp.DomLaws
import Xezim.Csp.Meaning

/-! What the search reads off its domains and off the object holds of every assignment in them. -/

namespace Xezim

open Splice

variable {csp : Csp} {a : Nat → Int} {d : Nat → Dom} {s : Search}

section Object

/-- The bits of a place that a write touches, and those it leaves. -/
theorem testBit_cspWrite (csp : Csp) (v : Nat) (x : Int) (o : Store) (b i : Nat) :
    ((cspWrite csp v x o b).1.testBit i, (cspWrite csp v x o b).2.testBit i) =
      open Classical in
      if csp.covers v b i then (csp.wroteBit v x i, false)
      else ((o b).1.testBit i, (o b).2.testBit i) := by
  -- A plain variable owns its whole entry; a slice owns its bits of the base's entry.
  unfold cspWrite Csp.covers Csp.wroteBit
  cases (csp.var v).aux with
  | false =>
    simp only [Bool.false_eq_true, if_false]
    by_cases here : b = v
    · subst here
      simp
    · simp [here]
  | true =>
    simp only [if_true]
    cases csp.auxBase v with
    | none => simp
    | some p =>
      obtain ⟨base, lo, w⟩ := p
      by_cases here : b = base
      · subst here
        by_cases inside : lo ≤ i ∧ i < lo + w
        · simp [inside]
        · simp [inside]
      · simp [here]

/-- A position some dependency covers shows the same after writing the dependencies to either of two
objects; so does one the objects already agree on. -/
theorem written_agree (csp : Csp) (a : Nat → Int) (deps : List Nat) {o o' : Store} {b i : Nat}
    (same : (((o b).1.testBit i, (o b).2.testBit i) = ((o' b).1.testBit i, (o' b).2.testBit i)) ∨
      ∃ v ∈ deps, csp.covers v b i) :
    ((csp.written deps a o b).1.testBit i, (csp.written deps a o b).2.testBit i) =
      ((csp.written deps a o' b).1.testBit i, (csp.written deps a o' b).2.testBit i) := by
  -- A later write may cover the bit, so the stores only have to agree where none does.
  induction deps generalizing o o' with
  | nil => exact same.resolve_right (by simp)
  | cons v deps ih =>
    refine ih ?_
    rw [testBit_cspWrite, testBit_cspWrite]
    by_cases here : csp.covers v b i
    · exact .inl (by simp [here])
    · simp only [here, if_false]
      refine same.imp_right fun ⟨u, member, covered⟩ => ?_
      rcases List.mem_cons.mp member with rfl | member
      · exact absurd covered here
      · exact ⟨u, member, covered⟩

/-- Writing consistent values leaves each covered position with the bit of any variable covering it. -/
theorem written_bit (consistent : csp.Consistent a) {deps : List Nat}
    (narrow : ∀ v ∈ deps, csp.wide v = false) (o : Store) {v b i : Nat} (member : v ∈ deps)
    (covered : csp.covers v b i) :
    ((csp.written deps a o b).1.testBit i, (csp.written deps a o b).2.testBit i) =
      (csp.wroteBit v (a v) i, false) := by
  -- The induction runs from the last write back: it decides the position or leaves it.
  induction deps using List.reverseRecOn with
  | nil => exact absurd member (by simp)
  | append_singleton deps u ih =>
    have last : csp.written (deps ++ [u]) a o = cspWrite csp u (a u) (csp.written deps a o) := by
      simp [Csp.written]
    rw [last, testBit_cspWrite]
    have wideU := narrow u (by simp)
    by_cases here : csp.covers u b i
    · rw [if_pos here, consistent u v b i wideU (narrow v member) here covered]
    · rw [if_neg here]
      refine ih (fun w inside => narrow w (by simp [inside])) ?_
      rcases List.mem_append.mp member with before | last
      · exact before
      · rw [List.mem_singleton.mp last] at covered
        exact absurd covered here

/-- After its dependencies are written a source is judged by their values alone. -/
theorem Csp.Ok.judged (ok : csp.Ok) (i : Nat) (a : Nat → Int) (o : Store) :
    (csp.src i).verdict (csp.written (csp.src i).deps a o) = csp.truth i a ∧
      (csp.src i).value (csp.written (csp.src i).deps a o) = csp.valueAt i a :=
  ok.reads i _ _ fun v member _ _ covered =>
    Prod.mk.inj (written_agree csp a (csp.src i).deps (.inr ⟨v, member, covered⟩))

/-- The order in which consistent values are written does not matter. -/
theorem Csp.Ok.judged_first (ok : csp.Ok) (consistent : csp.Consistent a) (i : Nat) {u : Nat}
    (member : u ∈ (csp.src i).deps) (o : Store) :
    (csp.src i).verdict (csp.written ((csp.src i).deps.filter (· ≠ u)) a (cspWrite csp u (a u) o)) =
      csp.truth i a := by
  have narrow := ok.narrow i
  -- Writing the variable first gives the same verdict, since the source reads every bit it has.
  have order : csp.written (u :: (csp.src i).deps.filter (· ≠ u)) a o =
      csp.written ((csp.src i).deps.filter (· ≠ u)) a (cspWrite csp u (a u) o) := rfl
  rw [← order]
  refine (ok.reads i _ _ fun v dep _ _ covered => ?_).1
  -- The reordered list still covers each dependency.
  have first : v ∈ u :: (csp.src i).deps.filter (· ≠ u) := by
    by_cases same : v = u
    · simp [same]
    · simp [same, dep]
  have narrowFirst : ∀ w ∈ u :: (csp.src i).deps.filter (· ≠ u), csp.wide w = false := by
    intro w inside
    rcases List.mem_cons.mp inside with rfl | inside
    · exact narrow w member
    · exact narrow w (List.mem_of_mem_filter inside)
  exact Prod.mk.inj ((written_bit consistent narrowFirst o first covered).trans
    (written_bit consistent narrow _ dep covered).symm)

end Object

section Bounds

/-- The bounds of a domain are two of its values. -/
theorem Dom.Ok.bounds_mem {e : Dom} (ok : Dom.Ok e) (nonempty : e ≠ []) :
    Dom.Has e (domBounds e).1 ∧ Dom.Has e (domBounds e).2 := by
  -- The bounds are the low end of the first interval and the high end of the last one.
  obtain ⟨p, rest, rfl⟩ := List.exists_cons_of_ne_nil nonempty
  constructor
  · exact ⟨p, List.mem_cons_self, by simp [domBounds], by
      simpa [domBounds] using ok.valid p List.mem_cons_self⟩
  · have last := List.getLast?_eq_some_getLast nonempty
    refine ⟨_, List.getLast_mem nonempty, ?_, ?_⟩
    · simpa [domBounds, last] using ok.valid _ (List.getLast_mem nonempty)
    · simp [domBounds, last]

/-- Every value of a domain lies between its bounds. -/
theorem Dom.Ok.bounds {e : Dom} {x : Int} (ok : Dom.Ok e) (here : Dom.Has e x) :
    (domBounds e).1 ≤ x ∧ x ≤ (domBounds e).2 := by
  -- A sorted domain lies between its first and last ends; the induction is on the intervals.
  induction e with
  | nil => exact absurd here (Dom.has_nil x)
  | cons p e ih =>
    have parts := Dom.ok_cons.mp ok
    rcases (Dom.has_cons p e x).mp here with inside | rest
    · refine ⟨inside.1, ?_⟩
      cases e with
      | nil => exact inside.2
      | cons q e =>
        have last := (parts.2.2.bounds_mem (List.cons_ne_nil q e)).2
        have above := ok.above last
        have same : (domBounds (p :: q :: e)).2 = (domBounds (q :: e)).2 := by
          simp [domBounds]
        omega
    · obtain ⟨low, high⟩ := ih parts.2.2 rest
      have above := ok.above rest
      refine ⟨by simpa [domBounds] using (by have := parts.1; omega : p.1 ≤ x), ?_⟩
      cases e with
      | nil => exact absurd rest (Dom.has_nil x)
      | cons q e =>
        have same : (domBounds (p :: q :: e)).2 = (domBounds (q :: e)).2 := by
          simp [domBounds]
        omega

/-- The bounds of a fixed domain are its value. -/
theorem bounds_of_fixed {e : Dom} {x : Int} (fixed : domFixed e = some x) :
    domBounds e = (x, x) := by
  rw [Dom.has_of_fixed fixed]
  rfl

/-- The extremes of one term over the bounds of its variable. -/
def termMin (d : Nat → Dom) (p : Nat × Int) : Int :=
  if 0 < p.2 then p.2 * (domBounds (d p.1)).1 else p.2 * (domBounds (d p.1)).2

/-- The other extreme. -/
def termMax (d : Nat → Dom) (p : Nat × Int) : Int :=
  if 0 < p.2 then p.2 * (domBounds (d p.1)).2 else p.2 * (domBounds (d p.1)).1

/-- The bounds of a linear form are the sums of the extremes of its terms. -/
theorem linBounds_eq (d : Nat → Dom) (l : Lin) :
    linBounds d l = (l.k + (l.t.map (termMin d)).sum, l.k + (l.t.map (termMax d)).sum) := by
  -- The fold adds one term's bounds at a time to the accumulator.
  have run : ∀ (t : List (Nat × Int)) (acc : Int × Int),
      t.foldl (fun (acc : Int × Int) (p : Nat × Int) =>
        if 0 < p.2 then (acc.1 + p.2 * (domBounds (d p.1)).1, acc.2 + p.2 * (domBounds (d p.1)).2)
        else (acc.1 + p.2 * (domBounds (d p.1)).2, acc.2 + p.2 * (domBounds (d p.1)).1)) acc =
      (acc.1 + (t.map (termMin d)).sum, acc.2 + (t.map (termMax d)).sum) := by
    intro t
    induction t with
    | nil => simp
    | cons p t ih =>
      intro acc
      rw [List.foldl_cons, ih]
      by_cases pos : 0 < p.2
      · simp [termMin, termMax, pos, add_assoc]
      · simp [termMin, termMax, pos, add_assoc]
  exact run l.t (l.k, l.k)

/-- A term lies between its extremes. -/
theorem term_bounds (ok : ∀ v, (d v).Ok) (within : Within a d) (p : Nat × Int) :
    termMin d p ≤ p.2 * a p.1 ∧ p.2 * a p.1 ≤ termMax d p := by
  -- A negative coefficient swaps the ends.
  obtain ⟨low, high⟩ := (ok p.1).bounds (within p.1)
  unfold termMin termMax
  split
  · rename_i pos
    exact ⟨Int.mul_le_mul_of_nonneg_left low pos.le, Int.mul_le_mul_of_nonneg_left high pos.le⟩
  · rename_i neg
    have nonpos : p.2 ≤ 0 := not_lt.mp neg
    exact ⟨Int.mul_le_mul_of_nonpos_left nonpos high, Int.mul_le_mul_of_nonpos_left nonpos low⟩

/-- The terms of a form, all but one, lie between the sums of their extremes. -/
theorem terms_bounds (ok : ∀ v, (d v).Ok) (within : Within a d) (t : List (Nat × Int)) :
    (t.map (termMin d)).sum ≤ (t.map fun p => p.2 * a p.1).sum ∧
      (t.map fun p => p.2 * a p.1).sum ≤ (t.map (termMax d)).sum :=
  ⟨List.sum_le_sum fun p _ => (term_bounds ok within p).1,
    List.sum_le_sum fun p _ => (term_bounds ok within p).2⟩

/-- The value of a linear form lies between its bounds. -/
theorem linBounds_at (ok : ∀ v, (d v).Ok) (within : Within a d) (l : Lin) :
    (linBounds d l).1 ≤ l.at a ∧ l.at a ≤ (linBounds d l).2 := by
  obtain ⟨low, high⟩ := terms_bounds ok within l.t
  rw [linBounds_eq, Lin.at]
  exact ⟨by dsimp only; omega, by dsimp only; omega⟩

/-- One term of a form may differ from its extreme only by what the whole form does. -/
theorem term_slack (ok : ∀ v, (d v).Ok) (within : Within a d) (l : Lin) {p : Nat × Int}
    (member : p ∈ l.t) :
    p.2 * a p.1 - termMin d p ≤ l.at a - (linBounds d l).1 ∧
      termMax d p - p.2 * a p.1 ≤ (linBounds d l).2 - l.at a := by
  obtain ⟨rest, split⟩ : ∃ rest : List (Nat × Int), ∀ f : Nat × Int → Int,
      f p + (rest.map f).sum = (l.t.map f).sum := ⟨_, fun f => List.sum_map_erase f member⟩
  obtain ⟨low, high⟩ := terms_bounds ok within rest
  rw [linBounds_eq, Lin.at, ← split (termMin d), ← split (termMax d), ← split fun p => p.2 * a p.1]
  exact ⟨by dsimp only; omega, by dsimp only; omega⟩

/-- The bounds of a form whose variables are fixed are its value. -/
theorem linBounds_fixed {l : Lin} (fixed : ∀ p ∈ l.t, domFixed (d p.1) = some (a p.1)) :
    linBounds d l = (l.at a, l.at a) := by
  have same (p : Nat × Int) (member : p ∈ l.t) : termMin d p = p.2 * a p.1 ∧
      termMax d p = p.2 * a p.1 := by
    simp [termMin, termMax, bounds_of_fixed (fixed p member)]
  rw [linBounds_eq, Lin.at, List.map_congr_left fun p member => (same p member).1,
    List.map_congr_left fun p member => (same p member).2]

/-- A fit that holds of the bounds holds of every assignment in the domains. -/
theorem fitHolds_sound (ok : ∀ v, (d v).Ok) (within : Within a d) {f : Fit}
    (holds : fitHolds d f = true) : f.Holds a := by
  simp only [fitHolds, Bool.and_eq_true, decide_eq_true_eq] at holds
  have := linBounds_at ok within f.lin
  exact ⟨by omega, by omega⟩

/-- `St::fits_hold` is sound. -/
theorem fitsHold_sound (ok : ∀ v, (d v).Ok) (within : Within a d) {fits : List Fit}
    (holds : fitsHold d fits = true) : ∀ f ∈ fits, f.Holds a :=
  fun f member => fitHolds_sound ok within (List.all_eq_true.mp holds f member)

/-- `St::fits_hold_mod` is sound. -/
theorem fitsHoldMod_sound (ok : ∀ v, (d v).Ok) (within : Within a d) {fits : List Fit} {w : Nat}
    (holds : fitsHoldMod d fits w = true) : ∀ f ∈ fits, f.HoldsMod w a := by
  intro f member
  have here := List.all_eq_true.mp holds f member
  simp only [Bool.or_eq_true, decide_eq_true_eq] at here
  exact here.imp_right (fitHolds_sound ok within)

/-- Fits over fixed variables hold exactly when `St::fits_hold` says so. -/
theorem fitsHold_fixed {fits : List Fit}
    (fixed : ∀ f ∈ fits, ∀ p ∈ f.lin.t, domFixed (d p.1) = some (a p.1)) :
    fitsHold d fits = true ↔ ∀ f ∈ fits, f.Holds a := by
  simp only [fitsHold, List.all_eq_true]
  refine forall₂_congr fun f member => ?_
  simp [fitHolds, linBounds_fixed (fixed f member), Fit.Holds]

end Bounds

end Xezim
