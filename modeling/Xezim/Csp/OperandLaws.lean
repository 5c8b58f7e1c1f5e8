import Mathlib.Tactic.Ring
import Mathlib.Tactic.LinearCombination
import Xezim.Csp.Operand
import Xezim.Csp.WrapLaws

/-! The linear form of an operand against its value: they agree modulo the width of any context, as far
as the recorded fits hold. -/

namespace Xezim

variable {a : Nat → Int}

namespace Lin

@[simp] theorem konst_at (k : Int) (a : Nat → Int) : (konst k).at a = k := by simp [konst, Lin.at]

@[simp] theorem var_at (v : Nat) (a : Nat → Int) : (var v).at a = a v := by simp [var, Lin.at]

/-- Adding up neighbouring terms keeps the sum. -/
theorem sum_mergeTerms (t : List (Nat × Int)) :
    ((mergeTerms t).map fun p => p.2 * a p.1).sum = (t.map fun p => p.2 * a p.1).sum := by
  induction t with
  | nil => rfl
  | cons p t ih =>
    rw [mergeTerms, List.map_cons, List.sum_cons, ← ih]
    -- A term is added to the merged rest, whose first term may have the same variable.
    cases mergeTerms t with
    | nil => rfl
    | cons q r =>
      dsimp only
      split
      · rename_i same
        simp only [List.map_cons, List.sum_cons, same]
        ring
      · rfl

/-- Multiplying every coefficient multiplies the sum. -/
theorem sum_scaled (t : List (Nat × Int)) (c : Int) :
    ((t.map fun p => (p.1, p.2 * c)).map fun p => p.2 * a p.1).sum =
      c * (t.map fun p => p.2 * a p.1).sum := by
  induction t with
  | nil => simp
  | cons p t ih =>
    simp only [List.map_cons, List.sum_cons] at ih ⊢
    rw [ih]
    ring

/-- Terms without a coefficient do not count. -/
theorem sum_filter (t : List (Nat × Int)) :
    ((t.filter fun p => p.2 ≠ 0).map fun p => p.2 * a p.1).sum = (t.map fun p => p.2 * a p.1).sum := by
  induction t with
  | nil => rfl
  | cons p t ih =>
    -- A term of coefficient zero adds nothing.
    by_cases zero : p.2 = 0
    · rw [List.filter_cons_of_neg (by simpa using zero), ih]
      simp [zero]
    · rw [List.filter_cons_of_pos (by simpa using zero), List.map_cons, List.map_cons, List.sum_cons,
        List.sum_cons, ih]

/-- Normalising keeps the value. -/
theorem norm_at {l m : Lin} (made : l.norm = some m) : m.at a = l.at a := by
  unfold norm at made
  dsimp only at made
  split at made
  · cases made
  · cases made
    -- Sorting only permutes the terms.
    have sorted := (List.perm_insertionSort (fun p q : Nat × Int => p.1 ≤ q.1) l.t).map
      fun p => p.2 * a p.1
    unfold Lin.at
    rw [sum_filter, sum_mergeTerms, sorted.sum_eq]

/-- `Lin::plus` adds a multiple. -/
theorem plus_at {l o m : Lin} {sgn : Int} (made : l.plus o sgn = some m) :
    m.at a = l.at a + sgn * o.at a := by
  rw [norm_at made]
  unfold Lin.at
  dsimp only
  rw [List.map_append, List.sum_append, sum_scaled]
  ring

/-- `Lin::scale` multiplies. -/
theorem scale_at {l m : Lin} {c : Int} (made : l.scale c = some m) : m.at a = c * l.at a := by
  rw [norm_at made]
  unfold Lin.at
  dsimp only
  rw [sum_scaled]
  ring

/-- A form without terms is its constant. -/
theorem at_of_nil {l : Lin} (empty : l.t = []) : l.at a = l.k := by simp [Lin.at, empty]

end Lin

section Wrapping

/-- A number of a type that is not negative is one of the unsigned type. -/
theorem wsRange_unsigned {w : Nat} {s : Bool} {x : Int} (pos : 0 < w) (narrow : w ≤ 64)
    (range : (wsRange w s).1 ≤ x ∧ x ≤ (wsRange w s).2) (nonneg : 0 ≤ x) :
    (wsRange w false).1 ≤ x ∧ x ≤ (wsRange w false).2 := by
  have span := wsRange_span pos narrow s
  have unsigned := wsRange_span pos narrow false
  -- Both types reach up to their size from a low end that is not positive.
  have zero : (wsRange w false).1 = 0 := rfl
  have low : (wsRange w s).1 ≤ 0 := by
    cases s with
    | true =>
      have : (0 : Int) < 2 ^ (min (max w 1) 64 - 1) := by positivity
      simp only [wsRange, if_true]
      omega
    | false => exact le_of_eq rfl
  omega

/-- A divisor among the powers of two. -/
theorem two_pow_min_dvd {i j k : Nat} {x : Int} (low : min i j ≤ k) (same : (2 : Int) ^ k ∣ x) :
    (2 : Int) ^ min i j ∣ x :=
  (pow_dvd_pow 2 low).trans same

end Wrapping

namespace Ae

/-- A value taken modulo the width of the context agrees with the number it is taken of. -/
theorem congr_emod {n : Int} {x y : Int} {W m : Nat} (same : (2 : Int) ^ min W m ∣ n - x)
    (here : y = x % 2 ^ W) : (2 : Int) ^ min W m ∣ n - y := by
  have rest : (2 : Int) ^ min W m ∣ x - y := by
    rw [here]
    exact two_pow_min_dvd (min_le_left _ _) (Int.dvd_self_sub_emod)
  have both := dvd_add same rest
  rwa [sub_add_sub_cancel] at both

/-- A variable read as its number is the extended leaf, as far as its fit holds. -/
theorem var_congr {v vw w W m : Nat} {vs s : Bool} (pos : 0 < vw) (narrow : vw ≤ 64)
    (range : (wsRange vw vs).1 ≤ a v ∧ a v ≤ (wsRange vw vs).2)
    (hold : ∀ f ∈ varFits v vw vs w s, f.HoldsMod m a) :
    (2 : Int) ^ min W m ∣ a v - wrapValue vw (vs && s) (a v) := by
  -- Only a signed variable in an unsigned context is read otherwise than it is.
  by_cases extended : vs = true ∧ s = false
  · obtain ⟨rfl, rfl⟩ := extended
    have here := hold _ (List.mem_singleton_self _)
    -- The fit then asks for a value that is not negative, unless the variable is wide enough.
    rcases here with big | holds
    · dsimp only at big
      split at big
      · exact two_pow_min_dvd ((min_le_right _ _).trans big) (dvd_sub_wrapValue _ _ _)
      · rw [show m = 0 by omega, Nat.min_zero, pow_zero]
        exact one_dvd _
    · have nonneg : 0 ≤ a v := by simpa using holds.1
      rw [show (true && false) = false from rfl,
        wrapValue_self pos narrow (wsRange_unsigned pos narrow range nonneg), sub_self]
      exact dvd_zero _
  · -- In every other case the variable is read by its own sign, and its value is in its own type.
    have same : (vs && s) = vs := by
      cases vs <;> cases s <;> simp_all
    rw [same, wrapValue_self pos narrow range, sub_self]
    exact dvd_zero _

/-- A sub-result that agrees with its value at its own width agrees with the leaf it is extended to, as
far as its fit holds. -/
theorem leaf_congr {l : Lin} {e : Int} {iw cw w W m : Nat} {is cs s : Bool} (pos : 0 < cw)
    (narrow : cw ≤ 64) (same : (2 : Int) ^ min iw m ∣ l.at a - e) (wide : cw ≤ iw ∨ l.at a = e)
    (hold : (leafFit l iw is cw cs w s).HoldsMod m a) :
    (2 : Int) ^ min W m ∣ l.at a - wrapValue cw (cs && s) e := by
  -- Modulo the smaller of the fit's and the leaf's width nothing is lost.
  have small (low : m ≤ cw) : (2 : Int) ^ min W m ∣ l.at a - wrapValue cw (cs && s) e := by
    have inner : (2 : Int) ^ m ∣ l.at a - e := by
      rcases wide with wide | zero
      · rwa [min_eq_right (low.trans wide)] at same
      · rw [zero, sub_self]
        exact dvd_zero _
    have outer := (pow_dvd_pow (2 : Int) low).trans (dvd_sub_wrapValue cw (cs && s) e)
    refine two_pow_min_dvd (min_le_right _ _) ?_
    have both := dvd_add inner outer
    rwa [sub_add_sub_cancel] at both
  by_cases low : m ≤ cw
  · exact small low
  · have holds := hold.resolve_left fun big => by
      unfold leafFit at big
      dsimp only at big
      split at big <;> omega
    -- The form lies in the type, so it is the wrapped value itself.
    have range : (wsRange cw cs).1 ≤ l.at a ∧ l.at a ≤ (wsRange cw cs).2 := by
      have lower := holds.1
      have upper := holds.2
      unfold leafFit at lower upper
      dsimp only at lower upper
      split at lower <;> constructor <;> omega
    have wrapped : wrapValue cw (cs && s) (l.at a) = l.at a := by
      by_cases extended : cs = true ∧ s = false
      · obtain ⟨rfl, rfl⟩ := extended
        have lower := holds.1
        unfold leafFit at lower
        dsimp only at lower
        rw [if_pos (by simp)] at lower
        exact wrapValue_self pos narrow (wsRange_unsigned pos narrow range (by omega))
      · have same : (cs && s) = cs := by
          cases cs <;> cases s <;> simp_all
        rw [same, wrapValue_self pos narrow range]
    have agree : (2 : Int) ^ cw ∣ e - l.at a := by
      rcases wide with wide | zero
      · rw [← neg_sub]
        exact (dvd_neg).mpr ((pow_dvd_pow 2 (by omega)).trans same)
      · rw [zero, sub_self]
        exact dvd_zero _
    rw [wrapValue_congr agree, wrapped, sub_self]
    exact dvd_zero _

end Ae

namespace LinCx

variable {cx cx' cx'' : LinCx}

/-- A context that only got more carries. -/
structure Grows (cx cx' : LinCx) : Prop where
  base : cx'.base = cx.base
  made : cx'.made = cx.made
  carries : cx.carries <+: cx'.carries

theorem Grows.refl (cx : LinCx) : Grows cx cx := ⟨rfl, rfl, List.prefix_rfl⟩

theorem Grows.trans (first : Grows cx cx') (second : Grows cx' cx'') : Grows cx cx'' :=
  ⟨second.base.trans first.base, second.made.trans first.made, first.carries.trans second.carries⟩

/-- What a context ties, a smaller one ties. -/
theorem Tied.shrink (tied : cx'.Tied a) (grows : Grows cx cx') : cx.Tied a := by
  refine ⟨grows.made ▸ tied.1, fun i c here => ?_⟩
  rw [← grows.base]
  refine tied.2 i c ?_
  obtain ⟨more, whole⟩ := grows.carries
  rw [← whole, List.getElem?_append_left (List.getElem?_eq_some_iff.mp here).1, here]

/-- Giving a sum a variable. -/
theorem carry_grows {acc : Lin} {w v : Nat} {s : Bool} (made : cx.carry acc w s = some (v, cx')) :
    Grows cx cx' := by
  obtain ⟨c, -, made⟩ := Option.bind_eq_some_iff.mp made
  -- The variable comes from the sums already made, from the carries pending or from a new carry.
  split at made
  · cases made
    exact Grows.refl cx
  · split at made
    · cases made
      exact Grows.refl cx
    · cases made
      -- Only the new one adds to the list, at its end.
      exact ⟨rfl, rfl, List.prefix_append _ _⟩

/-- The variable of a sum has the value of the sum at its own width. -/
theorem carried_value {acc : Lin} {w v : Nat} {s : Bool} (pos : 0 < w) (narrow : w ≤ 64)
    (carried : Carried a acc w s v) : a v = wrapValue w s (acc.at a) := by
  obtain ⟨⟨l, made, zero⟩, range⟩ := carried
  rw [Lin.plus_at made] at zero
  simp only [Lin.at, List.map_cons, List.map_nil, List.sum_cons, List.sum_nil, one_mul] at zero
  rw [← wrapValue_self pos narrow range]
  refine wrapValue_congr ⟨-a (v + 1), ?_⟩
  unfold Lin.at
  linear_combination -zero

/-- The variable a sum is given is tied to it. -/
theorem carry_value {acc : Lin} {w v : Nat} {s : Bool} (made : cx.carry acc w s = some (v, cx'))
    (tied : cx'.Tied a) : Carried a acc w s v := by
  obtain ⟨c, overflow, made⟩ := Option.bind_eq_some_iff.mp made
  split at made
  · -- A sum already made is found by its terms, width and sign, and its variable stands for it.
    rename_i e found
    cases made
    obtain ⟨rfl, rfl, rfl⟩ : e.1 = acc ∧ e.2.1 = w ∧ e.2.2.1 = s := by
      simpa using List.find?_some found
    exact tied.1 e (List.mem_of_find?_eq_some found)
  · -- So is a carry that is still pending.
    split at made
    · rename_i i found
      cases made
      obtain ⟨here, matched, -⟩ := List.findIdx?_eq_some_iff_getElem.mp found
      obtain ⟨rfl, rfl, rfl⟩ : cx.carries[i].acc = acc ∧ cx.carries[i].w = w ∧ cx.carries[i].s = s := by
        simpa using matched
      exact tied.2 i _ (List.getElem?_eq_getElem here)
    · -- A new carry is the last of the list.
      cases made
      have same : c.acc = acc ∧ c.w = w ∧ c.s = s := by
        obtain ⟨r, -, overflow⟩ := Option.bind_eq_some_iff.mp overflow
        dsimp only at overflow
        split at overflow
        · cases overflow
        · split at overflow
          · cases overflow
          · cases overflow
            exact ⟨rfl, rfl, rfl⟩
      obtain ⟨rfl, rfl, rfl⟩ := same
      exact tied.2 cx.carries.length c List.getElem?_concat_length

end LinCx

namespace Ae

section Grows

open LinCx

mutual

/-- Translating an operand only adds carries. -/
theorem lin_grows [WordRead] : ∀ (e : Ae) {w : Nat} {s : Bool} {cx cx' : LinCx} {l : Lin} {fits : List Fit},
    lin e w s cx = some (l, fits, cx') → Grows cx cx'
  -- No operand adds to the carries except a sum that may overflow.
  | .var .., _, _, cx, _, _, _, made => by
    cases made
    exact Grows.refl cx
  | .const _, _, _, cx, _, _, _, made => by
    obtain ⟨raw, -, made⟩ := Option.bind_eq_some_iff.mp made
    cases made
    exact Grows.refl cx
  | .neg x, _, _, cx, _, _, _, made => by
    obtain ⟨⟨l, fits, cx1⟩, here, made⟩ := Option.bind_eq_some_iff.mp made
    obtain ⟨m, -, made⟩ := Option.bind_eq_some_iff.mp made
    cases made
    exact lin_grows x here
  | .shl x k, w, _, cx, _, _, _, made => by
    unfold lin at made
    split at made
    · cases made
      exact Grows.refl cx
    · obtain ⟨⟨l, fits, cx1⟩, here, made⟩ := Option.bind_eq_some_iff.mp made
      obtain ⟨m, -, made⟩ := Option.bind_eq_some_iff.mp made
      cases made
      exact lin_grows x here
  -- The right operand starts from the carries of the left one.
  | .add l r, _, _, _, _, _, _, made | .sub l r, _, _, _, _, _, _, made => by
    obtain ⟨⟨x, fx, cx1⟩, first, made⟩ := Option.bind_eq_some_iff.mp made
    obtain ⟨⟨y, fy, cx2⟩, second, made⟩ := Option.bind_eq_some_iff.mp made
    obtain ⟨m, -, made⟩ := Option.bind_eq_some_iff.mp made
    cases made
    exact (lin_grows l first).trans (lin_grows r second)
  -- A product is linear only where one of its sides is a constant.
  | .mul l r, _, _, _, _, _, _, made => by
    obtain ⟨⟨x, fx, cx1⟩, first, made⟩ := Option.bind_eq_some_iff.mp made
    obtain ⟨⟨y, fy, cx2⟩, second, made⟩ := Option.bind_eq_some_iff.mp made
    dsimp only at made
    have grown := (lin_grows l first).trans (lin_grows r second)
    split at made
    · obtain ⟨m, -, made⟩ := Option.bind_eq_some_iff.mp made
      cases made
      exact grown
    · split at made
      · obtain ⟨m, -, made⟩ := Option.bind_eq_some_iff.mp made
        cases made
        exact grown
      · cases made
  -- The terms may carry, and then the sum itself may.
  | .sum terms sw ss, _, _, _, _, _, _, made => by
    obtain ⟨⟨acc, fits, cx1⟩, first, made⟩ := Option.bind_eq_some_iff.mp made
    have grown := sumLin_grows terms first
    dsimp only at made
    split at made
    · rename_i v cx2 carried
      cases made
      exact grown.trans (carry_grows carried)
    · cases made
      exact grown
  | .cast inner iw is _ _, _, _, _, _, _, _, made => by
    obtain ⟨⟨l, fits, cx1⟩, here, made⟩ := Option.bind_eq_some_iff.mp made
    cases made
    exact lin_grows inner here

/-- Translating the terms of a reduction only adds carries. -/
theorem sumLin_grows [WordRead] : ∀ (terms : List Ae) {w : Nat} {s : Bool} {acc : Lin} {cx cx' : LinCx} {l : Lin}
    {fits : List Fit}, sumLin terms w s acc cx = some (l, fits, cx') → Grows cx cx'
  | [], _, _, _, cx, _, _, _, made => by
    cases made
    exact Grows.refl cx
  -- Each term starts from the carries of the terms before it.
  | t :: ts, _, _, _, _, _, _, _, made => by
    obtain ⟨⟨l, fits, cx1⟩, first, made⟩ := Option.bind_eq_some_iff.mp made
    obtain ⟨m, -, made⟩ := Option.bind_eq_some_iff.mp made
    obtain ⟨⟨acc, more, cx2⟩, second, made⟩ := Option.bind_eq_some_iff.mp made
    cases made
    exact (lin_grows t first).trans (sumLin_grows ts second)

end

end Grows

/-- Nothing is lost between a width and itself. -/
theorem keepsShifts_self (w : Nat) : ∀ e : Ae, KeepsShifts w w e
  | .neg x => keepsShifts_self w x
  | .shl x k => ⟨lt_or_ge k w, keepsShifts_self w x⟩
  | .add l r | .sub l r | .mul l r => ⟨keepsShifts_self w l, keepsShifts_self w r⟩
  | .var .. | .const _ | .sum .. | .cast .. => True.intro

/-- Operands are of 1 to 64 bits. -/
theorem ws_width : ∀ {e : Ae}, Ok a e → 0 < (ws e).1 ∧ (ws e).1 ≤ 64
  | .var .., ok => ⟨ok.1, ok.2.1⟩
  | .const _, ok => ⟨ok.pos, ok.narrow⟩
  | .neg x, ok => ws_width (e := x) ok
  | .shl x _, ok => ws_width (e := x) ok
  | .add l r, ok | .sub l r, ok | .mul l r, ok => by
    have left := ws_width (e := l) ok.1
    have right := ws_width (e := r) ok.2
    simp only [ws]
    omega
  | .sum .., ok => ⟨ok.1, ok.2.1⟩
  | .cast .., ok => ⟨ok.2.2.1, ok.2.2.2.1⟩

/-- A value in a context of `W` bits is a number of `W` bits. -/
theorem value_range (a : Nat → Int) (e : Ae) (W : Nat) (s : Bool) :
    0 ≤ value a e W s ∧ value a e W s < 2 ^ W := by
  have m : (0 : Int) < 2 ^ W := by positivity
  cases e <;> (rw [value]; exact ⟨Int.emod_nonneg _ m.ne', Int.emod_lt_of_pos _ m⟩)

section DropShifts

variable {w : Nat}

theorem ws_dropShifts : ∀ e : Ae, ws (dropShifts w e) = ws e
  | .var .. | .const _ | .sum .. | .cast .. => rfl
  | .neg x => ws_dropShifts x
  -- A shift beyond the width is dropped, and the width is that of the shifted operand.
  | .shl x k => by
    unfold dropShifts
    split
    · rfl
    · exact ws_dropShifts x
  | .add l r | .sub l r | .mul l r => by
    simp only [dropShifts, ws, ws_dropShifts l, ws_dropShifts r]

theorem ok_dropShifts : ∀ {e : Ae}, Ok a e → Ok a (dropShifts w e)
  | .var .., ok | .const _, ok | .sum .., ok | .cast .., ok => ok
  | .neg x, ok => ok_dropShifts (e := x) ok
  -- A dropped shift leaves the constant zero.
  | .shl x k, ok => by
    unfold dropShifts
    split
    · have width := ws_width (e := x) ok
      exact ⟨width.1, width.2, rfl, Nat.two_pow_pos _, rfl⟩
    · exact ok_dropShifts (e := x) ok
  | .add l r, ok | .sub l r, ok | .mul l r, ok =>
    ⟨ok_dropShifts (e := l) ok.1, ok_dropShifts (e := r) ok.2⟩

/-- What is left shifts by less than `w`. -/
theorem keeps_dropShifts {W : Nat} : ∀ e : Ae, KeepsShifts w W (dropShifts w e)
  | .var .. | .const _ | .sum .. | .cast .. => True.intro
  | .neg x => keeps_dropShifts x
  | .shl x k => by
    unfold dropShifts
    split
    · exact True.intro
    · exact ⟨.inl (by omega), keeps_dropShifts x⟩
  | .add l r | .sub l r | .mul l r => ⟨keeps_dropShifts l, keeps_dropShifts r⟩

/-- `csp_lin` reads such shifts as zero. -/
theorem lin_dropShifts [WordRead] [LawfulWordRead] : ∀ (e : Ae) (s : Bool) (cx : LinCx), lin
    (dropShifts w e) w s cx = lin e w s cx
  | .var .., _, _ | .const _, _, _ | .sum .., _, _ | .cast .., _, _ => rfl
  | .neg x, s, cx => by
    unfold dropShifts lin
    rw [lin_dropShifts x]
  -- Shifting everything out and reading the constant zero are the same.
  | .shl x k, s, cx => by
    unfold dropShifts
    by_cases far : w ≤ k
    · rw [if_pos far, lin, lin, if_pos far]
      rw [toU64_small rfl rfl (Nat.two_pow_pos 64)]
      simp [asCtx, bitsAt]
    · rw [if_neg far, lin, lin, lin_dropShifts x]
  | .add l r, s, cx | .sub l r, s, cx | .mul l r, s, cx => by
    unfold dropShifts lin
    simp only [lin_dropShifts l, lin_dropShifts r]

end DropShifts

/-- A known constant of at most 64 bits is read as its number. -/
theorem asCtx_eq {c : Value} {s : Bool} (pos : 0 < c.width) (narrow : c.width ≤ 64)
    (fits : c.val < 2 ^ c.width) (signs : s = true → c.isSigned = true) :
    asCtx c.val c.width s = wrapValue c.width (c.isSigned && s) c.val := by
  -- The value has no bits above its width.
  have bits : bitsAt c.val c.width = c.val := by
    unfold bitsAt
    rw [Int.emod_eq_of_lt (by omega) (by exact_mod_cast fits), Int.toNat_natCast]
  have same : (c.isSigned && s) = s := by
    cases s <;> simp_all
  have half : (2 : Int) ^ c.width = 2 * 2 ^ (c.width - 1) := by
    rw [← pow_succ', Nat.sub_add_cancel pos]
  have below : (c.val : Int) < 2 ^ c.width := by exact_mod_cast fits
  unfold asCtx
  -- A signed reading takes the width off where the top bit is set.
  dsimp only
  rw [bits, same]
  cases s with
  | false =>
    rw [if_neg (by simp)]
    refine (wrapValue_self pos narrow ?_).symm
    have span := wsRange_span pos narrow false
    have zero : (wsRange c.width false).1 = 0 := rfl
    omega
  | true =>
    have span := wsRange_span pos narrow true
    have low : (wsRange c.width true).1 = -2 ^ (c.width - 1) := by
      simp only [wsRange, if_true]
      rw [show min (max c.width 1) 64 = c.width by omega]
    -- The top bit is set exactly from half the range on.
    have top : c.val.testBit (c.width - 1) = true ↔ (2 : Int) ^ (c.width - 1) ≤ c.val := by
      have natHalf : 2 ^ c.width = 2 * 2 ^ (c.width - 1) := by
        rw [← pow_succ', Nat.sub_add_cancel pos]
      have small : c.val / 2 ^ (c.width - 1) < 2 := Nat.div_lt_of_lt_mul (by omega)
      rw [Nat.testBit_eq_decide_div_mod_eq, decide_eq_true_eq, Nat.mod_eq_of_lt small]
      have := Nat.div_lt_iff_lt_mul (Nat.two_pow_pos (c.width - 1)) (x := c.val) (y := 1)
      constructor
      · intro one
        have : 2 ^ (c.width - 1) ≤ c.val := by omega
        exact_mod_cast this
      · intro big
        have : 2 ^ (c.width - 1) ≤ c.val := by exact_mod_cast big
        omega
    by_cases negative : c.val.testBit (c.width - 1) = true
    · rw [if_pos ⟨rfl, pos, by omega, negative⟩]
      have big := top.mp negative
      -- Subtracting the range is a wrap to the same class.
      rw [← wrapValue_self (s := true) pos narrow (x := c.val - 2 ^ c.width) (by omega)]
      exact wrapValue_congr ⟨-1, by ring⟩
    · rw [if_neg fun here => negative here.2.2.2]
      have small := mt top.mpr negative
      exact (wrapValue_self pos narrow (by omega)).symm

/-- Numbers that agree modulo the width of a type, or modulo `2 ^ m`, wrap to numbers that agree modulo
`2 ^ m`. -/
theorem wrapped_congr {w W m : Nat} {s : Bool} {x y : Int} (same : (2 : Int) ^ min w m ∣ x - y) :
    (2 : Int) ^ min W m ∣ wrapValue w s x - wrapValue w s y := by
  -- Up to the wrapped width equal classes have equal values.
  by_cases narrower : w ≤ m
  · rw [min_eq_left narrower] at same
    rw [wrapValue_congr same, sub_self]
    exact dvd_zero _
  · rw [min_eq_right (by omega)] at same
    -- Beyond it both sides are moved by multiples of their own range, which the smaller power divides.
    have small : m ≤ w := by omega
    have left := (pow_dvd_pow (2 : Int) small).trans (dvd_sub_wrapValue w s x)
    have right := (pow_dvd_pow (2 : Int) small).trans (dvd_sub_wrapValue w s y)
    refine two_pow_min_dvd (min_le_right _ _) ?_
    have all := dvd_add (dvd_sub same left) right
    rwa [show x - y - (x - wrapValue w s x) + (y - wrapValue w s y) =
      wrapValue w s x - wrapValue w s y by ring] at all

/-- Fits of a list hold in any part of it. -/
theorem hold_left {m : Nat} {xs ys : List Fit} (hold : ∀ f ∈ xs ++ ys, f.HoldsMod m a) :
    (∀ f ∈ xs, f.HoldsMod m a) ∧ ∀ f ∈ ys, f.HoldsMod m a :=
  List.forall_mem_append.mp hold

/-- Products of numbers that agree modulo a number agree. -/
theorem mul_congr {n x y x' y' : Int} (left : n ∣ x - x') (right : n ∣ y - y') : n ∣ x * y - x' * y' := by
  have both := dvd_add (left.mul_right y) (right.mul_left x')
  rwa [sub_mul, mul_sub, sub_add_sub_cancel] at both

mutual

/-- The linear form of an operand agrees with its value in a context of `W` bits modulo `2 ^ W`, or
modulo `2 ^ m` when the fits hold modulo `2 ^ m` only. -/
theorem lin_congr [WordRead] [LawfulWordRead] : ∀ (e : Ae) {w W m : Nat} {s : Bool} {cx cx' : LinCx} {l : Lin}
    {fits : List Fit},
    lin e w s cx = some (l, fits, cx') → cx'.Tied a → Ok a e → (s = true → (ws e).2 = true) →
      KeepsShifts w W e → (∀ f ∈ fits, f.HoldsMod m a) → (2 : Int) ^ min W m ∣ l.at a - value a e W s
  | .var v vw vs, w, W, m, s, _, _, _, _, made, _, ok, _, _, hold => by
    cases made
    obtain ⟨pos, narrow, range⟩ := ok
    rw [Lin.var_at]
    exact congr_emod (var_congr pos narrow range hold) (by rw [value])
  | .const c, _, W, m, s, _, _, _, _, made, _, ok, signs, _, _ => by
    obtain ⟨raw, known, made⟩ := Option.bind_eq_some_iff.mp made
    cases made
    obtain rfl : c.val = raw := Option.some.inj (ok.toU64_eq.symm.trans known)
    rw [Lin.konst_at, asCtx_eq ok.pos ok.narrow ok.small signs]
    refine congr_emod ?_ (by rw [value])
    rw [sub_self]
    exact dvd_zero _
  | .neg x, w, W, m, s, _, _, _, _, made, tied, ok, signs, keeps, hold => by
    obtain ⟨⟨l, fits, cx1⟩, here, made⟩ := Option.bind_eq_some_iff.mp made
    obtain ⟨n, scaled, made⟩ := Option.bind_eq_some_iff.mp made
    cases made
    have inner := lin_congr x here tied ok signs keeps hold
    refine congr_emod ?_ (by rw [value])
    rw [Lin.scale_at scaled, show -1 * l.at a - -value a x W s = -(l.at a - value a x W s) by ring]
    exact (dvd_neg).mpr inner
  | .shl x k, w, W, m, s, _, _, _, _, made, tied, ok, signs, keeps, hold => by
    obtain ⟨kept, keeps⟩ := keeps
    unfold lin at made
    split at made
    · -- The amount reaches the width of the operand, so it reaches that of the context.
      rename_i far
      cases made
      refine congr_emod (x := value a x W s * 2 ^ k) ?_ (by rw [value])
      rw [Lin.konst_at, zero_sub]
      exact (dvd_neg).mpr (two_pow_min_dvd (min_le_left _ _)
        ((pow_dvd_pow 2 (kept.resolve_left (by omega))).mul_left _))
    · obtain ⟨⟨l, fits, cx1⟩, here, made⟩ := Option.bind_eq_some_iff.mp made
      obtain ⟨n, scaled, made⟩ := Option.bind_eq_some_iff.mp made
      cases made
      have inner := lin_congr x here tied ok signs keeps hold
      refine congr_emod ?_ (by rw [value])
      rw [Lin.scale_at scaled,
        show 2 ^ k * l.at a - value a x W s * 2 ^ k = 2 ^ k * (l.at a - value a x W s) by ring]
      exact inner.mul_left _
  | .add l r, w, W, m, s, _, _, _, _, made, tied, ok, signs, keeps, hold => by
    obtain ⟨⟨x, fx, cx1⟩, first, made⟩ := Option.bind_eq_some_iff.mp made
    obtain ⟨⟨y, fy, cx2⟩, second, made⟩ := Option.bind_eq_some_iff.mp made
    obtain ⟨n, sum, made⟩ := Option.bind_eq_some_iff.mp made
    cases made
    obtain ⟨holdX, holdY⟩ := hold_left hold
    have both (signed : s = true) : (ws l).2 = true ∧ (ws r).2 = true :=
      (Bool.and_eq_true _ _).mp (signs signed)
    have left := lin_congr l first (tied.shrink (lin_grows r second)) ok.1 (fun h => (both h).1) keeps.1
      holdX
    have right := lin_congr r second tied ok.2 (fun h => (both h).2) keeps.2 holdY
    refine congr_emod ?_ (by rw [value])
    rw [Lin.plus_at sum, one_mul, add_sub_add_comm]
    exact dvd_add left right
  | .sub l r, w, W, m, s, _, _, _, _, made, tied, ok, signs, keeps, hold => by
    obtain ⟨⟨x, fx, cx1⟩, first, made⟩ := Option.bind_eq_some_iff.mp made
    obtain ⟨⟨y, fy, cx2⟩, second, made⟩ := Option.bind_eq_some_iff.mp made
    obtain ⟨n, sum, made⟩ := Option.bind_eq_some_iff.mp made
    cases made
    obtain ⟨holdX, holdY⟩ := hold_left hold
    have both (signed : s = true) : (ws l).2 = true ∧ (ws r).2 = true :=
      (Bool.and_eq_true _ _).mp (signs signed)
    have left := lin_congr l first (tied.shrink (lin_grows r second)) ok.1 (fun h => (both h).1) keeps.1
      holdX
    have right := lin_congr r second tied ok.2 (fun h => (both h).2) keeps.2 holdY
    refine congr_emod ?_ (by rw [value])
    rw [Lin.plus_at sum, show x.at a + -1 * y.at a - (value a l W s - value a r W s) =
      (x.at a - value a l W s) - (y.at a - value a r W s) by ring]
    exact dvd_sub left right
  | .mul l r, w, W, m, s, _, _, _, _, made, tied, ok, signs, keeps, hold => by
    obtain ⟨⟨x, fx, cx1⟩, first, made⟩ := Option.bind_eq_some_iff.mp made
    obtain ⟨⟨y, fy, cx2⟩, second, made⟩ := Option.bind_eq_some_iff.mp made
    dsimp only at made
    have both (signed : s = true) : (ws l).2 = true ∧ (ws r).2 = true :=
      (Bool.and_eq_true _ _).mp (signs signed)
    split at made
    · rename_i constant
      obtain ⟨n, scaled, made⟩ := Option.bind_eq_some_iff.mp made
      cases made
      obtain ⟨holdX, holdY⟩ := hold_left hold
      have left := lin_congr l first (tied.shrink (lin_grows r second)) ok.1 (fun h => (both h).1)
        keeps.1 holdX
      have right := lin_congr r second tied ok.2 (fun h => (both h).2) keeps.2 holdY
      refine congr_emod ?_ (by rw [value])
      rw [Lin.scale_at scaled, ← Lin.at_of_nil (a := a) constant]
      exact mul_congr left right
    · split at made
      · rename_i constant
        obtain ⟨n, scaled, made⟩ := Option.bind_eq_some_iff.mp made
        cases made
        obtain ⟨holdX, holdY⟩ := hold_left hold
        have left := lin_congr l first (tied.shrink (lin_grows r second)) ok.1 (fun h => (both h).1)
          keeps.1 holdX
        have right := lin_congr r second tied ok.2 (fun h => (both h).2) keeps.2 holdY
        refine congr_emod ?_ (by rw [value])
        rw [Lin.scale_at scaled, ← Lin.at_of_nil (a := a) constant, mul_comm]
        exact mul_congr left right
      · cases made
  | .sum terms sw ss, w, W, m, s, _, _, _, _, made, tied, ok, signs, _, hold => by
    obtain ⟨⟨acc, fits, cx1⟩, first, made⟩ := Option.bind_eq_some_iff.mp made
    obtain ⟨pos, narrow, oks⟩ := ok
    dsimp only at made
    split at made
    · rename_i v cx2 carried
      cases made
      obtain ⟨kept, own⟩ := hold_left hold
      have grown := LinCx.carry_grows carried
      -- The fits that were left out guard reinterpretations at the width of the sum or more.
      have inner := sumLin_congr terms (m := min m sw) first (tied.shrink grown) oks fun f member => by
        by_cases narrower : f.modw < sw
        · refine (kept f (List.mem_filter.mpr ⟨member, by simpa using narrower⟩)).imp_left fun big => ?_
          exact (min_le_left _ _).trans big
        · exact .inl ((min_le_right _ _).trans (by omega))
      rw [Lin.konst_at, zero_add] at inner
      have wrapped := LinCx.carried_value pos narrow (LinCx.carry_value carried tied)
      have range := wrapValue_range pos narrow ss (acc.at a)
      rw [← wrapped] at range
      have leaf := var_congr (W := W) pos narrow range own
      rw [Lin.var_at]
      refine congr_emod ?_ (by rw [value])
      -- The variable differs from the sum by what its own width loses.
      have lost : (2 : Int) ^ min sw m ∣ a v - total a terms sw ss := by
        have modulus := two_pow_min_dvd (j := m) (min_le_left sw m) (dvd_sub_wrapValue sw ss (acc.at a))
        rw [← wrapped] at modulus
        have inner : (2 : Int) ^ min sw m ∣ acc.at a - total a terms sw ss := by
          rwa [show min sw (min m sw) = min sw m by omega] at inner
        have both := dvd_sub inner modulus
        rwa [sub_sub_sub_cancel_left] at both
      have both := dvd_add leaf (wrapped_congr (s := ss && s) lost)
      rwa [sub_add_sub_cancel] at both
    · cases made
      obtain ⟨inside, own⟩ := hold_left hold
      have inner := sumLin_congr terms first tied oks inside
      rw [Lin.konst_at, zero_add] at inner
      refine congr_emod ?_ (by rw [value])
      exact leaf_congr pos narrow inner (.inl (le_refl _)) (own _ (List.mem_singleton_self _))
  | .cast inner iw is cw cs, w, W, m, s, _, _, _, _, made, tied, ok, signs, _, hold => by
    obtain ⟨⟨l, fits, cx1⟩, here, made⟩ := Option.bind_eq_some_iff.mp made
    cases made
    obtain ⟨okInner, signsInner, pos, narrow, wide⟩ := ok
    obtain ⟨inside, own⟩ := hold_left hold
    have agree := lin_congr inner here tied okInner signsInner (keepsShifts_self iw inner) inside
    have outer : (2 : Int) ^ min iw m ∣ value a inner iw is - wrapValue iw is (value a inner iw is) :=
      two_pow_min_dvd (min_le_left _ _) (dvd_sub_wrapValue _ _ _)
    have both := dvd_add agree outer
    rw [sub_add_sub_cancel] at both
    refine congr_emod ?_ (by rw [value])
    refine leaf_congr pos narrow both (wide.imp_right ?_) (own _ (List.mem_singleton_self _))
    rintro ⟨v, rfl⟩
    cases here
    obtain ⟨posV, narrowV, range⟩ := okInner
    rw [Lin.var_at, value, Bool.and_self, wrapValue_self posV narrowV range]
    refine (wrapValue_self posV narrowV range).symm.trans (wrapValue_congr ?_)
    exact Int.dvd_self_sub_emod

/-- The linear form of a reduction's terms agrees with the sum of their values. -/
theorem sumLin_congr [WordRead] [LawfulWordRead] : ∀ (terms : List Ae) {w m : Nat} {s : Bool} {acc : Lin}
    {cx cx' : LinCx} {l : Lin}
    {fits : List Fit}, sumLin terms w s acc cx = some (l, fits, cx') → cx'.Tied a → allOk a terms s →
      (∀ f ∈ fits, f.HoldsMod m a) → (2 : Int) ^ min w m ∣ l.at a - (acc.at a + total a terms w s)
  | [], _, _, _, _, _, _, _, _, made, _, _, _ => by
    cases made
    rw [total, add_zero, sub_self]
    exact dvd_zero _
  -- The first term is accounted for by its own law, and the rest by induction.
  | t :: ts, w, m, s, acc, _, _, _, _, made, tied, ok, hold => by
    obtain ⟨⟨l, fits, cx1⟩, first, made⟩ := Option.bind_eq_some_iff.mp made
    obtain ⟨n, sum, made⟩ := Option.bind_eq_some_iff.mp made
    obtain ⟨⟨acc', more, cx2⟩, second, made⟩ := Option.bind_eq_some_iff.mp made
    cases made
    obtain ⟨okTerm, signs, oks⟩ := ok
    obtain ⟨holdTerm, holdRest⟩ := hold_left hold
    have here := lin_congr t first (tied.shrink (sumLin_grows ts second)) okTerm signs
      (keepsShifts_self w t) holdTerm
    have rest := sumLin_congr ts second tied oks holdRest
    rw [Lin.plus_at sum, one_mul] at rest
    have both := dvd_add rest here
    rw [total]
    -- The total is the first term and the rest, in another order.
    refine Eq.subst (motive := fun x => (2 : Int) ^ min w m ∣ x) ?_ both
    ring

end

/-- Where every fit holds and the form stays inside the width of the operand, it is the operand's value in
any context that is no narrower, its shifts by that width or more read as zero. -/
theorem lin_exact [WordRead] [LawfulWordRead] {e : Ae} {w W : Nat} {cx cx' : LinCx} {l : Lin} {fits : List Fit}
    (made : lin e w false cx = some (l, fits, cx')) (tied : cx'.Tied a) (ok : Ok a e) (wide : w ≤ W)
    (hold : ∀ f ∈ fits, f.Holds a) (range : 0 ≤ l.at a ∧ l.at a < 2 ^ w) :
    l.at a = value a (dropShifts w e) W false := by
  rw [← lin_dropShifts] at made
  have same := lin_congr (W := W) (m := W) (dropShifts w e) made tied (ok_dropShifts ok) (by simp)
    (keeps_dropShifts e) fun f member => .inr (hold f member)
  rw [min_self] at same
  have value := value_range a (dropShifts w e) W false
  have wider : (2 : Int) ^ w ≤ 2 ^ W := pow_le_pow_right₀ (by decide) wide
  rw [← Int.emod_eq_of_lt range.1 (range.2.trans_le wider), ← Int.emod_eq_of_lt value.1 value.2]
  exact Int.emod_eq_emod_iff_emod_sub_eq_zero.mpr (Int.emod_eq_zero_of_dvd same)

end Ae

end Xezim
