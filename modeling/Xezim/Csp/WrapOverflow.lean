import Mathlib.Algebra.Order.Ring.Abs
import Xezim.Lib.Checked
import Xezim.Csp.WrapExact

/-! The wrapped relations in the solver's own 128-bit arithmetic: for 64-bit variables no operation
overflows. -/

namespace Xezim

open Checked

variable {s : Search}

section Arithmetic

/-- `floor_div`, every operation in range or an overflow. -/
def floorDivI128 (a b : Int) : Outcome Int := do
  let q ← i128 (a.tdiv b)
  if a.tmod b ≠ 0 ∧ (a < 0 ↔ ¬ b < 0) then i128 (q - 1) else pure q

/-- `ceil_div`, checked. -/
def ceilDivI128 (a b : Int) : Outcome Int := do
  let q ← floorDivI128 (← i128 (-a)) b
  i128 (-q)

/-- What `dom_minus` keeps before an interval of the second domain, checked. -/
def keptBeforeI128 (lo : Int) (q : Int × Int) : Outcome Dom :=
  if q.1 > lo then do pure [(lo, ← i128 (q.1 - 1))] else pure []

/-- The inner loop of `dom_minus`, checked. -/
def domCutI128 (lo hi : Int) : Dom → Outcome Dom
  | [] => pure (if lo ≤ hi then [(lo, hi)] else [])
  | q :: b =>
    if lo ≤ hi then
      if q.1 > hi then pure [(lo, hi)]
      else do
        let first ← keptBeforeI128 lo q
        if q.2 ≥ hi then pure first
        else do
          let rest ← domCutI128 (← i128 (q.2 + 1)) hi b
          pure (first ++ rest)
    else pure []

/-- `dom_minus` of one interval, checked. -/
def domMinusOneI128 (p : Int × Int) (b : Dom) : Outcome Dom :=
  domCutI128 p.1 p.2 (b.dropWhile fun q => q.2 < p.1)

/-- The constant part and the open term of a form, checked. -/
def openTermI128 (d : Nat → Dom) : List (Nat × Int) → Int → Option (Nat × Int) →
    Outcome (Int × Option (Nat × Int))
  | [], rest, free => pure (rest, free)
  | p :: t, rest, free =>
    match domFixed (d p.1), free with
    | some x, _ => do
      let rest ← i128 (rest + (← i128 (p.2 * x)))
      openTermI128 d t rest free
    | none, none => openTermI128 d t rest (some p)
    | none, some _ => .miss

/-- The value of a form whose variables are all fixed, checked. -/
def linValueI128 (d : Nat → Dom) : List (Nat × Int) → Int → Outcome Int
  | [], k => pure k
  | p :: t, k =>
    match domFixed (d p.1) with
    | some x => do linValueI128 d t (← i128 (k + (← i128 (p.2 * x))))
    | none => .miss

/-- The values of a residue class up to a bound, checked. -/
def residuesI128 (x step hi : Int) : Nat → Outcome (List Int)
  | 0 => if x ≤ hi then .miss else pure []
  | room + 1 =>
    if x ≤ hi then do
      let rest ← residuesI128 (← i128 (x + step)) step hi room
      pure (x :: rest)
    else pure []

/-- The least value of a residue class from a bound on, checked. -/
def leastI128 (r lo m : Int) : Outcome Int := do
  let q ← ceilDivI128 (← i128 (lo - r)) m
  i128 (r + (← i128 (q * m)))

/-- A number wrapped into a type, checked. -/
def wrapValueI128 (w : Nat) (sg : Bool) (y : Int) : Outcome Int := do
  let gap ← i128 (y - (wsRange w sg).1)
  i128 ((wsRange w sg).1 + gap % 2 ^ w)

end Arithmetic

section Functions

/-- `csp_wrap_eq`, checked. -/
def cspWrapEqI128 (l : Lin) (w : Nat) (s : Search) : Outcome (Bool × Search) :=
  if w = 0 ∨ 64 < w then .miss
  else do
    let m ← i128 (2 ^ w)
    let (rest, free) ← openTermI128 s.d l.t l.k none
    match free with
    | none => pure (decide (rest % m = 0), s)
    | some (v, c) =>
      if c ≠ 1 ∧ c ≠ -1 then .miss
      else do
        let r := (← i128 ((← i128 (-rest)) * c)) % m
        let (lo, hi) := domBounds (s.d v)
        let cands ← residuesI128 (← leastI128 r lo m) m hi 8
        pure (s.set v (domMeet (s.d v) (cands.map fun x => (x, x))))

/-- The values of the open variable for the values `a` to `b` of a form with a unit coefficient, checked. -/
def unshiftI128 (c rest a b : Int) : Outcome (List (Int × Int)) :=
  if a ≤ b then
    if c = 1 then do
      let first ← i128 (a - rest)
      let last ← i128 (b - rest)
      pure [(first, last)]
    else do
      let first ← i128 (rest - b)
      let last ← i128 (rest - a)
      pure [(first, last)]
  else pure []

/-- The bounds of a form with a unit coefficient, checked. -/
def imageBoundsI128 (c rest lo hi : Int) : Outcome (Int × Int) :=
  if c = 1 then do
    let ylo ← i128 (lo + rest)
    let yhi ← i128 (hi + rest)
    pure (ylo, yhi)
  else do
    let ylo ← i128 (rest - hi)
    let yhi ← i128 (rest - lo)
    pure (ylo, yhi)

/-- The loop of `csp_wrap_set` over the target for one multiple of the modulus, checked. -/
def movedI128 (c rest ylo yhi m j : Int) : Dom → Outcome (List (Int × Int))
  | [] => pure []
  | p :: target => do
    let a ← i128 (p.1 + (← i128 (j * m)))
    let b ← i128 (p.2 + (← i128 (j * m)))
    let first ← unshiftI128 c rest (max a ylo) (min b yhi)
    let others ← movedI128 c rest ylo yhi m j target
    pure (first ++ others)

/-- The loop of `csp_wrap_set` over the multiples of the modulus, checked. -/
def imagesI128 (c rest ylo yhi m : Int) (target : Dom) : List Int → Outcome (List (Int × Int))
  | [] => pure []
  | j :: js => do
    let first ← movedI128 c rest ylo yhi m j target
    let others ← imagesI128 c rest ylo yhi m target js
    pure (first ++ others)

/-- The loop of `csp_wrap_set` over the values of the target, checked; the product with the inverse
wraps by design. -/
def wrapSolutionsI128 (rest m g mg inv lo hi : Int) : List Int → List Int → Outcome (List Int)
  | [], allowed => pure allowed
  | t :: ts, allowed => do
    let r := (← i128 (t - rest)) % m
    if r % g ≠ 0 then wrapSolutionsI128 rest m g mg inv lo hi ts allowed
    else do
      let x0 := r / g * inv % mg
      let xs ← residuesI128 (← leastI128 x0 lo mg) mg hi (64 - allowed.length)
      wrapSolutionsI128 rest m g mg inv lo hi ts (allowed ++ xs)

/-- The sizes `dom_size` adds up, checked. -/
def domSizeI128 : Dom → Outcome Nat
  | [] => pure 0
  | p :: d => do
    let span ← i128 (p.2 - p.1)
    let others ← domSizeI128 d
    pure (span.toNat + 1 + others)

/-- The wrapped values `csp_wrap_set` aims at, checked. -/
def targetI128 (set : Dom) (neg : Bool) (w : Nat) (sg : Bool) : Outcome Dom :=
  if neg then domMinusOneI128 (wsRange w sg) set
  else pure (domClip set (wsRange w sg).1 (wsRange w sg).2)

/-- `csp_wrap_set`, checked. -/
def cspWrapSetI128 (l : Lin) (set : Dom) (neg : Bool) (w : Nat) (sg : Bool) (s : Search) :
    Outcome (Bool × Search) :=
  if w = 0 ∨ 64 < w then .miss
  else do
    let m ← i128 (2 ^ w)
    let rlo := (wsRange w sg).1
    let (rest, free) ← openTermI128 s.d l.t l.k none
    let target ← targetI128 set neg w sg
    match free with
    | none => do pure (domHas target (← wrapValueI128 w sg rest), s)
    | some (v, c) =>
      let (lo, hi) := domBounds (s.d v)
      if hi < lo then pure (false, s)
      else if c = 1 ∨ c = -1 then do
        let (ylo, yhi) ← imageBoundsI128 c rest lo hi
        let j0 ← floorDivI128 (← i128 (ylo - rlo)) m
        let j1 ← floorDivI128 (← i128 (yhi - rlo)) m
        if 8 < (← i128 (j1 - j0)) then .miss
        else do
          let allowed ← imagesI128 c rest ylo yhi m target (domValues [(j0, j1)])
          pure (s.set v (domMeet (s.d v) (domNorm allowed)))
      else do
        if 64 < (← domSizeI128 target) then .miss
        else
          let tz := trailingZerosUpTo c w
          if tz = w then do pure (domHas target (← wrapValueI128 w sg rest), s)
          else do
            let g : Int := 2 ^ tz
            let mg : Int := m / g
            let inv := newtonInverse (c / g % mg) 7
            let allowed ← wrapSolutionsI128 rest m g mg inv lo hi (domValues target) []
            pure (s.set v (domMeet (s.d v) (domNorm (allowed.map fun x => (x, x)))))

/-- The interval `<=` leaves the wrapped value of the open side, checked. -/
def sideI128 (wr : Wrap) (delta k : Int) (left : Bool) : Outcome (Int × Int) :=
  if (wr.sg = 1) = left then do
    let high ← i128 (k - delta)
    pure ((wsRange wr.w wr.s).1, high)
  else do
    let low ← i128 (k + delta)
    pure (low, (wsRange wr.w wr.s).2)

/-- The open side of `csp_wrap_rel`, checked. -/
def cspWrapSideI128 (rel : Rel) (wr : Wrap) (delta : Int) (x : Lin) (k : Int) (left : Bool)
    (s : Search) : Outcome (Bool × Search) :=
  match rel with
  | .le => do
    let r ← sideI128 wr delta k left
    cspWrapSetI128 x (if r.1 ≤ r.2 then [r] else []) false wr.w wr.s s
  | .eq | .ne => do
    let shift ← i128 (wr.sg * delta)
    let t ← i128 (if left then k - shift else k + shift)
    cspWrapSetI128 x [(t, t)] (rel = .ne) wr.w wr.s s

/-- `csp_wrap_rel`, checked. -/
def cspWrapRelI128 (l : Lin) (rel : Rel) (fits : List Fit) (wr : Wrap) (s : Search) :
    Outcome (Bool × Search) :=
  match fits[wr.n]?, fits[wr.n + 1]? with
  | some fa, some fb =>
    let (la, lb) := (fa.lin, fb.lin)
    if wr.w = 0 ∨ 64 < wr.w then .miss
    else do
      let gap ← i128 (la.k - lb.k)
      let delta ← i128 (l.k - (← i128 (wr.sg * gap)))
      match linValueI128 s.d la.t la.k, linValueI128 s.d lb.t lb.k with
      | .overflow, _ | _, .overflow => .overflow
      | .hit a, .hit b => do
        let gap ← i128 ((← wrapValueI128 wr.w wr.s a) - (← wrapValueI128 wr.w wr.s b))
        pure (relHolds rel (← i128 ((← i128 (wr.sg * gap)) + delta)), s)
      | .miss, .hit b => do cspWrapSideI128 rel wr delta la (← wrapValueI128 wr.w wr.s b) true s
      | .hit a, .miss => do cspWrapSideI128 rel wr delta lb (← wrapValueI128 wr.w wr.s a) false s
      | .miss, .miss => .miss
  | _, _ => .miss

end Functions

section Bounds

/-- A form within the solver's limits over 64-bit variables. -/
structure Lin.Small (d : Nat → Dom) (l : Lin) : Prop where
  konst : -2 ^ 100 ≤ l.k ∧ l.k ≤ 2 ^ 100
  coef : ∀ p ∈ l.t, -2 ^ 40 ≤ p.2 ∧ p.2 ≤ 2 ^ 40
  terms : l.t.length ≤ 2 ^ 20
  words : ∀ p ∈ l.t, ∀ y, (d p.1).Has y → -2 ^ 63 ≤ y ∧ y < 2 ^ 64

/-- A term of such a form. -/
theorem term_small {c y : Int} (coef : -2 ^ 40 ≤ c ∧ c ≤ 2 ^ 40) (word : -2 ^ 63 ≤ y ∧ y < 2 ^ 64) :
    -2 ^ 104 ≤ c * y ∧ c * y ≤ 2 ^ 104 := by
  have bound : |c * y| ≤ 2 ^ 40 * 2 ^ 64 := by
    rw [abs_mul]
    exact mul_le_mul (abs_le.mpr coef) (abs_le.mpr ⟨by omega, by omega⟩) (abs_nonneg y) (by positivity)
  have := abs_le.mp bound
  omega

/-- A modulus fits. -/
theorem modulus_small {w : Nat} (narrow : w ≤ 64) : (0 : Int) < 2 ^ w ∧ (2 : Int) ^ w ≤ 2 ^ 64 :=
  ⟨by positivity, pow_le_pow_right₀ (by decide) narrow⟩

/-- The range of a type fits. -/
theorem wsRange_small (w : Nat) (sg : Bool) :
    -2 ^ 63 ≤ (wsRange w sg).1 ∧ (wsRange w sg).1 ≤ 0 ∧ 0 ≤ (wsRange w sg).2 ∧
      (wsRange w sg).2 < 2 ^ 64 := by
  -- A type reaches down to half its size and up to its size, and a size is at most 2^64.
  have low : (2 : Int) ^ (min (max w 1) 64 - 1) ≤ 2 ^ 63 := pow_le_pow_right₀ (by decide) (by omega)
  have high : (2 : Int) ^ min (max w 1) 64 ≤ 2 ^ 64 := pow_le_pow_right₀ (by decide) (by omega)
  have pos : (0 : Int) < 2 ^ (min (max w 1) 64 - 1) := by positivity
  have pos' : (0 : Int) < 2 ^ min (max w 1) 64 := by positivity
  cases sg with
  | true =>
    simp only [wsRange, if_true]
    omega
  | false =>
    simp only [wsRange, Bool.false_eq_true, if_false]
    omega

/-- A term with a fixed variable. -/
theorem Lin.Small.fixed_term {d : Nat → Dom} {p : Nat × Int} {x : Int}
    (coef : -2 ^ 40 ≤ p.2 ∧ p.2 ≤ 2 ^ 40)
    (words : ∀ y, (d p.1).Has y → -2 ^ 63 ≤ y ∧ y < 2 ^ 64) (fixed : domFixed (d p.1) = some x) :
    -2 ^ 104 ≤ p.2 * x ∧ p.2 * x ≤ 2 ^ 104 := by
  refine term_small coef (words x ?_)
  rw [Dom.has_of_fixed fixed]
  exact (Dom.has_single ..).mpr ⟨le_refl _, le_refl _⟩

/-- The bounds of a 64-bit variable fit. -/
theorem bounds_small {d : Dom} (ok : d.Ok) (words : ∀ y, d.Has y → -2 ^ 63 ≤ y ∧ y < 2 ^ 64) :
    (-2 ^ 63 ≤ (domBounds d).1 ∧ (domBounds d).1 < 2 ^ 64) ∧
      -2 ^ 63 ≤ (domBounds d).2 ∧ (domBounds d).2 < 2 ^ 64 := by
  by_cases empty : d = []
  · subst empty
    decide
  · obtain ⟨first, last⟩ := ok.bounds_mem empty
    exact ⟨words _ first, words _ last⟩

/-- Dividing by a positive number stays between the dividend and zero. -/
theorem floorDiv_small {a b : Int} (pos : 0 < b) :
    min a 0 ≤ floorDiv a b ∧ floorDiv a b ≤ max a 0 := by
  -- Flooring rounds toward minus infinity, so a quotient lies between the dividend and zero.
  have low : b * floorDiv a b ≤ a := (Dom.le_floorDiv pos).mp (le_refl _)
  constructor
  · rw [Dom.le_floorDiv pos]
    rcases le_total a 0 with neg | nonneg
    · rw [min_eq_left neg]
      nlinarith
    · rw [min_eq_right nonneg]
      omega
  · by_contra above
    rcases le_total a 0 with neg | nonneg
    · rw [max_eq_right neg] at above
      nlinarith
    · rw [max_eq_left nonneg] at above
      nlinarith

end Bounds

section Agreement

/-- `floor_div` by a positive number does not overflow. -/
theorem floorDivI128_eq {a b : Int} (pos : 0 < b) (low : -2 ^ 126 ≤ a) (high : a ≤ 2 ^ 126) :
    floorDivI128 a b = .hit (floorDiv a b) := by
  -- The quotient is no larger than the dividend, so neither it nor its predecessor leaves 128 bits.
  have small := floorDiv_small (a := a) pos
  unfold floorDiv at small
  unfold floorDivI128 floorDiv
  split at small
  · rw [i128_pos (by omega) (by omega), Outcome.bind_hit, if_pos ‹_›, if_pos ‹_›,
      i128_pos (by omega) (by omega)]
  · rw [i128_pos (by omega) (by omega), Outcome.bind_hit, if_neg ‹_›, if_neg ‹_›]
    rfl

/-- `ceil_div` by a positive number does not overflow. -/
theorem ceilDivI128_eq {a b : Int} (pos : 0 < b) (low : -2 ^ 126 ≤ a) (high : a ≤ 2 ^ 126) :
    ceilDivI128 a b = .hit (ceilDiv a b) := by
  have small := floorDiv_small (a := -a) pos
  unfold ceilDivI128 ceilDiv
  rw [i128_pos (by omega) (by omega), Outcome.bind_hit,
    floorDivI128_eq pos (by omega) (by omega), Outcome.bind_hit, i128_pos (by omega) (by omega)]

/-- Splitting a form into its constant part and its open term does not overflow. -/
theorem openTermI128_eq {d : Nat → Dom} {terms : List (Nat × Int)}
    (coef : ∀ p ∈ terms, -2 ^ 40 ≤ p.2 ∧ p.2 ≤ 2 ^ 40)
    (words : ∀ p ∈ terms, ∀ y, (d p.1).Has y → -2 ^ 63 ≤ y ∧ y < 2 ^ 64) (rest : Int)
    (free : Option (Nat × Int)) (low : -2 ^ 125 + 2 ^ 104 * terms.length ≤ rest)
    (high : rest ≤ 2 ^ 125 - 2 ^ 104 * terms.length) :
    openTermI128 d terms rest free = .ofOption (openTerm d terms rest free) ∧
      ∀ rest' free', openTerm d terms rest free = some (rest', free') →
        -2 ^ 125 ≤ rest' ∧ rest' ≤ 2 ^ 125 := by
  -- The sum stays within what the terms left over may still add to it.
  induction terms generalizing rest free with
  | nil =>
    refine ⟨rfl, fun rest' free' opened => ?_⟩
    cases opened
    simp only [List.length_nil] at low high
    omega
  | cons p terms ih =>
    have coef' := fun q member => coef q (List.mem_cons_of_mem p member)
    have words' := fun q member => words q (List.mem_cons_of_mem p member)
    simp only [List.length_cons] at low high
    unfold openTermI128 openTerm
    cases fixed : domFixed (d p.1) with
    | some x =>
      -- A fixed term is a 40-bit coefficient times a 64-bit value.
      have term := Lin.Small.fixed_term (coef p List.mem_cons_self) (words p List.mem_cons_self) fixed
      dsimp only
      rw [i128_pos (by omega) (by omega), Outcome.bind_hit, i128_pos (by omega) (by omega),
        Outcome.bind_hit]
      exact ih coef' words' (rest + p.2 * x) free (by omega) (by omega)
    | none =>
      cases free with
      | none => exact ih coef' words' rest _ (by omega) (by omega)
      -- With a second open term neither version goes on.
      | some q => exact ⟨rfl, fun _ _ impossible => by cases impossible⟩

/-- Evaluating a form whose variables are all fixed does not overflow. -/
theorem linValueI128_eq {d : Nat → Dom} {terms : List (Nat × Int)}
    (coef : ∀ p ∈ terms, -2 ^ 40 ≤ p.2 ∧ p.2 ≤ 2 ^ 40)
    (words : ∀ p ∈ terms, ∀ y, (d p.1).Has y → -2 ^ 63 ≤ y ∧ y < 2 ^ 64) {k : Int}
    (low : -2 ^ 125 + 2 ^ 104 * terms.length ≤ k) (high : k ≤ 2 ^ 125 - 2 ^ 104 * terms.length) :
    linValueI128 d terms k = .ofOption (linValue d ⟨terms, k⟩) ∧
      ∀ x, linValue d ⟨terms, k⟩ = some x → -2 ^ 125 ≤ x ∧ x ≤ 2 ^ 125 := by
  induction terms generalizing k with
  | nil =>
    refine ⟨rfl, fun x valued => ?_⟩
    obtain rfl : k = x := Option.some.inj valued
    simp only [List.length_nil] at low high
    omega
  | cons p terms ih =>
    have coef' := fun q member => coef q (List.mem_cons_of_mem p member)
    have words' := fun q member => words q (List.mem_cons_of_mem p member)
    simp only [List.length_cons] at low high
    unfold linValueI128
    cases fixed : domFixed (d p.1) with
    | some x =>
      have term := Lin.Small.fixed_term (coef p List.mem_cons_self) (words p List.mem_cons_self) fixed
      have next : linValue d ⟨p :: terms, k⟩ = linValue d ⟨terms, k + p.2 * x⟩ := by
        simp [linValue, fixed]
      dsimp only
      rw [i128_pos (by omega) (by omega), Outcome.bind_hit, i128_pos (by omega) (by omega),
        Outcome.bind_hit, next]
      exact ih coef' words' (by omega) (by omega)
    | none =>
      -- One open variable leaves the form without a value.
      have stuck (terms : List (Nat × Int)) : terms.foldl (fun (acc : Option Int) (p : Nat × Int) =>
          acc.bind fun x => (domFixed (d p.1)).map fun y => x + p.2 * y) none = none := by
        induction terms with
        | nil => rfl
        | cons q terms ih => exact ih
      have unknown : linValue d ⟨p :: terms, k⟩ = none := by
        simp [linValue, fixed, stuck]
      rw [unknown]
      exact ⟨rfl, nofun⟩

/-- Listing the values of a residue class does not overflow. -/
theorem residuesI128_eq {step hi : Int} (pos : 0 < step) (small : step ≤ 2 ^ 64) (bound : hi < 2 ^ 126)
    (room : Nat) {x : Int} (low : -2 ^ 126 ≤ x) :
    residuesI128 x step hi room = .ofOption (residues x step hi room) := by
  -- The steps stop once the bound is passed, and one step past it is still small.
  induction room generalizing x with
  | zero =>
    unfold residuesI128 residues
    split <;> rfl
  | succ room ih =>
    unfold residuesI128 residues
    split
    · rw [i128_pos (by omega) (by omega), Outcome.bind_hit, ih (by omega)]
      cases residues (x + step) step hi room <;> rfl
    · rfl

/-- The least value of a residue class is found without overflow. -/
theorem leastI128_eq {r lo m : Int} (pos : 0 < m) (small : m ≤ 2 ^ 64) (nonneg : 0 ≤ r) (below : r < m)
    (low : -2 ^ 63 ≤ lo) (high : lo < 2 ^ 64) :
    leastI128 r lo m = .hit (r + ceilDiv (lo - r) m * m) ∧ -2 ^ 126 ≤ r + ceilDiv (lo - r) m * m := by
  -- The least value lies less than one modulus above the bound.
  have reached : lo - r ≤ m * ceilDiv (lo - r) m := (Dom.ceilDiv_le pos).mp (le_refl _)
  have least : m * (ceilDiv (lo - r) m - 1) < lo - r := by
    by_contra beyond
    have below : ceilDiv (lo - r) m ≤ ceilDiv (lo - r) m - 1 :=
      (Dom.ceilDiv_le pos).mpr (not_lt.mp beyond)
    omega
  rw [mul_comm m, sub_mul, one_mul] at least
  rw [mul_comm m] at reached
  constructor
  · unfold leastI128
    rw [i128_pos (by omega) (by omega), Outcome.bind_hit, ceilDivI128_eq pos (by omega) (by omega),
      Outcome.bind_hit, i128_pos (by omega) (by omega), Outcome.bind_hit,
      i128_pos (by omega) (by omega)]
  · omega

/-- Wrapping a number does not overflow. -/
theorem wrapValueI128_eq {w : Nat} (narrow : w ≤ 64) (sg : Bool) {y : Int} (low : -2 ^ 125 ≤ y)
    (high : y ≤ 2 ^ 125) : wrapValueI128 w sg y = .hit (wrapValue w sg y) := by
  have modulus := modulus_small narrow
  have range := wsRange_small w sg
  have nonneg := Int.emod_nonneg (y - (wsRange w sg).1) modulus.1.ne'
  have below := Int.emod_lt_of_pos (y - (wsRange w sg).1) modulus.1
  unfold wrapValueI128 wrapValue
  rw [i128_pos (by omega) (by omega), Outcome.bind_hit, i128_pos (by omega) (by omega)]

/-- The open term of a form within the limits. -/
theorem Lin.Small.open_term {l : Lin} (small : l.Small s.d) (oks : ∀ p ∈ l.t, (s.d p.1).Ok)
    {rest c : Int} {v : Nat} (opened : openTerm s.d l.t l.k none = some (rest, some (v, c))) :
    (-2 ^ 40 ≤ c ∧ c ≤ 2 ^ 40) ∧
      (-2 ^ 63 ≤ (domBounds (s.d v)).1 ∧ (domBounds (s.d v)).1 < 2 ^ 64) ∧
        -2 ^ 63 ≤ (domBounds (s.d v)).2 ∧ (domBounds (s.d v)).2 < 2 ^ 64 := by
  have member := (openTerm_mem opened).resolve_right nofun
  exact ⟨small.coef _ member, bounds_small (oks _ member) (small.words _ member)⟩

/-- `csp_wrap_eq` does not overflow. -/
theorem cspWrapEqI128_eq {l : Lin} {w : Nat} (small : l.Small s.d) (oks : ∀ p ∈ l.t, (s.d p.1).Ok) :
    cspWrapEqI128 l w s = .ofOption (cspWrapEq l w s) := by
  unfold cspWrapEqI128 cspWrapEq
  split
  · rfl
  · -- Above width 64 the relation is not narrowed, so the modulus is at most 2^64.
    have modulus := modulus_small (w := w) (by omega)
    have konst := small.konst
    have terms := small.terms
    obtain ⟨opened, bounded⟩ := openTermI128_eq small.coef small.words l.k none (by omega) (by omega)
    -- The constant is at most 2^100, and each term adds at most 2^104.
    rw [i128_pos (by omega) (by omega), Outcome.bind_hit, opened]
    cases term : openTerm s.d l.t l.k none with
    | none => rfl
    | some q =>
      obtain ⟨rest, free⟩ := q
      have range := bounded rest free term
      cases free with
      | none => rfl
      | some p =>
        obtain ⟨v, c⟩ := p
        obtain ⟨-, low, high⟩ := small.open_term oks term
        simp only [Outcome.ofOption, Outcome.bind_hit]
        split
        · rfl
        · rename_i unit
          -- The coefficient is a unit, so the product is the rest up to its sign.
          have product : -rest * c = -rest ∨ -rest * c = rest := by
            rcases (by omega : c = 1 ∨ c = -1) with rfl | rfl
            · exact .inl (mul_one _)
            · exact .inr (by ring)
          have nonneg := Int.emod_nonneg (-rest * c) modulus.1.ne'
          have below := Int.emod_lt_of_pos (-rest * c) modulus.1
          -- The least candidate is congruent to the rest and lies within a modulus of the variable's low
          -- end.
          have least := leastI128_eq modulus.1 modulus.2 nonneg below low.1 low.2
          rw [i128_pos (by omega) (by omega), Outcome.bind_hit, i128_pos (by omega) (by omega),
            Outcome.bind_hit, least.1, Outcome.bind_hit,
            residuesI128_eq modulus.1 modulus.2 (by omega) 8 least.2]
          cases residues _ (2 ^ w) (domBounds (s.d v)).2 8 <;> rfl

section Membership

/-- Cutting a set out of a type's range does not overflow. -/
theorem domCutI128_eq {lo hi : Int} {b : Dom} (set : ∀ q ∈ b, InI128 q.1 ∧ InI128 q.2)
    (low : -2 ^ 127 ≤ lo) (small : hi < 2 ^ 126) : domCutI128 lo hi b = .hit (domCut lo hi b) := by
  -- Each piece ends just before an interval of the set, which is itself a machine number.
  induction b generalizing lo with
  | nil => rfl
  | cons q b ih =>
    obtain ⟨⟨low1, high1⟩, low2, high2⟩ := set q List.mem_cons_self
    unfold domCutI128 domCut
    split
    · split
      · rfl
      · -- The step down from an interval's start is taken only where the start lies above.
        have before : keptBeforeI128 lo q = .hit (if q.1 > lo then [(lo, q.1 - 1)] else []) := by
          unfold keptBeforeI128
          split
          · rw [i128_pos (by omega) (by omega)]
            rfl
          · rfl
        rw [before, Outcome.bind_hit]
        split
        · rw [List.append_nil]
          rfl
        · -- The step up from an interval's end is taken only where the end lies below.
          rw [i128_pos (by omega) (by omega), Outcome.bind_hit,
            ih (fun r member => set r (List.mem_cons_of_mem q member)) (by omega)]
          rfl
    · rfl

/-- The values of a target are counted without overflow. -/
theorem domSizeI128_eq {d : Dom} (words : ∀ p ∈ d, (-2 ^ 63 ≤ p.1 ∧ p.1 < 2 ^ 64) ∧
    -2 ^ 63 ≤ p.2 ∧ p.2 < 2 ^ 64) : domSizeI128 d = .hit (domSize d) := by
  -- The sizes of 64-bit intervals add up inside 128 bits.
  induction d with
  | nil => rfl
  | cons p d ih =>
    have := words p List.mem_cons_self
    unfold domSizeI128 domSize
    rw [i128_pos (by omega) (by omega), Outcome.bind_hit,
      ih fun q member => words q (List.mem_cons_of_mem p member)]
    rfl

/-- The values for an interval of the form are found without overflow. -/
theorem unshiftI128_eq {c rest a b : Int} (offset : -2 ^ 125 ≤ rest ∧ rest ≤ 2 ^ 125)
    (low : -2 ^ 126 ≤ a) (high : b ≤ 2 ^ 126) :
    unshiftI128 c rest a b = .hit (if a ≤ b then
      [if c = 1 then (a - rest, b - rest) else (rest - b, rest - a)] else []) := by
  -- Solving for the variable adds or subtracts the rest, and both are small.
  unfold unshiftI128
  split
  · split
    · rw [i128_pos (by omega) (by omega), Outcome.bind_hit, i128_pos (by omega) (by omega)]
      rfl
    · rw [i128_pos (by omega) (by omega), Outcome.bind_hit, i128_pos (by omega) (by omega)]
      rfl
  · rfl

/-- The images of the target under one multiple of the modulus are found without overflow. -/
theorem movedI128_eq {c rest ylo yhi m j : Int} {target : Dom}
    (words : ∀ p ∈ target, (-2 ^ 63 ≤ p.1 ∧ p.1 < 2 ^ 64) ∧ -2 ^ 63 ≤ p.2 ∧ p.2 < 2 ^ 64)
    (offset : -2 ^ 125 ≤ rest ∧ rest ≤ 2 ^ 125) (low : -2 ^ 126 ≤ ylo) (high : yhi ≤ 2 ^ 126)
    (shift : -2 ^ 126 - 2 ^ 66 ≤ j * m ∧ j * m ≤ 2 ^ 126 + 2 ^ 66) :
    movedI128 c rest ylo yhi m j target = .hit (target.filterMap fun p =>
      if max (p.1 + j * m) ylo ≤ min (p.2 + j * m) yhi then
        some (if c = 1 then (max (p.1 + j * m) ylo - rest, min (p.2 + j * m) yhi - rest)
          else (rest - min (p.2 + j * m) yhi, rest - max (p.1 + j * m) ylo))
      else none) := by
  -- Every interval is moved by the same multiple of the modulus, then cut and solved.
  induction target with
  | nil => rfl
  | cons p target ih =>
    have word := words p List.mem_cons_self
    unfold movedI128
    rw [i128_pos (n := j * m) (by omega) (by omega), Outcome.bind_hit, i128_pos (by omega) (by omega),
      Outcome.bind_hit, Outcome.bind_hit, i128_pos (by omega) (by omega), Outcome.bind_hit,
      unshiftI128_eq offset (by omega) (by omega), Outcome.bind_hit,
      ih fun q member => words q (List.mem_cons_of_mem p member), List.filterMap_cons]
    by_cases here : max (p.1 + j * m) ylo ≤ min (p.2 + j * m) yhi
    · rw [if_pos here, if_pos here]
      rfl
    · rw [if_neg here, if_neg here]
      rfl

/-- The images of the target under every multiple of the modulus are found without overflow. -/
theorem imagesI128_eq {c rest ylo yhi m : Int} {target : Dom}
    (words : ∀ p ∈ target, (-2 ^ 63 ≤ p.1 ∧ p.1 < 2 ^ 64) ∧ -2 ^ 63 ≤ p.2 ∧ p.2 < 2 ^ 64)
    (offset : -2 ^ 125 ≤ rest ∧ rest ≤ 2 ^ 125) (low : -2 ^ 126 ≤ ylo) (high : yhi ≤ 2 ^ 126)
    {js : List Int}
    (shifts : ∀ j ∈ js, -2 ^ 126 - 2 ^ 66 ≤ j * m ∧ j * m ≤ 2 ^ 126 + 2 ^ 66) :
    imagesI128 c rest ylo yhi m target js = .hit (js.flatMap fun j => target.filterMap fun p =>
      if max (p.1 + j * m) ylo ≤ min (p.2 + j * m) yhi then
        some (if c = 1 then (max (p.1 + j * m) ylo - rest, min (p.2 + j * m) yhi - rest)
          else (rest - min (p.2 + j * m) yhi, rest - max (p.1 + j * m) ylo))
      else none) := by
  induction js with
  | nil => rfl
  | cons j js ih =>
    unfold imagesI128
    rw [movedI128_eq words offset low high (shifts j List.mem_cons_self), Outcome.bind_hit,
      ih fun i member => shifts i (List.mem_cons_of_mem j member)]
    rfl

/-- The bounds of a form with a unit coefficient are found without overflow. -/
theorem imageBoundsI128_eq {c rest lo hi : Int} (offset : -2 ^ 125 ≤ rest ∧ rest ≤ 2 ^ 125)
    (low : -2 ^ 63 ≤ lo ∧ lo < 2 ^ 64) (high : -2 ^ 63 ≤ hi ∧ hi < 2 ^ 64) :
    imageBoundsI128 c rest lo hi =
      .hit (if c = 1 then (lo + rest, hi + rest) else (rest - hi, rest - lo)) := by
  unfold imageBoundsI128
  split
  · rw [i128_pos (by omega) (by omega), Outcome.bind_hit, i128_pos (by omega) (by omega)]
    rfl
  · rw [i128_pos (by omega) (by omega), Outcome.bind_hit, i128_pos (by omega) (by omega)]
    rfl

/-- A multiple of the modulus among those that meet the bounds of a form. -/
theorem shift_small {m rlo ylo yhi j : Int} (pos : 0 < m) (small : m ≤ 2 ^ 64)
    (type : -2 ^ 63 ≤ rlo ∧ rlo ≤ 0) (low : -2 ^ 126 ≤ ylo) (high : yhi ≤ 2 ^ 126)
    (inside : j ∈ domValues [(floorDiv (ylo - rlo) m, floorDiv (yhi - rlo) m)]) :
    -2 ^ 126 - 2 ^ 66 ≤ j * m ∧ j * m ≤ 2 ^ 126 + 2 ^ 66 := by
  obtain ⟨first, last⟩ := (Dom.has_single ..).mp (Dom.mem_values.mp inside)
  have below := (Dom.le_floorDiv pos).mp last
  -- One more than the first multiple is past the lower bound.
  have above : ylo - rlo < m * (j + 1) := by
    by_contra beyond
    have := (Dom.le_floorDiv pos).mpr (not_lt.mp beyond)
    omega
  rw [mul_add, mul_one] at above
  rw [mul_comm] at above below
  omega

/-- The solutions for the values of a target are found without overflow. -/
theorem wrapSolutionsI128_eq {rest m g mg inv lo hi : Int} (pos : 0 < mg) (small : mg ≤ 2 ^ 64)
    (offset : -2 ^ 125 ≤ rest ∧ rest ≤ 2 ^ 125) (low : -2 ^ 63 ≤ lo ∧ lo < 2 ^ 64) (high : hi < 2 ^ 64)
    {targets : List Int} (words : ∀ t ∈ targets, -2 ^ 63 ≤ t ∧ t < 2 ^ 64) (allowed : List Int) :
    wrapSolutionsI128 rest m g mg inv lo hi targets allowed =
      .ofOption (wrapSolutions rest m g mg inv lo hi targets allowed) := by
  -- Each target gives one candidate class, listed like those of the equation.
  induction targets generalizing allowed with
  | nil => rfl
  | cons t targets ih =>
    have word := words t List.mem_cons_self
    have later := ih fun i member => words i (List.mem_cons_of_mem t member)
    unfold wrapSolutionsI128 wrapSolutions
    rw [i128_pos (by omega) (by omega), Outcome.bind_hit]
    dsimp only
    split
    · exact later allowed
    · have nonneg := Int.emod_nonneg ((t - rest) % m / g * inv) pos.ne'
      have below := Int.emod_lt_of_pos ((t - rest) % m / g * inv) pos
      -- The inverse is taken below the reduced modulus, and so is the product.
      have least := leastI128_eq pos small nonneg below low.1 low.2
      rw [least.1, Outcome.bind_hit, residuesI128_eq pos small (by omega) _ least.2]
      cases residues _ mg hi (64 - allowed.length) with
      | none => rfl
      | some xs => exact later (allowed ++ xs)

/-- The intervals of a target are inside its type's range. -/
theorem target_words {set : Dom} (ok : set.Ok) {neg : Bool} {w : Nat} {sg : Bool}
    (pos : 0 < w) (narrow : w ≤ 64) :
    ∀ p ∈ (if neg then domMinus [wsRange w sg] set
      else domClip set (wsRange w sg).1 (wsRange w sg).2),
      (-2 ^ 63 ≤ p.1 ∧ p.1 < 2 ^ 64) ∧ -2 ^ 63 ≤ p.2 ∧ p.2 < 2 ^ 64 := by
  have span := wsRange_span pos narrow sg
  have modulus := modulus_small narrow
  have range := wsRange_small w sg
  generalize wsRange w sg = type at *
  -- Only the type's two ends are used from here on.
  obtain ⟨rlo, rhi⟩ := type
  dsimp only at *
  -- Either way the target is a domain inside the type, and the type is within 64-bit values.
  have okTarget : Dom.Ok (if neg then domMinus [(rlo, rhi)] set else domClip set rlo rhi) := by
    cases neg with
    | true => exact (Dom.ok_single (by omega)).minus ok
    | false => exact ok.clip _ _
  intro p member
  have valid := okTarget.valid p member
  have first := target_range ok (by omega) (⟨p, member, le_refl _, valid⟩ : Dom.Has _ p.1)
  have last := target_range ok (by omega) (⟨p, member, valid, le_refl _⟩ : Dom.Has _ p.2)
  omega

/-- `csp_wrap_set` does not overflow. -/
theorem cspWrapSetI128_eq {l : Lin} {set : Dom} {neg sg : Bool} {w : Nat} (small : l.Small s.d)
    (oks : ∀ p ∈ l.t, (s.d p.1).Ok) (okSet : set.Ok) (ints : ∀ q ∈ set, InI128 q.1 ∧ InI128 q.2) :
    cspWrapSetI128 l set neg w sg s = .ofOption (cspWrapSet l set neg w sg s) := by
  unfold cspWrapSetI128 cspWrapSet
  split
  · rfl
  · -- Outside 1 to 64 bits the relation is not narrowed.
    have width : 0 < w ∧ w ≤ 64 := by omega
    have modulus := modulus_small width.2
    have span := wsRange_span width.1 width.2 sg
    have range := wsRange_small w sg
    have konst := small.konst
    have terms := small.terms
    have words := @target_words set okSet neg w sg width.1 width.2
    obtain ⟨opened, bounded⟩ := openTermI128_eq small.coef small.words l.k none (by omega) (by omega)
    -- The target keeps to the type, so cutting the set to it does not overflow.
    have aimed : targetI128 set neg w sg = .hit (if neg then domMinus [wsRange w sg] set
        else domClip set (wsRange w sg).1 (wsRange w sg).2) := by
      unfold targetI128
      cases neg with
      | true =>
        simp only [if_true, domMinusOneI128, domMinus, List.append_nil]
        exact domCutI128_eq (fun q member => ints q ((List.dropWhile_sublist _).subset member)) (by omega)
          (by omega)
      | false => rfl
    dsimp only
    rw [i128_pos (by omega) (by omega), Outcome.bind_hit, opened]
    cases term : openTerm s.d l.t l.k none with
    | none => rfl
    | some q =>
      obtain ⟨rest, free⟩ := q
      have offset := bounded rest free term
      simp only [Outcome.ofOption, Outcome.bind_hit]
      rw [aimed, Outcome.bind_hit]
      generalize (if neg then domMinus [wsRange w sg] set
        else domClip set (wsRange w sg).1 (wsRange w sg).2) = target at *
      cases free with
      | none =>
        dsimp only
        rw [wrapValueI128_eq width.2 sg offset.1 offset.2]
        rfl
      | some p =>
        obtain ⟨v, c⟩ := p
        obtain ⟨coef, low, high⟩ := small.open_term oks term
        dsimp only
        split
        · rfl
        · split
          · rw [imageBoundsI128_eq offset low high, Outcome.bind_hit]
            -- The images of the variable's ends are sums of a value and the rest.
            have images : ∀ q : Int × Int, q = (if c = 1 then ((domBounds (s.d v)).1 + rest,
                (domBounds (s.d v)).2 + rest) else (rest - (domBounds (s.d v)).2,
                  rest - (domBounds (s.d v)).1)) →
                (-2 ^ 125 - 2 ^ 64 ≤ q.1 ∧ q.1 ≤ 2 ^ 125 + 2 ^ 64) ∧
                  -2 ^ 125 - 2 ^ 64 ≤ q.2 ∧ q.2 ≤ 2 ^ 125 + 2 ^ 64 := by
              rintro q rfl
              split <;> dsimp only <;> omega
            generalize (if c = 1 then ((domBounds (s.d v)).1 + rest, (domBounds (s.d v)).2 + rest)
              else (rest - (domBounds (s.d v)).2, rest - (domBounds (s.d v)).1)) = q at *
            obtain ⟨first, last⟩ := images q rfl
            -- The quotients by the modulus are no larger than the images.
            have down := @floorDiv_small (q.1 - (wsRange w sg).1) (2 ^ w) modulus.1
            have up := @floorDiv_small (q.2 - (wsRange w sg).1) (2 ^ w) modulus.1
            rw [i128_pos (by omega) (by omega), Outcome.bind_hit,
              floorDivI128_eq modulus.1 (by omega) (by omega), Outcome.bind_hit,
              i128_pos (by omega) (by omega), Outcome.bind_hit,
              floorDivI128_eq modulus.1 (by omega) (by omega), Outcome.bind_hit,
              i128_pos (by omega) (by omega), Outcome.bind_hit]
            split
            · rfl
            · rw [imagesI128_eq words offset (by omega) (by omega) fun j member =>
                shift_small modulus.1 modulus.2 ⟨range.1, range.2.1⟩ (by omega) (by omega) member]
              rfl
          · rw [domSizeI128_eq words, Outcome.bind_hit]
            split
            · rfl
            · split
              · rw [wrapValueI128_eq width.2 sg offset.1 offset.2]
                rfl
              · rename_i notAll
                -- Dividing by a power of two leaves a smaller modulus.
                have tz := (trailingZerosUpTo_spec c w).1
                have divides : (2 : Int) ^ trailingZerosUpTo c w ∣ 2 ^ w := pow_dvd_pow 2 tz
                have pos := Int.ediv_pos_of_pos_of_dvd modulus.1 (by positivity) divides
                have narrow : (2 : Int) ^ w / 2 ^ trailingZerosUpTo c w ≤ 2 ^ w :=
                  Int.ediv_le_self _ modulus.1.le
                rw [wrapSolutionsI128_eq pos (by omega) offset low high.2 (fun t member => ?_)]
                · cases wrapSolutions rest (2 ^ w) (2 ^ trailingZerosUpTo c w)
                    (2 ^ w / 2 ^ trailingZerosUpTo c w)
                    (newtonInverse (c / 2 ^ trailingZerosUpTo c w %
                      (2 ^ w / 2 ^ trailingZerosUpTo c w)) 7) (domBounds (s.d v)).1
                    (domBounds (s.d v)).2 (domValues target) [] <;> rfl
                · -- The targets are values of the type.
                  obtain ⟨p, member, first, last⟩ := Dom.mem_values.mp member
                  have := words p member
                  omega

end Membership

section Relation

/-- A sign times a number is the number or its opposite. -/
theorem unit_mul {sg : Int} (unit : sg = 1 ∨ sg = -1) (z : Int) : sg * z = z ∨ sg * z = -z := by
  rcases unit with rfl | rfl
  · exact .inl (one_mul z)
  · exact .inr (neg_one_mul z)

/-- The set for the open side of a relation is made without overflow. -/
theorem cspWrapSideI128_eq {rel : Rel} {wr : Wrap} {delta k : Int} {l : Lin} {left : Bool}
    (unit : wr.sg = 1 ∨ wr.sg = -1) (small : l.Small s.d) (oks : ∀ p ∈ l.t, (s.d p.1).Ok)
    (shift : -2 ^ 102 ≤ delta ∧ delta ≤ 2 ^ 102) (word : -2 ^ 63 ≤ k ∧ k < 2 ^ 64) :
    cspWrapSideI128 rel wr delta l k left s = .ofOption (cspWrapSide rel wr delta l k left s) := by
  -- The constant side is moved by the difference of the linear constants, which is small.
  have range := wsRange_small wr.w wr.s
  have turned := unit_mul unit delta
  unfold cspWrapSideI128 cspWrapSide
  cases rel with
  | le =>
    -- One end of the half line is the type's own, the other one sum.
    have side : sideI128 wr delta k left = .hit (if (wr.sg = 1) = left then
        ((wsRange wr.w wr.s).1, k - delta) else (k + delta, (wsRange wr.w wr.s).2)) := by
      unfold sideI128
      split
      · rw [i128_pos (by omega) (by omega)]
        rfl
      · rw [i128_pos (by omega) (by omega)]
        rfl
    have inside : InI128 (if (wr.sg = 1) = left then ((wsRange wr.w wr.s).1, k - delta)
          else (k + delta, (wsRange wr.w wr.s).2)).1 ∧
        InI128 (if (wr.sg = 1) = left then ((wsRange wr.w wr.s).1, k - delta)
          else (k + delta, (wsRange wr.w wr.s).2)).2 := by
      unfold InI128
      split <;> dsimp only <;> omega
    dsimp only
    rw [side, Outcome.bind_hit]
    generalize (if (wr.sg = 1) = left then ((wsRange wr.w wr.s).1, k - delta)
      else (k + delta, (wsRange wr.w wr.s).2)) = r at *
    refine cspWrapSetI128_eq small oks (ok_interval r) fun q member => ?_
    split at member
    · obtain rfl := List.mem_singleton.mp member
      exact inside
    · cases member
  -- A single value is one sum.
  | eq | ne =>
    dsimp only
    rw [i128_pos (by omega) (by omega), Outcome.bind_hit]
    have value : -2 ^ 103 ≤ (if left then k - wr.sg * delta else k + wr.sg * delta) ∧
        (if left then k - wr.sg * delta else k + wr.sg * delta) ≤ 2 ^ 103 := by
      split <;> omega
    rw [i128_pos (by omega) (by omega), Outcome.bind_hit]
    refine cspWrapSetI128_eq small oks (Dom.ok_single (le_refl _)) fun q member => ?_
    obtain rfl := List.mem_singleton.mp member
    exact ⟨⟨by omega, by omega⟩, by omega, by omega⟩

/-- `csp_wrap_rel` does not overflow. -/
theorem cspWrapRelI128_eq {l : Lin} {rel : Rel} {fits : List Fit} {wr : Wrap} {fa fb : Fit}
    (left : fits[wr.n]? = some fa) (right : fits[wr.n + 1]? = some fb)
    (unit : wr.sg = 1 ∨ wr.sg = -1) (konst : -2 ^ 100 ≤ l.k ∧ l.k ≤ 2 ^ 100)
    (smallA : fa.lin.Small s.d) (smallB : fb.lin.Small s.d)
    (oksA : ∀ p ∈ fa.lin.t, (s.d p.1).Ok) (oksB : ∀ p ∈ fb.lin.t, (s.d p.1).Ok) :
    cspWrapRelI128 l rel fits wr s = .ofOption (cspWrapRel l rel fits wr s) := by
  unfold cspWrapRelI128 cspWrapRel
  rw [left, right]
  dsimp only
  split
  · rfl
  · -- Outside 1 to 64 bits the relation is not narrowed.
    have width : 0 < wr.w ∧ wr.w ≤ 64 := by omega
    have modulus := modulus_small width.2
    have range := wsRange_small wr.w wr.s
    have span := wsRange_span width.1 width.2 wr.s
    have konstA := smallA.konst
    have konstB := smallB.konst
    have termsA := smallA.terms
    have termsB := smallB.terms
    -- Each side is a constant of at most 2^100 plus its small terms.
    obtain ⟨valueA, boundedA⟩ := linValueI128_eq smallA.coef smallA.words (k := fa.lin.k) (by omega)
      (by omega)
    obtain ⟨valueB, boundedB⟩ := linValueI128_eq smallB.coef smallB.words (k := fb.lin.k) (by omega)
      (by omega)
    have gap := unit_mul unit (fa.lin.k - fb.lin.k)
    rw [i128_pos (by omega) (by omega), Outcome.bind_hit, i128_pos (by omega) (by omega),
      Outcome.bind_hit, i128_pos (by omega) (by omega), Outcome.bind_hit, valueA, valueB]
    cases fixedA : linValue s.d fa.lin with
    -- One side is fixed, and the other is narrowed to what it allows.
    | none =>
      cases fixedB : linValue s.d fb.lin with
      | none => rfl
      | some b =>
        have rangeB := boundedB b fixedB
        have wrapped := wrapValue_range width.1 width.2 wr.s b
        simp only [Outcome.ofOption]
        rw [wrapValueI128_eq width.2 wr.s rangeB.1 rangeB.2, Outcome.bind_hit]
        exact cspWrapSideI128_eq unit smallA oksA (by omega) (by omega)
    | some a =>
      have rangeA := boundedA a fixedA
      have wrappedA := wrapValue_range width.1 width.2 wr.s a
      cases fixedB : linValue s.d fb.lin with
      | none =>
        simp only [Outcome.ofOption]
        rw [wrapValueI128_eq width.2 wr.s rangeA.1 rangeA.2, Outcome.bind_hit]
        exact cspWrapSideI128_eq unit smallB oksB (by omega) (by omega)
      | some b =>
        have rangeB := boundedB b fixedB
        have wrappedB := wrapValue_range width.1 width.2 wr.s b
        -- With both sides fixed the difference of two type values is compared.
        have apart := unit_mul unit (wrapValue wr.w wr.s a - wrapValue wr.w wr.s b)
        simp only [Outcome.ofOption]
        rw [wrapValueI128_eq width.2 wr.s rangeA.1 rangeA.2, Outcome.bind_hit,
          wrapValueI128_eq width.2 wr.s rangeB.1 rangeB.2, Outcome.bind_hit,
          i128_pos (by omega) (by omega), Outcome.bind_hit, i128_pos (by omega) (by omega),
          Outcome.bind_hit, i128_pos (by omega) (by omega), Outcome.bind_hit]
        rfl

end Relation

end Agreement

/-- Every wrapped relation narrows its open variable exactly, or refutes it exactly when no value is left,
and its arithmetic stays in 128 bits for 64-bit variables. -/
theorem wrapped_narrowing {x : Nat} (live : s.d x ≠ []) (oks : ∀ v, (s.d v).Ok) (w : Nat) :
    (∀ l r, l.OpenOnly s.d x → cspWrapEq l w s = some r →
      NarrowedTo (fun y => l.openAt s.d x y % 2 ^ w = 0) x s r) ∧
    (∀ l (set : Dom) neg sg r, set.Ok → l.OpenOnly s.d x → cspWrapSet l set neg w sg s = some r →
      NarrowedTo (fun y => domHas set (wrapValue w sg (l.openAt s.d x y)) ≠ neg) x s r) ∧
    (∀ (l : Lin) rel (fits : List Fit) (wr : Wrap) fa fb r, fits[wr.n]? = some fa →
      fits[wr.n + 1]? = some fb → wr.sg = 1 ∨ wr.sg = -1 → fa.lin.OpenOnly s.d x →
      fb.lin.OpenOnly s.d x → cspWrapRel l rel fits wr s = some r →
      NarrowedTo (fun y => relHolds rel (wr.sg * (wrapValue wr.w wr.s (fa.lin.openAt s.d x y) -
        wrapValue wr.w wr.s (fb.lin.openAt s.d x y)) + wr.delta l fa.lin fb.lin) = true) x s r) ∧
    (∀ l : Lin, l.Small s.d → cspWrapEqI128 l w s = .ofOption (cspWrapEq l w s)) ∧
    (∀ (l : Lin) (set : Dom) neg sg, l.Small s.d → set.Ok → (∀ q ∈ set, InI128 q.1 ∧ InI128 q.2) →
      cspWrapSetI128 l set neg w sg s = .ofOption (cspWrapSet l set neg w sg s)) ∧
    (∀ (l : Lin) rel (fits : List Fit) (wr : Wrap) fa fb, fits[wr.n]? = some fa →
      fits[wr.n + 1]? = some fb → wr.sg = 1 ∨ wr.sg = -1 → -2 ^ 100 ≤ l.k ∧ l.k ≤ 2 ^ 100 →
      fa.lin.Small s.d → fb.lin.Small s.d →
      cspWrapRelI128 l rel fits wr s = .ofOption (cspWrapRel l rel fits wr s)) := by
  -- The first three parts say what is kept, the last three that nothing wrapped.
  refine ⟨?_, ?_, ?_, ?_, ?_, ?_⟩
  · exact fun l r onlyOpen done => narrowed_wrapEq live (oks x) onlyOpen done
  · exact fun l set neg sg r okSet onlyOpen done => narrowed_wrapSet okSet live (oks x) onlyOpen done
  · exact fun l rel fits wr fa fb r left right unit openA openB done =>
      narrowed_wrapRel left right unit live (oks x) openA openB done
  · exact fun l small => cspWrapEqI128_eq small fun p _ => oks p.1
  · exact fun l set neg sg small okSet ints => cspWrapSetI128_eq small (fun p _ => oks p.1) okSet ints
  · exact fun l rel fits wr fa fb left right unit konst smallA smallB =>
      cspWrapRelI128_eq left right unit konst smallA smallB (fun p _ => oks p.1) fun p _ => oks p.1

/-- A search in which every variable is between zero and three. -/
def fourValues : Search where
  d _ := [(0, 3)]
  trail := []
  dirty := []
  work := 0
  estWork := 0
  cut := false
  levelTries := 0
  levelCut := false
  store _ := (0, 0)
  draws := 0

/-- Three times the variable. -/
def thrice : Lin := ⟨[(0, 3)], 0⟩

/-- The number two. -/
def two : Lin := ⟨[], 2⟩

/-- Unsigned sides compared at two bits. -/
def twoBits : Wrap := ⟨2, false, 0, 1⟩

/-- Between zero and three, zero and two are even; three times two and three times three wrap to two and one; and three
times any but one wraps to at most two. -/
theorem wrapped_narrowing_even :
    NarrowedTo (fun y => (Lin.mk [(0, 1)] 0).openAt fourValues.d 0 y % 2 ^ 1 = 0) 0 fourValues
      (fourValues.set 0 [(0, 0), (2, 2)]) ∧
    NarrowedTo (fun y => domHas [(1, 2)] (wrapValue 2 false (thrice.openAt fourValues.d 0 y)) ≠ false) 0 fourValues
      (fourValues.set 0 [(2, 3)]) ∧
    NarrowedTo (fun y => relHolds .le (twoBits.sg * (wrapValue twoBits.w twoBits.s (thrice.openAt fourValues.d 0 y) -
        wrapValue twoBits.w twoBits.s (two.openAt fourValues.d 0 y)) + twoBits.delta ⟨[(0, 3)], -2⟩ thrice two) = true)
      0 fourValues (fourValues.set 0 [(0, 0), (2, 3)]) := by
  -- One two-bit variable ranges over its four values.
  have live : fourValues.d 0 ≠ [] := by decide
  have oks (v : Nat) : Dom.Ok (fourValues.d v) := Dom.ok_single (by decide)
  have onlyOpen (c : Int) : (Lin.mk [(0, c)] 0).OpenOnly fourValues.d 0 := by
    rintro p member other
    simp at member
    simp [member] at other
  have constant : two.OpenOnly fourValues.d 0 := fun p member => absurd member List.not_mem_nil
  have compared := (wrapped_narrowing live oks 2).2.2.1 ⟨[(0, 3)], -2⟩ .le [⟨thrice, 0, 3, 0⟩, ⟨two, 0, 3, 0⟩] twoBits
    ⟨thrice, 0, 3, 0⟩ ⟨two, 0, 3, 0⟩ (fourValues.set 0 [(0, 0), (2, 3)]) rfl rfl (.inl rfl) (onlyOpen 3) constant
  exact ⟨(wrapped_narrowing live oks 1).1 _ _ (onlyOpen 1) rfl,
    (wrapped_narrowing live oks 2).2.1 _ _ _ _ _ (Dom.ok_single (by decide)) (onlyOpen 3) rfl, compared rfl⟩

/-- A refuted relation leaves the domain as it is. -/
theorem wrapped_narrowing_refuted :
    cspWrapSet ⟨[(0, 2)], 0⟩ [(1, 1)] false 1 false fourValues = some (false, fourValues) ∧
      ¬ ∀ y, (fourValues.d 0).Has y ↔ (fourValues.d 0).Has y ∧
        domHas [(1, 1)] (wrapValue 1 false ((Lin.mk [(0, 2)] 0).openAt fourValues.d 0 y)) ≠ false := by
  refine ⟨rfl, fun precise => ?_⟩
  -- Twice zero is even, so zero is no solution, yet it stays.
  exact ((precise 0).mp ⟨(0, 3), List.mem_singleton.mpr rfl, by decide, by decide⟩).2 (by decide)

end Xezim
