import Mathlib.Logic.Function.Iterate
import Mathlib.Algebra.Group.Int.Defs

/-! The generators behind `$dist_chi_square` and `$dist_t`, and when the loop of `chi_square` ends. -/

namespace Xezim.AnnexN

/-- `uniform`: advances the seed once. -/
def uniform (seed start end_ : Int32) : Float × Int32 :=
  let d : Float := 0.00000011920928955078125
  let seed := if seed = 0 then 259341593 else seed
  let (a, b) := if end_ ≤ start then (0.0, 2147483647.0) else (start.toFloat, end_.toFloat)
  let seed := seed * 69069 + 1
  let bits := (seed.toUInt32 >>> 9) ||| 0x3f800000
  let c := (Float32.ofBits bits).toFloat
  let c := c + c * d
  ((b - a) * (c - 1.0) + a, seed)

/-- The rejection loop of `normal`, run at most `fuel` times. -/
def normalLoop : Nat → Int32 → Float → Float → Option (Float × Float × Int32)
  | 0, _, _, _ => none
  | fuel + 1, seed, s, v1 =>
    if s ≥ 1.0 || s == 0.0 then
      let (v1, seed) := uniform seed (-1) 1
      let (v2, seed) := uniform seed (-1) 1
      normalLoop fuel seed (v1 * v1 + v2 * v2) v1
    else some (s, v1, seed)

/-- `normal`. -/
def normal (fuel : Nat) (seed mean deviation : Int32) : Option (Float × Int32) := do
  let (s, v1, seed) ← normalLoop fuel seed 1.0 0.0
  let s := v1 * ((-2.0 * s.log) / s).sqrt
  return (s * deviation.toFloat + mean.toFloat, seed)

/-- `exponential`. -/
def exponential (seed mean : Int32) : Float × Int32 :=
  let (n, seed) := uniform seed 0 1
  (if n != 0.0 then -n.log * mean.toFloat else n, seed)

/-- The variables of the loop of `chi_square`. -/
structure ChiSquare where
  seed : Int32
  x : Float
  k : Int32

namespace ChiSquare

/-- One turn of the loop; the counter wraps, where a checked build stops instead. -/
def step (s : ChiSquare) : ChiSquare :=
  let (e, seed) := exponential s.seed 1
  ⟨seed, s.x + 2.0 * e, s.k + 2⟩

/-- The loop `while k <= deg_of_free`, run at most `fuel` times. -/
def run (degOfFree : Int32) : Nat → ChiSquare → Option ChiSquare
  | 0, _ => none
  | fuel + 1, s => if s.k ≤ degOfFree then run degOfFree fuel s.step else some s

/-- The loop ends. -/
def Terminates (degOfFree : Int32) (s : ChiSquare) : Prop := ∃ fuel, (s.run degOfFree fuel).isSome

/-- No turn of the loop overflows its counter. -/
def InRange (degOfFree : Int32) (s : ChiSquare) : Prop :=
  ∀ n, (∀ i ≤ n, (step^[i] s).k ≤ degOfFree) → (step^[n] s).k.toInt + 2 ≤ Int32.maxValue.toInt

end ChiSquare

/-- What `chi_square` starts the sum with. -/
def chiStart (fuel : Nat) (seed degOfFree : Int32) : Option (Float × Int32) :=
  if degOfFree % 2 ≠ 0 then (normal fuel seed 0 1).map fun r => (r.1 * r.1, r.2) else some (0.0, seed)

/-- `chi_square`. -/
def chiSquare (fuel : Nat) (seed degOfFree : Int32) : Option (Float × Int32) := do
  let (x, seed) ← chiStart fuel seed degOfFree
  let s ← ChiSquare.run degOfFree fuel ⟨seed, x, 2⟩
  return (s.x, s.seed)

/-- `t`. -/
def t (fuel : Nat) (seed degOfFree : Int32) : Option (Float × Int32) := do
  let (chi2, seed) ← chiSquare fuel seed degOfFree
  let root := (chi2 / degOfFree.toFloat).sqrt
  let (n, seed) ← normal fuel seed 0 1
  return (n / root, seed)

/-- `round_away`. -/
def roundAway (r : Float) : Int32 :=
  if r ≥ 0.0 then (r + 0.5).toInt64.toInt32 else -(-r + 0.5).toInt64.toInt32

/-- `dist_chi_square`. -/
def distChiSquare (fuel : Nat) (seed df : Int32) : Option (Int32 × Int32) :=
  if 0 < df then (chiSquare fuel seed df).map fun r => (roundAway r.1, r.2) else some (0, seed)

/-- `dist_t`. -/
def distT (fuel : Nat) (seed df : Int32) : Option (Int32 × Int32) :=
  if 0 < df then (t fuel seed df).map fun r => (roundAway r.1, r.2) else some (0, seed)

namespace ChiSquare

variable {df : Int32} {s : ChiSquare}

/-- Below the last two numbers the counter steps by two without wrapping. -/
theorem step_k (room : s.k.toInt + 2 ≤ Int32.maxValue.toInt) : s.step.k.toInt = s.k.toInt + 2 := by
  have low := s.k.le_toInt
  have limit : Int32.maxValue.toInt = 2 ^ 31 - 1 := by decide
  show (s.k + 2).toInt = s.k.toInt + 2
  -- The sum is inside the range of an `i32`, so its balanced remainder is the sum itself.
  rw [Int32.toInt_add, show (2 : Int32).toInt = 2 by decide]
  exact Int.bmod_eq_of_le (by omega) (by omega)

/-- A counter that may still pass the bound ends the loop: each turn brings it two nearer. -/
theorem terminates (below : df.toInt < 2 ^ 31 - 2) (s : ChiSquare) : s.Terminates df := by
  induction rounds : (df.toInt - s.k.toInt + 2).toNat using Nat.strongRecOn generalizing s with
  | _ rounds ih =>
    by_cases more : s.k ≤ df
    · have inside := Int32.le_iff_toInt_le.mp more
      have limit : Int32.maxValue.toInt = 2 ^ 31 - 1 := by decide
      have stepped := step_k (s := s) (by omega)
      obtain ⟨fuel, ends⟩ := ih _ (by rw [← rounds, stepped]; omega) s.step rfl
      exact ⟨fuel + 1, by rwa [run, if_pos more]⟩
    · exact ⟨1, by rw [run, if_neg more]; rfl⟩

/-- With no counter past the bound the loop never ends. -/
theorem endless (always : ∀ n, (step^[n] s).k ≤ df) : ¬ s.Terminates df := by
  rintro ⟨fuel, ends⟩
  induction fuel generalizing s with
  | zero => cases ends
  | succ fuel ih =>
    have here : s.k ≤ df := always 0
    rw [run, if_pos here] at ends
    exact ih (fun n => always (n + 1)) ends

/-- An even counter stays even, also across the wrap. -/
theorem even_k (even : s.k.toInt % 2 = 0) (n : Nat) : (step^[n] s).k.toInt % 2 = 0 := by
  induction n generalizing s with
  | zero => exact even
  | succ n ih =>
    refine ih (s := s.step) ?_
    show (s.k + 2).toInt % 2 = 0
    rw [Int32.toInt_add, show (2 : Int32).toInt = 2 by decide, Int.bmod_def]
    split
    · omega
    · omega

/-- Against the two largest bounds an even counter always passes the test. -/
theorem endless_of_large (large : 2 ^ 31 - 2 ≤ df.toInt) (even : s.k.toInt % 2 = 0) : ¬ s.Terminates df := by
  refine endless fun n => Int32.le_iff_toInt_le.mpr ?_
  have parity := even_k even n
  have high := (step^[n] s).k.toInt_lt
  omega

/-- The loop from the counter 2 ends without overflowing it exactly when the degrees of freedom are below
the last two numbers of an `i32`. -/
theorem terminates_inRange_iff (seed : Int32) (x : Float) (df : Int32) :
    (Terminates df ⟨seed, x, 2⟩ ∧ InRange df ⟨seed, x, 2⟩) ↔ df.toInt < 2 ^ 31 - 2 := by
  have limit : Int32.maxValue.toInt = 2 ^ 31 - 1 := by decide
  constructor
  · rintro ⟨ends, -⟩
    by_contra large
    exact endless_of_large (by omega) (show (2 : Int32).toInt % 2 = 0 by decide) ends
  · intro below
    refine ⟨terminates below _, fun n turns => ?_⟩
    have last := Int32.le_iff_toInt_le.mp (turns n (Nat.le_refl n))
    omega

/-- At the largest bound it does neither. -/
theorem not_terminates_max :
    ¬ (Terminates 2147483647 ⟨1, 0.0, 2⟩ ∧ InRange 2147483647 ⟨1, 0.0, 2⟩) := by
  rintro ⟨ends, -⟩
  exact endless_of_large (by decide) (by decide) ends

end ChiSquare

/-- More fuel does no harm to the loop. -/
theorem ChiSquare.run_mono {df : Int32} {fuel more : Nat} (least : fuel ≤ more) {s r : ChiSquare}
    (done : s.run df fuel = some r) : s.run df more = some r := by
  -- More fuel changes no turn, so the same turns are taken.
  induction fuel generalizing s more with
  | zero => cases done
  | succ fuel ih =>
    obtain ⟨more, rfl⟩ : ∃ m, more = m + 1 := ⟨more - 1, by omega⟩
    rw [run] at done ⊢
    split at done
    · rename_i turn
      rw [if_pos turn]
      exact ih (by omega) done
    · rename_i above
      rw [if_neg above]
      exact done

/-- More fuel does no harm to the rejection loop. -/
theorem normalLoop_mono {fuel more : Nat} (least : fuel ≤ more) {seed : Int32} {s v1 : Float}
    {r : Float × Float × Int32} (done : normalLoop fuel seed s v1 = some r) :
    normalLoop more seed s v1 = some r := by
  -- The rejection loop in the same way.
  induction fuel generalizing seed s v1 more with
  | zero => cases done
  | succ fuel ih =>
    obtain ⟨more, rfl⟩ : ∃ m, more = m + 1 := ⟨more - 1, by omega⟩
    rw [normalLoop] at done ⊢
    split at done
    · rename_i turn
      rw [if_pos turn]
      exact ih (by omega) done
    · rename_i above
      rw [if_neg above]
      exact done

/-- More fuel does no harm to what the sum starts with. -/
theorem chiStart_mono {fuel more : Nat} (least : fuel ≤ more) {seed df : Int32} {r : Float × Int32}
    (done : chiStart fuel seed df = some r) : chiStart more seed df = some r := by
  -- Only an odd number of degrees draws a normal first.
  unfold chiStart at done ⊢
  split at done
  · rename_i odd
    obtain ⟨n, drawn, rfl⟩ := Option.map_eq_some_iff.mp done
    unfold normal at drawn
    obtain ⟨q, loop, rest⟩ := Option.bind_eq_some_iff.mp drawn
    rw [if_pos odd, normal, normalLoop_mono least loop, Option.bind_eq_bind, Option.bind_some]
    exact congrArg _ rest
  · rename_i even
    rw [if_neg even]
    exact done

/-- `chi_square` returns for degrees of freedom below the last two numbers, once `normal` returns where it
is called. -/
theorem chiSquare_returns {seed df : Int32} (below : df.toInt < 2 ^ 31 - 2)
    (draws : df % 2 ≠ 0 → ∃ fuel, (normal fuel seed 0 1).isSome) :
    ∃ fuel, (chiSquare fuel seed df).isSome := by
  obtain ⟨fuel, ⟨x, seed'⟩, start⟩ : ∃ fuel r, chiStart fuel seed df = some r := by
    by_cases odd : df % 2 ≠ 0
    · obtain ⟨fuel, isSome⟩ := draws odd
      obtain ⟨r, drawn⟩ := Option.isSome_iff_exists.mp isSome
      exact ⟨fuel, _, by rw [chiStart, if_pos odd, drawn]; rfl⟩
    · exact ⟨0, _, by rw [chiStart, if_neg odd]⟩
  obtain ⟨fuel', ends⟩ := ChiSquare.terminates below ⟨seed', x, 2⟩
  obtain ⟨last, run⟩ := Option.isSome_iff_exists.mp ends
  -- The larger fuel serves both loops.
  refine ⟨max fuel fuel', ?_⟩
  have start' := chiStart_mono (Nat.le_max_left fuel fuel') start
  have run' := ChiSquare.run_mono (Nat.le_max_right fuel fuel') run
  rw [chiSquare, start', Option.bind_eq_bind, Option.bind_some]
  dsimp only
  rw [run']
  rfl

/-- For the last two numbers it never returns. -/
theorem chiSquare_endless {seed df : Int32} (large : 2 ^ 31 - 2 ≤ df.toInt) (fuel : Nat) :
    chiSquare fuel seed df = none := by
  unfold chiSquare
  -- The counter starts even and grows by two, and no even number of the type is above such a `df`.
  rcases chiStart fuel seed df with _ | ⟨x, seed'⟩
  · rfl
  · rcases run : ChiSquare.run df fuel ⟨seed', x, 2⟩ with _ | last
    · rw [Option.bind_eq_bind, Option.bind_some]
      dsimp only
      rw [run]
      rfl
    · have even : (2 : Int32).toInt % 2 = 0 := by decide
      exact absurd ⟨fuel, by rw [run]; rfl⟩ (ChiSquare.endless_of_large (s := ⟨seed', x, 2⟩) large even)

end Xezim.AnnexN
