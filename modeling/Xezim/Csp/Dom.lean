import Mathlib.Data.List.Sort
import Mathlib.Data.Int.Interval
import Mathlib.Tactic.Ring

/-! The domains of the joint constraint solver: sorted lists of disjoint closed intervals. -/

namespace Xezim

/-- `Dom`: sorted, disjoint, inclusive integer intervals. -/
abbrev Dom := List (Int × Int)

/-- `dom_size`. -/
def domSize : Dom → Nat
  | [] => 0
  | p :: d => (p.2 - p.1).toNat + 1 + domSize d

/-- `dom_fixed`: the value of a domain of one value. -/
def domFixed : Dom → Option Int
  | [p] => if p.1 = p.2 then some p.1 else none
  | _ => none

/-- The order intervals are sorted in: by lower end, then by upper end. -/
def intervalLe (p q : Int × Int) : Prop := p.1 < q.1 ∨ p.1 = q.1 ∧ p.2 ≤ q.2

instance : DecidableRel intervalLe := fun _ _ => inferInstanceAs (Decidable (_ ∨ _))

/-- The merging loop of `dom_norm`, with the interval it may still extend. -/
def domJoin (lo hi : Int) : Dom → Dom
  | [] => [(lo, hi)]
  | p :: d =>
    if p.1 ≤ hi + 1 then domJoin lo (max hi p.2) d
    else (lo, hi) :: domJoin p.1 p.2 d

/-- `dom_norm`: any list of intervals, sorted and merged. -/
def domNorm (v : List (Int × Int)) : Dom :=
  match (v.filter fun p => p.1 ≤ p.2).insertionSort intervalLe with
  | [] => []
  | p :: d => domJoin p.1 p.2 d

/-- `dom_clip`. -/
def domClip (d : Dom) (lo hi : Int) : Dom :=
  d.filterMap fun p => if max p.1 lo ≤ min p.2 hi then some (max p.1 lo, min p.2 hi) else none

/-- One interval of the first domain against the second; `next` is the meet of what follows it. -/
def domMeetOne (p : Int × Int) (next : Dom → Dom) : Dom → Dom
  | [] => []
  | q :: b =>
    let rest := if p.2 < q.2 then next (q :: b) else domMeetOne p next b
    if max p.1 q.1 ≤ min p.2 q.2 then (max p.1 q.1, min p.2 q.2) :: rest else rest

/-- `dom_meet`. -/
def domMeet : Dom → Dom → Dom
  | [] => fun _ => []
  | p :: a => domMeetOne p (domMeet a)

/-- The inner loop of `dom_minus`: what is left of one interval. -/
def domCut (lo hi : Int) : Dom → Dom
  | [] => if lo ≤ hi then [(lo, hi)] else []
  | q :: b =>
    if lo ≤ hi then
      if q.1 > hi then [(lo, hi)]
      else (if q.1 > lo then [(lo, q.1 - 1)] else []) ++
        if q.2 ≥ hi then [] else domCut (q.2 + 1) hi b
    else []

/-- `dom_minus`. -/
def domMinus : Dom → Dom → Dom
  | [], _ => []
  | p :: a, b =>
    let b' := b.dropWhile fun q => q.2 < p.1
    domCut p.1 p.2 b' ++ domMinus a b'

/-- `dom_has`. -/
def domHas (d : Dom) (v : Int) : Bool := d.any fun p => p.1 ≤ v && v ≤ p.2

/-- `dom_nth`; past the end it is the last value. -/
def domNth (d : Dom) (k : Nat) : Int :=
  match d with
  | [] => 0
  | p :: d =>
    if k < (p.2 - p.1).toNat + 1 then p.1 + k
    else if d = [] then p.2 else domNth d (k - ((p.2 - p.1).toNat + 1))

/-- Every value of a domain, ascending. -/
def domValues (d : Dom) : List Int :=
  d.flatMap fun p => (List.range (p.2 + 1 - p.1).toNat).map fun i : Nat => p.1 + (i : Int)

/-- `floor_div`. -/
def floorDiv (a b : Int) : Int :=
  if a.tmod b ≠ 0 ∧ (a < 0 ↔ ¬ b < 0) then a.tdiv b - 1 else a.tdiv b

/-- `ceil_div`. -/
def ceilDiv (a b : Int) : Int := -floorDiv (-a) b

/-- `ws_range`: the values of a `w`-bit operand of the given signedness. -/
def wsRange (w : Nat) (s : Bool) : Int × Int :=
  let w := min (max w 1) 64
  if s then (-2 ^ (w - 1), 2 ^ (w - 1) - 1) else (0, 2 ^ w - 1)

/-- The values of a domain. -/
def Dom.Has (d : Dom) (x : Int) : Prop := ∃ p ∈ d, p.1 ≤ x ∧ x ≤ p.2

/-- The intervals of a domain are nonempty, ascending and apart. -/
structure Dom.Ok (d : Dom) : Prop where
  valid : ∀ p ∈ d, p.1 ≤ p.2
  apart : d.Pairwise fun p q => p.2 < q.1

namespace Dom

@[simp] theorem has_nil (x : Int) : ¬ Has [] x := by simp [Has]

@[simp] theorem has_cons (p : Int × Int) (d : Dom) (x : Int) :
    Has (p :: d) x ↔ (p.1 ≤ x ∧ x ≤ p.2) ∨ Has d x := by simp [Has]

theorem has_append (d e : Dom) (x : Int) : Has (d ++ e) x ↔ Has d x ∨ Has e x := by
  simp only [Has, List.mem_append]
  constructor
  · rintro ⟨p, member | member, here⟩
    · exact .inl ⟨p, member, here⟩
    · exact .inr ⟨p, member, here⟩
  · rintro (⟨p, member, here⟩ | ⟨p, member, here⟩)
    · exact ⟨p, .inl member, here⟩
    · exact ⟨p, .inr member, here⟩

/-- `dom_has` decides membership. -/
@[simp] theorem domHas_iff (d : Dom) (x : Int) : domHas d x = true ↔ Has d x := by
  simp [domHas, Has]

/-- An empty list of intervals is a domain. -/
theorem ok_nil : Ok [] := ⟨by simp, List.Pairwise.nil⟩

/-- One nonempty interval is a domain. -/
theorem ok_single {l h : Int} (valid : l ≤ h) : Ok [(l, h)] :=
  ⟨by simpa using valid, List.pairwise_singleton _ _⟩

theorem ok_cons {p : Int × Int} {d : Dom} :
    Ok (p :: d) ↔ p.1 ≤ p.2 ∧ (∀ q ∈ d, p.2 < q.1) ∧ Ok d := by
  constructor
  · intro ok
    have apart := List.pairwise_cons.mp ok.apart
    exact ⟨ok.valid p List.mem_cons_self, apart.1,
      fun q member => ok.valid q (List.mem_cons_of_mem _ member), apart.2⟩
  · rintro ⟨valid, above, rest⟩
    refine ⟨fun q member => ?_, List.pairwise_cons.mpr ⟨above, rest.apart⟩⟩
    rcases List.mem_cons.mp member with rfl | member
    · exact valid
    · exact rest.valid q member

/-- Every value of the rest of a domain lies above its first interval. -/
theorem Ok.above {p : Int × Int} {d : Dom} (ok : Ok (p :: d)) {x : Int} (here : Has d x) :
    p.2 < x := by
  obtain ⟨q, member, low, -⟩ := here
  exact Int.lt_of_lt_of_le ((ok_cons.mp ok).2.1 q member) low

/-- A domain of one value has that value only. -/
theorem has_of_fixed {d : Dom} {x : Int} (fixed : domFixed d = some x) : d = [(x, x)] := by
  unfold domFixed at fixed
  split at fixed
  · rename_i p
    split at fixed
    · rename_i same
      cases fixed
      exact congrArg (fun h => [h]) (Prod.ext rfl same.symm)
    · cases fixed
  · cases fixed

@[simp] theorem fixed_single (x : Int) : domFixed [(x, x)] = some x := by simp [domFixed]

theorem has_single (l h x : Int) : Has [(l, h)] x ↔ l ≤ x ∧ x ≤ h := by simp

/-- The value of a fixed domain is the one every assignment in it takes. -/
theorem eq_of_fixed {d : Dom} {x y : Int} (fixed : domFixed d = some x) (here : Has d y) :
    y = x := by
  rw [has_of_fixed fixed, has_single] at here
  omega

end Dom

end Xezim
