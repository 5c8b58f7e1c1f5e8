import Xezim.Csp.SearchLaws
import Xezim.Reference

/-! The joint search on its translated problem: what `csp_find` returns is a solution, and what it refutes has
none, as long as every solution is read safely: no negative value is taken for an unsigned one, and none is cut
to its low word. -/

namespace Xezim

variable {csp : Csp} {a : Nat → Int} {aux : Aux} {rng : Nat → Nat}

/-- `csp_find` from any object. -/
theorem found_cspFind [WordRead] [LawfulWordRead] (ok : csp.Ok) (aux : Aux) (rng : Nat → Nat) (store : Store)
    (draws : Nat) : ∃ start : Search, start.store = store ∧ Found csp start (cspFind csp aux rng store draws) :=
  ⟨_, rfl, found_loop ok _ _ _ _ _⟩

/-- The solutions a search does not lose are those read safely. -/
theorem sought_iff : Sought csp a ↔ allReadSafe csp a csp.nodes ∧ csp.Solution a := Iff.rfl

section Pairs

attribute [local instance] referenceWordRead

/-- An 8-bit unsigned variable `x` compared with a value read off the bits of a signed one `y`. -/
def funPair (hasSubs : Bool) (op : RelOp) (lo hi : Int) (side : Nat → Value) : Csp where
  vars := [⟨false, 8, false⟩, ⟨false, 8, true⟩]
  dom0 := [[(0, 255)], [(lo, hi)]]
  srcs := [⟨[1], false, fun _ => true, fun o => side (o 1).1⟩,
    ⟨[0, 1], false, fun o => funHolds op ⟨false, 8, false⟩ (o 0).1 (side (o 1).1),
      fun _ => ⟨1, 1, 0, false, false, false⟩⟩]
  nodes := [.fn 0 op 0 1 false]
  dists := []
  hasSubs
  auxBase := fun _ => none
  wide := fun _ => false
  segs := fun _ => false
  sizes := []
  wideFree := []
  drawFree := false

/-- Choices without preferences. -/
def plainAux : Aux := ⟨fun _ => [], fun _ => [], fun _ => [], fun _ => false, fun _ => false,
  fun _ => none, fun _ => none⟩

section

variable (subs : Bool) (op : RelOp) (lo hi : Int) (side : Nat → Value)

theorem funPair_var (v : Nat) : ((funPair subs op lo hi side).var v).aux = false := by
  match v with
  | 0 | 1 | _ + 2 => rfl

theorem funPair_dom (v : Nat) : (funPair subs op lo hi side).dom v =
    if v = 0 then [(0, 255)] else if v = 1 then [(lo, hi)] else [(0, 0)] := by
  match v with
  | 0 | 1 | _ + 2 => rfl

theorem funPair_covers (v b i : Nat) : (funPair subs op lo hi side).covers v b i ↔ b = v := by
  unfold Csp.covers
  rw [funPair_var, if_neg Bool.false_ne_true]

/-- The value plane of a place two objects agree on. -/
theorem funPair_read {v : Nat} {o o' : Store} (same : (funPair subs op lo hi side).SameRead v o o') :
    (o v).1 = (o' v).1 :=
  Nat.eq_of_testBit_eq fun i => (same v i ((funPair_covers subs op lo hi side v v i).mpr rfl)).1

/-- The relation compares the eight bits of `x` with the value the bits of `y` give. -/
theorem funPair_truth (a : Nat → Int) : (funPair subs op lo hi side).truth 1 a =
    funHolds op ⟨false, 8, false⟩ (bitsAt (a 0) 8) (side (bitsAt (a 1) 8)) := rfl

/-- Such a pair is a problem as the translation makes it. -/
theorem funPair_ok (ordered : lo ≤ hi) (small : -2 ^ 127 ≤ lo ∧ hi ≤ 2 ^ 127 - 1)
    (fits : ∀ y < 2 ^ 8, (side y).Fits) (bits : ∀ y, (side y).isReal = false) :
    (funPair subs op lo hi side).Ok where
  sized := rfl
  doms v := by
    rw [funPair_dom]
    split
    · exact Dom.ok_single (by decide)
    · split
      · exact Dom.ok_single ordered
      · exact Dom.ok_single (by decide)
  range v x here := by
    rw [funPair_dom] at here
    split at here
    · have := (Dom.has_single ..).mp here
      omega
    · split at here
      · have := (Dom.has_single ..).mp here
        omega
      · have := (Dom.has_single ..).mp here
        omega
  fresh i := by
    match i with
    | 0 | 1 | _ + 2 => rfl
  narrow _ _ _ := rfl
  reads i o o' same := by
    match i with
    | 0 =>
      have one := funPair_read subs op lo hi side (same 1 (by simp [funPair, Csp.src]))
      exact ⟨rfl, by simp [funPair, Csp.src, one]⟩
    | 1 =>
      have zero := funPair_read subs op lo hi side (same 0 (by simp [funPair, Csp.src]))
      have one := funPair_read subs op lo hi side (same 1 (by simp [funPair, Csp.src]))
      exact ⟨by simp [funPair, Csp.src, zero, one], rfl⟩
    | _ + 2 => exact ⟨rfl, rfl⟩
  described n member := by
    obtain rfl := List.mem_singleton.mp member
    refine ⟨fun a assign => ⟨?_, fits _ (bitsAt_lt _ 8), bits _⟩, Nat.succ_pos 7, fun a assign => ?_⟩
    · have twice : bitsAt (bitsAt (a 0) 8) 8 = bitsAt (a 0) 8 := by
        unfold bitsAt
        omega
      rw [funPair_truth, ne_eq, Bool.not_eq_false]
      unfold funHolds
      simp [Csp.valueAt, Csp.written, funPair, Csp.src, Csp.var, cspWrite, twice]
    · have here := assign.within 0
      rw [funPair_dom, if_pos rfl, Dom.has_single] at here
      exact here
  linked a _ _ := fun u v b i _ _ first second => by
    rw [funPair_covers] at first second
    rw [← first, ← second]

/-- Two numbers of the domains whose bits are related solve the pair. -/
theorem funPair_solution {x y : Int} (xs : 0 ≤ x ∧ x ≤ 255) (ys : lo ≤ y ∧ y ≤ hi)
    (holds : funHolds op ⟨false, 8, false⟩ (bitsAt x 8) (side (bitsAt y 8)) = true) :
    (funPair subs op lo hi side).Solution fun v => if v = 0 then x else if v = 1 then y else 0 := by
  refine ⟨⟨fun v => ?_, fun u v b i _ _ first second => ?_⟩, fun n member => ?_⟩
  · rw [funPair_dom]
    split
    · exact (Dom.has_single ..).mpr xs
    · split
      · exact (Dom.has_single ..).mpr ys
      · exact (Dom.has_single ..).mpr ⟨le_refl _, le_refl _⟩
  · rw [funPair_covers] at first second
    rw [← first, ← second]
  · obtain rfl := List.mem_singleton.mp member
    unfold nodeHolds
    rw [funPair_truth]
    simpa using holds

end

/-- `x == y` for a signed `y`, as `x == (y ^ z)` with `z` zero translates. -/
def signedPair (hasSubs : Bool) : Csp := funPair hasSubs .eq (-2) (-1) fun y => ⟨8, y, 0, true, false, false⟩

/-- `x < {y, 64'd0}` with `y` one. -/
def shiftedPair : Csp := funPair false .lt 1 1 fun y => ⟨72, y * 2 ^ 64, 0, false, false, false⟩

/-- The signed pair is a problem as the translation makes it. -/
theorem signedPair_ok (subs : Bool) : (signedPair subs).Ok :=
  funPair_ok subs .eq _ _ _ (by decide) (by decide) (fun _ small => ⟨small, Nat.two_pow_pos 8⟩) fun _ => rfl

/-- The shifted pair is a problem as the translation makes it. -/
theorem shiftedPair_ok : shiftedPair.Ok :=
  funPair_ok false .lt _ _ _ (by decide) (by decide)
    (fun y small => ⟨show y * 2 ^ 64 < 2 ^ 72 by omega, Nat.two_pow_pos 72⟩) fun _ => rfl

end Pairs

end Xezim
