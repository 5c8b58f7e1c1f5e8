import Xezim.Lib.BitRuns
import Xezim.Csp.OperandLaws
import Xezim.Csp.PreferenceLaws
import Xezim.Reference

/-! Equalities of a masked variable with a constant: the relations on its bits they become, and where these
are the equality. -/

namespace Xezim

open Splice

/-- One operand of `&`: its value when it is a constant, base variable, lsb and width when it is a whole
scalar, a field or a constant select, and its declared signedness. -/
structure MaskOperand where
  konst : Option Value
  slice : Option (Nat × Nat × Nat)
  signed : Bool

/-- The segments a variable is split into and the variables of the selects of it, by lsb and width. -/
structure Slices where
  segs : Nat → Option (List (Nat × Nat × Nat))
  sliceVars : Nat → Nat → Nat → Option Nat

/-- The variable that holds `bw` bits of `v` from `blo` on. -/
def Slices.find (slices : Slices) (csp : Csp) (v blo bw : Nat) : Option Nat :=
  if blo = 0 ∧ bw = (csp.var v).width then some v
  else (slices.segs v).bind fun segs =>
    ((segs.find? fun s => s.1 = blo ∧ s.2.1 = bw).map fun s => s.2.2).or (slices.sliceVars v blo bw)

/-- `x & m` with a constant mask. -/
def maskPair [WordRead] (x m : MaskOperand) : Option ((Nat × Nat × Nat) × Bool × Value) := do
  let mask ← m.konst
  let _ ← WordRead.toU64 mask
  let slice ← x.slice
  return (slice, x.signed, mask)

/-- The masked operand and the mask, in either order. -/
def maskParts [WordRead] (left right : MaskOperand) : Option ((Nat × Nat × Nat) × Bool × Value) :=
  (maskPair left right).or (maskPair right left)

/-- `mask_runs`: maximal runs of ones in the low `w` bits of a mask. -/
def maskRuns (m w : Nat) : List (Nat × Nat) := BitRuns.runs m (min w 64)

/-- `csp_masked_eq` of `(left & right) == other`: each run of ones of the mask pins those bits of the
variable to the constant's, and a bit of the constant outside the mask makes it unsatisfiable. -/
def cspMaskedEq [WordRead] (csp : Csp) (slices : Slices) (src : Nat → Nat) (left right : MaskOperand)
    (other : Option Value) : Option Node := do
  let c ← WordRead.toU64 (← other)
  let ((v, lo, w), _, mask) ← maskParts left right
  let m := mask.val &&& ones (min w 64)
  if c &&& (m ^^^ ones 64) ≠ 0 then return .false
  else
    let nodes ← (maskRuns m w).mapM fun r => do
      let u ← slices.find csp v (lo + r.1) r.2
      let want := (c >>> r.1) &&& ones (min r.2 64)
      return Node.lin ⟨[(u, 1)], -(want : Int)⟩ .eq [] (src u) false none
    return cspAnd nodes

/-- The bits of a variable from `lo` on. -/
def sliceBits (csp : Csp) (a : Nat → Int) (v lo w : Nat) : Nat :=
  window (bitsAt (a v) (csp.var v).width) lo w

/-- A pattern of `w` bits extended to `W` bits, with its sign when asked to. -/
def extendBits (x w : Nat) (s : Bool) (W : Nat) : Nat := (wrapValue w s x % 2 ^ W).toNat

/-- `(x & m) == c` with every operand extended to the widest one, with its sign when asked to. -/
def maskedHolds (x w : Nat) (m c : Value) (s : Bool) : Prop :=
  let W := max w (max m.width c.width)
  extendBits x w s W &&& extendBits m.val m.width s W = extendBits c.val c.width s W

/-- A segment or select variable stands for its bits of a variable that is stored on its own. -/
structure Slices.Ok (slices : Slices) (csp : Csp) : Prop where
  seg : ∀ v segs, slices.segs v = some segs → ∀ s ∈ segs, (csp.var s.2.2).aux = true ∧
    csp.auxBase s.2.2 = some (v, s.1, s.2.1) ∧ csp.wide s.2.2 = false ∧
      ∀ x, Dom.Has (csp.dom s.2.2) x → 0 ≤ x ∧ x < 2 ^ s.2.1
  slice : ∀ v lo w u, slices.sliceVars v lo w = some u → (csp.var u).aux = true ∧
    csp.auxBase u = some (v, lo, w) ∧ csp.wide u = false ∧
      ∀ x, Dom.Has (csp.dom u) x → 0 ≤ x ∧ x < 2 ^ w

section Bits

variable {csp : Csp} {a : Nat → Int} {slices : Slices} {v lo w : Nat}

/-- The value of a variable that stands for bits of another one. -/
theorem part_value (assign : csp.Assignment a) {u : Nat} (stored : (csp.var v).aux = false)
    (narrow : csp.wide v = false) (aux : (csp.var u).aux = true) (base : csp.auxBase u = some (v, lo, w))
    (narrow' : csp.wide u = false) (range : ∀ x, Dom.Has (csp.dom u) x → 0 ≤ x ∧ x < 2 ^ w) :
    a u = sliceBits csp a v lo w := by
  obtain ⟨low, high⟩ := range (a u) (assign.within u)
  rw [← Int.toNat_of_nonneg low, ← bitsAt_of_small low high]
  congr 1
  -- Both variables own the bits of the slice, so their written bits agree.
  refine plane_ext fun i => ?_
  unfold sliceBits
  rw [testBit_window]
  by_cases inside : i < w
  · have coversU : csp.covers u v (lo + i) := by
      simp only [Csp.covers, aux, base, if_true]
      exact ⟨trivial, by omega, by omega⟩
    have coversV : csp.covers v v (lo + i) := by simp [Csp.covers, stored]
    have same := assign.consistent u v v (lo + i) narrow' narrow coversU coversV
    simpa [Csp.wroteBit, aux, base, stored, inside] using same
  · rw [testBit_of_lt (bitsAt_lt _ _) (by omega)]
    simp [inside]

/-- The variable of a run has the bits of the run, or is the variable itself as a whole. -/
theorem find_value (ok : slices.Ok csp) (assign : csp.Assignment a) (stored : (csp.var v).aux = false)
    (narrow : csp.wide v = false) {u : Nat} (found : slices.find csp v lo w = some u) :
    (lo = 0 ∧ w = (csp.var v).width ∧ u = v) ∨ a u = sliceBits csp a v lo w := by
  -- A whole-width slice is the variable itself; another is a segment or a declared slice of it.
  unfold Slices.find at found
  split at found
  · rename_i whole
    cases found
    exact .inl ⟨whole.1, whole.2, rfl⟩
  · obtain ⟨segs, here, found⟩ := Option.bind_eq_some_iff.mp found
    right
    rcases Option.or_eq_some_iff.mp found with found | ⟨-, found⟩
    · obtain ⟨s, here', rfl⟩ := Option.map_eq_some_iff.mp found
      obtain ⟨rfl, rfl⟩ : s.1 = lo ∧ s.2.1 = w := by simpa using List.find?_some here'
      obtain ⟨aux, base, narrow', range⟩ := ok.seg v segs here s (List.mem_of_find?_eq_some here')
      exact part_value assign stored narrow aux base narrow' range
    · obtain ⟨aux, base, narrow', range⟩ := ok.slice v lo w u found
      exact part_value assign stored narrow aux base narrow' range

/-- A pattern extended with zeros is itself. -/
theorem extendBits_unsigned {x W : Nat} (pos : 0 < w) (narrow : w ≤ 64) (small : x < 2 ^ w) (wide : w ≤ W) :
    extendBits x w false W = x := by
  have span := wsRange_span pos narrow false
  have zero : (wsRange w false).1 = 0 := rfl
  have below : (x : Int) < 2 ^ w := by exact_mod_cast small
  have wider : (2 : Int) ^ w ≤ 2 ^ W := pow_le_pow_right₀ (by decide) wide
  unfold extendBits
  rw [wrapValue_self pos narrow (by omega), Int.emod_eq_of_lt (by omega) (by omega), Int.toNat_natCast]

end Bits

section Exactness

variable {csp : Csp} {a : Nat → Int} {slices : Slices} {src : Nat → Nat} {v lo w : Nat}

/-- The bits of a run of an operand are bits of the variable. -/
theorem sliceBits_run {r : Nat × Nat} (inside : r.1 + r.2 ≤ w) :
    sliceBits csp a v (lo + r.1) r.2 = window (sliceBits csp a v lo w) r.1 r.2 := by
  refine plane_ext fun i => ?_
  unfold sliceBits
  simp only [testBit_window, Nat.add_assoc]
  by_cases below : i < r.2
  · simp [below, show r.1 + i < w by omega]
  · simp [below]

/-- A whole signed variable under a mask of all its bits. -/
def WholeSigned (csp : Csp) (v lo w : Nat) (mask : Value) : Prop :=
  (csp.var v).signed = true ∧ lo = 0 ∧ w = (csp.var v).width ∧ mask.val &&& ones w = ones w

/-- The equality with every operand extended with zeros is one of bit patterns. -/
theorem maskedHolds_unsigned {x : Nat} {m c : Value} (pos : 0 < w) (narrow : w ≤ 64) (small : x < 2 ^ w)
    (okM : m.Constant) (okC : c.Constant) : maskedHolds x w m c false ↔ x &&& m.val = c.val := by
  unfold maskedHolds
  dsimp only
  rw [extendBits_unsigned pos narrow small (by omega),
    extendBits_unsigned okM.pos okM.narrow okM.small (by omega),
    extendBits_unsigned okC.pos okC.narrow okC.small (by omega)]

/-- A pattern masked equals a constant exactly when the constant has no bit outside the mask and they agree
on it. -/
theorem and_eq_iff {x m c : Nat} (small : x < 2 ^ w) (narrow : w ≤ 64) (word : c < 2 ^ 64) :
    x &&& m = c ↔ c &&& ((m &&& ones w) ^^^ ones 64) = 0 ∧
      ∀ j < w, (m &&& ones w).testBit j = true → x.testBit j = c.testBit j := by
  -- Outside the mask the constant must be clear; under the mask the bits must agree.
  constructor
  · rintro rfl
    constructor
    · refine plane_ext fun j => ?_
      simp only [Nat.testBit_and, Nat.testBit_xor, testBit_ones, Nat.zero_testBit]
      by_cases inside : j < w
      · have : j < 64 := by omega
        cases m.testBit j <;> simp [inside, this]
      · simp [testBit_of_lt small (not_lt.mp inside)]
    · intro j inside set
      simp only [Nat.testBit_and, Bool.and_eq_true] at set
      simp [Nat.testBit_and, set.1]
  · rintro ⟨outside, agree⟩
    refine plane_ext fun j => ?_
    rw [Nat.testBit_and]
    have clear := congrArg (fun p => p.testBit j) outside
    simp only [Nat.testBit_and, Nat.testBit_xor, testBit_ones, Nat.zero_testBit] at clear
    by_cases inside : j < w
    · have word : j < 64 := by omega
      cases set : m.testBit j with
      | true => rw [Bool.and_true, agree j inside (by simp [set, inside])]
      | false => simpa [set, word] using clear.symm
    · rw [testBit_of_lt small (not_lt.mp inside), Bool.false_and]
      by_cases below : j < 64
      · simpa [inside, below] using clear.symm
      · exact (testBit_of_lt word (not_lt.mp below)).symm

/-- What holds of everything a list is mapped to. -/
theorem forall_mapM {α β : Type} {f : α → Option β} {l : List α} {l' : List β} (made : l.mapM f = some l')
    (P : β → Prop) : (∀ y ∈ l', P y) ↔ ∀ x ∈ l, ∃ y, f x = some y ∧ P y := by
  -- The list is made element by element, so both sides peel off the head.
  induction l generalizing l' with
  | nil =>
    obtain rfl : [] = l' := by simpa using made
    simp
  | cons x l ih =>
    rw [List.mapM_cons] at made
    obtain ⟨y, first, made⟩ := Option.bind_eq_some_iff.mp made
    obtain ⟨rest, others, made⟩ := Option.bind_eq_some_iff.mp made
    obtain rfl := Option.some.inj made
    rw [List.forall_mem_cons, List.forall_mem_cons, ih others, first]
    simp

/-- The relations of an equality hold exactly when the constant has no bit outside the mask and the
variable of every run, which there is then, has the constant's bits of the run. -/
theorem maskedEq_holds [WordRead] [LawfulWordRead] {left right : MaskOperand} {s : Bool} {m c : Value} {n : Node}
    (parts : maskParts left right = some ((v, lo, w), s, m)) (narrow : w ≤ 64) (constant : c.Constant)
    (translated : cspMaskedEq csp slices src left right (some c) = some n) :
    (c.val &&& ((m.val &&& ones w) ^^^ ones 64) = 0 →
      ∀ r ∈ BitRuns.runs (m.val &&& ones w) w, ∃ u, slices.find csp v (lo + r.1) r.2 = some u) ∧
      (nodeHolds csp a n ↔ c.val &&& ((m.val &&& ones w) ^^^ ones 64) = 0 ∧
      ∀ r ∈ BitRuns.runs (m.val &&& ones w) w, ∃ u, slices.find csp v (lo + r.1) r.2 = some u ∧
        a u = window c.val r.1 r.2) := by
  -- Bits of the constant outside the mask give a false node; otherwise there is one node for each run of
  -- ones.
  unfold cspMaskedEq at translated
  rw [parts] at translated
  simp only [Option.bind_eq_bind, Option.bind_some] at translated
  obtain ⟨x, known, translated⟩ := Option.bind_eq_some_iff.mp translated
  obtain rfl : c.val = x := Option.some.inj (constant.toU64_eq.symm.trans known)
  rw [min_eq_left narrow] at translated
  split at translated
  · rename_i outside
    cases translated
    simp [nodeHolds, outside]
  · rename_i inside
    obtain ⟨nodes, made, translated⟩ := Option.bind_eq_some_iff.mp translated
    cases translated
    unfold maskRuns at made
    rw [min_eq_left narrow] at made
    refine ⟨fun _ r member => ?_, ?_⟩
    · obtain ⟨node, here, -⟩ := (forall_mapM made fun _ => True).mp (fun _ _ => trivial) r member
      obtain ⟨u, found, -⟩ := Option.bind_eq_some_iff.mp here
      exact ⟨u, found⟩
    rw [nodeHolds_cspAnd, allHold_iff, forall_mapM made]
    simp only [not_not.mp inside, true_and]
    refine forall₂_congr fun r member => ?_
    have below := BitRuns.runs_inside member
    cases slices.find csp v (lo + r.1) r.2 with
    | none => simp
    | some u =>
      simp only [Option.bind_some, Option.pure_def, Option.some.injEq, exists_eq_left', nodeHolds,
        List.not_mem_nil, IsEmpty.forall_iff, implies_true, true_and, not_true_eq_false, false_and, or_false,
        relHolds, Lin.at, List.map_cons, List.map_nil, List.sum_cons, List.sum_nil, decide_eq_true_eq,
        window, min_eq_left (show r.2 ≤ 64 by omega)]
      omega

/-- For every value of the variable, the relations of `(x & m) == c` hold exactly when the equality does at
the width and sign of its context, if and only if `x` is a whole negative variable under a mask of all its bits
and the equality fails, or is not and the equality does not depend on extending its operands with their sign. -/
theorem maskedEq_right_iff [WordRead] [LawfulWordRead] {left right : MaskOperand} {s : Bool} {m c : Value} {n : Node}
    (ok : slices.Ok csp) (assign : csp.Assignment a) (stored : (csp.var v).aux = false)
    (single : csp.wide v = false) (narrow : (csp.var v).width ≤ 64)
    (range : (wsRange (csp.var v).width (csp.var v).signed).1 ≤ a v ∧
      a v ≤ (wsRange (csp.var v).width (csp.var v).signed).2)
    (pos : 0 < w) (inside : lo + w ≤ (csp.var v).width) (okM : m.Constant) (okC : c.Constant)
    (parts : maskParts left right = some ((v, lo, w), s, m))
    (translated : cspMaskedEq csp slices src left right (some c) = some n) :
    (nodeHolds csp a n ↔ maskedHolds (sliceBits csp a v lo w) w m c (s && m.isSigned && c.isSigned)) ↔
      ((WholeSigned csp v lo w m ∧ a v < 0) ∧
        ¬ maskedHolds (sliceBits csp a v lo w) w m c (s && m.isSigned && c.isSigned)) ∨
      (¬ (WholeSigned csp v lo w m ∧ a v < 0) ∧
        (maskedHolds (sliceBits csp a v lo w) w m c false ↔
          maskedHolds (sliceBits csp a v lo w) w m c (s && m.isSigned && c.isSigned))) := by
  have small : sliceBits csp a v lo w < 2 ^ w :=
    lt_of_testBit fun i far => by simp [sliceBits, not_lt.mpr far]
  have thin : w ≤ 64 := by omega
  have word : c.val < 2 ^ 64 := okC.small.trans_le (Nat.pow_le_pow_right (by decide) okC.narrow)
  obtain ⟨reached, holds⟩ := maskedEq_holds (a := a) parts thin okC translated
  have top : m.val &&& ones w = ones w → BitRuns.runs (m.val &&& ones w) w = [(0, w)] := fun full => by
    rw [full, BitRuns.runs_ones pos]
  by_cases signed : WholeSigned csp v lo w m ∧ a v < 0
  · -- The one run is the variable itself, which no pattern equals.
    have fails : ¬ nodeHolds csp a n := by
      obtain ⟨⟨-, bottom, whole, full⟩, negative⟩ := signed
      rw [holds, top full]
      rintro ⟨-, each⟩
      obtain ⟨u, found, same⟩ := each _ (List.mem_singleton_self _)
      unfold Slices.find at found
      rw [if_pos ⟨by omega, whole⟩] at found
      cases found
      omega
    simp only [fails, signed, false_iff, and_self, not_true_eq_false, false_and, true_and, or_false]
  · have reads : nodeHolds csp a n ↔ maskedHolds (sliceBits csp a v lo w) w m c false := by
      rw [holds, maskedHolds_unsigned pos thin small okM okC, and_eq_iff small thin word, ← BitRuns.agree_iff]
      refine and_congr_right fun nothing => forall₂_congr fun r member => ?_
      have below := BitRuns.runs_inside member
      obtain ⟨u, found⟩ := reached nothing r member
      simp only [found, Option.some.injEq, exists_eq_left']
      rw [← sliceBits_run below]
      have part : a u = sliceBits csp a v (lo + r.1) r.2 := by
        rcases find_value ok assign stored single found with ⟨bottom, whole, rfl⟩ | part
        · -- The run is the whole variable, which is then not negative.
          have nonneg : 0 ≤ a u := by
            by_contra negative
            refine signed ⟨⟨?_, by omega, by omega, ?_⟩, by omega⟩
            · by_contra unsigned
              rw [Bool.eq_false_iff.mpr unsigned] at range
              exact negative range.1
            · refine plane_ext fun j => ?_
              by_cases within : j < w
              · exact (BitRuns.runs_set member (by omega) (by omega)).trans (by simp [within])
              · simp [within]
          have range := wsRange_unsigned (by omega) narrow range nonneg
          have span := wsRange_span (by omega) narrow false (w := (csp.var u).width)
          have zero : (wsRange (csp.var u).width false).1 = 0 := rfl
          have bits : sliceBits csp a u (lo + r.1) r.2 = bitsAt (a u) (csp.var u).width := by
            refine plane_ext fun j => ?_
            unfold sliceBits
            rw [testBit_window, bottom, Nat.zero_add, whole]
            by_cases within : j < (csp.var u).width
            · simp [within]
            · rw [testBit_of_lt (bitsAt_lt _ _) (not_lt.mp within)]
              simp
          rw [bits, bitsAt_of_small nonneg (by omega), Int.toNat_of_nonneg nonneg]
        · exact part
      rw [part]
      exact Nat.cast_inj
    rw [reads]
    simp only [signed, false_and, not_false_eq_true, true_and, false_or]

section SignedByte

attribute [local instance] referenceWordRead

/-- A problem of one signed byte. -/
def signedByteCsp : Csp where
  vars := [⟨false, 8, true⟩]
  dom0 := [[(-128, 127)]]
  srcs := []
  nodes := []
  dists := []
  hasSubs := false
  auxBase := fun _ => none
  wide := fun _ => false
  segs := fun _ => false
  sizes := []
  wideFree := []
  drawFree := false

/-- Values of the byte are its assignments. -/
theorem signedByte_assignment {x : Int} (low : -128 ≤ x) (high : x ≤ 127) :
    signedByteCsp.Assignment fun v => if v = 0 then x else 0 where
  within := by
    intro v
    cases v with
    | zero => exact ⟨(-128, 127), List.mem_singleton_self _, low, high⟩
    | succ v => exact ⟨(0, 0), List.mem_singleton_self _, le_refl _, le_refl _⟩
  consistent := by
    -- No variable of the problem is a slice, so one bit has one owner.
    intro u v b i _ _ coversU coversV
    have stored (w : Nat) : (signedByteCsp.var w).aux = false := by
      cases w <;> rfl
    simp only [Csp.covers, stored, Bool.false_eq_true, if_false] at coversU coversV
    rw [← coversU, ← coversV]

/-- The byte `x` as an operand of `x & 8'hff`. -/
def byteOperand : MaskOperand := ⟨none, some (0, 0, 8), true⟩

/-- The mask `8'hff`. -/
def byteMask : Value := ⟨8, 255, 0, false, false, false⟩

/-- No variable is split. -/
def noSlices : Slices := ⟨fun _ => none, fun _ _ _ => none⟩

/-- `(x & 8'hff) == 8'h80` holds of `-128` and its relation, `x == 128`, of no value. -/
theorem byteMask_refuted :
    cspMaskedEq signedByteCsp noSlices (fun _ => 0) byteOperand ⟨some byteMask, none, false⟩
        (some ⟨8, 128, 0, false, false, false⟩) = some (.lin ⟨[(0, 1)], -128⟩ .eq [] 0 false none) ∧
      signedByteCsp.Assignment (fun v => if v = 0 then -128 else 0) ∧
      maskedHolds (sliceBits signedByteCsp (fun v => if v = 0 then -128 else 0) 0 0 8) 8 byteMask
        ⟨8, 128, 0, false, false, false⟩ false ∧
      ¬ nodeHolds signedByteCsp (fun v => if v = 0 then -128 else 0)
        (.lin ⟨[(0, 1)], -128⟩ .eq [] 0 false none) := by
  refine ⟨rfl, signedByte_assignment (by decide) (by decide), ?_, ?_⟩
  · unfold maskedHolds
    decide
  · simp [nodeHolds, relHolds, Lin.at]

/-- Of a byte that is not negative the relation is the equality. -/
theorem byteMask_right :
    nodeHolds signedByteCsp (fun v => if v = 0 then 5 else 0) (.lin ⟨[(0, 1)], -5⟩ .eq [] 0 false none) ↔
      maskedHolds (sliceBits signedByteCsp (fun v => if v = 0 then 5 else 0) 0 0 8) 8 byteMask
        ⟨8, 5, 0, false, false, false⟩ false := by
  have := referenceWordRead_lawful
  have slices : noSlices.Ok signedByteCsp :=
    ⟨fun v segs here => (by cases here), fun v lo w u here => (by cases here)⟩
  have mask : byteMask.Constant := ⟨by decide, by decide, rfl, by decide, rfl⟩
  have constant : (⟨8, 5, 0, false, false, false⟩ : Value).Constant :=
    ⟨by decide, by decide, rfl, by decide, rfl⟩
  have translated : cspMaskedEq signedByteCsp noSlices (fun _ => 0) byteOperand ⟨some byteMask, none, false⟩
      (some ⟨8, 5, 0, false, false, false⟩) = some (.lin ⟨[(0, 1)], -5⟩ .eq [] 0 false none) := rfl
  have assign := signedByte_assignment (x := 5) (by decide) (by decide)
  -- The value 5 is not negative, so its pattern and the variable agree.
  refine (maskedEq_right_iff slices assign rfl rfl (by decide)
    (by decide) (by decide) (by decide) mask constant rfl translated).mpr (.inr ⟨fun here => ?_, Iff.rfl⟩)
  exact absurd here.2 (by decide)

end SignedByte

end Exactness

end Xezim
