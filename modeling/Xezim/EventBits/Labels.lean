import Xezim.EventBits.Sound

/-! Labels, ranges and widths of event terms. -/

namespace Xezim.EventBits

open Checked

variable {m : ElaboratedModule} {scope : String}

/-- Every property of terms is proved from their parts. -/
theorem Expression.induct {P : Expression → Prop} (paren : ∀ inner, P inner → P (.paren inner))
    (ident : ∀ h, P (.ident h)) (index : ∀ base i, P base → P (.index base i))
    (rangeSelect : ∀ base kind l r, P base → P (.rangeSelect base kind l r))
    (concatenation : ∀ parts, (∀ p ∈ parts, P p) → P (.concatenation parts)) : ∀ e, P e :=
  @Expression.rec P (fun parts => ∀ p ∈ parts, P p) paren ident index rangeSelect concatenation
    (fun _ none => absurd none List.not_mem_nil)
    (fun _ _ first rest p found => (List.mem_cons.mp found).elim (fun same => same ▸ first) (rest p))

section Indices

variable [VmOps]

/-- A constant index that the fold knows is the integer it denotes, in range. -/
theorem constIndex_value : ∀ (i : Index) {k : Int}, constIndex m scope i = some k →
    InI64 k ∧ i.value m scope = some k
  | .paren inner, k, found => by
    -- A constant index is checked step by step, and every step is in range.
    rw [constIndex] at found
    rw [Index.value]
    exact constIndex_value inner found
  | .number digits, k, found => by
    rw [constIndex] at found
    rw [Index.value]
    split at found
    · unfold toI64 at found
      split at found
      · -- A literal above the largest signed number is refused.
        rename_i small
        obtain rfl := Option.some.inj found
        refine ⟨?_, rfl⟩
        rw [maxI64_eq] at small
        rw [inI64_iff]
        omega
      · exact absurd found (by simp)
    · exact absurd found (by simp)
  | .ident h, k, found => by
    rw [constIndex] at found
    -- A bare name is a parameter, whose value has to be known.
    rw [Index.value]
    split at found
    · exact absurd found (by simp)
    · rename_i bare
      rw [if_neg bare]
      rw [Option.bind_eq_bind, Option.bind_eq_some_iff] at found
      obtain ⟨v, param, found⟩ := found
      split at found
      · exact absurd found (by simp)
      · rename_i known
        rw [Option.bind_eq_bind, Option.bind_eq_some_iff] at found
        obtain ⟨n, number, found⟩ := found
        unfold toI64 at found
        split at found
        · rename_i small
          obtain rfl := Option.some.inj found
          refine ⟨?_, ?_⟩
          · rw [maxI64_eq] at small
            rw [inI64_iff]
            omega
          · rw [param]
            simp [known, number]
        · exact absurd found (by simp)
  | .minus _, k, found => by
    rw [constIndex] at found
    exact absurd found (by simp)
  | .binary op left right, k, found => by
    rw [constIndex] at found
    rw [Index.value]
    rw [Option.bind_eq_bind, Option.bind_eq_some_iff] at found
    obtain ⟨l, leftFound, found⟩ := found
    rw [Option.bind_eq_some_iff] at found
    obtain ⟨r, rightFound, found⟩ := found
    have leftValue := (constIndex_value left leftFound).2
    have rightValue := (constIndex_value right rightFound).2
    -- Both operands have their values, so the operator is all that is left to check.
    rw [leftValue, rightValue]
    cases op with
    | other => exact absurd found (by simp)
    | add =>
      dsimp only at found
      split at found
      · rename_i fits
        obtain rfl := Option.some.inj found
        exact ⟨fits, rfl⟩
      · exact absurd found (by simp)
    | sub =>
      dsimp only at found
      split at found
      · rename_i fits
        obtain rfl := Option.some.inj found
        exact ⟨fits, rfl⟩
      · exact absurd found (by simp)
    | mul =>
      dsimp only at found
      split at found
      · rename_i fits
        obtain rfl := Option.some.inj found
        exact ⟨fits, rfl⟩
      · exact absurd found (by simp)

/-- An integer literal denotes its integer. -/
theorem intLiteral_value (n : Int) : (intLiteral n).value m scope = some n := by
  unfold intLiteral
  -- The literal spells the size, with a sign in front of a negative number.
  split
  · rename_i low
    rw [Index.value, Index.value]
    change some (-(n.natAbs : Int)) = some n
    rw [Int.ofNat_natAbs_of_nonpos (by omega), Int.neg_neg]
  · rename_i high
    rw [Index.value, Int.natAbs_of_nonneg (by omega)]

end Indices

section Ranges

/-- A span overflows when the range has too many labels. -/
theorem span_eq (l r : Int) :
    span (l, r) = if (l - r).natAbs < maxI64 then .hit ((l - r).natAbs + 1 : Int) else .overflow := by
  unfold span
  -- Three checked steps take the difference, its size and one more.
  dsimp only
  split
  · rename_i short
    rw [maxI64_eq] at short
    have first : InI64 (l - r) := by
      rw [inI64_iff]
      omega
    have second : InI64 ((l - r).natAbs : Int) := by
      rw [inI64_iff]
      omega
    have third : InI64 ((l - r).natAbs + 1 : Int) := by
      rw [inI64_iff]
      omega
    rw [sub_pos first, Outcome.bind_hit, inRange_pos second, Outcome.bind_hit, add_pos third]
  · rename_i long
    -- The first step that leaves the signed numbers overflows.
    by_cases first : InI64 (l - r)
    · rw [sub_pos first, Outcome.bind_hit]
      by_cases second : InI64 ((l - r).natAbs : Int)
      · rw [inRange_pos second, Outcome.bind_hit]
        refine add_neg ?_
        rw [maxI64_eq] at long
        rw [inI64_iff]
        omega
      · rw [inRange_neg second, Outcome.bind_overflow]
    · rw [sub_neg first, Outcome.bind_overflow]

/-- A plain vector: its range is as wide as it is, and its width is a `u32`. -/
structure VecRef.Plain (v : VecRef) : Prop where
  left : InI64 v.dim.1
  right : InI64 v.dim.2
  wide : 0 < v.width
  small : v.width < 2 ^ 32
  span : ((v.dim.1 - v.dim.2).natAbs : Int) + 1 = v.width

/-- A recorded range of a vector, compared with its width. -/
theorem recorded_spec (l r : I64) (width : Nat) :
    let found := (do
      let s ← span (l.val, r.val)
      Outcome.require (s = width)
      return (l.val, r.val) : Outcome (Int × Int))
    (found = .overflow ↔ ¬ (l.val - r.val).natAbs < maxI64) ∧
      ∀ dim, found = .hit dim → InI64 dim.1 ∧ InI64 dim.2 ∧ ((dim.1 - dim.2).natAbs : Int) + 1 = width := by
  dsimp only
  rw [span_eq]
  -- The span is computed first, and it has to be the width that is declared.
  by_cases short : ((l.val - r.val).natAbs : Int) < maxI64
  · rw [if_pos short, Outcome.bind_hit]
    by_cases wide : ((l.val - r.val).natAbs : Int) + 1 = width
    · have required : Outcome.require (((l.val - r.val).natAbs : Int) + 1 = width) = .hit () := if_pos wide
      rw [required, Outcome.bind_hit]
      refine ⟨iff_of_false (by simp) (not_not_intro short), fun dim found => ?_⟩
      simp only [Outcome.pure_eq, Outcome.hit.injEq] at found
      subst found
      exact ⟨l.property, r.property, wide⟩
    · have missed : Outcome.require (((l.val - r.val).natAbs : Int) + 1 = width) = .miss := if_neg wide
      rw [missed, Outcome.bind_miss]
      exact ⟨iff_of_false (by simp) (not_not_intro short), fun dim found => by simp at found⟩
  · rw [if_neg short, Outcome.bind_overflow]
    exact ⟨iff_of_true rfl short, fun dim found => by simp at found⟩

/-- What a flat name is looked up as: the plain vector of that name, or an overflow when its range is too long. -/
theorem vectorOf_spec (name : String) :
    (vectorOf m name = .overflow ↔ ¬ RangeFits m name) ∧
      ∀ v, vectorOf m name = .hit v → v.name = name ∧ v.Plain := by
  unfold vectorOf RangeFits
  cases signal : m.signals name with
  | none => exact ⟨by simp [Outcome.ofOption], fun v found => by simp [Outcome.ofOption] at found⟩
  | some s =>
    simp only [Outcome.ofOption, Outcome.bind_hit, Option.some.injEq, forall_eq']
    unfold vectorDeclDim
    by_cases excluded : (decide (s.width = 0) || m.notBits name) = true
    · rw [if_pos excluded, Outcome.bind_miss]
      refine ⟨?_, fun v found => by simp at found⟩
      simp only [Bool.or_eq_true, decide_eq_true_eq] at excluded
      constructor
      · intro none
        simp at none
      · intro long
        rcases excluded with empty | collected
        · exact absurd (fun wide => absurd empty wide) long
        · exact absurd (fun _ bits => by simp [collected] at bits) long
    · rw [if_neg excluded]
      simp only [Bool.or_eq_true, decide_eq_true_eq, not_or, Bool.not_eq_true] at excluded
      obtain ⟨wide, bits⟩ := excluded
      simp only [wide, bits, ne_eq, not_false_eq_true, forall_const]
      -- A recorded range decides by its number of labels.
      have recorded : ∀ l r : I64, ∀ found : Outcome (Int × Int), found = (do
            let s' ← span (l.val, r.val)
            Outcome.require (s' = s.width)
            return (l.val, r.val) : Outcome (Int × Int)) →
          ((found >>= fun dim => (pure ⟨name, dim, s.width⟩ : Outcome VecRef)) = .overflow ↔
            ¬ (l.val - r.val).natAbs < maxI64) ∧
            ∀ v, (found >>= fun dim => (pure ⟨name, dim, s.width⟩ : Outcome VecRef)) = .hit v →
              v.name = name ∧ v.Plain := by
        intro l r found same
        obtain ⟨long, fits⟩ := recorded_spec l r s.width
        rw [← same] at long fits
        constructor
        · rw [← long, Outcome.bind_eq_overflow]
          simp
        · intro v hit
          rw [Outcome.bind_eq_hit] at hit
          obtain ⟨dim, found, same⟩ := hit
          obtain rfl : (⟨name, dim, s.width⟩ : VecRef) = v := by simpa using same
          obtain ⟨left, right, span⟩ := fits dim found
          exact ⟨rfl, left, right, Nat.pos_of_ne_zero wide, s.small, span⟩
      rcases dims : m.packedFullDims name with _ | _ | ⟨⟨l, r⟩, _ | ⟨_, _⟩⟩
      · rcases range : m.ascendingPacked name with _ | ⟨l, r⟩
        · -- Without a recorded range the labels are the positions.
          refine ⟨by simp, fun v found => ?_⟩
          have same : v = ⟨name, (s.width - 1, 0), s.width⟩ := by simpa using found.symm
          subst same
          have small := s.small
          have positive := Nat.pos_of_ne_zero wide
          refine ⟨rfl, ?_, ?_, positive, small, ?_⟩
          · rw [inI64_iff]
            dsimp only
            omega
          · rw [inI64_iff]
            dsimp only
            omega
          · dsimp only
            omega
        · exact recorded l r _ rfl
      · exact ⟨by simp, fun v found => by simp at found⟩
      · exact recorded l r _ rfl
      · exact ⟨by simp, fun v found => by simp at found⟩

/-- The settled name is that of a signal which is no real. -/
theorem resolveName_hit {h : HierarchicalIdentifier} {name : String} (found : resolveName m scope h = some name) :
    (hitSignal m name).isSome := by
  unfold resolveName at found
  dsimp only at found
  -- A name is looked up in the scope first and then from the root.
  generalize (if !h.hasRoot && decide (scope ≠ "") then some (scopedName scope h.raw) else none) = inScope at found
  have fromScope : ∀ {s : Signal}, inScope.bind (hitSignal m) = some s → inScope = some name →
      (hitSignal m name).isSome := by
    intro s hit same
    rw [same] at hit
    rw [show hitSignal m name = some s from hit]
    rfl
  split at found
  · rename_i hit _
    split at found
    · simp at found
    · exact fromScope hit found
  · rename_i hit _
    exact fromScope hit found
  · rename_i hit
    obtain rfl := Option.some.inj found
    rw [hit]
    rfl
  · rw [Option.filter_eq_some_iff] at found
    exact found.2

/-- An identifier that names a vector names the one of its flat name. -/
theorem resolveVector_hit {h : HierarchicalIdentifier} {v : VecRef} (found : resolveVector m scope h = .hit v) :
    vectorOf m v.name = .hit v ∧ v.Plain ∧ (hitSignal m v.name).isSome := by
  unfold resolveVector at found
  split at found
  · -- A name with selects of its own is no vector.
    simp at found
  · rw [Outcome.bind_eq_hit] at found
    obtain ⟨name, resolved, found⟩ := found
    obtain ⟨rfl, plain⟩ := (vectorOf_spec name).2 v found
    rw [Outcome.ofOption_eq_hit] at resolved
    exact ⟨found, plain, resolveName_hit resolved⟩

/-- An identifier overflows precisely when the range of the name it settles on is too long. -/
theorem resolveVector_overflow {h : HierarchicalIdentifier} :
    resolveVector m scope h = .overflow ↔
      ¬ (h.lastSelects = false → ∀ name, resolveName m scope h = some name → RangeFits m name) := by
  unfold resolveVector
  -- The only step that can overflow is the one from the name to its declared range.
  cases selects : h.lastSelects with
  | true => simp
  | false =>
    cases resolved : resolveName m scope h with
    | none => simp [Outcome.ofOption]
    | some name =>
      simp only [Bool.false_eq_true, if_false, Outcome.ofOption, Outcome.bind_hit, forall_const, Option.some.injEq,
        forall_eq']
      exact (vectorOf_spec name).1

/-- A folded net names the vector its bits were found in. -/
theorem rooted_named {v : VecRef} (found : vectorOf m v.name = .hit v) (signal : (hitSignal m v.name).isSome) :
    named m scope ⟨v.name, true, false, false⟩ = some v := by
  obtain ⟨s, hit⟩ := Option.isSome_iff_exists.mp signal
  have settled : resolveName m scope ⟨v.name, true, false, false⟩ = some v.name := by
    simp [resolveName, hit]
  unfold named resolveVector
  simp [settled, Outcome.ofOption, found]

/-- The vector an identifier names, as the fold resolves it. -/
theorem named_eq_some {h : HierarchicalIdentifier} {v : VecRef} :
    named m scope h = some v ↔ resolveVector m scope h = .hit v := by
  unfold named
  cases resolveVector m scope h <;> simp

end Ranges

section Selects

/-- Parts of a select: its lowest label and its width, when its labels can be counted. -/
theorem partSelectLabels_eq {dim : Int × Int} (descending : dim.2 ≤ dim.1) {kind : RangeKind} {l r : Int}
    (left : InI64 l) (right : InI64 r) (count : CountFits kind l r) :
    partSelectLabels dim kind l r =
      match covered true kind l r with
      | some (lo, hi) => if InI64 lo ∧ InI64 hi then .hit (lo, hi - lo + 1) else .miss
      | none => .miss := by
  -- A count that fits is a difference and one more.
  have counted : ∀ lo hi : Int, lo ≤ hi → hi - lo < maxI64 →
      (do
        let d ← sub hi lo
        let w ← add d 1
        return (if dim.1 ≥ dim.2 then lo else hi, w) : Outcome (Int × Int)) = .hit (lo, hi - lo + 1) := by
    intro lo hi order short
    rw [maxI64_eq] at short
    have first : InI64 (hi - lo) := by
      rw [inI64_iff]
      omega
    have second : InI64 (hi - lo + 1) := by
      rw [inI64_iff]
      omega
    rw [sub_pos first, Outcome.bind_hit, add_pos second, Outcome.bind_hit, if_pos descending]
    rfl
  unfold partSelectLabels selectLabelSpan covered
  dsimp only
  rw [decide_eq_true descending]
  cases kind with
  | constant =>
    -- Constant ends in order are the span, and ends the other way around are refused.
    have short := count rfl
    by_cases order : r ≤ l
    · rw [if_neg (by simp; omega), if_pos rfl, if_pos order, Outcome.bind_hit]
      dsimp only
      rw [Int.min_eq_right order, Int.max_eq_left order]
      exact (counted r l order short).trans (if_pos ⟨right, left⟩).symm
    · rw [if_pos (by simp; omega), if_pos rfl, if_neg order, Outcome.bind_miss]
  | indexedUp =>
    dsimp only
    -- A part of a positive width counts up from its start.
    by_cases positive : 0 < r
    · rw [if_pos positive, if_pos positive]
      dsimp only
      by_cases fits : InI64 (l + (r - 1))
      · -- The last label is the start and the width less one.
        have same : l + r - 1 = l + (r - 1) := by omega
        have short : l + (r - 1) - l < maxI64 := by
          rw [inI64_iff] at right
          rw [maxI64_eq]
          omega
        rw [checked_pos fits, Outcome.bind_hit, same]
        exact (counted l (l + (r - 1)) (by omega) short).trans (if_pos ⟨left, fits⟩).symm
      · have beyond : ¬ (InI64 l ∧ InI64 (l + r - 1)) := by
          rintro ⟨_, inside⟩
          rw [show l + r - 1 = l + (r - 1) by omega] at inside
          exact fits inside
        rw [checked_neg fits, Outcome.bind_miss, if_neg beyond]
        rfl
    · rw [if_neg positive, if_neg positive]
      rfl
  | indexedDown =>
    dsimp only
    -- A part of a positive width counts down from its start.
    by_cases positive : 0 < r
    · rw [if_pos positive, if_pos positive]
      dsimp only
      by_cases fits : InI64 (l - (r - 1))
      · have same : l - r + 1 = l - (r - 1) := by omega
        have short : l - (l - (r - 1)) < maxI64 := by
          rw [inI64_iff] at right
          rw [maxI64_eq]
          omega
        rw [checked_pos fits, Outcome.bind_hit, same]
        exact (counted (l - (r - 1)) l (by omega) short).trans (if_pos ⟨fits, left⟩).symm
      · have beyond : ¬ (InI64 (l - r + 1) ∧ InI64 l) := by
          rintro ⟨inside, _⟩
          rw [show l - r + 1 = l - (r - 1) by omega] at inside
          exact fits inside
        rw [checked_neg fits, Outcome.bind_miss, if_neg beyond]
        rfl
    · rw [if_neg positive, if_neg positive]
      rfl

/-- A select whose labels cannot be counted overflows. -/
theorem partSelectLabels_overflow {dim : Int × Int} (descending : dim.2 ≤ dim.1) {kind : RangeKind} {l r : Int}
    (long : ¬ CountFits kind l r) : partSelectLabels dim kind l r = .overflow := by
  rw [CountFits, Classical.not_imp] at long
  -- Only a constant span can have more labels than a signed number counts.
  obtain ⟨rfl, long⟩ := long
  rw [maxI64_eq] at long
  have order : r ≤ l := by omega
  unfold partSelectLabels selectLabelSpan
  dsimp only
  rw [decide_eq_true descending, if_neg (by simp; omega), Outcome.bind_hit]
  dsimp only
  rw [Int.min_eq_right order, Int.max_eq_left order]
  -- Its difference overflows, or one more does.
  by_cases first : InI64 (l - r)
  · have second : ¬ InI64 (l - r + 1) := by
      rw [inI64_iff]
      omega
    rw [sub_pos first, Outcome.bind_hit, add_neg second, Outcome.bind_overflow]
  · rw [sub_neg first, Outcome.bind_overflow]

/-- A covered select has its labels in order, and its width is their number. -/
theorem covered_spec {kind : RangeKind} {l r lo hi : Int} (cover : covered true kind l r = some (lo, hi)) :
    lo ≤ hi ∧ coveredWidth kind l r = some (hi - lo + 1) := by
  unfold covered at cover
  unfold coveredWidth
  -- The covered labels are in order, and there are as many as the width says.
  cases kind with
  | constant =>
    simp only [if_true] at cover
    split at cover
    · rename_i order
      simp only [Option.some.injEq, Prod.mk.injEq] at cover
      obtain ⟨rfl, rfl⟩ := cover
      refine ⟨order, ?_⟩
      dsimp only
      congr 1
      omega
    · simp at cover
  | indexedUp =>
    dsimp only at cover ⊢
    split at cover
    · rename_i positive
      simp only [Option.some.injEq, Prod.mk.injEq] at cover
      obtain ⟨rfl, rfl⟩ := cover
      refine ⟨by omega, ?_⟩
      rw [if_pos positive]
      congr 1
      omega
    · simp at cover
  | indexedDown =>
    dsimp only at cover ⊢
    split at cover
    · rename_i positive
      simp only [Option.some.injEq, Prod.mk.injEq] at cover
      obtain ⟨rfl, rfl⟩ := cover
      refine ⟨by omega, ?_⟩
      rw [if_pos positive]
      congr 1
      omega
    · simp at cover

/-- A covered select whose labels can be counted has fewer than the greatest integer. -/
theorem covered_short {kind : RangeKind} {l r lo hi : Int} (right : InI64 r) (count : CountFits kind l r)
    (cover : covered true kind l r = some (lo, hi)) : hi - lo < maxI64 := by
  -- What is covered is the width less one.
  obtain ⟨_, wide⟩ := covered_spec cover
  have bound := right.2
  unfold coveredWidth at wide
  cases kind with
  | constant =>
    have short := count rfl
    simp only [covered, if_true] at cover
    split at cover
    · simp only [Option.some.injEq, Prod.mk.injEq] at cover
      omega
    · simp at cover
  | indexedUp =>
    dsimp only at wide
    split at wide
    · have same := Option.some.inj wide
      omega
    · simp at wide
  | indexedDown =>
    dsimp only at wide
    split at wide
    · have same := Option.some.inj wide
      omega
    · simp at wide

end Selects

end Xezim.EventBits
