import Xezim.Sensitivity.DenotationLaws

/-! A static packed selection is the bits that its chain of selects touches. -/

namespace Xezim.Sensitivity

open Checked PackedLayout

variable {Literal Operator DataType : Type}

section Variables

/-- The width of some dimensions, found where it fits in 64 bits. -/
theorem productWidth_eq (ds : List Dim) {w : Nat} (positive : 0 < w) (fits : w < sizeU64) :
    productWidth w ds = checkedU64 (w * elements ds) := by
  induction ds generalizing w with
  | nil => rw [productWidth, elements_nil, Nat.mul_one, checkedU64_pos fits]; rfl
  | cons d ds ih =>
    -- What is left of a product only grows, so it fits only if every factor did.
    have grows : w * d.count ≤ w * elements (d :: ds) := by
      rw [elements_cons]
      exact Nat.mul_le_mul_left _ (Nat.le_mul_of_pos_right _ (elements_pos ds))
    have count : d.count ≤ w * d.count := Nat.le_mul_of_pos_left _ positive
    show (absDiffPlusOne d.1 d.2 >>= fun count => checkedU64 (w * count) >>= fun w => productWidth w ds) = _
    rw [absDiffPlusOne]
    by_cases small : d.count < sizeU64
    · rw [show ((d.1 - d.2).natAbs + 1) = d.count from rfl, checkedU64_pos small, Outcome.bind_hit]
      by_cases product : w * d.count < sizeU64
      · rw [checkedU64_pos product, Outcome.bind_hit, ih (Nat.mul_pos positive d.count_pos) product,
          elements_cons, Nat.mul_assoc]
      · rw [checkedU64_neg product, checkedU64_neg (by omega)]
        rfl
    · rw [show ((d.1 - d.2).natAbs + 1) = d.count from rfl, checkedU64_neg small, checkedU64_neg (by omega)]
      rfl

/-- What the selection of a whole variable is. -/
structure Whole (s : PackedSelection) (ds : List Dim) : Prop where
  describes : Describes s ds
  start : s.offset = 0
  static : s.dynamic = false

variable {core : Elaborator Literal Operator DataType} {module : ElaboratedModule DataType}

/-- Recorded dimensions have `i64` bounds. -/
theorem signed_of_fullDims {name : String} {d : Dim} (member : d ∈ fullDims module name) : Signed d := by
  unfold fullDims at member
  cases record : module.packedFullDims name with
  | none => simp [record] at member
  | some dims =>
    simp only [record, List.mem_map] at member
    obtain ⟨⟨l, r⟩, -, rfl⟩ := member
    exact ⟨l.2, r.2⟩

/-- A variable's only dimension has `i64` bounds, and the source finds it. -/
theorem soleDim_eq (name : String) {w : UInt32} (positive : 0 < w.toNat) :
    soleDim module name w = .hit (outermost module name w) ∧ Signed (outermost module name w) := by
  have small : w.toNat < 2 ^ 32 := w.toNat_lt
  have zero : InI64 0 := by decide
  unfold soleDim outermost
  -- A declared range is of signed numbers, and the range of a plain vector ends at its width.
  cases module.ascendingPacked name with
  | some d => exact ⟨rfl, d.1.2, d.2.2⟩
  | none =>
    have fits : InI64 ((w.toNat : Int) - 1) := by
      rw [inI64_iff]
      omega
    exact ⟨by simp [checked_pos fits], fits, zero⟩

/-- The dimensions of a variable of `w` bits count them: the outermost one alone, or with the bits of its elements. -/
theorem soleDims_eq_some {d : Dim} {w : Nat} {ds : List Dim} (sole : soleDims d w = some ds) :
    0 < w ∧ elements ds = w ∧ (ds = [d] ∨ ∃ e : Nat, ds = [d, ((e : Int) - 1, 0)] ∧ 1 < e ∧ e ≤ w) := by
  simp only [soleDims, Option.ite_none_right_eq_some] at sole
  -- The bits divide evenly over the outermost labels.
  obtain ⟨⟨positive, divides⟩, sole⟩ := sole
  have bits : d.count * (w / d.count) = w := Nat.mul_div_cancel' divides
  have nonzero : 0 < w / d.count := Nat.div_pos (Nat.le_of_dvd positive divides) d.count_pos
  -- Either there is one dimension, or the bits under a label are one more.
  split at sole
  · rename_i single
    obtain rfl := Option.some.inj sole
    rw [single, Nat.mul_one] at bits
    exact ⟨positive, by simpa using bits, .inl rfl⟩
  · rename_i several
    obtain rfl := Option.some.inj sole
    refine ⟨positive, ?_, .inr ⟨_, rfl, by omega, Nat.div_le_self _ _⟩⟩
    rw [elements_cons, elements_cons, elements_nil, Nat.mul_one, Dim.count_descending nonzero, bits]

/-- The selection of a variable whose width alone is recorded. -/
theorem wholeSelection_sole (name : String) {w : UInt32} {ds : List Dim}
    (sole : soleDims (outermost module name w) w.toNat = some ds) :
    ∃ s, (do
      let dim ← soleDim module name w
      -- Nothing of the variable's 32-bit width leaves a 64-bit number.
      wholeSelection name w.toNat [dim]) = .hit s ∧ Whole s ds := by
  obtain ⟨positive, count, shape⟩ := soleDims_eq_some sole
  obtain ⟨found, signed⟩ := @soleDim_eq _ module name _ positive
  have narrow : w.toNat < 2 ^ 32 := w.toNat_lt
  have room : 0 + w.toNat < sizeU64 := by rw [sizeU64_eq]; omega
  refine ⟨⟨name, 0, w.toNat, w.toNat, [outermost module name w], false⟩, ?_, ⟨count.symm, room, ?_, ?_⟩, rfl, rfl⟩
  · simp only [found, Outcome.bind_hit, wholeSelection, Outcome.require_pos positive]
    rfl
  · -- Only the two dimensions of the selection can be at issue.
    rcases shape with rfl | ⟨e, rfl, large, less⟩
    · simpa using signed
    · have inner : Signed ((e : Int) - 1, 0) := by
        constructor <;> rw [inI64_iff] <;> constructor <;> simp only <;> omega
      simpa using ⟨signed, inner⟩
  · rcases shape with rfl | ⟨e, rfl, large, less⟩
    · exact .inl rfl
    · exact .inr ⟨_, e, rfl, rfl, large, by rw [inI64_iff]; omega⟩

/-- A whole variable of fewer than 2^64 bits. -/
theorem identSelection_hit {name : String} {ds : List Dim} (declared : declaredDims core module name = some ds)
    (small : elements ds < sizeU64) : ∃ s, identSelection core module name = .hit s ∧ Whole s ds := by
  unfold declaredDims at declared
  unfold identSelection
  split at declared
  · cases declared
  · -- A collection is no packed variable.
    rename_i plain
    rw [if_neg plain]
    cases dims : fullDims module name with
    -- Without declared dimensions the width is read, and its range is the sole dimension.
    | nil =>
      rw [dims] at declared
      cases width : signalWidth core module name with
      | none => simp [width] at declared
      | some w =>
        simp only [width] at declared
        exact wholeSelection_sole name declared
    | cons d rest =>
      -- Declared dimensions are multiplied up, and the product is the number of bits.
      rw [dims] at declared
      obtain rfl := Option.some.inj declared
      have width : productWidth 1 (d :: rest) = .hit (elements (d :: rest)) := by
        rw [productWidth_eq _ Nat.one_pos (by decide), Nat.one_mul, checkedU64_pos small]
      refine ⟨⟨name, 0, elements (d :: rest), elements (d :: rest), d :: rest, false⟩, ?_,
        ⟨rfl, by simpa using small, ?_, .inl rfl⟩, rfl, rfl⟩
      · simp only [width, Outcome.bind_hit, wholeSelection, Outcome.require_pos (elements_pos (d :: rest))]
        rfl
      · exact fun e member => @signed_of_fullDims _ module name e (dims ▸ member)

/-- A variable of 2^64 bits or more is not selected from. -/
theorem identSelection_miss {name : String} {ds : List Dim} (declared : declaredDims core module name = some ds)
    (large : ¬ elements ds < sizeU64) : identSelection core module name = .miss := by
  unfold declaredDims at declared
  unfold identSelection
  split at declared
  · cases declared
  · rename_i plain
    rw [if_neg plain]
    cases dims : fullDims module name with
    | nil =>
      rw [dims] at declared
      cases width : signalWidth core module name with
      | none => simp [width] at declared
      | some w =>
        -- A width recorded alone is a 32-bit one.
        simp only [width] at declared
        have narrow : w.toNat < 2 ^ 32 := w.toNat_lt
        rw [(soleDims_eq_some declared).2.1, sizeU64_eq] at large
        omega
    | cons d rest =>
      rw [dims] at declared
      obtain rfl := Option.some.inj declared
      have width : productWidth 1 (d :: rest) = .miss := by
        rw [productWidth_eq _ Nat.one_pos (by decide), Nat.one_mul, checkedU64_neg large]
      simp only [width, Outcome.bind_miss]

end Variables

section Chains

variable (core : Elaborator Literal Operator DataType) (module : ElaboratedModule DataType) (ds : List Dim)

/-- How the selection of a chain of selects relates to the bits the chain touches, where counting means the same as
the labels kept. -/
structure Follows (expr : Expression Literal Operator) : Prop where
  static : ∀ s, packedSensitivitySelection core module expr = .hit s → s.dynamic = false →
    ∃ fs, leaves core module ds expr = some fs ∧ Describes s fs ∧
      (Counts core module ds expr → ∀ ρ, Agrees core module ρ → Aligned ds ρ expr s.offset (counted expr fs))
  moving : ∀ s, packedSensitivitySelection core module expr = .hit s → s.dynamic = true →
    leaves core module ds expr = none ∧ s.offset + s.width < sizeU64 ∧
      (Counts core module ds expr →
        ∀ ρ, Agrees core module ρ → ∀ bit, Touches ds ρ expr bit → s.offset ≤ bit ∧ bit < s.offset + s.width)
  stuck : packedSensitivitySelection core module expr = .miss → leaves core module ds expr = none
  far : packedSensitivitySelection core module expr = .overflow ↔ ¬ Near core module ds expr

/-- What a constant select makes of a static selection: it is too far, it selects nothing, or it narrows it. -/
inductive Narrowed (expr : Expression Literal Operator) (near : Prop) (left : Option (List Dim)) :
    Outcome PackedSelection → Prop where
  | far (beyond : ¬ near) : Narrowed expr near left .overflow
  | outside (nothing : left = none) (holds : near) : Narrowed expr near left .miss
  | inside {s : PackedSelection} {fs : List Dim} (found : left = some fs) (holds : near) (describes : Describes s fs)
      (static : s.dynamic = false)
      (aligned : Counts core module ds expr → ∀ ρ, Agrees core module ρ →
        Aligned ds ρ expr s.offset (counted expr fs)) :
      Narrowed expr near left (.hit s)

variable {core module ds} {base expr : Expression Literal Operator}

/-- A chain whose last select is constant, after a static selection. -/
theorem Follows.of_narrowed {near : Prop}
    (narrowed : Narrowed core module ds expr near (leaves core module ds expr)
      (packedSensitivitySelection core module expr))
    (nearIff : Near core module ds expr ↔ near) : Follows core module ds expr := by
  -- The three ways a constant select can go.
  generalize outcome : packedSensitivitySelection core module expr = result at narrowed
  cases narrowed with
  | far beyond =>
    refine ⟨fun s hit => ?_, fun s hit => ?_, fun miss => ?_, ?_⟩
    · rw [outcome] at hit; cases hit
    · rw [outcome] at hit; cases hit
    · rw [outcome] at miss; cases miss
    · simp [outcome, nearIff, beyond]
  | outside nothing holds =>
    refine ⟨fun s hit => ?_, fun s hit => ?_, fun _ => nothing, ?_⟩
    · rw [outcome] at hit; cases hit
    · rw [outcome] at hit; cases hit
    · simp [outcome, nearIff, holds]
  | inside found holds describes static aligned =>
    refine ⟨fun s' hit _ => ?_, fun s' hit moving => ?_, fun miss => ?_, ?_⟩
    · rw [outcome] at hit
      cases hit
      exact ⟨_, found, describes, aligned⟩
    · rw [outcome] at hit
      cases hit
      rw [static] at moving
      cases moving
    · rw [outcome] at miss; cases miss
    · simp [outcome, nearIff, holds]

/-- A select with a run-time operand, on a selection that is static. -/
theorem Follows.dynamic {s : PackedSelection} (follows : Follows core module ds base)
    (found : packedSensitivitySelection core module base = .hit s) (static : s.dynamic = false)
    (result : packedSensitivitySelection core module expr = .hit { s with dynamic := true })
    (leaf : leaves core module ds expr = none) (near : Near core module ds expr ↔ Near core module ds base)
    (counts : Counts core module ds expr → Counts core module ds base)
    (touch : ∀ ρ bit, Touches ds ρ expr bit → Touches ds ρ base bit) : Follows core module ds expr := by
  obtain ⟨fs, -, describes, aligned⟩ := follows.static s found static
  refine ⟨fun s' hit moving => ?_, fun s' hit _ => ?_, fun miss => ?_, ?_⟩
  · rw [result] at hit
    cases hit
    cases moving
  · rw [result] at hit
    cases hit
    -- Whatever the operand is at run time, the bits are those of the selection so far.
    refine ⟨leaf, describes.bounded, fun means ρ agrees bit touches => ?_⟩
    have inside := (aligned (counts means) ρ agrees).touches bit |>.mp (touch ρ bit touches)
    rw [elements_counted, ← describes.width] at inside
    exact inside
  · rw [result] at miss
    cases miss
  · rw [result, near]
    have safe : Near core module ds base := by
      by_contra far
      rw [follows.far.mpr far] at found
      cases found
    simp [safe]

/-- A select of a selection, from what a constant one makes of it. -/
theorem Follows.step {α : Type} {operand : Option α} {narrow : PackedSelection → α → Outcome PackedSelection}
    {ok : List Dim → α → Prop} {left : List Dim → α → Option (List Dim)}
    (computes : packedSensitivitySelection core module expr =
      packedSensitivitySelection core module base >>= fun s => s.step operand narrow)
    (leaf : leaves core module ds expr =
      (leaves core module ds base).bind fun fs => operand.bind fun a => left fs a)
    (near : Near core module ds expr ↔ Near core module ds base ∧
      ∀ fs a, leaves core module ds base = some fs → operand = some a → ok fs a)
    (counts : Counts core module ds expr → Counts core module ds base)
    (touch : ∀ ρ bit, Touches ds ρ expr bit → Touches ds ρ base bit)
    (narrows : ∀ s fs a, leaves core module ds base = some fs → operand = some a → s.dynamic = false →
      Describes s fs →
      (Counts core module ds base → ∀ ρ, Agrees core module ρ → Aligned ds ρ base s.offset (counted base fs)) →
      Narrowed core module ds expr (ok fs a) (left fs a) (narrow s a))
    (follows : Follows core module ds base) : Follows core module ds expr := by
  cases found : packedSensitivitySelection core module base with
  | overflow =>
    have far : ¬ Near core module ds base := follows.far.mp found
    have result : packedSensitivitySelection core module expr = .overflow := by rw [computes, found]; rfl
    refine ⟨fun s hit => ?_, fun s hit => ?_, fun miss => ?_, ?_⟩
    · rw [result] at hit; cases hit
    · rw [result] at hit; cases hit
    · rw [result] at miss; cases miss
    · rw [result, near]
      simp [far]
  | miss =>
    have nothing := follows.stuck found
    have result : packedSensitivitySelection core module expr = .miss := by rw [computes, found]; rfl
    have safe : Near core module ds base := by
      by_contra far
      rw [follows.far.mpr far] at found
      cases found
    refine ⟨fun s hit => ?_, fun s hit => ?_, fun _ => by rw [leaf, nothing]; rfl, ?_⟩
    · rw [result] at hit; cases hit
    · rw [result] at hit; cases hit
    · rw [result, near]
      simp [safe, nothing]
  | hit s =>
    have safe : Near core module ds base := by
      by_contra far
      rw [follows.far.mpr far] at found
      cases found
    cases moving : s.dynamic with
    | true =>
      -- A dynamic selection stays as it is.
      obtain ⟨nothing, bounded, covers⟩ := follows.moving s found moving
      have result : packedSensitivitySelection core module expr = .hit s := by
        rw [computes, found]
        simp [PackedSelection.step, moving]
      refine ⟨fun s' hit still => ?_, fun s' hit _ => ?_, fun miss => ?_, ?_⟩
      · rw [result] at hit
        cases hit
        rw [moving] at still
        cases still
      · rw [result] at hit
        cases hit
        exact ⟨by rw [leaf, nothing]; rfl, bounded,
          fun means ρ agrees bit touches => covers (counts means) ρ agrees bit (touch ρ bit touches)⟩
      · rw [result] at miss; cases miss
      · rw [result, near]
        simp [safe, nothing]
    | false =>
      obtain ⟨fs, dims, describes, aligned⟩ := follows.static s found moving
      cases value : operand with
      | none =>
        subst value
        have result : packedSensitivitySelection core module expr = .hit { s with dynamic := true } := by
          rw [computes, found]
          simp [PackedSelection.step, moving]
        exact follows.dynamic found moving result (by rw [leaf, dims]; rfl) (by simp [near]) counts touch
      | some a =>
        subst value
        have result : packedSensitivitySelection core module expr = narrow s a := by
          rw [computes, found]
          simp [PackedSelection.step, moving]
        have leafEq : leaves core module ds expr = left fs a := by rw [leaf, dims]; rfl
        have narrowed := narrows s fs a dims rfl moving describes aligned
        rw [← result, ← leafEq] at narrowed
        have nearIff : Near core module ds expr ↔ ok fs a := by
          rw [near, dims]
          simp [safe]
        exact .of_narrowed narrowed nearIff

/-- A selection without dimensions left. -/
theorem Describes.dims_nil {s : PackedSelection} (describes : Describes s []) : s.dims = [] := by
  rcases describes.dims with same | ⟨d, e, -, same, -⟩
  · exact same
  · cases same

/-- The element of a label is the same, whether the labels are kept or the bits counted. -/
theorem Aligned.index_counted {ρ : Indices Literal Operator} {d : Dim} {fs : List Dim} {offset : Nat}
    {index : Expression Literal Operator} {i : I64} (aligned : Aligned ds ρ base offset (counted base (d :: fs)))
    (value : ρ index = some i.1) (has : d.Has i.1) (counts : IndexCounts (endsInPart base) (d :: fs) i) :
    Aligned ds ρ (.index base index) (offset + d.pos i.1 * elements fs) (counted (.index base index) fs) := by
  -- An index leaves no part behind, so what remains keeps its labels.
  have kept : counted (.index base index) fs = fs := by
    unfold counted
    split <;> rfl
  rw [kept]
  cases fs with
  | cons e fs => exact aligned.index value has
  | nil =>
    -- On the last dimension a part counts from its lowest bit, and anything else by its labels.
    cases part : endsInPart base with
    | false =>
      rw [counted, part] at aligned
      exact aligned.index value has
    | true =>
      rw [counted, part, if_pos rfl] at aligned
      have place : (d.pos i.1 : Int) = i.1 := counts part has
      have inside : Dim.Has ((d.count : Int) - 1, 0) i.1 := place ▸ Dim.has_counted has
      have same : Dim.pos ((d.count : Int) - 1, 0) i.1 = d.pos i.1 := by
        conv_lhs => rw [← place]
        exact Dim.pos_counted d _
      exact same ▸ aligned.index value inside

/-- An index select. -/
theorem Follows.index {index : Expression Literal Operator} (follows : Follows core module ds base) :
    Follows core module ds (.index base index) := by
  refine @Follows.step _ _ _ _ _ _ _ _ _ _ _ IndexNear indexLeaves rfl rfl Iff.rfl And.left
    (fun _ _ => Touches.of_index) ?_ follows
  intro s fs i dims value static describes aligned
  -- The base has dimensions left or it has not, and the index names a label or it does not.
  cases fs with
  | nil =>
    -- Nothing can be selected where no dimension is left.
    have stuck : s.select i.1 = .miss := by rw [PackedSelection.select, describes.dims_nil]
    rw [stuck]
    exact .outside rfl trivial
  | cons d rest =>
    -- A label is in the range, and its place is near enough for a signed number.
    by_cases has : d.Has i.1
    · by_cases near : d.pos i.1 < 2 ^ 63
      · obtain ⟨s', hit, narrowed, offset, still⟩ := describes.select_near has near
        rw [hit]
        refine .inside (if_pos has) (fun _ => near) narrowed (still.trans static) fun counts ρ agrees => ?_
        obtain ⟨below, here⟩ := counts
        rw [offset]
        exact (aligned below ρ agrees).index_counted (agrees index i value) has (here _ _ dims value)
      · -- A place from 2^63 on overflows the code's own arithmetic.
        rw [describes.select_far has near]
        exact .far fun holds => near (holds has)
    · rw [describes.select_outside has]
      exact .outside (if_neg has) fun inside => absurd inside has

/-- Both operands of a range select are constant when their pair is. -/
theorem both_eq_some {left right : Option I64} {a b : I64} (value : both left right = some (a, b)) :
    left = some a ∧ right = some b := by
  unfold both at value
  split at value
  · cases value
    exact ⟨rfl, rfl⟩
  · cases value

/-- A part is the same, whether the labels are kept or the bits counted. -/
theorem Aligned.range_counted {ρ : Indices Literal Operator} {d p : Dim} {fs : List Dim} {offset : Nat}
    {kind : RangeKind} {left right : Expression Literal Operator} {a b : I64}
    (aligned : Aligned ds ρ base offset (counted base (d :: fs))) (leftValue : ρ left = some a.1)
    (rightValue : ρ right = some b.1) (part : kind.part d a.1 b.1 = some p)
    (counts : RangeCounts (endsInPart base) kind (d :: fs) (a, b)) :
    Aligned ds ρ (.rangeSelect base kind left right) (offset + d.pos p.2 * elements fs)
      (counted (.rangeSelect base kind left right) (p :: fs)) := by
  obtain ⟨bounds, within⟩ := RangeKind.part_eq_some part
  obtain ⟨low, high⟩ := RangeKind.bounds_ends bounds
  obtain rfl : kind.span d a.1 b.1 = p := RangeKind.bounds_span bounds within
  have ordered : kind.lowest a.1 b.1 ≤ kind.highest a.1 b.1 := by omega
  cases fs with
  | cons e fs => exact aligned.range leftValue rightValue ordered within
  | nil =>
    rw [elements_nil, Nat.mul_one]
    show Aligned _ _ _ _ [(((kind.span d a.1 b.1).count : Int) - 1, 0)]
    cases part' : endsInPart base with
    | false =>
      rw [counted, part'] at aligned
      exact aligned.slice leftValue rightValue ordered within
    | true =>
      rw [counted, part', if_pos rfl] at aligned
      -- Counted from the lowest bit, the same labels are those of a part as large, at the same place.
      have place : (d.pos (kind.span d a.1 b.1).2 : Int) = kind.lowest a.1 b.1 := low ▸ counts part' _ part
      obtain ⟨inside, same, count⟩ := RangeKind.span_counted ordered within place
      have sliced := aligned.slice leftValue rightValue ordered inside
      rwa [same, count] at sliced

/-- A range select. -/
theorem Follows.rangeSelect {kind : RangeKind} {left right : Expression Literal Operator}
    (follows : Follows core module ds base) : Follows core module ds (.rangeSelect base kind left right) := by
  refine @Follows.step _ _ _ _ _ _ _ _ _ _ _ (RangeNear kind) (rangeLeaves kind) rfl rfl Iff.rfl And.left
    (fun _ _ => Touches.of_range) ?_ follows
  rintro s fs ⟨a, b⟩ dims value static describes aligned
  -- The two ends of a range are constants like an index.
  obtain ⟨leftValue, rightValue⟩ := both_eq_some value
  cases fs with
  | nil =>
    -- Nothing can be selected where no dimension is left.
    have stuck : s.selectRange kind a.1 b.1 = .miss := by rw [PackedSelection.selectRange, describes.dims_nil]
    rw [stuck]
    exact .outside rfl trivial
  | cons d rest =>
    cases part : kind.part d a.1 b.1 with
    | none =>
      -- A range that leaves the dimension selects nothing.
      rw [describes.selectRange_outside a.2 b.2 part]
      exact .outside (by rw [rangeLeaves, part]; rfl) fun p found => by rw [part] at found; cases found
    | some p =>
      -- The low end of the part is near enough for a signed number or it is not.
      by_cases near : d.pos p.2 < 2 ^ 63
      · obtain ⟨s', hit, narrowed, offset, still⟩ := describes.selectRange_near a.2 b.2 part near
        rw [hit]
        refine .inside (by rw [rangeLeaves, part]; rfl) ?_ narrowed (still.trans static) fun counts ρ agrees => ?_
        · intro q found
          rw [part] at found
          cases found
          exact near
        · obtain ⟨below, here⟩ := counts
          rw [offset]
          exact (aligned below ρ agrees).range_counted (agrees left a leftValue) (agrees right b rightValue) part
            (here _ _ dims value)
      · rw [describes.selectRange_far a.2 b.2 part near]
        exact .far fun holds => near (holds p part)

/-- A chain in parentheses. -/
theorem Follows.paren (follows : Follows core module ds base) : Follows core module ds (.paren base) := by
  refine ⟨fun s hit static => ?_, fun s hit moving => follows.moving s hit moving, follows.stuck, follows.far⟩
  obtain ⟨fs, dims, describes, aligned⟩ := follows.static s hit static
  exact ⟨fs, dims, describes, fun counts ρ agrees => (aligned counts ρ agrees).paren⟩

/-- A whole variable. -/
theorem Follows.ident {path : List Segment}
    (declared : declaredDims core module (resolveHierNameStatic path) = some ds) :
    Follows core module ds (.ident path : Expression Literal Operator) := by
  by_cases small : elements ds < sizeU64
  · -- The product of the dimensions fits a 64-bit number, and the whole variable is selected.
    obtain ⟨s, hit, whole⟩ := identSelection_hit declared small
    refine Follows.of_narrowed (show Narrowed _ _ _ _ True _ _ from ?_) Iff.rfl
    rw [packedSensitivitySelection, hit]
    refine .inside (if_pos small) trivial whole.describes whole.static fun _ ρ _ => ?_
    have kept : counted (.ident path : Expression Literal Operator) ds = ds := by
      unfold counted
      split <;> rfl
    rw [whole.start, kept]
    exact Aligned.ident path
  · -- A product that does not fit selects nothing.
    refine Follows.of_narrowed (show Narrowed _ _ _ _ True _ _ from ?_) Iff.rfl
    rw [packedSensitivitySelection, identSelection_miss declared small]
    exact .outside (if_neg small) trivial

/-- A select leaves no dimension of more labels than there were. -/
theorem leaves_count {bound : Nat} (small : ∀ d ∈ ds, d.count ≤ bound) {fs : List Dim}
    (left : leaves core module ds expr = some fs) : ∀ d ∈ fs, d.count ≤ bound := by
  induction expr generalizing fs with
  | paren inner ih => exact ih left
  | ident path =>
    simp only [leaves, Option.ite_none_right_eq_some, Option.some.injEq] at left
    obtain ⟨-, rfl⟩ := left
    exact small
  | index base index ih =>
    simp only [leaves, Option.bind_eq_some_iff] at left
    obtain ⟨gs, dims, i, -, left⟩ := left
    cases gs with
    | nil => cases left
    | cons d rest =>
      simp only [indexLeaves, Option.ite_none_right_eq_some, Option.some.injEq] at left
      obtain ⟨-, rfl⟩ := left
      exact fun e member => ih dims e (List.mem_cons_of_mem _ member)
  | rangeSelect base kind l r ih =>
    simp only [leaves, Option.bind_eq_some_iff] at left
    obtain ⟨gs, dims, ⟨a, b⟩, -, left⟩ := left
    cases gs with
    | nil => cases left
    | cons d rest =>
      simp only [rangeLeaves, Option.map_eq_some_iff] at left
      obtain ⟨p, part, rfl⟩ := left
      intro e member
      rcases List.mem_cons.mp member with rfl | member
      · -- The part is narrower than its dimension.
        have within := (RangeKind.part_eq_some part).2
        exact Nat.le_trans within.count_le (ih dims d List.mem_cons_self)
      · exact ih dims e (List.mem_cons_of_mem _ member)
  | _ => cases left

/-- No select of a variable is far where no dimension has more than 2^63 labels. -/
theorem near_of_count (small : ∀ d ∈ ds, d.count ≤ 2 ^ 63) : Near core module ds expr := by
  -- No dimension that a select leaves is larger than the declared one it comes from.
  induction expr with
  | paren inner ih => exact ih
  | index base index ih =>
    refine ⟨ih, fun fs i left _ => ?_⟩
    cases fs with
    | nil => trivial
    | cons d rest =>
      -- A place is smaller than the number of labels.
      exact fun has => Nat.lt_of_lt_of_le (Dim.pos_lt_count has) (leaves_count small left d List.mem_cons_self)
  | rangeSelect base kind l r ih =>
    refine ⟨ih, fun fs ab left _ => ?_⟩
    cases fs with
    | nil => trivial
    | cons d rest =>
      intro p part
      have has : d.Has p.2 := (RangeKind.part_eq_some part).2.has p.has_right
      exact Nat.lt_of_lt_of_le (Dim.pos_lt_count has) (leaves_count small left d List.mem_cons_self)
  | _ => trivial

/-- Every chain of selects follows the bits it touches. -/
theorem follows (declared : rootDims core module expr = some ds) : Follows core module ds expr := by
  -- The chain ends in its variable, and each select keeps what the selects under it have.
  induction expr with
  | paren inner ih => exact (ih declared).paren
  | ident path => exact .ident declared
  | index base index ih => exact (ih declared).index
  | rangeSelect base kind left right ih => exact (ih declared).rangeSelect
  | _ => cases declared

/-- Noting an access overflows where the selection does, for every selection fits in 64 bits. -/
theorem collectPackedAccess_overflow (follows : Follows core module ds expr) (origins : PackedOrigins) (write : Bool) :
    collectPackedAccess core module origins expr write = .overflow ↔ ¬ Near core module ds expr := by
  -- The only overflow is in the selection, since noting a range does not leave 64 bits.
  rw [← follows.far, collectPackedAccess]
  cases found : packedSensitivitySelection core module expr with
  | overflow => simp
  | miss => simp
  | hit s =>
    -- A selection of static bits is described by its dimensions, and a moving one is bounded as well.
    have bounded : s.offset + s.width < sizeU64 := by
      cases moving : s.dynamic with
      | false =>
        obtain ⟨fs, -, describes, -⟩ := follows.static s found moving
        exact describes.bounded
      | true => exact (follows.moving s found moving).2.1
    simp [notePackedAccess, inRangeU64_pos bounded]

/-- A chain whose selects are near and mean the same by both readings is denoted by its selection. -/
theorem denotes_of_near (declared : rootDims core module expr = some ds) (near : Near core module ds expr)
    (counts : Counts core module ds expr) : Denotes core module ds expr := by
  have follows := follows declared
  refine ⟨fun origins write wraps => (collectPackedAccess_overflow follows _ _).mp wraps near, ?_, ?_⟩
  · intro s found static ρ agrees bit
    obtain ⟨fs, -, describes, aligned⟩ := follows.static s found static
    rw [(aligned counts ρ agrees).touches bit, elements_counted, describes.width]
  · intro s found moving ρ agrees bit touches
    exact (follows.moving s found moving).2.2 counts ρ agrees bit touches

/-- A chain that is denoted by its selection has near selects only. -/
theorem near_of_denotes (follows : Follows core module ds expr) (denotes : Denotes core module ds expr) :
    Near core module ds expr := by
  by_contra far
  exact denotes.noWrap (fun _ => ⟨0, [], []⟩) false ((collectPackedAccess_overflow follows _ _).mpr far)

/-- The labels that constant selects leave belong to a static selection. -/
theorem Follows.found (follows : Follows core module ds expr) (near : Near core module ds expr) {fs : List Dim}
    (left : leaves core module ds expr = some fs) :
    ∃ s, packedSensitivitySelection core module expr = .hit s ∧ s.dynamic = false ∧ Describes s fs ∧
      (Counts core module ds expr → ∀ ρ, Agrees core module ρ → Aligned ds ρ expr s.offset (counted expr fs)) := by
  -- Near enough to denote is near enough for the selection to be found.
  cases found : packedSensitivitySelection core module expr with
  | overflow => exact absurd near (follows.far.mp found)
  | miss =>
    rw [follows.stuck found] at left
    cases left
  | hit s =>
    cases moving : s.dynamic with
    | true =>
      rw [(follows.moving s found moving).1] at left
      cases left
    | false =>
      obtain ⟨fs', same, describes, aligned⟩ := follows.static s found moving
      obtain rfl := Option.some.inj (same.symm.trans left)
      exact ⟨s, rfl, moving, describes, aligned⟩

/-- The index expressions that are constant have their values, the others none. -/
def constants (core : Elaborator Literal Operator DataType) (module : ElaboratedModule DataType) :
    Indices Literal Operator :=
  fun index => (constantArrayIndex core module index).map (·.1)

theorem constants_agrees : Agrees core module (constants core module) := by
  intro index v value
  rw [constants, value]
  rfl

/-- A chain of a denoted base and an index denotes its bit only where both readings of the index are one. -/
theorem indexCounts_of_denotes {index : Expression Literal Operator} (follows : Follows core module ds base)
    (near : Near core module ds (.index base index)) (counts : Counts core module ds base)
    (denotes : Denotes core module ds (.index base index)) {fs : List Dim} {i : I64}
    (left : leaves core module ds base = some fs) (value : constantArrayIndex core module index = some i) :
    IndexCounts (endsInPart base) fs i := by
  obtain ⟨s, found, static, describes, aligned⟩ := follows.found near.1 left
  unfold IndexCounts
  split
  · rename_i p
    intro part has
    obtain ⟨s', hit, narrowed, offset, still⟩ := describes.select_near has (near.2 _ i left value has)
    have selected : packedSensitivitySelection core module (.index base index) = .hit s' := by
      rw [packedSensitivitySelection, found, value]
      simpa [PackedSelection.step, static] using hit
    -- The one bit of the selection is touched, so it is the one at the place the index counts to.
    have touched := (denotes.exact s' selected (still.trans static) _ constants_agrees s'.offset).mpr
      ⟨Nat.le_refl _, by rw [narrowed.width, elements_nil]; omega⟩
    have placed := aligned counts _ constants_agrees
    rw [counted, if_pos part] at placed
    obtain ⟨inside, place⟩ := placed.touches_index (constants_agrees index i value) touched
    obtain ⟨k, counted⟩ := Int.eq_ofNat_of_zero_le (Dim.counted_nonneg inside)
    rw [counted, Dim.pos_counted, offset, elements_nil, Nat.mul_one] at place
    omega
  · trivial

/-- A chain of a denoted base and a range denotes its bits only where both readings of the range are one. -/
theorem rangeCounts_of_denotes {kind : RangeKind} {l r : Expression Literal Operator}
    (follows : Follows core module ds base) (near : Near core module ds (.rangeSelect base kind l r))
    (counts : Counts core module ds base) (denotes : Denotes core module ds (.rangeSelect base kind l r))
    {fs : List Dim} {ab : I64 × I64} (left : leaves core module ds base = some fs)
    (value : both (constantArrayIndex core module l) (constantArrayIndex core module r) = some ab) :
    RangeCounts (endsInPart base) kind fs ab := by
  obtain ⟨s, found, static, describes, aligned⟩ := follows.found near.1 left
  obtain ⟨a, b⟩ := ab
  unfold RangeCounts
  split
  · rename_i p a b same
    cases same
    intro part q picked
    obtain ⟨leftValue, rightValue⟩ := both_eq_some value
    obtain ⟨s', hit, narrowed, offset, still⟩ :=
      describes.selectRange_near a.2 b.2 picked (near.2 _ _ left value q picked)
    have selected : packedSensitivitySelection core module (.rangeSelect base kind l r) = .hit s' := by
      rw [packedSensitivitySelection, found, value]
      simpa [PackedSelection.step, static] using hit
    have size : s'.width = q.count := by rw [narrowed.width, elements_cons, elements_nil, Nat.mul_one]
    obtain ⟨low, high⟩ := RangeKind.bounds_ends (RangeKind.part_eq_some picked).1
    have touched := denotes.exact s' selected (still.trans static) _ constants_agrees
    have placed := aligned counts _ constants_agrees
    rw [counted, if_pos part] at placed
    have positive := q.count_pos
    -- The first and the last bit of the selection are touched, so the range counts to both.
    obtain ⟨i, inside, picks, place⟩ := placed.touches_range (constants_agrees l a leftValue)
      (constants_agrees r b rightValue) ((touched s'.offset).mpr (by omega))
    obtain ⟨j, inside', picks', place'⟩ := placed.touches_range (constants_agrees l a leftValue)
      (constants_agrees r b rightValue) ((touched (s'.offset + (q.count - 1))).mpr (by omega))
    obtain ⟨k, rfl⟩ := Int.eq_ofNat_of_zero_le (Dim.counted_nonneg inside)
    obtain ⟨k', rfl⟩ := Int.eq_ofNat_of_zero_le (Dim.counted_nonneg inside')
    rw [Dim.pos_counted, offset, elements_nil, Nat.mul_one] at place place'
    obtain ⟨lowest, -⟩ := picks
    obtain ⟨-, highest⟩ := picks'
    rw [← low] at lowest
    rw [← high] at highest
    have span : (q.count : Int) = max q.1 q.2 - min q.1 q.2 + 1 := by
      unfold Dim.count
      omega
    omega
  · trivial

end Chains

/-- Constants that are literals. -/
def literalConstants : Elaborator I64 Unit Unit where
  resolveTypeWidth _ := 1
  constEvalI64WithParams
    | .number n => some n
    | _ => none

/-- A module of one variable with recorded dimensions. -/
def oneVariable (declared : String) (dims : List (I64 × I64)) : ElaboratedModule Unit where
  arrays _ := false
  arrays2d _ := false
  arraysNd _ := false
  dynamicArrays _ := false
  queueVars _ := false
  associativeArrays _ := false
  packedFullDims name := if name = declared then some dims else none
  signals _ := none
  varDeclTypes _ := none
  ascendingPacked _ := none
  parameters _ := false

end Xezim.Sensitivity
