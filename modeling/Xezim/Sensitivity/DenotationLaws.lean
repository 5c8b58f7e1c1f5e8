import Xezim.Sensitivity.Denotation

/-! What one select does to a selection, and to the bits it denotes. -/

namespace Xezim.Sensitivity

open Checked PackedLayout

variable {Literal Operator DataType : Type}

/-- The bounds of a dimension are `i64`s. -/
def Signed (d : Dim) : Prop := InI64 d.1 ∧ InI64 d.2

instance (d : Dim) : Decidable (Signed d) := inferInstanceAs (Decidable (InI64 d.1 ∧ InI64 d.2))

/-- A selection describes `ds`: its width is their number of elements, and it carries them, but for the bits of
the elements of a sole dimension. -/
structure Describes (s : PackedSelection) (ds : List Dim) : Prop where
  width : s.width = elements ds
  bounded : s.offset + s.width < sizeU64
  signed : ∀ d ∈ ds, Signed d
  dims : s.dims = ds ∨ ∃ d e, s.dims = [d] ∧ ds = [d, ((e : Nat) - 1, 0)] ∧ 1 < e ∧ InI64 e

/-- A run-time environment in which a chain leaves the dimensions `fs`, of the elements from `offset` on. -/
structure Aligned (ds : List Dim) (ρ : Indices Literal Operator) (expr : Expression Literal Operator)
    (offset : Nat) (fs : List Dim) : Prop where
  placed : ∀ is out, Labels ds is → remaining ρ expr (ds.zip is) = some out →
    ∃ js, out = fs.zip js ∧ Labels fs js ∧ address ds is = offset + address fs js
  all : ∀ js, Labels fs js → ∃ is, Labels ds is ∧ remaining ρ expr (ds.zip is) = some (fs.zip js) ∧
    address ds is = offset + address fs js

/-- The dimensions by which the select after a chain is read: the labels kept, but for a part of a vector. -/
def counted (expr : Expression Literal Operator) : List Dim → List Dim
  | [p] => if endsInPart expr then [((p.count : Int) - 1, 0)] else [p]
  | fs => fs

/-- A part of a vector has as many bits as labels. -/
@[simp] theorem elements_counted (expr : Expression Literal Operator) (fs : List Dim) :
    elements (counted expr fs) = elements fs := by
  unfold counted
  split
  · rename_i p
    split
    · rw [elements_cons, elements_cons, Dim.count_descending p.count_pos]
    · rfl
  · rfl

section Alignment

variable {ds fs : List Dim} {ρ : Indices Literal Operator} {expr : Expression Literal Operator} {offset : Nat}

/-- An aligned chain touches the bits of its remaining dimensions. -/
theorem Aligned.touches (aligned : Aligned ds ρ expr offset fs) (bit : Nat) :
    Touches ds ρ expr bit ↔ offset ≤ bit ∧ bit < offset + elements fs := by
  constructor
  · rintro ⟨is, labelled, chosen, rfl⟩
    obtain ⟨out, left⟩ := Option.isSome_iff_exists.mp chosen
    obtain ⟨js, -, inner, place⟩ := aligned.placed is out labelled left
    have inside := address_lt inner
    omega
  · rintro ⟨low, high⟩
    -- The place inside the selection names the labels that the chain leaves open.
    obtain ⟨js, inner, place⟩ := exists_address fs (k := bit - offset) (by omega)
    obtain ⟨is, labelled, left, whole⟩ := aligned.all js inner
    exact ⟨is, labelled, by simp [left], by omega⟩

/-- A variable without selects. -/
theorem Aligned.ident (path : List Segment) : Aligned ds ρ (.ident path : Expression Literal Operator) 0 ds where
  placed is out labelled left := by
    obtain rfl : ds.zip is = out := by simpa [remaining] using left
    exact ⟨is, rfl, labelled, (Nat.zero_add _).symm⟩
  all js labelled := ⟨js, labelled, rfl, (Nat.zero_add _).symm⟩

/-- Parentheses leave what is in them. -/
theorem Aligned.paren (aligned : Aligned ds ρ expr offset fs) : Aligned ds ρ (.paren expr) offset fs :=
  ⟨aligned.placed, aligned.all⟩

/-- What an index select leaves. -/
theorem remaining_index {index : Expression Literal Operator} {i : Int} (value : ρ index = some i)
    {is out : List (Dim × Int)} :
    remaining ρ (.index expr index) is = some out ↔ ∃ d, remaining ρ expr is = some ((d, i) :: out) := by
  -- The index picks the first dimension left, and only its own label stays.
  rw [remaining]
  cases left : remaining ρ expr is with
  | none => simp
  | some labels =>
    cases labels with
    | nil => simp
    | cons first rest =>
      obtain ⟨d, j⟩ := first
      simp only [value, Option.some.injEq, List.cons.injEq, Prod.mk.injEq]
      by_cases same : i = j
      · simp [same]
      · simp [same, Ne.symm same]

/-- What a range select leaves. -/
theorem remaining_range {kind : RangeKind} {left right : Expression Literal Operator} {a b : Int}
    (leftValue : ρ left = some a) (rightValue : ρ right = some b) {is out : List (Dim × Int)} :
    remaining ρ (.rangeSelect expr kind left right) is = some out ↔
      ∃ js, remaining ρ expr is = some js ∧ kind.cut a b js = some out := by
  rw [remaining, leftValue, rightValue]
  cases remaining ρ expr is with
  | none => simp
  | some js => simp

/-- An index select of a label of the first dimension. -/
theorem Aligned.index {d : Dim} {index : Expression Literal Operator} {i : Int}
    (aligned : Aligned ds ρ expr offset (d :: fs)) (value : ρ index = some i) (has : d.Has i) :
    Aligned ds ρ (.index expr index) (offset + d.pos i * elements fs) fs where
  placed is out labelled left := by
    -- Read from the bits: a bit that is left had the label the index names.
    obtain ⟨d', whole⟩ := (remaining_index value).mp left
    obtain ⟨js, same, inner, place⟩ := aligned.placed is _ labelled whole
    cases inner with
    | @cons _ j _ rest _ inner =>
      simp only [List.zip_cons_cons, List.cons.injEq, Prod.mk.injEq] at same
      obtain ⟨⟨-, rfl⟩, rfl⟩ := same
      rw [address_cons] at place
      exact ⟨rest, rfl, inner, by omega⟩
  all js inner := by
    -- Read from the labels: putting the index in front gives a bit of the base.
    obtain ⟨is, labelled, left, place⟩ := aligned.all (i :: js) (.cons has inner)
    rw [address_cons] at place
    exact ⟨is, labelled, (remaining_index value).mpr ⟨d, left⟩, by omega⟩

namespace RangeKind

/-- The bounds of a range select are its lowest and highest label. -/
theorem bounds_ends {kind : RangeKind} {d p : Dim} {a b : Int} (bounds : kind.bounds d a b = some p) :
    min p.1 p.2 = kind.lowest a b ∧ max p.1 p.2 = kind.highest a b := by
  -- The bounds are ordered by the direction of the dimension they come from.
  cases kind with
  | constant =>
    obtain rfl : (a, b) = p := by simpa [RangeKind.bounds] using bounds
    exact ⟨rfl, rfl⟩
  | indexedUp =>
    simp only [RangeKind.bounds, Option.ite_none_right_eq_some, Option.some.injEq] at bounds
    obtain ⟨positive, rfl⟩ := bounds
    unfold lowest highest
    by_cases direction : d.2 ≤ d.1
    · simp only [if_pos direction]
      omega
    · simp only [if_neg direction]
      omega
  | indexedDown =>
    simp only [RangeKind.bounds, Option.ite_none_right_eq_some, Option.some.injEq] at bounds
    obtain ⟨positive, rfl⟩ := bounds
    unfold lowest highest
    by_cases direction : d.2 ≤ d.1
    · simp only [if_pos direction]
      omega
    · simp only [if_neg direction]
      omega

/-- A part of a dimension is the span of its labels, in the dimension's direction. -/
theorem bounds_span {kind : RangeKind} {d p : Dim} {a b : Int} (bounds : kind.bounds d a b = some p)
    (within : d.Within p) : kind.span d a b = p := by
  obtain ⟨low, high⟩ := bounds_ends bounds
  obtain ⟨above, below, direction⟩ := within
  unfold span
  rw [← low, ← high]
  -- The part has the direction of the dimension, or one label only.
  split <;> refine Prod.ext ?_ ?_ <;> simp only <;> omega

/-- A range select picks the labels of its span, unless it picks none. -/
theorem picks_iff {kind : RangeKind} {d : Dim} {a b : Int} (some : kind.lowest a b ≤ kind.highest a b) (j : Int) :
    kind.Picks a b j ↔ (kind.span d a b).Has j := by
  unfold Picks span Dim.Has
  split <;> simp only <;> omega

/-- Counted from the lowest bit, the labels of a part whose lowest one is its own place are a part as large, at the
same place. -/
theorem span_counted {kind : RangeKind} {d : Dim} {a b : Int} (ordered : kind.lowest a b ≤ kind.highest a b)
    (within : d.Within (kind.span d a b)) (place : (d.pos (kind.span d a b).2 : Int) = kind.lowest a b) :
    Dim.Within ((d.count : Int) - 1, 0) (kind.span ((d.count : Int) - 1, 0) a b) ∧
      Dim.pos ((d.count : Int) - 1, 0) (kind.span ((d.count : Int) - 1, 0) a b).2 = d.pos (kind.span d a b).2 ∧
      (kind.span ((d.count : Int) - 1, 0) a b).count = (kind.span d a b).count := by
  have positive := d.count_pos
  -- Counted from the low bit, the dimension runs downward.
  have downward : kind.span ((d.count : Int) - 1, 0) a b = (kind.highest a b, kind.lowest a b) :=
    if_neg (by simp only; omega)
  -- The part lies in the dimension, so its lowest label and its size do too.
  have size : d.pos (kind.span d a b).2 + (kind.span d a b).count ≤ d.count := within.pos_add_count_le
  have count : ((kind.span d a b).count : Int) = kind.highest a b - kind.lowest a b + 1 := by
    unfold span Dim.count
    split <;> simp only <;> omega
  rw [downward]
  refine ⟨⟨?_, ?_, ?_⟩, ?_, ?_⟩
  · simp only
    omega
  · simp only
    omega
  · simp only
    omega
  · rw [← place, Dim.pos_counted]
  · unfold Dim.count at count ⊢
    simp only at count ⊢
    omega

end RangeKind

/-- A range select of a part of the first dimension of an array keeps the labels. -/
theorem Aligned.range {d e : Dim} {kind : RangeKind} {left right : Expression Literal Operator} {a b : Int}
    (aligned : Aligned ds ρ expr offset (d :: e :: fs)) (leftValue : ρ left = some a) (rightValue : ρ right = some b)
    (ordered : kind.lowest a b ≤ kind.highest a b) (within : d.Within (kind.span d a b)) :
    Aligned ds ρ (.rangeSelect expr kind left right) (offset + d.pos (kind.span d a b).2 * elements (e :: fs))
      (kind.span d a b :: e :: fs) where
  placed is out labelled chosen := by
    -- The part keeps the labels it picks and leaves the dimensions inside alone.
    obtain ⟨js, whole, kept⟩ := (remaining_range leftValue rightValue).mp chosen
    obtain ⟨js, rfl, inner, place⟩ := aligned.placed is _ labelled whole
    cases inner with
    | @cons _ j _ rest has inner =>
      cases inner with
      | @cons _ k _ rest next inner =>
        simp only [List.zip_cons_cons, RangeKind.cut, Option.ite_none_right_eq_some, Option.some.injEq] at kept
        obtain ⟨picks, rfl⟩ := kept
        have inside : (kind.span d a b).Has j := (RangeKind.picks_iff ordered j).mp picks
        refine ⟨j :: k :: rest, rfl, .cons inside (.cons next inner), ?_⟩
        -- A label of the part lies above the part's lowest one.
        rw [place, address_cons, address_cons _ _ j, within.pos inside, Nat.add_mul]
        omega
  all js inner := by
    cases inner with
    | @cons _ j _ rest has inner =>
      cases inner with
      | @cons _ k _ rest next inner =>
        -- A label of the part is a label of the dimension.
        obtain ⟨is, labelled, whole, place⟩ := aligned.all (j :: k :: rest) (.cons (within.has has) (.cons next inner))
        refine ⟨is, labelled, (remaining_range leftValue rightValue).mpr ⟨_, whole, ?_⟩, ?_⟩
        · simp [RangeKind.cut, (RangeKind.picks_iff ordered j).mpr has]
        · rw [place, address_cons, address_cons _ _ j, within.pos has, Nat.add_mul]
          omega

/-- The bits of a part of a vector are counted from its lowest one. -/
theorem Aligned.slice {d : Dim} {kind : RangeKind} {left right : Expression Literal Operator} {a b : Int}
    (aligned : Aligned ds ρ expr offset [d]) (leftValue : ρ left = some a) (rightValue : ρ right = some b)
    (ordered : kind.lowest a b ≤ kind.highest a b) (within : d.Within (kind.span d a b)) :
    Aligned ds ρ (.rangeSelect expr kind left right) (offset + d.pos (kind.span d a b).2)
      [(((kind.span d a b).count : Int) - 1, 0)] where
  placed is out labelled chosen := by
    obtain ⟨js, whole, kept⟩ := (remaining_range leftValue rightValue).mp chosen
    obtain ⟨js, rfl, inner, place⟩ := aligned.placed is _ labelled whole
    obtain ⟨j, has, rfl⟩ := labels_single.mp inner
    simp only [List.zip_cons_cons, List.zip_nil_right, RangeKind.cut, Option.ite_none_right_eq_some,
      Option.some.injEq] at kept
    obtain ⟨picks, rfl⟩ := kept
    have inside : (kind.span d a b).Has j := (RangeKind.picks_iff ordered j).mp picks
    refine ⟨[((kind.span d a b).pos j : Int)], rfl, labels_single.mpr ⟨_, Dim.has_counted inside, rfl⟩, ?_⟩
    rw [place, address_single, address_single, within.pos inside, Dim.pos_counted]
    omega
  all js inner := by
    obtain ⟨k, place, rfl⟩ := labels_single.mp inner
    -- The place in the part names the label of the vector.
    obtain ⟨j, has, rfl⟩ := Dim.exists_counted place
    obtain ⟨is, labelled, whole, address⟩ := aligned.all [j] (labels_single.mpr ⟨j, within.has has, rfl⟩)
    refine ⟨is, labelled, (remaining_range leftValue rightValue).mpr ⟨_, whole, ?_⟩, ?_⟩
    · simp [RangeKind.cut, (RangeKind.picks_iff ordered j).mpr has]
    · rw [address, address_single, address_single, within.pos has, Dim.pos_counted]
      omega

/-- An index of a vector touches the bit of its label. -/
theorem Aligned.touches_index {d : Dim} {index : Expression Literal Operator} {i : Int}
    (aligned : Aligned ds ρ expr offset [d]) (value : ρ index = some i) {bit : Nat}
    (touches : Touches ds ρ (.index expr index) bit) : d.Has i ∧ bit = offset + d.pos i := by
  -- With one dimension left the index names the bit.
  obtain ⟨is, labelled, chosen, rfl⟩ := touches
  obtain ⟨out, left⟩ := Option.isSome_iff_exists.mp chosen
  obtain ⟨d', whole⟩ := (remaining_index value).mp left
  obtain ⟨js, same, inner, place⟩ := aligned.placed is _ labelled whole
  obtain ⟨j, has, rfl⟩ := labels_single.mp inner
  simp only [List.zip_cons_cons, List.cons.injEq, Prod.mk.injEq] at same
  obtain ⟨⟨-, rfl⟩, -⟩ := same
  exact ⟨has, by rw [place, address_single]⟩

/-- A range select of a vector touches the bits of its labels. -/
theorem Aligned.touches_range {d : Dim} {kind : RangeKind} {left right : Expression Literal Operator} {a b : Int}
    (aligned : Aligned ds ρ expr offset [d]) (leftValue : ρ left = some a) (rightValue : ρ right = some b) {bit : Nat}
    (touches : Touches ds ρ (.rangeSelect expr kind left right) bit) :
    ∃ j, d.Has j ∧ kind.Picks a b j ∧ bit = offset + d.pos j := by
  obtain ⟨is, labelled, chosen, rfl⟩ := touches
  obtain ⟨out, left⟩ := Option.isSome_iff_exists.mp chosen
  obtain ⟨js, whole, kept⟩ := (remaining_range leftValue rightValue).mp left
  obtain ⟨js, rfl, inner, place⟩ := aligned.placed is _ labelled whole
  obtain ⟨j, has, rfl⟩ := labels_single.mp inner
  simp only [List.zip_cons_cons, List.zip_nil_right, RangeKind.cut, Option.ite_none_right_eq_some] at kept
  exact ⟨j, has, kept.1, by rw [place, address_single]⟩

/-- A further select touches no other bits. -/
theorem Touches.of_index {index : Expression Literal Operator} {bit : Nat}
    (touches : Touches ds ρ (.index expr index) bit) : Touches ds ρ expr bit := by
  obtain ⟨is, labelled, chosen, place⟩ := touches
  refine ⟨is, labelled, ?_, place⟩
  rw [remaining] at chosen
  cases left : remaining ρ expr (ds.zip is) with
  | none => simp [left] at chosen
  | some _ => rfl

/-- A further range select touches no other bits. -/
theorem Touches.of_range {kind : RangeKind} {left right : Expression Literal Operator} {bit : Nat}
    (touches : Touches ds ρ (.rangeSelect expr kind left right) bit) : Touches ds ρ expr bit := by
  obtain ⟨is, labelled, chosen, place⟩ := touches
  refine ⟨is, labelled, ?_, place⟩
  rw [remaining] at chosen
  cases left : remaining ρ expr (ds.zip is) with
  | none => simp [left] at chosen
  | some _ => rfl

end Alignment

section Steps

variable {s : PackedSelection} {d : Dim} {fs : List Dim}

/-- A selection carries the first dimension of what it describes, and an element of it the others. -/
theorem Describes.head (describes : Describes s (d :: fs)) :
    ∃ rest, s.dims = d :: rest ∧ PackedSelection.innerDims rest (elements fs) = .hit fs := by
  rcases describes.dims with same | ⟨d', e, sole, same, large, fits⟩
  · refine ⟨fs, same, if_neg ?_⟩
    -- Without a dimension left an element is one bit.
    rintro ⟨rfl, large⟩
    simp at large
  · obtain ⟨rfl, rfl⟩ := List.cons.inj same
    refine ⟨[], sole, ?_⟩
    have count : elements [((e : Int) - 1, 0)] = e := by
      rw [elements_cons, elements_nil, Nat.mul_one, Dim.count_descending (by omega)]
    have less : InI64 ((e : Int) - 1) := by
      rw [inI64_iff] at fits ⊢
      omega
    rw [PackedSelection.innerDims, count, if_pos ⟨rfl, large⟩, checked_pos fits]
    simp only [Outcome.bind_hit, sub_pos less]
    rfl

/-- The whole of the first dimension fits in the variable. -/
theorem Describes.size (describes : Describes s (d :: fs)) : s.offset + d.count * elements fs < sizeU64 := by
  have bounded := describes.bounded
  rw [describes.width, elements_cons] at bounded
  exact bounded

/-- The number of labels of a dimension inside 64 bits. -/
theorem absDiffPlusOne_of_lt {l r : Int} (fits : Dim.count (l, r) < sizeU64) :
    absDiffPlusOne l r = .hit (Dim.count (l, r)) := checkedU64_pos fits

/-- The number of labels is at most the number of bits. -/
theorem Describes.count_lt (describes : Describes s (d :: fs)) : d.count < sizeU64 := by
  have size := describes.size
  have bits : d.count * 1 ≤ d.count * elements fs := Nat.mul_le_mul_left _ (elements_pos fs)
  omega

/-- An element has the bits of the dimensions after the first. -/
theorem Describes.element (describes : Describes s (d :: fs)) :
    s.elementWidth d.1 d.2 = .hit (elements fs) := by
  rw [PackedSelection.elementWidth, absDiffPlusOne_of_lt describes.count_lt, describes.width, elements_cons]
  show Outcome.hit (d.count * elements fs / d.count) = _
  rw [Nat.mul_div_cancel_left _ d.count_pos]

/-- The computed position of a label, unless it overflows. -/
theorem position_eq {i hi lo : Int} (has : d.Has i) (highest : d.1 < d.2 → hi = i) (lowest : ¬ d.1 < d.2 → lo = i) :
    PackedSelection.position d.1 d.2 hi lo =
      if d.pos i < 2 ^ 63 then .hit (d.pos i : Int) else .overflow := by
  obtain ⟨low, high⟩ := has
  unfold PackedSelection.position Dim.pos
  -- The place is counted from the far end of an ascending range and from the low end otherwise.
  split
  · rename_i ascending
    have distance : ((d.2 - i).toNat : Int) = d.2 - i := Int.toNat_of_nonneg (by omega)
    rw [highest ascending, sub, inRange, distance]
    refine if_congr ?_ rfl rfl
    rw [inI64_iff]
    omega
  · rename_i descending
    have distance : ((i - d.2).toNat : Int) = i - d.2 := Int.toNat_of_nonneg (by omega)
    rw [lowest descending, sub, inRange, distance]
    refine if_congr ?_ rfl rfl
    rw [inI64_iff]
    omega

/-- A natural number converted to unsigned. -/
theorem toU64_natCast (n : Nat) : PackedSelection.toU64 (n : Int) = .hit n := by
  rw [PackedSelection.toU64, Outcome.require_pos (by omega)]
  rfl

/-- An element inside the first dimension ends inside the selection. -/
theorem Describes.element_le (describes : Describes s (d :: fs)) {k n : Nat} (inside : k + n ≤ d.count) :
    s.offset + k * elements fs + n * elements fs < sizeU64 := by
  have size := describes.size
  have bits : (k + n) * elements fs ≤ d.count * elements fs := Nat.mul_le_mul_right _ inside
  rw [Nat.add_mul] at bits
  omega

/-- A constant index outside the dimension selects nothing. -/
theorem Describes.select_outside (describes : Describes s (d :: fs)) {i : Int} (outside : ¬ d.Has i) :
    s.select i = .miss := by
  obtain ⟨rest, dims, -⟩ := describes.head
  have refused : ¬ (min d.1 d.2 ≤ i ∧ i ≤ max d.1 d.2) := outside
  rw [PackedSelection.select, dims]
  simp only [Outcome.require_neg refused, Outcome.bind_miss]

/-- A constant index 2^63 labels from the right bound or further overflows. -/
theorem Describes.select_far (describes : Describes s (d :: fs)) {i : Int} (has : d.Has i)
    (far : ¬ d.pos i < 2 ^ 63) : s.select i = .overflow := by
  obtain ⟨rest, dims, -⟩ := describes.head
  have inside : min d.1 d.2 ≤ i ∧ i ≤ max d.1 d.2 := has
  rw [PackedSelection.select, dims]
  simp only [Outcome.require_pos inside, describes.element,
    position_eq has (fun _ => rfl) (fun _ => rfl), if_neg far, Outcome.bind_hit, Outcome.bind_overflow]

/-- A constant index selects the element of its label. -/
theorem Describes.select_near (describes : Describes s (d :: fs)) {i : Int} (has : d.Has i)
    (near : d.pos i < 2 ^ 63) :
    ∃ s', s.select i = .hit s' ∧ Describes s' fs ∧ s'.offset = s.offset + d.pos i * elements fs ∧
      s'.dynamic = s.dynamic := by
  obtain ⟨rest, dims, inner⟩ := describes.head
  have inside : min d.1 d.2 ≤ i ∧ i ≤ max d.1 d.2 := has
  -- The bits of one element are inside the selection.
  have bits := describes.element_le (show d.pos i + 1 ≤ d.count from Dim.pos_lt_count has)
  rw [Nat.one_mul] at bits
  refine ⟨{ s with offset := s.offset + d.pos i * elements fs, width := elements fs, dims := fs },
    ?_, ⟨rfl, bits, fun e member => describes.signed e (List.mem_cons_of_mem _ member), .inl rfl⟩, rfl, rfl⟩
  -- Every step of the code is in range, so it returns what is described.
  rw [PackedSelection.select, dims]
  simp only [Outcome.require_pos inside, describes.element, position_eq has (fun _ => rfl) (fun _ => rfl),
    if_pos near, toU64_natCast, checkedU64_pos (show d.pos i * elements fs < sizeU64 by omega),
    inRangeU64_pos (show s.offset + d.pos i * elements fs < sizeU64 by omega), inner, Outcome.bind_hit,
    Outcome.pure_eq]

/-- The source finds no bounds where there are none. -/
theorem bounds_none {kind : RangeKind} {a b : Int} (nothing : kind.bounds d a b = none) :
    PackedSelection.bounds kind d.1 d.2 a b = .miss := by
  -- Only an indexed part can have no bounds, and then its width is not positive.
  cases kind with
  | constant => cases nothing
  | indexedUp =>
    have negative : ¬ 0 < b := by simpa [RangeKind.bounds] using nothing
    simp only [PackedSelection.bounds, Outcome.require_neg negative, Outcome.bind_miss]
  | indexedDown =>
    have negative : ¬ 0 < b := by simpa [RangeKind.bounds] using nothing
    simp only [PackedSelection.bounds, Outcome.require_neg negative, Outcome.bind_miss]

/-- The source finds the exact bounds when both are `i64`s, and nothing else ever. -/
theorem bounds_some {kind : RangeKind} {a b : Int} {p : Dim} (left : InI64 a) (right : InI64 b)
    (bounds : kind.bounds d a b = some p) :
    PackedSelection.bounds kind d.1 d.2 a b = if Signed p then .hit p else .miss := by
  -- A constant part has its ends as they are, and the others compute one of them.
  cases kind with
  | constant =>
    obtain rfl : (a, b) = p := by simpa [RangeKind.bounds] using bounds
    exact (if_pos ⟨left, right⟩).symm
  | indexedUp =>
    simp only [RangeKind.bounds, Option.ite_none_right_eq_some, Option.some.injEq] at bounds
    obtain ⟨positive, rfl⟩ := bounds
    -- The width less one cannot leave the signed numbers.
    have less : InI64 (b - 1) := by
      rw [inI64_iff] at right ⊢
      omega
    have signed : Signed (if d.2 ≤ d.1 then (a + (b - 1), a) else (a, a + (b - 1))) ↔ InI64 (a + (b - 1)) := by
      by_cases direction : d.2 ≤ d.1
      · simp [Signed, direction, left]
      · simp [Signed, direction, left]
    simp only [PackedSelection.bounds, Outcome.require_pos positive, sub_pos less, Outcome.bind_hit, signed]
    by_cases fits : InI64 (a + (b - 1))
    · simp [checked_pos fits, fits]
    · simp [checked_neg fits, fits]
  | indexedDown =>
    simp only [RangeKind.bounds, Option.ite_none_right_eq_some, Option.some.injEq] at bounds
    obtain ⟨positive, rfl⟩ := bounds
    have less : InI64 (b - 1) := by
      rw [inI64_iff] at right ⊢
      omega
    have signed : Signed (if d.2 ≤ d.1 then (a, a - (b - 1)) else (a - (b - 1), a)) ↔ InI64 (a - (b - 1)) := by
      by_cases direction : d.2 ≤ d.1
      · simp [Signed, direction, left]
      · simp [Signed, direction, left]
    simp only [PackedSelection.bounds, Outcome.require_pos positive, sub_pos less, Outcome.bind_hit, signed]
    by_cases fits : InI64 (a - (b - 1))
    · simp [checked_pos fits, fits]
    · simp [checked_neg fits, fits]

/-- The bounds of a part of a dimension are `i64`s. -/
theorem Signed.within {p : Dim} (signed : Signed d) (within : d.Within p) : Signed p := by
  obtain ⟨⟨_, _⟩, _, _⟩ := signed
  obtain ⟨low, high, -⟩ := within
  refine ⟨⟨?_, ?_⟩, ?_, ?_⟩ <;> omega

/-- What the source checks of the bounds of a range. -/
theorem within_iff {p : Dim} :
    ¬ (min p.1 p.2 < min d.1 d.2 ∨ max p.1 p.2 > max d.1 d.2 ∨
      p.1 ≠ p.2 ∧ decide (p.1 > p.2) ≠ decide (d.1 > d.2)) ↔ d.Within p := by
  have direction : decide (p.1 > p.2) ≠ decide (d.1 > d.2) ↔ ¬ (p.2 < p.1 ↔ d.2 < d.1) := by
    rw [Ne, decide_eq_decide]
  rw [direction]
  unfold Dim.Within
  omega

/-- A range that is no part of the dimension selects nothing. -/
theorem Describes.selectRange_outside (describes : Describes s (d :: fs)) {kind : RangeKind} {a b : Int}
    (left : InI64 a) (right : InI64 b) (outside : kind.part d a b = none) : s.selectRange kind a b = .miss := by
  obtain ⟨rest, dims, -⟩ := describes.head
  rw [PackedSelection.selectRange, dims]
  -- A part without bounds or outside the dimension is refused.
  cases bounds : kind.bounds d a b with
  | none => simp only [bounds_none bounds, Outcome.bind_miss]
  | some p =>
    have apart : ¬ d.Within p := by simpa [RangeKind.part, bounds] using outside
    simp only [bounds_some left right bounds]
    split
    · simp only [Outcome.bind_hit, Outcome.require_neg (mt within_iff.mp apart), Outcome.bind_miss]
    · rfl

/-- A part of a dimension has bounds inside, in its direction. -/
theorem RangeKind.part_eq_some {kind : RangeKind} {a b : Int} {p : Dim} (part : kind.part d a b = some p) :
    kind.bounds d a b = some p ∧ d.Within p := by
  simpa [RangeKind.part, Option.filter_eq_some_iff] using part

/-- The right bound of a part is where the source measures the position. -/
theorem position_within {p : Dim} (within : d.Within p) :
    PackedSelection.position d.1 d.2 (max p.1 p.2) (min p.1 p.2) =
      if d.pos p.2 < 2 ^ 63 then .hit (d.pos p.2 : Int) else .overflow := by
  have has : d.Has p.2 := within.has p.has_right
  obtain ⟨low, high, direction⟩ := within
  refine position_eq has (fun ascending => ?_) (fun descending => ?_) <;> omega

/-- A range whose right bound is 2^63 labels from that of the dimension or further overflows. -/
theorem Describes.selectRange_far (describes : Describes s (d :: fs)) {kind : RangeKind} {a b : Int} {p : Dim}
    (left : InI64 a) (right : InI64 b) (part : kind.part d a b = some p) (far : ¬ d.pos p.2 < 2 ^ 63) :
    s.selectRange kind a b = .overflow := by
  obtain ⟨rest, dims, -⟩ := describes.head
  obtain ⟨bounds, within⟩ := RangeKind.part_eq_some part
  have signed : Signed p := (describes.signed d List.mem_cons_self).within within
  rw [PackedSelection.selectRange, dims]
  simp only [bounds_some left right bounds, if_pos signed, Outcome.bind_hit,
    Outcome.require_pos (within_iff.mpr within), describes.element, position_within within, if_neg far,
    Outcome.bind_overflow]

/-- A constant range selects the elements of its labels. -/
theorem Describes.selectRange_near (describes : Describes s (d :: fs)) {kind : RangeKind} {a b : Int} {p : Dim}
    (left : InI64 a) (right : InI64 b) (part : kind.part d a b = some p) (near : d.pos p.2 < 2 ^ 63) :
    ∃ s', s.selectRange kind a b = .hit s' ∧ Describes s' (p :: fs) ∧
      s'.offset = s.offset + d.pos p.2 * elements fs ∧ s'.dynamic = s.dynamic := by
  obtain ⟨rest, dims, -⟩ := describes.head
  obtain ⟨bounds, within⟩ := RangeKind.part_eq_some part
  -- The part's ends lie between the dimension's, which are signed numbers.
  have signed : Signed p := (describes.signed d List.mem_cons_self).within within
  have inside : d.pos p.2 + p.count ≤ d.count := within.pos_add_count_le
  have bits := describes.element_le inside
  have count : Dim.count (min p.1 p.2, max p.1 p.2) = p.count := by
    unfold Dim.count
    omega
  have small : p.count < sizeU64 := Nat.lt_of_le_of_lt within.count_le describes.count_lt
  refine ⟨{ s with offset := s.offset + d.pos p.2 * elements fs, width := p.count * elements fs, dims := p :: rest },
    ?_, ⟨(elements_cons p fs).symm, bits, ?_, ?_⟩, rfl, rfl⟩
  · -- Every step of the code is in range, so it returns what is described.
    rw [PackedSelection.selectRange, dims]
    simp only [bounds_some left right bounds, if_pos signed, Outcome.bind_hit,
      Outcome.require_pos (within_iff.mpr within), describes.element, position_within within, if_pos near,
      toU64_natCast, checkedU64_pos (show d.pos p.2 * elements fs < sizeU64 by omega),
      inRangeU64_pos (show s.offset + d.pos p.2 * elements fs < sizeU64 by omega),
      absDiffPlusOne_of_lt (count.symm ▸ small), count,
      checkedU64_pos (show p.count * elements fs < sizeU64 by omega), Outcome.pure_eq]
  · intro e member
    rcases List.mem_cons.mp member with rfl | member
    · exact signed
    · exact describes.signed e (List.mem_cons_of_mem _ member)
  · -- Where only the outermost of two dimensions is kept, the part keeps only its own.
    rcases describes.dims with same | ⟨d', e, sole, same, large, fits⟩
    · exact .inl (by rw [(List.cons.inj (dims.symm.trans same)).2])
    · obtain ⟨rfl, rfl⟩ := List.cons.inj same
      exact .inr ⟨p, e, by rw [(List.cons.inj (dims.symm.trans sole)).2], rfl, large, fits⟩

end Steps

end Xezim.Sensitivity
