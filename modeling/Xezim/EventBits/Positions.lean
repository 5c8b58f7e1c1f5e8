import Xezim.EventBits.Widths

/-! The bit the fold finds at a position is the bit of the value there. -/

namespace Xezim.EventBits

open Checked

variable [VmOps] {m : ElaboratedModule} {scope : String}

/-- A bit of a plain vector of the module. -/
structure OfVector (m : ElaboratedModule) (b : NetBit) (v : VecRef) : Prop where
  found : vectorOf m v.name = .hit v
  plain : v.Plain
  signal : (hitSignal m v.name).isSome
  name : b.1 = v.name
  dim : b.2.1 = v.dim
  low : 0 ≤ b.2.2
  high : b.2.2 < v.width

/-- A found bit is the bit of the value at the position. -/
structure Denotes (m : ElaboratedModule) (scope : String) (e : Expression) (pos : Int) (b : NetBit) : Prop where
  vector : ∃ v, OfVector m b v
  bit : ∀ (β : Type) (nets : String → Int → β), bitOf m scope nets e pos = some (nets b.1 b.2.2)

/-- The fold finds the bits of a value and does not overflow. -/
def FindsBits (m : ElaboratedModule) (scope : String) (e : Expression) : Prop :=
  ∀ pos, InI64 pos → bitAt m scope e pos ≠ .overflow ∧ ∀ b, bitAt m scope e pos = .hit b → Denotes m scope e pos b

/-- Where nothing is found there is nothing to show. -/
theorem findsNothing {e : Expression} {pos : Int} :
    (Outcome.miss : Outcome NetBit) ≠ .overflow ∧ ∀ b, (Outcome.miss : Outcome NetBit) = .hit b →
      Denotes m scope e pos b :=
  ⟨nofun, nofun⟩

section Named

variable {h : HierarchicalIdentifier} {v : VecRef}

omit [VmOps] in
/-- A bit inside a resolved vector. -/
theorem ofVector_of_resolved (resolved : resolveVector m scope h = .hit v) {phys : Int} (low : 0 ≤ phys)
    (high : phys < v.width) : OfVector m (v.name, v.dim, phys) v := by
  obtain ⟨found, plain, signal⟩ := resolveVector_hit resolved
  exact ⟨found, plain, signal, rfl, rfl, low, high⟩

omit [VmOps] in
/-- A labelled bit of a descending vector: the fold finds it, misses it outside the vector, or overflows on a label
too far from the right one. -/
theorem labelToPhys_spec (down : ¬ v.dim.1 < v.dim.2) (label : Int) :
    ((labelToPhys v.dim label >>= v.bitAt) = .overflow ↔ ¬ LabelFits v label) ∧
      ∀ b, (labelToPhys v.dim label >>= v.bitAt) = .hit b →
        b = (v.name, v.dim, label - v.dim.2) ∧ 0 ≤ label - v.dim.2 ∧ label - v.dim.2 < v.width := by
  have order : v.dim.2 ≤ v.dim.1 := by omega
  -- Only the subtraction can overflow: the bound test that follows it answers or misses.
  have safe : ∀ phys, v.bitAt phys ≠ .overflow := by
    intro phys overflows
    rw [VecRef.bitAt, Outcome.bind_eq_overflow] at overflows
    rcases overflows with none | ⟨_, _, none⟩
    · exact Outcome.require_ne_overflow none
    · simp at none
  unfold labelToPhys LabelFits
  rw [if_pos order]
  by_cases fits : InI64 (label - v.dim.2)
  · rw [sub_pos fits, Outcome.bind_hit]
    refine ⟨⟨fun overflows => absurd overflows (safe _), fun far => absurd (fun _ => fits) far⟩, fun b found => ?_⟩
    rw [VecRef.bitAt, Outcome.bind_eq_hit] at found
    obtain ⟨_, inside, same⟩ := found
    rw [Outcome.require_eq_hit] at inside
    exact ⟨by simpa using same.symm, inside⟩
  · rw [sub_neg fits, Outcome.bind_overflow]
    exact ⟨by simp [order, fits], fun b found => by simp at found⟩

omit [VmOps] in
/-- The value's bit with that label. -/
theorem labelled_eq {β : Type} (nets : String → Int → β) (down : ¬ v.dim.1 < v.dim.2) {label : Int}
    (low : 0 ≤ label - v.dim.2) (high : label - v.dim.2 < v.width) :
    v.labelled nets label = some (nets v.name (label - v.dim.2)) := by
  have descending : v.descending = true := decide_eq_true (by omega)
  unfold VecRef.labelled VecRef.physical
  rw [descending, if_pos rfl, if_pos ⟨low, high⟩]

end Named

section Shapes

/-- A term that is no name. -/
def Unnamed (e : Expression) : Prop := ∀ h, e ≠ .ident h

/-- A bit select of a value without a name. -/
theorem bitAt_index {base : Expression} (other : Unnamed base) (i : Index) (pos : Int) :
    bitAt m scope (.index base i) pos =
      if pos < 0 then .miss
      else (do
        let k ← Outcome.ofOption (constIndex m scope i)
        if pos ≠ 0 then .miss else bitAt m scope base k) := by
  cases base with
  | ident h => exact absurd rfl (other h)
  | paren inner => rw [bitAt]
  | index b j => rw [bitAt]
  | rangeSelect b kind l r => rw [bitAt]
  | concatenation parts => rw [bitAt]

/-- Its value. -/
theorem bitOf_index {β : Type} (nets : String → Int → β) {base : Expression} (other : Unnamed base) (i : Index)
    (pos : Int) :
    bitOf m scope nets (.index base i) pos = (do
      let k ← i.value m scope
      if pos ≠ 0 then none else bitOf m scope nets base k) := by
  cases base with
  | ident h => exact absurd rfl (other h)
  | paren inner => rw [bitOf]
  | index b j => rw [bitOf]
  | rangeSelect b kind l r => rw [bitOf]
  | concatenation parts => rw [bitOf]

/-- A part-select of a value without a name. -/
theorem bitAt_rangeSelect {base : Expression} (other : Unnamed base) (kind : RangeKind) (left right : Index)
    (pos : Int) :
    bitAt m scope (.rangeSelect base kind left right) pos =
      if pos < 0 then .miss
      else (do
        let l ← Outcome.ofOption (constIndex m scope left)
        let r ← Outcome.ofOption (constIndex m scope right)
        let (lsb, w) ← partSelectLabels unnamed kind l r
        if pos ≥ w ∨ lsb < 0 then .miss
        else do
          let at' ← add lsb pos
          bitAt m scope base at') := by
  cases base with
  | ident h => exact absurd rfl (other h)
  | paren inner => rw [bitAt]
  | index b j => rw [bitAt]
  | rangeSelect b kind l r => rw [bitAt]
  | concatenation parts => rw [bitAt]

/-- Its value. -/
theorem bitOf_rangeSelect {β : Type} (nets : String → Int → β) {base : Expression} (other : Unnamed base)
    (kind : RangeKind) (left right : Index) (pos : Int) :
    bitOf m scope nets (.rangeSelect base kind left right) pos = (do
      let l ← left.value m scope
      let r ← right.value m scope
      let (lo, hi) ← covered true kind l r
      if pos < 0 ∨ hi - lo < pos then none else bitOf m scope nets base (lo + pos)) := by
  cases base with
  | ident h => exact absurd rfl (other h)
  | paren inner => rw [bitOf]
  | index b j => rw [bitOf]
  | rangeSelect b kind l r => rw [bitOf]
  | concatenation parts => rw [bitOf]

omit [VmOps] in
/-- A term is a name or has none. -/
theorem named_or_unnamed (e : Expression) : (∃ h, e = .ident h) ∨ Unnamed e := by
  cases e with
  | ident h => exact .inl ⟨h, rfl⟩
  | paren inner => exact .inr nofun
  | index b j => exact .inr nofun
  | rangeSelect b kind l r => exact .inr nofun
  | concatenation parts => exact .inr nofun

end Shapes

section Bits

/-- A bit of a vector's value. -/
theorem findsBits_ident {h : HierarchicalIdentifier} (safe : resolveVector m scope h ≠ .overflow) :
    FindsBits m scope (.ident h) := by
  intro pos _
  rw [bitAt]
  split
  · exact findsNothing
  · rename_i low
    -- Without a select the position is the offset from the vector's low end.
    cases resolved : resolveVector m scope h with
    | overflow => exact absurd resolved safe
    | miss => exact findsNothing
    | hit v =>
      rw [Outcome.bind_hit]
      by_cases inside : pos < v.width
      · rw [Outcome.require, if_pos inside, Outcome.bind_hit]
        refine ⟨nofun, fun b found => ?_⟩
        obtain rfl : (v.name, v.dim, pos) = b := by simpa using found
        refine ⟨⟨v, ofVector_of_resolved resolved (by omega) inside⟩, fun β nets => ?_⟩
        rw [bitOf, named_eq_some.mpr resolved]
        exact if_pos ⟨by omega, inside⟩
      · rw [Outcome.require, if_neg inside, Outcome.bind_miss]
        exact findsNothing

/-- A bit select of a vector. -/
theorem findsBits_index_ident {h : HierarchicalIdentifier} {i : Index} (safe : resolveVector m scope h ≠ .overflow)
    (label : ∀ v k, named m scope h = some v → constIndex m scope i = some k → LabelFits v k) :
    FindsBits m scope (.index (.ident h) i) := by
  intro pos _
  rw [bitAt]
  split
  · exact findsNothing
  · cases index : constIndex m scope i with
    | none => exact findsNothing
    | some k =>
      rw [Outcome.ofOption, Outcome.bind_hit]
      -- A bit select has one bit, at position zero.
      by_cases first : pos ≠ 0
      · rw [if_pos first]
        exact findsNothing
      · rw [if_neg first]
        dsimp only
        cases resolved : resolveVector m scope h with
        | overflow => exact absurd resolved safe
        | miss => exact findsNothing
        | hit v =>
          rw [Outcome.bind_hit]
          split
          · exact findsNothing
          · rename_i down
            obtain ⟨overflows, found⟩ := labelToPhys_spec down k
            have fits := label v k (named_eq_some.mpr resolved) index
            refine ⟨fun bad => overflows.mp bad fits, fun b hit => ?_⟩
            obtain ⟨rfl, low, high⟩ := found b hit
            refine ⟨⟨v, ofVector_of_resolved resolved low high⟩, fun β nets => ?_⟩
            rw [bitOf, (constIndex_value i index).2, Option.bind_eq_bind, Option.bind_some, if_neg first]
            dsimp only
            rw [named_eq_some.mpr resolved]
            exact labelled_eq nets down low high

/-- A bit select of a value without a name. -/
theorem findsBits_index {base : Expression} {i : Index} (other : Unnamed base) (inBase : FindsBits m scope base) :
    FindsBits m scope (.index base i) := by
  intro pos _
  rw [bitAt_index other]
  split
  · exact findsNothing
  · cases index : constIndex m scope i with
    | none => exact findsNothing
    | some k =>
      obtain ⟨fits, value⟩ := constIndex_value i index
      rw [Outcome.ofOption, Outcome.bind_hit]
      -- The same for a select on something that is no name: its label is a position of the base.
      by_cases first : pos ≠ 0
      · rw [if_pos first]
        exact findsNothing
      · rw [if_neg first]
        obtain ⟨safe, found⟩ := inBase k fits
        refine ⟨safe, fun b hit => ⟨(found b hit).vector, fun β nets => ?_⟩⟩
        rw [bitOf_index nets other, value, Option.bind_eq_bind, Option.bind_some, if_neg first]
        exact (found b hit).bit β nets

/-- A part-select of a vector. -/
theorem findsBits_rangeSelect_ident {h : HierarchicalIdentifier} {kind : RangeKind} {left right : Index}
    (safe : resolveVector m scope h ≠ .overflow)
    (count : ∀ l r, constIndex m scope left = some l → constIndex m scope right = some r → CountFits kind l r)
    (labels : ∀ v l r lo hi, named m scope h = some v → constIndex m scope left = some l →
      constIndex m scope right = some r → covered true kind l r = some (lo, hi) → InI64 lo → InI64 hi →
      LabelFits v lo ∧ LabelFits v hi) :
    FindsBits m scope (.rangeSelect (.ident h) kind left right) := by
  intro pos _
  rw [bitAt]
  split
  · exact findsNothing
  · rename_i low
    cases leftFound : constIndex m scope left with
    | none => exact findsNothing
    | some l =>
      cases rightFound : constIndex m scope right with
      | none => exact findsNothing
      | some r =>
        obtain ⟨leftFits, leftValue⟩ := constIndex_value left leftFound
        obtain ⟨rightFits, rightValue⟩ := constIndex_value right rightFound
        simp only [Outcome.ofOption, Outcome.bind_hit]
        cases resolved : resolveVector m scope h with
        | overflow => exact absurd resolved safe
        | miss => exact findsNothing
        | hit v =>
          have vector := named_eq_some.mpr resolved
          rw [Outcome.bind_hit]
          split
          · exact findsNothing
          · rename_i down
            rw [partSelectLabels_eq (by omega) leftFits rightFits (count l r leftFound rightFound)]
            cases cover : covered true kind l r with
            | none => exact findsNothing
            | some span =>
              obtain ⟨lo, hi⟩ := span
              dsimp only
              by_cases inside : InI64 lo ∧ InI64 hi
              · rw [if_pos inside, Outcome.bind_hit]
                dsimp only
                by_cases past : pos ≥ hi - lo + 1
                · rw [if_pos past]
                  exact findsNothing
                · rw [if_neg past]
                  obtain ⟨lowFits, highFits⟩ := labels v l r lo hi vector leftFound rightFound cover inside.1 inside.2
                  -- The label lies between the two ends of the select.
                  have between : InI64 (lo + pos) := by
                    obtain ⟨inLo, inHi⟩ := inside
                    rw [inI64_iff] at inLo inHi ⊢
                    omega
                  have labelFits : LabelFits v (lo + pos) := by
                    intro descending
                    have lowEnd := lowFits descending
                    have highEnd := highFits descending
                    rw [inI64_iff] at lowEnd highEnd ⊢
                    omega
                  rw [add_pos between, Outcome.bind_hit]
                  obtain ⟨overflows, found⟩ := labelToPhys_spec down (lo + pos)
                  refine ⟨fun bad => overflows.mp bad labelFits, fun b hit => ?_⟩
                  obtain ⟨rfl, atLeast, below⟩ := found b hit
                  refine ⟨⟨v, ofVector_of_resolved resolved atLeast below⟩, fun β nets => ?_⟩
                  have descending : v.descending = true := decide_eq_true (by omega)
                  rw [bitOf, leftValue, rightValue]
                  simp only [Option.bind_eq_bind, Option.bind_some, vector, descending, cover]
                  rw [if_neg (by omega), if_pos trivial]
                  exact labelled_eq nets down atLeast below
              · rw [if_neg inside, Outcome.bind_miss]
                exact findsNothing

/-- A part-select of a value without a name. -/
theorem findsBits_rangeSelect {base : Expression} {kind : RangeKind} {left right : Index} (other : Unnamed base)
    (inBase : FindsBits m scope base)
    (count : ∀ l r, constIndex m scope left = some l → constIndex m scope right = some r → CountFits kind l r) :
    FindsBits m scope (.rangeSelect base kind left right) := by
  intro pos _
  rw [bitAt_rangeSelect other]
  split
  · exact findsNothing
  · rename_i low
    cases leftFound : constIndex m scope left with
    | none => exact findsNothing
    | some l =>
      cases rightFound : constIndex m scope right with
      | none => exact findsNothing
      | some r =>
        obtain ⟨leftFits, leftValue⟩ := constIndex_value left leftFound
        obtain ⟨rightFits, rightValue⟩ := constIndex_value right rightFound
        simp only [Outcome.ofOption, Outcome.bind_hit]
        rw [partSelectLabels_eq unnamed_descending leftFits rightFits (count l r leftFound rightFound)]
        -- The covered span is counted from its low end, whatever kind of part-select it is.
        cases cover : covered true kind l r with
        | none => exact findsNothing
        | some span =>
          obtain ⟨lo, hi⟩ := span
          dsimp only
          by_cases inside : InI64 lo ∧ InI64 hi
          · rw [if_pos inside, Outcome.bind_hit]
            dsimp only
            by_cases past : pos ≥ hi - lo + 1 ∨ lo < 0
            · rw [if_pos past]
              exact findsNothing
            · rw [if_neg past]
              -- The position that goes on to the base is between the span's ends, so it is in range.
              have between : InI64 (lo + pos) := by
                obtain ⟨inLo, inHi⟩ := inside
                rw [inI64_iff] at inLo inHi ⊢
                omega
              rw [add_pos between, Outcome.bind_hit]
              obtain ⟨safe, found⟩ := inBase (lo + pos) between
              refine ⟨safe, fun b hit => ⟨(found b hit).vector, fun β nets => ?_⟩⟩
              rw [bitOf_rangeSelect nets other, leftValue, rightValue]
              simp only [Option.bind_eq_bind, Option.bind_some, cover]
              rw [if_neg (by omega)]
              exact (found b hit).bit β nets
          · rw [if_neg inside, Outcome.bind_miss]
            exact findsNothing

/-- The loop over the parts of a concatenation keeps a position in range, and finds the bit of the parts or the
position beyond them. -/
theorem findsBits_parts {parts : List Expression} (fits : ∀ p ∈ parts, Fits m scope p)
    (inParts : ∀ p ∈ parts, FindsBits m scope p) (rem : Int) (low : 0 ≤ rem) (inside : InI64 rem) :
    bitAtParts m scope parts rem ≠ .overflow ∧
      (∀ b, bitAtParts m scope parts rem = .hit (.bit b) → (∃ v, OfVector m b v) ∧
        ∀ (β : Type) (nets : String → Int → β),
          bitOfParts m scope nets parts rem = some (.inl (nets b.1 b.2.2))) ∧
      ∀ r, bitAtParts m scope parts rem = .hit (.beyond r) → 0 ≤ r ∧ r ≤ rem ∧
        ∀ (β : Type) (nets : String → Int → β), bitOfParts m scope nets parts rem = some (.inr r) := by
  induction parts with
  -- The parts are read from the right: what is past the last part goes on to the ones before it.
  | nil =>
    rw [bitAtParts]
    refine ⟨fun bad => (by cases bad), fun _ bad => (by cases bad), fun r found => ?_⟩
    obtain rfl : rem = r := by simpa using found
    refine ⟨low, Int.le_refl _, fun β nets => ?_⟩
    rw [bitOfParts]
  | cons p parts ih =>
    obtain ⟨safe, atBit, atRest⟩ := ih (fun q inRest => fits q (List.mem_cons_of_mem p inRest))
      fun q inRest => inParts q (List.mem_cons_of_mem p inRest)
    rw [bitAtParts]
    cases found : bitAtParts m scope parts rem with
    | overflow => exact absurd found safe
    | miss => exact ⟨fun bad => (by cases bad), fun _ bad => (by cases bad), fun _ bad => by cases bad⟩
    | hit outcome =>
      rw [Outcome.bind_hit]
      cases outcome with
      | bit b =>
        dsimp only
        refine ⟨fun bad => (by cases bad), fun b' same => ?_, fun _ bad => by cases bad⟩
        obtain rfl : b = b' := by simpa using same
        obtain ⟨vector, bits⟩ := atBit b found
        refine ⟨vector, fun β nets => ?_⟩
        rw [bitOfParts, bits β nets]
        rfl
      | beyond r =>
        obtain ⟨lowR, below, rests⟩ := atRest r found
        have insideR : InI64 r := by
          rw [inI64_iff] at inside ⊢
          omega
        dsimp only
        rw [valueWidth_eq (fits p List.mem_cons_self)]
        cases known : knownWidth m scope p with
        | none => exact ⟨fun bad => (by cases bad), fun _ bad => (by cases bad), fun _ bad => by cases bad⟩
        | some w =>
          have positive := knownWidth_nonneg p w known
          have wide := knownWidth_width p w known
          rw [Outcome.ofOption, Outcome.bind_hit]
          -- The remainder either falls in this part or goes on past its width.
          by_cases here : r < w
          · rw [if_pos here]
            obtain ⟨safeP, bitP⟩ := inParts p List.mem_cons_self r insideR
            cases bit : bitAt m scope p r with
            | overflow => exact absurd bit safeP
            | miss => exact ⟨fun bad => (by cases bad), fun _ bad => (by cases bad), fun _ bad => by cases bad⟩
            | hit b =>
              rw [Outcome.bind_hit]
              refine ⟨fun bad => (by cases bad), fun b' same => ?_, fun _ bad => by cases bad⟩
              obtain rfl : b = b' := by simpa using same
              refine ⟨(bitP b bit).vector, fun β nets => ?_⟩
              rw [bitOfParts, rests β nets]
              simp only [Option.bind_eq_bind, Option.bind_some, wide, if_pos here, (bitP b bit).bit β nets]
              rfl
          · rw [if_neg here]
            have insideNext : InI64 (r - w) := by
              rw [inI64_iff] at insideR ⊢
              omega
            rw [sub_pos insideNext, Outcome.bind_hit]
            refine ⟨fun bad => (by cases bad), fun _ bad => (by cases bad), fun r' same => ?_⟩
            obtain rfl : r - w = r' := by simpa using same
            refine ⟨by omega, by omega, fun β nets => ?_⟩
            rw [bitOfParts, rests β nets]
            simp only [Option.bind_eq_bind, Option.bind_some, wide, if_neg here]
            rfl

/-- Where the labels fit, the fold finds the bits of the value. -/
theorem findsBits {e : Expression} (fits : Fits m scope e) : FindsBits m scope e := by
  -- One case for each form of expression that fits; the named bases have their own lemmas.
  induction fits with
  | paren inner ih =>
    intro pos inside
    rw [bitAt]
    split
    · exact findsNothing
    · obtain ⟨safe, found⟩ := ih pos inside
      refine ⟨safe, fun b hit => ⟨(found b hit).vector, fun β nets => ?_⟩⟩
      rw [bitOf]
      exact (found b hit).bit β nets
  | ident range => exact findsBits_ident fun overflows => resolveVector_overflow.mp overflows range
  | index inBase label ih =>
    rename_i base i
    rcases named_or_unnamed base with ⟨h, rfl⟩ | other
    · refine findsBits_index_ident ?_ fun v k => label h v k rfl
      cases inBase with
      | ident range => exact fun overflows => resolveVector_overflow.mp overflows range
    · exact findsBits_index other ih
  | rangeSelect inBase count labels ih =>
    rename_i base kind left right
    rcases named_or_unnamed base with ⟨h, rfl⟩ | other
    · refine findsBits_rangeSelect_ident ?_ count fun v l r lo hi => labels h v l r lo hi rfl
      cases inBase with
      | ident range => exact fun overflows => resolveVector_overflow.mp overflows range
    · exact findsBits_rangeSelect other ih count
  | concatenation inParts total ih =>
    rename_i parts
    intro pos inside
    rw [bitAt]
    split
    · exact findsNothing
    · rename_i low
      obtain ⟨safe, atBit, _⟩ := findsBits_parts inParts ih pos (by omega) inside
      cases found : bitAtParts m scope parts pos with
      | overflow => exact absurd found safe
      | miss => exact findsNothing
      | hit outcome =>
        rw [Outcome.bind_hit]
        cases outcome with
        | beyond r => exact findsNothing
        | bit b =>
          refine ⟨nofun, fun b' same => ?_⟩
          obtain rfl : b = b' := by simpa using same
          obtain ⟨vector, bits⟩ := atBit b found
          refine ⟨vector, fun β nets => ?_⟩
          rw [bitOf, bits β nets]

end Bits

end Xezim.EventBits
