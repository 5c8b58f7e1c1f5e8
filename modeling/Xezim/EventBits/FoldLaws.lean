import Xezim.EventBits.Positions
import Xezim.Vm.Reference

/-! When the fold of event terms is right and does not overflow. -/

namespace Xezim.EventBits

open Checked

section Laws

variable [VmOps] {m : ElaboratedModule} {scope : String}

section Fold

variable (m scope) in
/-- Parentheses change neither the labels of a term nor its bits. -/
theorem stripParens_spec (e : Expression) :
    (Fits m scope e → Fits m scope (stripParens e)) ∧ width m scope (stripParens e) = width m scope e ∧
      ∀ (β : Type) (nets : String → Int → β) (pos : Int),
        bitOf m scope nets (stripParens e) pos = bitOf m scope nets e pos := by
  induction e using Expression.induct with
  | paren inner ih =>
    obtain ⟨fits, same, bits⟩ := ih
    rw [stripParens]
    refine ⟨fun outer => ?_, ?_, fun β nets pos => ?_⟩
    · cases outer with
      | paren inside => exact fits inside
    · rw [same, width]
    · rw [bits, bitOf]
  | ident h => exact ⟨id, rfl, fun _ _ _ => rfl⟩
  | index base i => exact ⟨id, rfl, fun _ _ _ => rfl⟩
  | rangeSelect base kind l r => exact ⟨id, rfl, fun _ _ _ => rfl⟩
  | concatenation parts => exact ⟨id, rfl, fun _ _ _ => rfl⟩

omit [VmOps] in
/-- The label of a position inside a plain vector. -/
theorem physToLabel_eq {v : VecRef} (plain : v.Plain) {phys : Int} (low : 0 ≤ phys) (high : phys < v.width) :
    physToLabel v.dim phys = .hit (if v.descending then v.dim.2 + phys else v.dim.2 - phys) := by
  have left := plain.left
  have right := plain.right
  have span := plain.span
  rw [inI64_iff] at left right
  unfold physToLabel
  by_cases down : v.dim.2 ≤ v.dim.1
  · have descending : v.descending = true := decide_eq_true down
    have inside : InI64 (v.dim.2 + phys) := by
      rw [inI64_iff]
      omega
    rw [if_pos down, descending, if_pos rfl, add_pos inside]
  · have ascending : v.descending = false := decide_eq_false down
    have inside : InI64 (v.dim.2 - phys) := by
      rw [inI64_iff]
      omega
    rw [if_neg down, ascending, if_neg Bool.false_ne_true, sub_pos inside]

omit [VmOps] in
/-- The bit with the label of a position is the one at the position. -/
theorem labelled_physToLabel {β : Type} (nets : String → Int → β) {v : VecRef} {phys : Int} (low : 0 ≤ phys)
    (high : phys < v.width) :
    v.labelled nets (if v.descending then v.dim.2 + phys else v.dim.2 - phys) = some (nets v.name phys) := by
  unfold VecRef.labelled VecRef.physical
  cases v.descending
  · rw [if_neg Bool.false_ne_true, if_neg Bool.false_ne_true, Int.sub_sub_self, if_pos ⟨low, high⟩]
  · rw [if_pos rfl, if_pos rfl, show v.dim.2 + phys - v.dim.2 = phys by omega, if_pos ⟨low, high⟩]

/-- The loop of the fold checks that the bits follow each other, inside the vector of the first. -/
theorem followsFirst_spec {e : Expression} (finds : FindsBits m scope e) (name : String) {p0 : Int} (low : 0 ≤ p0) :
    ∀ (count : Nat) (pos : Int), 1 ≤ pos → p0 + pos ≤ 2 ^ 32 →
      followsFirst m scope e name p0 count pos ≠ .overflow ∧
        (followsFirst m scope e name p0 count pos = .hit () → p0 + pos + count ≤ 2 ^ 32 ∧
          ∀ i, pos ≤ i → i < pos + count → ∃ b, Denotes m scope e i b ∧ b.1 = name ∧ b.2.2 = p0 + i) := by
  intro count
  induction count with
  | zero =>
    intro pos first bound
    rw [followsFirst]
    exact ⟨nofun, fun _ => ⟨by omega, fun i atLeast below => by omega⟩⟩
  | succ count ih =>
    intro pos first bound
    have inside : InI64 pos := by
      rw [inI64_iff]
      omega
    obtain ⟨safe, found⟩ := finds pos inside
    rw [followsFirst]
    cases bit : bitAt m scope e pos with
    | overflow => exact absurd bit safe
    | miss => exact ⟨nofun, nofun⟩
    | hit b =>
      rw [Outcome.bind_hit]
      by_cases net : b.1 ≠ name
      · rw [if_pos net]
        exact ⟨nofun, nofun⟩
      · have sum : InI64 (p0 + pos) := by
          rw [inI64_iff]
          omega
        rw [if_neg net, add_pos sum, Outcome.bind_hit]
        by_cases follows : b.2.2 ≠ p0 + pos
        · rw [if_pos follows]
          exact ⟨nofun, nofun⟩
        · rw [if_neg follows]
          have denotes := found b bit
          -- The bit lies in its vector, whose width is a `u32`.
          obtain ⟨v, vector⟩ := denotes.vector
          have high := vector.high
          have small := vector.plain.small
          obtain ⟨safeNext, next⟩ := ih (pos + 1) (by omega) (by omega)
          refine ⟨safeNext, fun done => ?_⟩
          obtain ⟨total, others⟩ := next done
          refine ⟨by omega, fun i atLeast below => ?_⟩
          by_cases here : i = pos
          · subst here
            exact ⟨b, denotes, not_not.mp net, not_not.mp follows⟩
          · exact others i (by omega) (by omega)

/-- What the fold returns for a run of bits: a select with the same bits. -/
theorem folded_bits {e : Expression} {b : NetBit} {v : VecRef} (vector : OfVector m b v) {w : Int} (wide : 1 ≤ w)
    (room : b.2.2 + w ≤ v.width) (run : ∀ i, 0 ≤ i → i < w → ∃ b', Denotes m scope e i b' ∧ b'.1 = b.1 ∧ b'.2.2 =
      b.2.2 + i) :
    let folded := if w = 1 then (do
        let label ← physToLabel b.2.1 b.2.2
        return .index (rootedIdent b.1) (intLiteral label) : Outcome Expression)
      else (do
        let top ← add b.2.2 w
        let last ← sub top 1
        let left ← physToLabel b.2.1 last
        let right ← physToLabel b.2.1 b.2.2
        return .rangeSelect (rootedIdent b.1) .constant (intLiteral left) (intLiteral right))
    folded ≠ .overflow ∧ ∀ f, folded = .hit f → width m scope f = some w ∧ SameBits m scope f e w := by
  dsimp only
  have low := vector.low
  have small := vector.plain.small
  have plain := vector.plain
  rw [vector.dim, vector.name, physToLabel_eq plain low (by omega)]
  have rooted : named m scope ⟨v.name, true, false, false⟩ = some v := rooted_named vector.found vector.signal
  have bits : ∀ (β : Type) (nets : String → Int → β) (pos : Int), 0 ≤ pos → pos < w →
      bitOf m scope nets e pos = some (nets v.name (b.2.2 + pos)) := by
    intro β nets pos first inside
    obtain ⟨b', denotes, name, phys⟩ := run pos first inside
    rw [denotes.bit β nets, name, phys, vector.name]
  by_cases single : w = 1
  · subst single
    rw [if_pos rfl, Outcome.bind_hit]
    refine ⟨fun bad => (by cases bad), fun f same => ?_⟩
    obtain rfl : Expression.index (rootedIdent v.name)
      (intLiteral (if v.descending then v.dim.2 + b.2.2 else v.dim.2 - b.2.2)) = f := by simpa using same
    refine ⟨by rw [width], fun β nets pos first inside => ?_⟩
    obtain rfl : pos = 0 := by omega
    refine ⟨nets v.name (b.2.2 + 0), ?_, bits β nets 0 (by omega) (by omega)⟩
    rw [rootedIdent, bitOf, intLiteral_value, Option.bind_eq_bind, Option.bind_some, if_neg (by omega)]
    dsimp only
    rw [rooted, Option.bind_eq_bind, Option.bind_some, labelled_physToLabel nets low (by omega), Int.add_zero]
  · have top : InI64 (b.2.2 + w) := by
      rw [inI64_iff]
      omega
    have last : InI64 (b.2.2 + w - 1) := by
      rw [inI64_iff]
      omega
    rw [if_neg single, add_pos top, Outcome.bind_hit, sub_pos last, Outcome.bind_hit,
      physToLabel_eq plain (by omega) (by omega), Outcome.bind_hit, Outcome.bind_hit]
    refine ⟨fun bad => (by cases bad), fun f same => ?_⟩
    obtain rfl : Expression.rangeSelect (rootedIdent v.name) .constant
      (intLiteral (if v.descending then v.dim.2 + (b.2.2 + w - 1) else v.dim.2 - (b.2.2 + w - 1)))
      (intLiteral (if v.descending then v.dim.2 + b.2.2 else v.dim.2 - b.2.2)) = f := by simpa using same
    constructor
    · rw [width, intLiteral_value, intLiteral_value]
      simp only [Option.bind_eq_bind, Option.bind_some, coveredWidth]
      cases v.descending
      · simp only [Bool.false_eq_true, if_false, Option.some.injEq]
        omega
      · simp only [if_true, Option.some.injEq]
        omega
    · intro β nets pos first inside
      refine ⟨nets v.name (b.2.2 + pos), ?_, bits β nets pos first inside⟩
      have label : v.labelled nets
          (if v.descending then v.dim.2 + (b.2.2 + pos) else v.dim.2 - (b.2.2 + pos)) =
            some (nets v.name (b.2.2 + pos)) := labelled_physToLabel nets (by omega) (by omega)
      rw [rootedIdent, bitOf, intLiteral_value, intLiteral_value, Option.bind_eq_bind, Option.bind_some,
        Option.bind_eq_bind, Option.bind_some]
      dsimp only
      rw [rooted, Option.bind_eq_bind, Option.bind_some]
      -- The select runs in the declared direction of the vector.
      cases down : v.descending
      · rw [down] at label
        simp only [Bool.false_eq_true, if_false] at label ⊢
        simp only [covered, Bool.false_eq_true, if_false]
        rw [if_pos (by omega), Option.bind_some]
        dsimp only
        rw [if_neg (by omega), ← label]
        congr 1
        omega
      · rw [down] at label
        simp only [if_true] at label ⊢
        simp only [covered, if_true]
        rw [if_pos (by omega), Option.bind_some]
        dsimp only
        rw [if_neg (by omega), ← label]
        congr 1
        omega

/-- Where the labels fit, a fold of an edge term has the lowest bit of the term, and a fold of a level term all of its
bits. -/
theorem foldEventExpr_spec {e : Expression} (fits : Fits m scope e) (edge : Bool) :
    foldEventExpr m scope e edge ≠ .overflow ∧ ∀ f, foldEventExpr m scope e edge = .hit f →
      ∃ w, (if edge then w = 1 else width m scope e = some w) ∧ width m scope f = some w ∧ SameBits m scope f e w := by
  obtain ⟨inner, same, bits⟩ := stripParens_spec m scope e
  have fitsInner := inner fits
  have finds := findsBits fitsInner
  unfold foldEventExpr
  dsimp only
  generalize stripParens e = t at same bits fitsInner finds
  split
  · exact ⟨fun bad => (by cases bad), fun _ bad => by cases bad⟩
  · -- The width is one for an edge term, and the known width for a level term.
    have widths : foldWidth m scope t edge =
        Outcome.ofOption (if edge then some 1 else knownWidth m scope t) := by
      cases edge
      · exact valueWidth_eq fitsInner
      · rfl
    rw [widths]
    cases known : (if edge then some 1 else knownWidth m scope t : Option Int) with
    | none => exact ⟨fun bad => (by cases bad), fun _ bad => by cases bad⟩
    | some w =>
      rw [Outcome.ofOption, Outcome.bind_hit]
      by_cases empty : w < 1
      · rw [if_pos empty]
        exact ⟨fun bad => (by cases bad), fun _ bad => by cases bad⟩
      · rw [if_neg empty]
        obtain ⟨safe, found⟩ := finds 0 (by decide)
        cases bit : bitAt m scope t 0 with
        | overflow => exact absurd bit safe
        | miss => exact ⟨fun bad => (by cases bad), fun _ bad => by cases bad⟩
        | hit b =>
          have denotes := found b bit
          obtain ⟨v, vector⟩ := denotes.vector
          have low := vector.low
          have high := vector.high
          have small := vector.plain.small
          rw [Outcome.bind_hit]
          obtain ⟨name, dim, p0⟩ := b
          dsimp only at low high ⊢
          obtain ⟨safeLoop, loop⟩ := followsFirst_spec finds name low (w - 1).toNat 1 (by omega) (by omega)
          cases run : followsFirst m scope t name p0 (w - 1).toNat 1 with
          | overflow => exact absurd run safeLoop
          | miss => exact ⟨fun bad => (by cases bad), fun _ bad => by cases bad⟩
          | hit done =>
            rw [Outcome.bind_hit]
            obtain ⟨total, others⟩ := loop run
            -- Every position of the term holds the next bit of the vector.
            have each : ∀ i, 0 ≤ i → i < w → ∃ b', Denotes m scope t i b' ∧ b'.1 = name ∧ b'.2.2 = p0 + i := by
              intro i first inside
              by_cases lowest : i = 0
              · subst lowest
                exact ⟨(name, dim, p0), denotes, rfl, (Int.add_zero p0).symm⟩
              · exact others i (by omega) (by omega)
            have room : p0 + w ≤ v.width := by
              obtain ⟨b', last, sameName, phys⟩ := each (w - 1) (by omega) (by omega)
              obtain ⟨v', vector'⟩ := last.vector
              have top := vector'.high
              have sameVector : v' = v := by
                have sameFlat : v'.name = v.name := vector'.name.symm.trans (sameName.trans vector.name)
                have second := vector'.found
                rw [sameFlat, vector.found] at second
                exact (Outcome.hit.inj second).symm
              rw [sameVector] at top
              omega
            obtain ⟨safeFold, folded⟩ := folded_bits vector (by omega) room each
            refine ⟨safeFold, fun f hit => ⟨w, ?_, (folded f hit).1, ?_⟩⟩
            · cases edge
              · rw [if_neg Bool.false_ne_true] at known ⊢
                rw [← same]
                exact knownWidth_width t w known
              · rw [if_pos rfl] at known ⊢
                exact (Option.some.inj known).symm
            · intro β nets pos first inside
              obtain ⟨x, left, right⟩ := (folded f hit).2 β nets pos first inside
              exact ⟨x, left, (bits β nets pos).symm.trans right⟩

end Fold

section Soundness

/-- Where the labels fit the fold is sound. -/
theorem sound_of_fits {e : Expression} (fits : Fits m scope e) : Sound m scope e where
  width_safe := by
    rw [valueWidth_eq fits]
    exact Outcome.ofOption_ne_overflow _
  width_right w found := by
    rw [valueWidth_eq fits, Outcome.ofOption_eq_hit] at found
    exact knownWidth_width e w found
  bit_safe pos inside := (findsBits fits pos inside).1
  bit_right pos net dim phys inside found := ((findsBits fits pos inside).2 _ found).bit
  fold_safe edge := (foldEventExpr_spec fits edge).1
  edge_right f found := by
    obtain ⟨w, rfl, wide, bits⟩ := (foldEventExpr_spec fits true).2 f found
    exact ⟨wide, bits⟩
  level_right f found := by
    obtain ⟨w, own, wide, bits⟩ := (foldEventExpr_spec fits false).2 f found
    exact ⟨w, own, wide, bits⟩

/-- A part of a term whose labels fit has labels that fit. -/
theorem Fits.part {e whole : Expression} (fits : Fits m scope whole) (part : Part e whole) : Fits m scope e := by
  induction part with
  | self => exact fits
  | paren _ ih =>
    cases fits with
    | paren inner => exact ih inner
  | index _ _ ih =>
    cases fits with
    | index inBase => exact ih inBase
  | rangeSelect _ _ _ _ ih =>
    cases fits with
    | rangeSelect inBase => exact ih inBase
  | concatenation member _ ih =>
    cases fits with
    | concatenation inParts => exact ih (inParts _ member)

/-- A bit select whose label is too far from the right one overflows. -/
theorem bitAt_index_overflow {h : HierarchicalIdentifier} {v : VecRef} {i : Index} {k : Int}
    (vector : named m scope h = some v) (index : constIndex m scope i = some k) (far : ¬ LabelFits v k) :
    bitAt m scope (.index (.ident h) i) 0 = .overflow := by
  have down : ¬ v.dim.1 < v.dim.2 := fun up => far fun order => by omega
  rw [bitAt, if_neg (by omega), index, Outcome.ofOption, Outcome.bind_hit, if_neg (by omega)]
  dsimp only
  rw [named_eq_some.mp vector, Outcome.bind_hit, if_neg down]
  exact (labelToPhys_spec down k).1.mpr far

/-- A part-select overflows at the position of a label that is too far from the right one. -/
theorem bitAt_rangeSelect_overflow {h : HierarchicalIdentifier} {v : VecRef} {kind : RangeKind} {left right : Index}
    {l r lo hi pos : Int} (vector : named m scope h = some v) (leftFound : constIndex m scope left = some l)
    (rightFound : constIndex m scope right = some r) (count : CountFits kind l r)
    (cover : covered true kind l r = some (lo, hi)) (inLo : InI64 lo) (inHi : InI64 hi) (first : 0 ≤ pos)
    (inside : pos ≤ hi - lo) (far : ¬ LabelFits v (lo + pos)) :
    bitAt m scope (.rangeSelect (.ident h) kind left right) pos = .overflow := by
  have down : ¬ v.dim.1 < v.dim.2 := fun up => far fun order => by omega
  have between : InI64 (lo + pos) := by
    rw [inI64_iff] at inLo inHi ⊢
    omega
  rw [bitAt, if_neg (by omega), leftFound, rightFound]
  simp only [Outcome.ofOption, Outcome.bind_hit, named_eq_some.mp vector]
  rw [if_neg down, partSelectLabels_eq (by omega) (constIndex_value left leftFound).1
    (constIndex_value right rightFound).1 count, cover]
  dsimp only
  rw [if_pos ⟨inLo, inHi⟩, Outcome.bind_hit]
  dsimp only
  rw [if_neg (by omega), add_pos between, Outcome.bind_hit]
  exact (labelToPhys_spec down (lo + pos)).1.mpr far

/-- Where the fold is sound of every part, the labels fit. -/
theorem fits_of_sound (e : Expression) : (∀ part, Part part e → Sound m scope part) → Fits m scope e := by
  induction e using Expression.induct with
  | paren inner ih =>
    intro sound
    exact .paren (ih fun part inInner => sound part (.paren inInner))
  | ident h =>
    intro sound
    have safe := (sound _ (.self _)).width_safe
    refine .ident ?_
    by_contra long
    exact safe (by rw [valueWidth, resolveVector_overflow.mpr long, Outcome.bind_overflow])
  | index base i ih =>
    intro sound
    refine .index (ih fun part inBase => sound part (.index i inBase)) ?_
    rintro h v k rfl vector index
    by_contra far
    exact (sound _ (.self _)).bit_safe 0 (by decide) (bitAt_index_overflow vector index far)
  | rangeSelect base kind left right ih =>
    intro sound
    have own := sound _ (.self _)
    have count : ∀ l r, constIndex m scope left = some l → constIndex m scope right = some r → CountFits kind l r := by
      intro l r leftFound rightFound
      by_contra long
      refine own.width_safe ?_
      rw [valueWidth, leftFound, rightFound]
      simp only [Outcome.ofOption, Outcome.bind_hit]
      rw [partSelectLabels_overflow unnamed_descending long, Outcome.bind_overflow]
    refine .rangeSelect (ih fun part inBase => sound part (.rangeSelect kind left right inBase)) count ?_
    rintro h v l r lo hi rfl vector leftFound rightFound cover inLo inHi
    have counted := count l r leftFound rightFound
    have order := (covered_spec cover).1
    constructor
    · by_contra far
      refine own.bit_safe 0 (by decide) (bitAt_rangeSelect_overflow vector leftFound rightFound counted cover inLo inHi
        (Int.le_refl 0) (by omega) ?_)
      rwa [Int.add_zero]
    · -- The highest label is that of the last position.
      by_contra far
      have short : InI64 (hi - lo) := by
        have few := covered_short (constIndex_value right rightFound).1 counted cover
        rw [maxI64_eq] at few
        rw [inI64_iff]
        omega
      refine own.bit_safe (hi - lo) short (bitAt_rangeSelect_overflow vector leftFound rightFound counted cover inLo
        inHi (by omega) (Int.le_refl _) ?_)
      rwa [show lo + (hi - lo) = hi by omega]
  | concatenation parts ih =>
    intro sound
    have inParts : ∀ p ∈ parts, Fits m scope p := fun p member =>
      ih p member fun part inPart => sound part (.concatenation member inPart)
    refine .concatenation inParts ?_
    intro n w known
    by_contra long
    refine (sound _ (.self _)).width_safe ?_
    rw [valueWidth]
    exact (sumWidths_eq (fun p member => valueWidth_eq (inParts p member)) 0 (Int.le_refl 0) (by decide)).2
      ⟨n, w, known, by omega⟩

end Soundness

end Laws

section Samples

attribute [local instance] referenceVmOps

/-- One bit is a width. -/
theorem one_small : 1 < 2 ^ 32 := by decide

/-- A module with `logic [3:-4] v` and `logic w`. -/
def offsetModule : ElaboratedModule where
  name := "top"
  signals name :=
    if name = "v" then some ⟨8, false, by decide⟩ else if name = "w" then some ⟨1, false, one_small⟩ else none
  notBits _ := false
  packedFullDims name := if name = "v" then some [(⟨3, by decide⟩, ⟨-4, by decide⟩)] else none
  ascendingPacked _ := none
  parameters _ := none

/-- The term `{w, v[64'h7fff_ffff_ffff_ffff]}`. -/
def farSelect : Expression :=
  .concatenation [.ident ⟨"w", false, false, false⟩,
    .index (.ident ⟨"v", false, false, false⟩) (.number 9223372036854775807)]

end Samples

end Xezim.EventBits
