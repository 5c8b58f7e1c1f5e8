import Xezim.EventBits.Labels

/-! The widths and bits the fold finds. -/

namespace Xezim.EventBits

open Checked

variable [VmOps] {m : ElaboratedModule} {scope : String}

omit [VmOps] in
/-- Positions run down to zero without a name. -/
theorem unnamed_descending : unnamed.2 ≤ unnamed.1 := by decide

section Widths

/-- A known width is not negative. -/
theorem knownWidth_nonneg (e : Expression) : ∀ w, knownWidth m scope e = some w → 0 ≤ w := by
  induction e using Expression.induct with
  | paren inner ih =>
    intro w known
    rw [knownWidth] at known
    exact ih w known
  | ident h =>
    intro w known
    rw [knownWidth, Option.map_eq_some_iff] at known
    obtain ⟨v, _, rfl⟩ := known
    omega
  | index base i ih =>
    intro w known
    rw [knownWidth, Option.map_eq_some_iff] at known
    obtain ⟨k, _, rfl⟩ := known
    omega
  | rangeSelect base kind l r ih =>
    intro w known
    rw [knownWidth] at known
    simp only [Option.bind_eq_bind, Option.bind_eq_some_iff] at known
    obtain ⟨lv, _, rv, _, ⟨lo, hi⟩, cover, known⟩ := known
    dsimp only at known
    split at known
    · have order := (covered_spec cover).1
      obtain rfl := Option.some.inj known
      omega
    · simp at known
  | concatenation parts ih =>
    rw [knownWidth]
    induction parts with
    | nil =>
      intro w known
      rw [knownWidths] at known
      obtain rfl := Option.some.inj known
      exact Int.le_refl 0
    | cons p parts rest =>
      intro w known
      rw [knownWidths] at known
      simp only [Option.bind_eq_bind, Option.bind_eq_some_iff] at known
      obtain ⟨a, first, b, others, sum⟩ := known
      have left := ih p List.mem_cons_self a first
      have right := rest (fun q inRest => ih q (List.mem_cons_of_mem p inRest)) b others
      obtain rfl : a + b = w := by simpa using sum
      omega

/-- The known widths of parts are the sums of their known widths, none of them negative. -/
theorem knownWidths_cons {p : Expression} {parts : List Expression} {w : Int}
    (known : knownWidths m scope (p :: parts) = some w) :
    ∃ a b, knownWidth m scope p = some a ∧ knownWidths m scope parts = some b ∧ w = a + b := by
  rw [knownWidths] at known
  simp only [Option.bind_eq_bind, Option.bind_eq_some_iff] at known
  obtain ⟨a, first, b, others, sum⟩ := known
  exact ⟨a, b, first, others, by simpa using sum.symm⟩

/-- A known width is the width of the value. -/
theorem knownWidth_width (e : Expression) : ∀ w, knownWidth m scope e = some w → width m scope e = some w := by
  induction e using Expression.induct with
  | paren inner ih =>
    intro w known
    rw [knownWidth] at known
    rw [width]
    exact ih w known
  | ident h =>
    intro w known
    rw [knownWidth] at known
    rw [width]
    exact known
  | index base i ih =>
    intro w known
    rw [knownWidth, Option.map_eq_some_iff] at known
    obtain ⟨k, _, rfl⟩ := known
    rw [width]
  | rangeSelect base kind l r ih =>
    intro w known
    rw [knownWidth] at known
    simp only [Option.bind_eq_bind, Option.bind_eq_some_iff] at known
    obtain ⟨lv, left, rv, right, ⟨lo, hi⟩, cover, known⟩ := known
    dsimp only at known
    split at known
    · obtain rfl := Option.some.inj known
      rw [width, (constIndex_value l left).2, (constIndex_value r right).2]
      exact (covered_spec cover).2
    · simp at known
  | concatenation parts ih =>
    rw [knownWidth, width]
    induction parts with
    | nil =>
      intro w known
      rw [knownWidths] at known
      rw [widths]
      exact known
    | cons p parts rest =>
      intro w known
      obtain ⟨a, b, first, others, rfl⟩ := knownWidths_cons known
      have left := ih p List.mem_cons_self a first
      have right := rest (fun q inRest => ih q (List.mem_cons_of_mem p inRest)) b others
      rw [widths, left, right]
      rfl

/-- A sum of widths with every prefix in range is found; one with a prefix out of range overflows. -/
theorem sumWidths_eq {parts : List Expression}
    (inParts : ∀ p ∈ parts, valueWidth m scope p = Outcome.ofOption (knownWidth m scope p)) :
    ∀ acc, 0 ≤ acc → acc ≤ maxI64 →
      ((∀ n w, knownWidths m scope (parts.take n) = some w → acc + w ≤ maxI64) →
        sumWidths m scope acc parts = Outcome.ofOption ((knownWidths m scope parts).map (acc + ·))) ∧
      ((∃ n w, knownWidths m scope (parts.take n) = some w ∧ maxI64 < acc + w) →
        sumWidths m scope acc parts = .overflow) := by
  induction parts with
  | nil =>
    intro acc low high
    refine ⟨fun _ => ?_, ?_⟩
    · rw [sumWidths, knownWidths]
      simp [Outcome.ofOption]
    · rintro ⟨n, w, known, long⟩
      rw [List.take_nil, knownWidths] at known
      obtain rfl := Option.some.inj known
      omega
  | cons p parts rest =>
    intro acc low high
    have own := inParts p List.mem_cons_self
    have others := rest fun q inRest => inParts q (List.mem_cons_of_mem p inRest)
    rw [sumWidths, own]
    cases first : knownWidth m scope p with
    | none =>
      refine ⟨fun _ => ?_, ?_⟩
      · rw [knownWidths, first]
        rfl
      · rintro ⟨n, w, known, long⟩
        cases n with
        | zero =>
          rw [List.take_zero, knownWidths] at known
          obtain rfl := Option.some.inj known
          omega
        | succ n =>
          rw [List.take_succ_cons] at known
          obtain ⟨a, _, found, _⟩ := knownWidths_cons known
          rw [first] at found
          exact absurd found (by simp)
    | some a =>
      have positive := knownWidth_nonneg p a first
      have next : ∀ n b, knownWidths m scope (parts.take n) = some b →
          knownWidths m scope ((p :: parts).take (n + 1)) = some (a + b) := by
        intro n b known
        rw [List.take_succ_cons, knownWidths, first, known]
        rfl
      rw [Outcome.ofOption, Outcome.bind_hit]
      by_cases fits : acc + a ≤ maxI64
      · have inside : InI64 (acc + a) := ⟨by unfold minI64; omega, fits⟩
        rw [add_pos inside, Outcome.bind_hit]
        obtain ⟨found, long⟩ := others (acc + a) (by omega) fits
        refine ⟨fun total => ?_, ?_⟩
        · rw [found fun n b known => by
            have := total (n + 1) (a + b) (next n b known)
            omega]
          rw [knownWidths, first]
          cases knownWidths m scope parts with
          | none => rfl
          | some b =>
            change Outcome.hit (acc + a + b) = .hit (acc + (a + b))
            rw [Int.add_assoc]
        · rintro ⟨n, w, known, beyond⟩
          cases n with
          | zero =>
            rw [List.take_zero, knownWidths] at known
            obtain rfl := Option.some.inj known
            omega
          | succ n =>
            rw [List.take_succ_cons] at known
            obtain ⟨a', b, found, others, rfl⟩ := knownWidths_cons known
            rw [first] at found
            obtain rfl := Option.some.inj found
            exact long ⟨n, b, others, by omega⟩
      · have outside : ¬ InI64 (acc + a) := fun inside => fits inside.2
        rw [add_neg outside, Outcome.bind_overflow]
        refine ⟨fun total => ?_, fun _ => rfl⟩
        have := total 1 (a + 0) (next 0 0 rfl)
        omega

/-- Where the labels fit, the fold finds the known widths. -/
theorem valueWidth_eq {e : Expression} (fits : Fits m scope e) :
    valueWidth m scope e = Outcome.ofOption (knownWidth m scope e) := by
  induction fits with
  | paren inner ih =>
    rw [valueWidth, knownWidth]
    exact ih
  | ident range =>
    rename_i h
    have safe : resolveVector m scope h ≠ .overflow := fun overflows => resolveVector_overflow.mp overflows range
    rw [valueWidth, knownWidth]
    unfold named
    cases found : resolveVector m scope h with
    | overflow => exact absurd found safe
    | miss => rfl
    | hit v => rfl
  | index inBase label ih =>
    rename_i base i
    rw [valueWidth, knownWidth]
    cases constIndex m scope i <;> rfl
  | rangeSelect inBase count labels ih =>
    rename_i base kind left right
    rw [valueWidth, knownWidth]
    cases leftFound : constIndex m scope left with
    | none => rfl
    | some l =>
      cases rightFound : constIndex m scope right with
      | none => rfl
      | some r =>
        have parts := partSelectLabels_eq unnamed_descending (constIndex_value left leftFound).1
          (constIndex_value right rightFound).1 (count l r leftFound rightFound)
        simp only [Outcome.ofOption, Outcome.bind_hit, parts, Option.bind_eq_bind, Option.bind_some]
        cases covered true kind l r with
        | none => rfl
        | some labels =>
          obtain ⟨lo, hi⟩ := labels
          dsimp only [Option.bind_some]
          by_cases inside : InI64 lo ∧ InI64 hi
          · rw [if_pos inside, if_pos inside]
            rfl
          · rw [if_neg inside, if_neg inside]
            rfl
  | concatenation inParts total ih =>
    rename_i parts
    rw [valueWidth, knownWidth]
    have found := (sumWidths_eq ih 0 (Int.le_refl 0) (by decide)).1 fun n w known => by
      rw [Int.zero_add]
      exact total n w known
    rw [found]
    simp

end Widths

end Xezim.EventBits
