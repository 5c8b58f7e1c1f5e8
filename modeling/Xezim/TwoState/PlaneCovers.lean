import Xezim.TwoState.KnownLaws

/-! Every plane operation covers the word operation on every word its operands cover. -/

namespace Xezim

open Splice KnownBits Function

/-- A three-valued truth that is either unknown or the given one. -/
def Admits (o : Option Bool) (b : Bool) : Prop := ∀ b', o = some b' → b' = b

section Truth

variable {p q : Option Bool} {b c : Bool}

/-- A definite truth admits itself. -/
theorem admits_some (b : Bool) : Admits (some b) b := fun _ same => (Option.some.inj same).symm

/-- Conjunction admits the conjunction of what its operands admit. -/
theorem admits_and3 (left : Admits p b) (right : Admits q c) : Admits (and3 p q) (b && c) := by
  -- A definite operand is the truth it admits, and only definite operands give a definite result.
  intro b' definite
  cases p with
  | none =>
    cases q with
    | none => cases definite
    | some c' =>
      cases right c' rfl
      cases c <;> simp_all [and3]
  | some p' =>
    cases left p' rfl
    cases q with
    | none => cases b <;> simp_all [and3]
    | some c' =>
      cases right c' rfl
      simpa using definite.symm

/-- Disjunction admits the disjunction of what its operands admit. -/
theorem admits_or3 (left : Admits p b) (right : Admits q c) : Admits (or3 p q) (b || c) := by
  intro b' definite
  cases p with
  | none =>
    cases q with
    | none => cases definite
    | some c' =>
      cases right c' rfl
      cases c <;> simp_all [or3]
  | some p' =>
    cases left p' rfl
    cases q with
    | none => cases b <;> simp_all [or3]
    | some c' =>
      cases right c' rfl
      simpa using definite.symm

/-- Negation admits the negation of what its operand admits. -/
theorem admits_not3 (covers : Admits p b) : Admits (not3 p) (!b) := by
  intro b' definite
  cases p with
  | none => cases definite
  | some p' =>
    cases covers p' rfl
    simpa using definite.symm

end Truth

/-- An unknown bit covers any single bit. -/
theorem covers_unknownBit {u : Word} (fits : Fits 1 u) : Covers ⟨0#64, 1#64⟩ u := by
  refine covers_unknown fun i outside => ?_
  -- Only bit zero may be set, and it is the unknown one.
  cases i with
  | zero => simp at outside
  | succ i => exact fits _ (by omega)

/-- An unknown word under a mask covers every word under that mask. -/
theorem covers_unknownMask {w : Nat} {u : Word} (fits : Fits w u) :
    Covers ⟨0#64, xmask w⟩ u := by
  refine covers_unknown fun i outside => ?_
  by_cases inside : i < w
  · -- A bit of the mask is clear only past the word.
    rw [getLsbD_xmask] at outside
    have past : 64 ≤ i := by simpa [inside] using outside
    exact BitVec.getLsbD_of_ge u i past
  · exact fits i (by omega)

/-- An unknown word under a mask covers every masked word. -/
theorem covers_unknown_and (m u : Word) : Covers ⟨0#64, m⟩ (u &&& m) :=
  covers_unknown fun i outside => by simp [outside]

/-- A truth value covers the bit of the truth it admits. -/
theorem covers_fromT3 {p : Option Bool} {b : Bool} (admits : Admits p b) :
    Covers (fromT3 p) (ofBool b) := by
  cases p with
  | none => exact covers_unknownBit (fits_ofBool b)
  | some p' =>
    cases admits p' rfl
    rw [fromT3_some]
    exact covers_self _

section Words

variable {p q : Planes 64} {u v : Word}

/-- The truth of planes admits the truth of every word they cover. -/
theorem admits_t3 (covers : Covers p u) : Admits (t3 p) (u != 0#64) := by
  intro b definite
  unfold t3 at definite
  split at definite
  · -- A known one makes the word nonzero.
    rename_i one
    have nonzero := Covers.ne_zero covers one
    simp_all
  · split at definite
    · cases definite
    · -- Without an unknown bit the word is the value plane, which is then zero.
      rename_i noOne noUnknown
      have clear : p.x = 0#64 := by simpa using noUnknown
      have value := covers.eq_of_known clear
      have zero : p.v = 0#64 := by simpa [clear] using noOne
      simp_all

/-- Conjunction of covered words. -/
theorem covers_andP (left : Covers p u) (right : Covers q v) : Covers (andP p q) (u &&& v) :=
  Covers.kleene_and left right

/-- Disjunction of covered words. -/
theorem covers_orP (left : Covers p u) (right : Covers q v) : Covers (orP p q) (u ||| v) :=
  Covers.kleene_or left right

/-- Difference of covered words. -/
theorem covers_xorP (left : Covers p u) (right : Covers q v) : Covers (xorP p q) (u ^^^ v) :=
  Covers.kleene_xor left right

/-- Equality of covered words. -/
theorem covers_eqP (left : Covers p u) (right : Covers q v) :
    Covers (eqP p q) (ofBool (u == v)) := by
  unfold eqP
  split
  · -- Both words are their value planes.
    rename_i clear
    obtain ⟨clearP, clearQ⟩ := BitVec.or_eq_zero_iff.mp clear
    rw [left.eq_of_known clearP, right.eq_of_known clearQ]
    exact covers_self _
  · split
    · -- A known mismatch tells the words apart.
      rename_i mismatch
      have apart := Covers.ne_of_mismatch left right mismatch
      simpa [apart, ofBool] using covers_self 0#64
    · exact covers_unknownBit (fits_ofBool _)

/-- Inequality of covered words. -/
theorem covers_neP (left : Covers p u) (right : Covers q v) :
    Covers (neP p q) (ofBool (u != v)) := by
  have equal := covers_eqP left right
  unfold neP
  dsimp only
  split
  · exact covers_unknownBit (fits_ofBool _)
  · -- A definite equality bit is turned over.
    rename_i definite
    have value := equal.eq_of_known (by simpa using definite)
    rw [value, covers_zero_iff]
    cases same : u == v <;> simp [bne, same, ofBool]

/-- A window of covered words. -/
theorem covers_sliceP (covers : Covers p u) (lo : Nat) (mask : Word) :
    Covers (sliceP p lo mask) (shr u lo &&& mask) :=
  Covers.and_mask (covers_shr covers lo) mask

/-- An operation held back by unknown bits, whose results stay under the mask. -/
theorem covers_strict2 (left : Covers p u) (right : Covers q v) {mask : Word}
    {f : Word → Word → Word}
    (under : ∀ i, mask.getLsbD i = false → (f u v).getLsbD i = false) :
    Covers (strict2 p q mask f) (f u v) := by
  unfold strict2
  split
  · exact covers_unknown under
  · rename_i clear
    obtain ⟨clearP, clearQ⟩ := BitVec.or_eq_zero_iff.mp (by simpa using clear)
    rw [left.eq_of_known clearP, right.eq_of_known clearQ]
    exact covers_self _

/-- A masked result stays under its mask. -/
theorem and_under_mask (u mask : Word) (i : Nat) (outside : mask.getLsbD i = false) :
    (u &&& mask).getLsbD i = false := by
  simp [outside]

/-- A truth value stays under the mask of one bit. -/
theorem ofBool_under_one (b : Bool) (i : Nat) (outside : (1#64).getLsbD i = false) :
    (ofBool b).getLsbD i = false := by
  cases i with
  | zero => simp at outside
  | succ i => exact fits_ofBool b _ (by omega)

/-- A selection by an unknown selector covers whichever arm was taken. -/
theorem covers_mergeP (left : Covers p u) (right : Covers q v) {w : Nat} {y : Word}
    (arm : y = u ∨ y = v) (fits : Fits w y) : Covers (mergeP p q (xmask w)) y := by
  refine Covers.merge left right arm fun i outside => ?_
  by_cases inside : i < w
  · rw [getLsbD_xmask] at outside
    exact BitVec.getLsbD_of_ge y i (by simpa [inside] using outside)
  · exact fits i (by omega)

/-- A complement by a constant of a covered word. -/
theorem covers_xorConst (covers : Covers p u) (k : Word) :
    Covers ⟨(p.v ^^^ k) &&& ~~~p.x, p.x⟩ (u ^^^ k) := by
  have difference := Covers.kleene_xor covers (covers_self k)
  simpa using difference

/-- A reduction by conjunction of a covered word of the mask's width. -/
theorem covers_redAnd (covers : Covers p u) {w : Nat} (fits : Fits w u) :
    Covers (if ~~~p.v &&& ~~~p.x &&& xmask w ≠ 0#64 then (⟨0#64, 0#64⟩ : Planes 64)
      else if p.x &&& xmask w ≠ 0#64 then ⟨0#64, 1#64⟩ else ⟨1#64, 0#64⟩)
      (ofBool (u == xmask w)) := by
  have complement := Covers.kleene_not covers (xmask w)
  split
  · -- A known zero inside the mask keeps the word away from it.
    rename_i zero
    have apart : u ≠ xmask w := by
      rintro rfl
      refine zero (BitVec.eq_of_getLsbD_eq fun i inside => ?_)
      have bit := complement i
      simp only [BitVec.getLsbD_and, BitVec.getLsbD_not, inside, decide_true, Bool.true_and,
        BitVec.getLsbD_zero] at bit ⊢
      generalize p.v.getLsbD i = a, p.x.getLsbD i = b, (xmask w).getLsbD i = c at bit ⊢
      revert a b c
      decide
    simpa [apart, ofBool] using covers_self 0#64
  · split
    · exact covers_unknownBit (fits_ofBool _)
    · -- Every bit of the mask is a known one.
      rename_i noZero noUnknown
      rw [not_not] at noZero noUnknown
      rw [noZero, noUnknown, covers_zero_iff] at complement
      rw [(not_and_xmask_eq_zero fits).mp complement.symm]
      simpa [ofBool] using covers_self 1#64

end Words

/-- Joining covered parts covers the joined words. -/
theorem covers_concatPartsX {rx : XRegs} {r : Regs} (covers : ∀ d, Covers (rx d) (r d))
    {parts : List (Nat × Nat)} (total : (parts.map Prod.snd).sum ≤ 64)
    (fits : ∀ p ∈ parts, Fits p.2 (r p.1)) :
    Covers (concatPartsX rx parts) (concatParts r parts) := by
  cases parts with
  | nil => exact covers_self _
  | cons first rest =>
    -- The width joined so far tells when a part of a full word follows nothing but empty ones.
    have general : ∀ (rest : List (Nat × Nat)) (acc : Planes 64) (u : Word) (w : Nat),
        Covers acc u → Fits w u → w + (rest.map Prod.snd).sum ≤ 64 →
        (∀ p ∈ rest, Fits p.2 (r p.1)) →
        Covers (rest.foldl (fun acc p =>
            if p.2 ≥ 64 then rx p.1
            else ⟨shl acc.v p.2 ||| (rx p.1).v, shl acc.x p.2 ||| (rx p.1).x⟩) acc)
          (rest.foldl (fun acc p => shl acc p.2 ||| r p.1) u) := by
      intro rest
      induction rest with
      | nil => intro acc u w accCovers _ _ _; exact accCovers
      | cons p rest ih =>
        intro acc u w accCovers accFits room restFits
        rw [List.map_cons, List.sum_cons] at room
        have joined : Fits (w + p.2) (shl u p.2 ||| r p.1) :=
          fits_or (fits_shl accFits p.2) ((restFits p (by simp)).mono (by omega))
        rw [List.foldl_cons, List.foldl_cons]
        refine ih _ _ _ ?_ joined (by omega) fun q member => restFits q (by simp [member])
        split
        · have empty : w = 0 := by omega
          subst empty
          simpa [eq_zero_of_fits accFits] using covers p.1
        · exact Covers.or (covers_shl accCovers p.2) (covers p.1)
    exact general rest _ _ first.2 (covers first.1) (fits first (by simp))
      (by rw [List.map_cons, List.sum_cons] at total; exact total)
      fun p member => fits p (by simp [member])

end Xezim
