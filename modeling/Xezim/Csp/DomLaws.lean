import Mathlib.Tactic.Linarith
import Xezim.Csp.Dom

/-! What the operations on domains compute: the values of each result, and that it is a domain. -/

namespace Xezim.Dom

variable {a b d : Dom} {x : Int}

/-- An interval below every value of a domain extends it. -/
theorem Ok.cons {p : Int × Int} (valid : p.1 ≤ p.2) (ok : Ok d)
    (above : ∀ x, Has d x → p.2 < x) : Ok (p :: d) :=
  ok_cons.mpr ⟨valid, fun q member =>
    above q.1 ⟨q, member, Int.le_refl _, ok.valid q member⟩, ok⟩

/-- Two domains, one below the other, make a domain. -/
theorem Ok.append {e : Dom} (ok : Ok d) (ok' : Ok e)
    (below : ∀ x y, Has d x → Has e y → x < y) : Ok (d ++ e) := by
  induction d with
  | nil => exact ok'
  | cons p d ih =>
    have parts := ok_cons.mp ok
    refine Ok.cons parts.1 (ih parts.2.2 fun x y here => below x y (by simp [here])) ?_
    -- A value of the joined set lies in the rest of the first or in the second.
    intro x here
    rcases (has_append d e x).mp here with here | here
    · exact ok.above here
    · exact below p.2 x (by simp [parts.1]) here

/-- Clipping interval by interval. -/
theorem domClip_cons (p : Int × Int) (d : Dom) (lo hi : Int) :
    domClip (p :: d) lo hi =
      if max p.1 lo ≤ min p.2 hi then (max p.1 lo, min p.2 hi) :: domClip d lo hi
      else domClip d lo hi := by
  unfold domClip
  rw [List.filterMap_cons]
  by_cases meets : max p.1 lo ≤ min p.2 hi
  · rw [if_pos meets, if_pos meets]
  · rw [if_neg meets, if_neg meets]

/-- Clipping keeps the values between the ends. -/
@[simp] theorem has_clip (d : Dom) (lo hi x : Int) :
    Has (domClip d lo hi) x ↔ Has d x ∧ lo ≤ x ∧ x ≤ hi := by
  induction d with
  | nil => simp [domClip]
  | cons p d ih =>
    rw [domClip_cons, has_cons]
    -- Cutting a part to the window is meeting it with the window.
    have part : (max p.1 lo ≤ x ∧ x ≤ min p.2 hi) ↔ (p.1 ≤ x ∧ x ≤ p.2) ∧ lo ≤ x ∧ x ≤ hi := by
      omega
    split
    · rw [has_cons, ih, part]
      tauto
    · -- A part outside the window contributes nothing.
      rename_i apart
      have outside : ¬ ((p.1 ≤ x ∧ x ≤ p.2) ∧ lo ≤ x ∧ x ≤ hi) := by omega
      rw [ih]
      tauto

/-- A clipped domain is a domain. -/
theorem Ok.clip (ok : Ok d) (lo hi : Int) : Ok (domClip d lo hi) := by
  induction d with
  | nil => exact ok_nil
  | cons p d ih =>
    have rest := ih (ok_cons.mp ok).2.2
    rw [domClip_cons]
    split
    · rename_i meets
      -- A part that meets the window stays below the parts after it.
      refine Ok.cons meets rest fun x here => ?_
      have := ok.above ((has_clip d lo hi x).mp here).1
      dsimp only
      omega
    · exact rest

/-- The meet by the first interval of each domain. -/
theorem domMeet_cons (p q : Int × Int) (a b : Dom) :
    domMeet (p :: a) (q :: b) =
      if max p.1 q.1 ≤ min p.2 q.2 then (max p.1 q.1, min p.2 q.2) ::
        (if p.2 < q.2 then domMeet a (q :: b) else domMeet (p :: a) b)
      else if p.2 < q.2 then domMeet a (q :: b) else domMeet (p :: a) b := rfl

/-- The meet has the common values. -/
theorem has_meet (ok : Ok a) (ok' : Ok b) : Has (domMeet a b) x ↔ Has a x ∧ Has b x := by
  induction a generalizing b with
  | nil => simp [domMeet]
  | cons p a ih =>
    have okA := (ok_cons.mp ok).2.2
    -- The inner induction follows the second domain while the first interval stays.
    induction b with
    | nil => simp [domMeet, domMeetOne]
    | cons q b inner =>
      have okB := (ok_cons.mp ok').2.2
      have left : Has a x → p.2 < x := fun here => ok.above here
      have right : Has b x → q.2 < x := fun here => ok'.above here
      have rest : Has (if p.2 < q.2 then domMeet a (q :: b) else domMeet (p :: a) b) x ↔
          if p.2 < q.2 then Has a x ∧ Has (q :: b) x else Has (p :: a) x ∧ Has b x := by
        split
        · exact ih okA ok'
        · exact inner okB
      have part : (max p.1 q.1 ≤ x ∧ x ≤ min p.2 q.2) ↔
          (p.1 ≤ x ∧ x ≤ p.2) ∧ (q.1 ≤ x ∧ x ≤ q.2) := by omega
      have whole : Has (domMeet (p :: a) (q :: b)) x ↔
          ((p.1 ≤ x ∧ x ≤ p.2) ∧ (q.1 ≤ x ∧ x ≤ q.2)) ∨
            Has (if p.2 < q.2 then domMeet a (q :: b) else domMeet (p :: a) b) x := by
        rw [domMeet_cons]
        split
        · rw [has_cons, part]
        · rename_i apart
          have outside : ¬ ((p.1 ≤ x ∧ x ≤ p.2) ∧ (q.1 ≤ x ∧ x ≤ q.2)) := by omega
          exact (or_iff_right outside).symm
      rw [whole, rest, has_cons, has_cons]
      constructor
      · rintro (⟨inP, inQ⟩ | others)
        · exact ⟨.inl inP, .inl inQ⟩
        · split at others
          · exact ⟨.inr others.1, others.2⟩
          · exact ⟨others.1, .inr others.2⟩
      · rintro ⟨inP | inA, inQ | inB⟩
        · exact .inl ⟨inP, inQ⟩
        · have := right inB
          rw [if_neg (by omega)]
          exact .inr ⟨.inl inP, inB⟩
        · have := left inA
          rw [if_pos (by omega)]
          exact .inr ⟨inA, .inl inQ⟩
        · refine .inr ?_
          split
          · exact ⟨inA, .inr inB⟩
          · exact ⟨.inr inA, inB⟩

/-- The meet of two domains is a domain. -/
theorem Ok.meet (ok : Ok a) (ok' : Ok b) : Ok (domMeet a b) := by
  induction a generalizing b with
  | nil => exact ok_nil
  | cons p a ih =>
    have okA := (ok_cons.mp ok).2.2
    induction b with
    | nil => exact ok_nil
    | cons q b inner =>
      have okB := (ok_cons.mp ok').2.2
      have rest : Ok (if p.2 < q.2 then domMeet a (q :: b) else domMeet (p :: a) b) := by
        split
        · exact ih okA ok'
        · exact inner okB
      rw [domMeet_cons]
      split
      · rename_i meets
        refine Ok.cons meets rest fun x here => ?_
        -- What follows lies past the interval that ends first.
        split at here
        · have := ok.above ((has_meet okA ok').mp here).1
          dsimp only
          omega
        · have := ok'.above ((has_meet ok okB).mp here).2
          dsimp only
          omega
      · exact rest

/-- Every interval after the first ends above it. -/
theorem Ok.endsAbove {q : Int × Int} (ok : Ok (q :: b)) : ∀ r ∈ b, q.2 + 1 ≤ r.2 := by
  intro r member
  have := (ok_cons.mp ok).2.1 r member
  have := (ok_cons.mp ok).2.2.valid r member
  omega

/-- What is left of an interval is what the domain does not have. -/
theorem has_cut (lo hi : Int) (ok : Ok b) (ends : ∀ q ∈ b, lo ≤ q.2) :
    Has (domCut lo hi b) x ↔ (lo ≤ x ∧ x ≤ hi) ∧ ¬ Has b x := by
  -- The walk cuts the window at every part it meets, left of it, and goes on right of it.
  induction b generalizing lo with
  | nil =>
    unfold domCut
    split
    · simp
    · rename_i empty
      simp only [has_nil, not_false_eq_true, and_true, false_iff]
      omega
  | cons q b ih =>
    have parts := ok_cons.mp ok
    -- Parts come in order, so the rest lies past this one.
    have above : Has b x → q.2 < x := fun here => ok.above here
    have endsHere := ends q List.mem_cons_self
    have endsNext := ok.endsAbove
    rw [has_cons]
    unfold domCut
    split
    · -- The window may end before the part begins.
      split
      · rename_i past
        rw [has_single]
        refine ⟨fun inside => ⟨inside, ?_⟩, fun inside => inside.1⟩
        have := parts.1
        rintro (here | here)
        · omega
        · have := above here
          omega
      · rw [has_append]
        -- Left of the part there is the piece up to its start.
        have first : Has (if q.1 > lo then [(lo, q.1 - 1)] else []) x ↔ lo ≤ x ∧ x < q.1 := by
          split
          · rw [has_single]
            omega
          · simp only [has_nil, false_iff]
            omega
        -- Right of it there is what the rest leaves of the window.
        have second : Has (if q.2 ≥ hi then [] else domCut (q.2 + 1) hi b) x ↔
            (q.2 < x ∧ x ≤ hi) ∧ ¬ Has b x := by
          split
          · simp only [has_nil, false_iff, not_and]
            omega
          · rw [ih (q.2 + 1) parts.2.2 endsNext, Int.add_one_le_iff]
        rw [first, second]
        have := parts.1
        constructor
        · rintro (here | ⟨inside, out⟩)
          · refine ⟨by omega, ?_⟩
            rintro (inside | inside)
            · omega
            · have := above inside
              omega
          · exact ⟨by omega, by rintro (here | here) <;> [omega; exact out here]⟩
        · rintro ⟨inside, out⟩
          -- A value the set does not have lies left or right of the part.
          have notQ : ¬ (q.1 ≤ x ∧ x ≤ q.2) := fun here => out (.inl here)
          by_cases low : x < q.1
          · exact .inl ⟨inside.1, low⟩
          · exact .inr ⟨by omega, fun here => out (.inr here)⟩
    · simp only [has_nil, false_iff, not_and]
      omega

/-- What is left of an interval is a domain. -/
theorem Ok.cut (lo hi : Int) (ok : Ok b) (ends : ∀ q ∈ b, lo ≤ q.2) :
    Ok (domCut lo hi b) := by
  -- The pieces come in the order of the parts between them.
  induction b generalizing lo with
  | nil =>
    unfold domCut
    split
    · rename_i valid
      exact ok_single valid
    · exact ok_nil
  | cons q b ih =>
    have parts := ok_cons.mp ok
    unfold domCut
    split
    · split
      · rename_i valid _
        exact ok_single valid
      · -- The left piece is one interval, where there is one.
        have first : Ok (if q.1 > lo then [(lo, q.1 - 1)] else []) := by
          split
          · exact ok_single (by omega)
          · exact ok_nil
        have second : Ok (if q.2 ≥ hi then [] else domCut (q.2 + 1) hi b) := by
          split
          · exact ok_nil
          · exact ih (q.2 + 1) parts.2.2 ok.endsAbove
        -- The left piece ends before the part, and what follows starts after it.
        refine first.append second fun x y here there => ?_
        have low : x < q.1 := by
          split at here
          · have := (has_single _ _ _).mp here
            omega
          · exact absurd here (has_nil x)
        have high : q.2 < y := by
          split at there
          · exact absurd there (has_nil y)
          · have := ((has_cut (q.2 + 1) hi parts.2.2 ok.endsAbove).mp there).1
            omega
        have := parts.1
        omega
    · exact ok_nil

/-- Intervals that end before a value do not hold it. -/
theorem has_dropWhile (ok : Ok b) {lo : Int} (low : lo ≤ x) :
    Has (b.dropWhile fun q => q.2 < lo) x ↔ Has b x := by
  -- The dropped parts all end before the window.
  induction b with
  | nil => simp
  | cons q b ih =>
    rw [List.dropWhile_cons]
    split
    · rename_i before
      have past : ¬ (q.1 ≤ x ∧ x ≤ q.2) := by
        simp only [decide_eq_true_eq] at before
        omega
      rw [ih (ok_cons.mp ok).2.2, has_cons]
      exact (or_iff_right past).symm
    · rfl

/-- Dropping the first intervals leaves a domain. -/
theorem Ok.dropWhile (ok : Ok b) (p : Int × Int → Bool) : Ok (b.dropWhile p) :=
  ⟨fun q member => ok.valid q ((List.dropWhile_sublist p).mem member),
    ok.apart.sublist (List.dropWhile_sublist p)⟩

/-- The intervals that are left all end at a value or above. -/
theorem Ok.endsDropWhile (ok : Ok b) (lo : Int) :
    ∀ q ∈ b.dropWhile (fun q => q.2 < lo), lo ≤ q.2 := by
  -- Once a part reaches the window, the ones after it end past that part.
  induction b with
  | nil => simp
  | cons q b ih =>
    rw [List.dropWhile_cons]
    split
    · exact ih (ok_cons.mp ok).2.2
    · rename_i reaches
      simp only [decide_eq_true_eq, not_lt] at reaches
      intro r member
      rcases List.mem_cons.mp member with rfl | member
      · exact reaches
      · have := ok.endsAbove r member
        omega

/-- The difference has the values only the first domain has. -/
theorem has_minus (ok : Ok a) (ok' : Ok b) : Has (domMinus a b) x ↔ Has a x ∧ ¬ Has b x := by
  -- Each part of the first set is cut by what of the second is not wholly before it.
  induction a generalizing b with
  | nil => simp [domMinus]
  | cons p a ih =>
    have okRest := ok'.dropWhile fun q => q.2 < p.1
    have ends := ok'.endsDropWhile p.1
    rw [domMinus, has_append, has_cut _ _ okRest ends, ih (ok_cons.mp ok).2.2 okRest, has_cons]
    -- What was dropped for this part lies below it, and below every later part too.
    by_cases low : p.1 ≤ x
    · rw [has_dropWhile ok' low, ← or_and_right]
    · have := (ok_cons.mp ok).1
      have notA : ¬ Has a x := fun here => by
        have := ok.above here
        omega
      have notP : ¬ (p.1 ≤ x ∧ x ≤ p.2) := by omega
      simp only [notA, notP, false_and, or_self]

/-- The difference of two domains is a domain. -/
theorem Ok.minus (ok : Ok a) (ok' : Ok b) : Ok (domMinus a b) := by
  -- Two cuts of different parts cannot meet, since the parts do not.
  induction a generalizing b with
  | nil => exact ok_nil
  | cons p a ih =>
    have okRest := ok'.dropWhile fun q => q.2 < p.1
    have ends := ok'.endsDropWhile p.1
    have okA := (ok_cons.mp ok).2.2
    refine (Ok.cut p.1 p.2 okRest ends).append (ih okA okRest) fun x y here there => ?_
    have := ((has_cut p.1 p.2 okRest ends).mp here).1
    have := ok.above ((has_minus okA okRest).mp there).1
    omega

/-- Merging keeps the values. -/
theorem has_join {lo hi : Int} (valid : ∀ p ∈ d, p.1 ≤ p.2) (sorted : d.Pairwise intervalLe)
    (low : ∀ p ∈ d, lo ≤ p.1) (self : lo ≤ hi) :
    Has (domJoin lo hi d) x ↔ (lo ≤ x ∧ x ≤ hi) ∨ Has d x := by
  -- The part at hand grows while the next one touches it.
  induction d generalizing lo hi with
  | nil => simp [domJoin]
  | cons p d ih =>
    have here := low p List.mem_cons_self
    have validP := valid p List.mem_cons_self
    have valid' : ∀ q ∈ d, q.1 ≤ q.2 := fun q member => valid q (List.mem_cons_of_mem _ member)
    obtain ⟨first, sorted'⟩ := List.pairwise_cons.mp sorted
    unfold domJoin
    rw [has_cons, ← or_assoc]
    -- A part that touches extends the one at hand, to the larger end.
    split
    · rename_i touches
      rw [ih valid' sorted' (fun q member => low q (List.mem_cons_of_mem _ member)) (by omega)]
      refine or_congr_left ?_
      omega
    · -- A part that does not touch starts the next one.
      have next : ∀ q ∈ d, p.1 ≤ q.1 := fun q member => by
        rcases first q member with above | same
        · omega
        · omega
      rw [has_cons, ih valid' sorted' next validP, or_assoc]

/-- Merging sorted intervals makes a domain. -/
theorem Ok.join {lo hi : Int} (valid : ∀ p ∈ d, p.1 ≤ p.2) (sorted : d.Pairwise intervalLe)
    (low : ∀ p ∈ d, lo ≤ p.1) (self : lo ≤ hi) : Ok (domJoin lo hi d) := by
  -- A part that is closed ends before the next begins.
  induction d generalizing lo hi with
  | nil => exact ok_single self
  | cons p d ih =>
    have here := low p List.mem_cons_self
    have validP := valid p List.mem_cons_self
    have valid' : ∀ q ∈ d, q.1 ≤ q.2 := fun q member => valid q (List.mem_cons_of_mem _ member)
    obtain ⟨first, sorted'⟩ := List.pairwise_cons.mp sorted
    have next : ∀ q ∈ d, p.1 ≤ q.1 := fun q member => by
      rcases first q member with above | same
      · omega
      · omega
    unfold domJoin
    split
    · exact ih valid' sorted' (fun q member => low q (List.mem_cons_of_mem _ member)) (by omega)
    · refine Ok.cons self (ih valid' sorted' next validP) fun x inside => ?_
      -- Whatever follows lies from the next part's start on.
      rcases (has_join valid' sorted' next validP).mp inside with inP | ⟨q, member, inQ⟩
      · dsimp only
        omega
      · have := next q member
        dsimp only
        omega

/-- The intervals `dom_norm` merges: the nonempty ones, sorted. -/
theorem sorted_norm (v : List (Int × Int)) :
    ((v.filter fun p => p.1 ≤ p.2).insertionSort intervalLe).Pairwise intervalLe := by
  have total : Std.Total intervalLe := ⟨fun p q => by unfold intervalLe; omega⟩
  have trans : IsTrans (Int × Int) intervalLe := ⟨fun p q r => by unfold intervalLe; omega⟩
  exact List.pairwise_insertionSort intervalLe _

/-- The intervals `dom_norm` merges have the values of the list. -/
theorem mem_norm {v : List (Int × Int)} {p : Int × Int} :
    p ∈ (v.filter fun p => p.1 ≤ p.2).insertionSort intervalLe ↔ p ∈ v ∧ p.1 ≤ p.2 := by
  rw [(List.perm_insertionSort intervalLe _).mem_iff, List.mem_filter, decide_eq_true_iff]

/-- `dom_norm` keeps the values. -/
theorem has_norm (v : List (Int × Int)) (x : Int) :
    Has (domNorm v) x ↔ ∃ p ∈ v, p.1 ≤ x ∧ x ≤ p.2 := by
  -- Sorting and joining change the order and the cut, not the values.
  have same : Has (domNorm v) x ↔
      Has ((v.filter fun p => p.1 ≤ p.2).insertionSort intervalLe) x := by
    have sorted := sorted_norm v
    have valid : ∀ p ∈ (v.filter fun p => p.1 ≤ p.2).insertionSort intervalLe, p.1 ≤ p.2 :=
      fun p member => (mem_norm.mp member).2
    unfold domNorm
    split
    · rename_i empty
      rw [empty]
    · rename_i p d cut
      rw [cut] at sorted valid ⊢
      obtain ⟨first, rest⟩ := List.pairwise_cons.mp sorted
      rw [has_join (fun q member => valid q (List.mem_cons_of_mem _ member)) rest
        (fun q member => by rcases first q member with above | same <;> omega)
        (valid p List.mem_cons_self), has_cons]
  rw [same]
  constructor
  · rintro ⟨p, member, here⟩
    exact ⟨p, (mem_norm.mp member).1, here⟩
  · rintro ⟨p, member, here⟩
    exact ⟨p, mem_norm.mpr ⟨member, by omega⟩, here⟩

/-- `dom_norm` makes a domain. -/
theorem ok_norm (v : List (Int × Int)) : Ok (domNorm v) := by
  -- Empty pairs are filtered out and the rest is sorted, as joining asks for.
  have sorted := sorted_norm v
  have valid : ∀ p ∈ (v.filter fun p => p.1 ≤ p.2).insertionSort intervalLe, p.1 ≤ p.2 :=
    fun p member => (mem_norm.mp member).2
  unfold domNorm
  split
  · exact ok_nil
  · rename_i p d cut
    rw [cut] at sorted valid
    obtain ⟨first, rest⟩ := List.pairwise_cons.mp sorted
    exact Ok.join (fun q member => valid q (List.mem_cons_of_mem _ member)) rest
      (fun q member => by rcases first q member with above | same <;> omega)
      (valid p List.mem_cons_self)

/-- The listed values are the values of the domain. -/
@[simp] theorem mem_values : x ∈ domValues d ↔ Has d x := by
  simp only [domValues, List.mem_flatMap, List.mem_map, List.mem_range, Has]
  refine exists_congr fun p => and_congr_right fun _ => ?_
  constructor
  · rintro ⟨i, small, rfl⟩
    omega
  · intro inside
    exact ⟨(x - p.1).toNat, by omega, by omega⟩

/-- `dom_size` counts the values. -/
theorem Ok.length_values (ok : Ok d) : (domValues d).length = domSize d := by
  -- Each part lists its values, one after the other.
  induction d with
  | nil => rfl
  | cons p d ih =>
    have parts := ok_cons.mp ok
    have rest := ih parts.2.2
    simp only [domValues, List.flatMap_cons, List.length_append, List.length_map,
      List.length_range, domSize] at rest ⊢
    rw [rest]
    have := parts.1
    omega

/-- No value is listed twice. -/
theorem Ok.nodup_values (ok : Ok d) : (domValues d).Nodup := by
  -- No value occurs in two parts, and none twice in one.
  induction d with
  | nil => exact List.nodup_nil
  | cons p d ih =>
    have first : ((List.range (p.2 + 1 - p.1).toNat).map fun i : Nat => p.1 + (i : Int)).Nodup :=
      List.nodup_range.map fun i j same => by simpa using same
    refine List.Nodup.append first (ih (ok_cons.mp ok).2.2) fun x here there => ?_
    obtain ⟨i, small, rfl⟩ := List.mem_map.mp here
    have := ok.above (mem_values.mp there)
    have := List.mem_range.mp small
    omega

/-- `dom_nth` below the size is a value. -/
theorem has_nth {k : Nat} (ok : Ok d) (small : k < domSize d) : Has d (domNth d k) := by
  -- The index walks past a part by the part's size.
  induction d generalizing k with
  | nil => exact absurd small (Nat.not_lt_zero k)
  | cons p d ih =>
    have parts := ok_cons.mp ok
    unfold domNth
    rw [has_cons]
    split
    · exact .inl (by omega)
    · rw [domSize] at small
      -- The last part answers for every index past it.
      split
      · exact .inl ⟨parts.1, le_refl _⟩
      · exact .inr (ih parts.2.2 (by omega))

/-- Every value is a `dom_nth` below the size. -/
theorem exists_nth (ok : Ok d) (here : Has d x) : ∃ k < domSize d, domNth d k = x := by
  -- A value's index counts the values before it.
  induction d with
  | nil => exact absurd here (has_nil x)
  | cons p d ih =>
    have parts := ok_cons.mp ok
    -- Either the value is in this part, at its distance from the start, or in a later one.
    by_cases inside : p.1 ≤ x ∧ x ≤ p.2
    · refine ⟨(x - p.1).toNat, by rw [domSize]; omega, ?_⟩
      rw [domNth, if_pos (by omega)]
      omega
    · obtain ⟨k, small, placed⟩ := ih parts.2.2 (((has_cons p d x).mp here).resolve_left inside)
      refine ⟨k + ((p.2 - p.1).toNat + 1), by rw [domSize]; omega, ?_⟩
      have nonempty : d ≠ [] := fun empty => by
        rw [empty] at small
        exact Nat.not_lt_zero k small
      rw [domNth, if_neg (by omega), if_neg nonempty, Nat.add_sub_cancel]
      exact placed

/-- Dividing down, the divisor on either side of zero. -/
theorem floorDiv_eq (a : Int) {b : Int} (nonzero : b ≠ 0) : floorDiv a b = a.fdiv b := by
  have divides : a.tmod b = 0 ↔ b ∣ a := Int.dvd_iff_tmod_eq_zero.symm
  rw [Int.fdiv_eq_tdiv]
  simp only [floorDiv, ne_eq, divides]
  -- Truncation and flooring agree where the division is exact or the signs agree.
  by_cases even : b ∣ a
  · simp [even]
  · rcases lt_or_gt_of_ne nonzero with negB | posB
    · by_cases negA : a < 0
      · simp [even, negA, negB, not_le.mpr negA, not_le.mpr negB, Int.sign_eq_neg_one_of_neg negB]
      · simp [even, negA, negB, not_lt.mp negA, not_le.mpr negB]
    · by_cases negA : a < 0
      · simp [even, negA, not_le.mpr negA, posB.le, not_lt.mpr posB.le,
          Int.sign_eq_one_of_pos posB]
      · simp [even, negA, not_lt.mp negA, posB.le, not_lt.mpr posB.le]

/-- What `floor_div` bounds, for a positive divisor. -/
theorem le_floorDiv {r c : Int} (pos : 0 < c) : x ≤ floorDiv r c ↔ c * x ≤ r := by
  rw [floorDiv_eq r (by omega), Int.fdiv_eq_ediv_of_nonneg r (by omega),
    Int.le_ediv_iff_mul_le pos, mul_comm]

/-- What `floor_div` bounds, for a negative divisor. -/
theorem le_floorDiv_neg {r c : Int} (neg : c < 0) : x ≤ floorDiv r c ↔ r ≤ c * x := by
  have turned : floorDiv r c = floorDiv (-r) (-c) := by
    rw [floorDiv_eq r (by omega), floorDiv_eq (-r) (by omega), Int.neg_fdiv_neg]
  rw [turned, le_floorDiv (by omega), neg_mul, neg_le_neg_iff]

/-- What `ceil_div` bounds, for a positive divisor. -/
theorem ceilDiv_le {r c : Int} (pos : 0 < c) : ceilDiv r c ≤ x ↔ r ≤ c * x := by
  rw [ceilDiv, neg_le, le_floorDiv pos, mul_neg, neg_le_neg_iff]

/-- What `ceil_div` bounds, for a negative divisor. -/
theorem ceilDiv_le_neg {r c : Int} (neg : c < 0) : ceilDiv r c ≤ x ↔ c * x ≤ r := by
  rw [ceilDiv, neg_le, le_floorDiv_neg neg, mul_neg, neg_le_neg_iff]

/-- A nonempty domain without another value is one of one value. -/
theorem Ok.eq_single {y : Int} (ok : Ok d) (nonempty : d ≠ []) (only : ∀ x, Has d x → x = y) :
    d = [(y, y)] := by
  obtain ⟨p, rest, rfl⟩ := List.exists_cons_of_ne_nil nonempty
  have valid := (ok_cons.mp ok).1
  have low := only p.1 (by simp [valid])
  have high := only p.2 (by simp [valid])
  have alone : rest = [] := by
    by_contra more
    obtain ⟨q, rest', rfl⟩ := List.exists_cons_of_ne_nil more
    -- A second interval would hold a second value.
    have above := (ok_cons.mp ok).2.1 q List.mem_cons_self
    have := only q.1 (by simp [(ok_cons.mp (ok_cons.mp ok).2.2).1])
    omega
  rw [alone, ← low, show (p.1, p.1) = p from Prod.ext rfl (low.trans high.symm)]

end Xezim.Dom
