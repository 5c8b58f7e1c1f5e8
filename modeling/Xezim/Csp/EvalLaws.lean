import Xezim.Csp.CountLaws

/-! Enforcing the nodes the evaluator judges: trying values for the one open dependency, and narrowing a
variable by what it is compared with. -/

namespace Xezim

variable {csp : Csp} {a : Nat → Int} {s : Search} {P : (Nat → Int) → Prop}

section Forward

/-- The fixed dependencies of a source with one open dependency are the others. -/
theorem filter_openDep {d : Nat → Dom} {deps : List Nat} {v : Nat} (one : Search.openDep d deps = some v) :
    v ∈ deps ∧ (deps.filter fun u => (domFixed (d u)).isSome) = deps.filter (· ≠ v) := by
  unfold Search.openDep at one
  -- One dependency is open, so leaving out the open ones leaves out that one.
  split at one
  · rename_i u here
    cases one
    have only (w : Nat) : w ∈ deps ∧ (domFixed (d w)).isNone = true ↔ w = v := by
      have member : w ∈ deps.filter (fun u => (domFixed (d u)).isNone) ↔ w ∈ [v] := by rw [here]
      rwa [List.mem_filter, List.mem_singleton] at member
    refine ⟨((only v).mpr rfl).1, List.filter_congr fun w member => ?_⟩
    rw [← Option.not_isNone, Bool.not_eq_eq_eq_not, eq_comm (b := !_)]
    by_cases same : w = v
    · simp [same, ((only v).mpr rfl).2]
    · have fixed : (domFixed (d w)).isNone = false :=
        Bool.eq_false_iff.mpr fun unfixed => same ((only w).mp ⟨member, unfixed⟩)
      simp [same, fixed]
  · cases one

/-- The candidate loop keeps candidates only, and every candidate an assignment that satisfies the source
gives the open dependency. -/
theorem forwardLoop_spec (ok : csp.Ok) {src : Nat} {neg : Bool} {v : Nat}
    (one : Search.openDep s.d (csp.src src).deps = some v) (xs keep : List Int) :
    Quiet csp s (s.forwardLoop csp src neg v xs keep).2 ∧
      (∀ x ∈ (s.forwardLoop csp src neg v xs keep).1, x ∈ keep ∨ x ∈ xs) ∧
      (∀ x ∈ keep, x ∈ (s.forwardLoop csp src neg v xs keep).1) ∧
      ∀ a, csp.Assignment a → Within a s.d → csp.truth src a ≠ neg → a v ∈ xs →
        a v ∈ (s.forwardLoop csp src neg v xs keep).1 := by
  induction xs generalizing s keep with
  | nil =>
    exact ⟨Quiet.refl csp s, fun x member => .inl member, fun x member => member,
      fun a _ _ _ member => absurd member (List.not_mem_nil)⟩
  | cons x xs ih =>
    have quiet : Quiet csp s ((s.write csp v x).evalSrc csp src).2 :=
      (quiet_write csp s v x).trans (quiet_evalSrc csp _ src)
    unfold Search.forwardLoop
    obtain ⟨rest, among, kept, found⟩ := ih (s := ((s.write csp v x).evalSrc csp src).2)
      (by rwa [quiet.d]) (if ((s.write csp v x).evalSrc csp src).1 != neg then keep ++ [x] else keep)
    refine ⟨quiet.trans rest, fun y member => ?_, fun y member => kept y ?_, fun a assign within
      holds member => ?_⟩
    · rcases among y member with here | here
      · split at here
        · rcases List.mem_append.mp here with here | here
          · exact .inl here
          · exact .inr (List.mem_cons.mpr (.inl (List.mem_singleton.mp here)))
        · exact .inl here
      · exact .inr (List.mem_cons_of_mem _ here)
    · split
      · exact List.mem_append_left _ member
      · exact member
    · rcases List.mem_cons.mp member with same | member
      · -- The candidate is the assignment's own value, so the evaluator sees the assignment.
        refine kept _ ?_
        have seen : ((s.write csp v x).evalSrc csp src).1 = csp.truth src a := by
          obtain ⟨inside, others⟩ := filter_openDep one
          have stored := writeFixed_store csp (s := s.write csp v x) within (csp.src src).deps
          rw [show (s.write csp v x).d = s.d from rfl, others] at stored
          rw [← ok.judged_first assign.consistent src inside s.store, same]
          exact congrArg (csp.src src).verdict stored
        rw [seen, if_pos (bne_iff_ne.mpr holds), same]
        exact List.mem_append_right _ (List.mem_singleton_self x)
      · exact found a assign (by rwa [quiet.d]) holds member

/-- Trying the values of the one open dependency loses no assignment that satisfies the source. -/
theorem enforced_evalForward (ok : csp.Ok) (src : Nat) (neg : Bool) (oks : ∀ v, (s.d v).Ok) :
    Enforced csp (Satisfies csp (.eval src neg)) s (s.evalForward csp src neg) := by
  -- The tried values are those of the one open variable, in order.
  unfold Search.evalForward
  split
  · exact Enforced.quiet (Quiet.refl csp s)
  · split
    · exact Enforced.quiet (Quiet.refl csp s)
    · rename_i v one
      dsimp only
      split
      · exact Enforced.quiet (Quiet.refl csp s)
      · split
        · exact Enforced.quiet (Quiet.refl csp s)
        · -- Counting the tried values is quiet.
          have counted : Quiet csp s { s with work := s.work + domSize (s.d v) } :=
            ⟨rfl, rfl, rfl, rfl, rfl, rfl⟩
          obtain ⟨quiet, among, -, found⟩ := forwardLoop_spec
            (s := { s with work := s.work + domSize (s.d v) }) ok one
            ((List.range (domSize (s.d v))).map (domNth (s.d v))) []
          have before := counted.trans quiet
          refine Enforced.after before (enforced_set csp _ v (fun _ => Dom.ok_norm _)
            (fun x here => ?_) fun a holds within => ?_)
          · -- What stays was tried, so it is in the domain.
            obtain ⟨p, inside, bounds⟩ := (Dom.has_norm _ _).mp here
            have member := (among x (has_points.mp ⟨p, inside, bounds⟩)).resolve_left
              List.not_mem_nil
            obtain ⟨k, small, rfl⟩ := List.mem_map.mp member
            rw [before.d]
            exact Dom.has_nth (oks v) (List.mem_range.mp small)
          · -- A value that satisfies the source was tried and kept.
            rw [before.d] at within
            obtain ⟨k, small, value⟩ := Dom.exists_nth (oks v) (within v)
            have kept := found a holds.1 within holds.2
              (List.mem_map.mpr ⟨k, List.mem_range.mpr small, value⟩)
            exact (Dom.has_norm _ _).mpr ⟨(a v, a v), List.mem_map.mpr ⟨a v, kept, rfl⟩, le_refl _,
              le_refl _⟩

end Forward

section Operand

open Search

/-- Shifting a value to the top of a word and back reads it with its sign. -/
theorem signedRead_eq [WordRead] [LawfulWordRead] {c : Value} (known : c.xz = 0) (bits : c.isReal = false)
    (fits : c.val < 2 ^ c.width) (narrow : c.width ≤ 64) : c.signedRead = c.number true := by
  obtain ⟨w, width, pos, top⟩ : ∃ w, max c.width 1 = w ∧ 0 < w ∧ w ≤ 64 :=
    ⟨max c.width 1, rfl, by omega, by omega⟩
  have below : c.val < 2 ^ w := lt_of_lt_of_le fits (Nat.pow_le_pow_right (by decide) (by omega))
  have word : c.val < 2 ^ 64 := lt_of_lt_of_le below (Nat.pow_le_pow_right (by decide) top)
  obtain ⟨k, rfl⟩ : ∃ k, w = k + 1 := ⟨w - 1, by omega⟩
  have whole : (2 : Nat) ^ 64 = 2 ^ (k + 1) * 2 ^ (64 - (k + 1)) := by
    rw [← pow_add]
    congr 1
    omega
  have shift : 0 < 2 ^ (64 - (k + 1)) := Nat.two_pow_pos _
  -- The sign is the top bit of the shifted word.
  have sign : 2 * (c.val * 2 ^ (64 - (k + 1))) < 2 ^ 64 ↔ 2 * c.val < 2 ^ (k + 1) := by
    rw [whole, ← mul_assoc, Nat.mul_lt_mul_right shift]
  have small : c.val * 2 ^ (64 - (k + 1)) < 2 ^ 64 := by
    rw [whole]
    exact (Nat.mul_lt_mul_right shift).mpr below
  have zero : c.width = 0 → c.val = 0 := fun widthless => by
    rw [widthless] at fits
    omega
  unfold Value.signedRead Value.number toI64
  rw [toU64_small known bits word, width]
  simp only [Option.getD_some, BitVec.toInt_eq_toNat_cond, BitVec.toNat_ofNat, Nat.mod_eq_of_lt small,
    true_and, sign]
  generalize 64 - (k + 1) = sh at *
  have back (x : Int) : x * 2 ^ sh / 2 ^ sh = x := Int.mul_ediv_cancel x (by positivity)
  by_cases negative : 2 * c.val < 2 ^ (k + 1)
  · rw [if_pos negative, if_neg]
    · push_cast
      exact back _
    · by_cases widthless : c.width = 0
      · rw [widthless, zero widthless]
        decide
      · rw [show c.width = k + 1 by omega]
        omega
  · have sized : c.width = k + 1 := by
      by_contra other
      rw [zero (by omega)] at negative
      exact negative (Nat.two_pow_pos _)
    rw [if_neg negative, sized, if_pos (by omega)]
    have cast : ((2 ^ 64 : Nat) : Int) = 2 ^ (k + 1) * 2 ^ sh := by exact_mod_cast whole
    rw [cast]
    push_cast
    rw [← sub_mul, back]

/-- A value that is not negative is the same number signed and unsigned. -/
theorem number_plain {c : Value} (signed : Bool) (plain : signed = true → 2 * c.val < 2 ^ c.width) :
    c.number signed = c.val := by
  unfold Value.number
  refine if_neg fun here => ?_
  have := plain here.1
  omega

/-- A variable of its type's range that is not negative is its own bits. -/
theorem bitsAt_self {var : CspVar} {x : Int} (range : x ≤ (wsRange var.width var.signed).2) (pos : 0 < var.width)
    (nonneg : 0 ≤ x) : (bitsAt x var.width : Int) = x := by
  -- A value of the type that is not negative is below two to the width.
  have top : x < 2 ^ var.width := by
    have widths : (2 : Int) ^ min (max var.width 1) 64 ≤ 2 ^ var.width :=
      pow_le_pow_right₀ (by decide) (by omega)
    have lower : (2 : Int) ^ (min (max var.width 1) 64 - 1) ≤ 2 ^ min (max var.width 1) 64 :=
      pow_le_pow_right₀ (by decide) (by omega)
    unfold wsRange at range
    cases signed : var.signed <;> simp only [signed, if_true, Bool.false_eq_true, if_false] at range <;> omega
  rw [bitsAt_of_small nonneg top]
  omega

/-- A relation with a value of one word holds with its low word. -/
theorem lowWord_of_small {op : RelOp} {var : CspVar} {x : Int} {c : Value} (small : c.val < 2 ^ 64)
    (holds : funHolds op var x c = true) (compared : wordCompared var x c = true) :
    op.holds (bitsAt x var.width) (c.val % 2 ^ 64) = true := by
  -- A word is compared only where one of the two is unsigned.
  have mixed : (var.signed && c.isSigned) = false := by
    cases varSigned : var.signed <;> cases valSigned : c.isSigned <;>
      simp [wordCompared, varSigned, valSigned] at compared ⊢
  have low : (c.val : Int) % 2 ^ 64 = c.val := by omega
  unfold funHolds at holds
  rw [mixed] at holds
  rw [low]
  simpa [number_plain (c := c) false] using ((Bool.and_eq_true _ _).mp holds).2

/-- A number `csp_enforce` compares with is the low word of the value, or its signed reading. -/
theorem funOperand_cases [WordRead] [LawfulWordRead] {var : CspVar} {x low k : Int} {c : Value} (known : c.xz = 0)
    (bits : c.isReal = false) (above : low ≤ x) (operand : funOperand var low c = some k) :
    (wordCompared var x c = true ∧ k = c.val % 2 ^ 64 ∧ (var.signed = true → 0 ≤ x)) ∨
      (var.signed = true ∧ c.isSigned = true ∧ c.width ≤ 64 ∧ k = c.signedRead) := by
  have word {j : Int} (here : (WordRead.toU64 c).map (fun n : Nat => (n : Int)) = some j) :
      j = c.val % 2 ^ 64 := by
    rw [LawfulWordRead.toU64_known c known bits] at here
    cases here
    norm_cast
  unfold funOperand at operand
  cases varSigned : var.signed <;> cases valSigned : c.isSigned <;> simp only [varSigned, valSigned] at operand
  · -- Both unsigned.
    exact .inl ⟨by simp [wordCompared, varSigned, valSigned], word operand,
        fun impossible => absurd impossible Bool.false_ne_true⟩
  · -- A signed value no wider than an unsigned variable is read as its bits.
    split at operand
    · rename_i narrow
      exact .inl ⟨by simp [wordCompared, varSigned, valSigned, narrow], word operand,
        fun impossible => absurd impossible Bool.false_ne_true⟩
    · cases operand
  · -- An unsigned value for a signed variable that is not negative.
    split at operand
    · rename_i nonneg
      have plain : 0 ≤ x := nonneg.1.trans above
      exact .inl ⟨by simp [wordCompared, varSigned, valSigned, plain, nonneg.2], word operand, fun _ => plain⟩
    · cases operand
  · split at operand
    · rename_i narrow
      cases operand
      exact .inr ⟨rfl, rfl, narrow, rfl⟩
    · cases operand

/-- A relation between a variable in its range and a value is one between the numbers `csp_enforce`
compares, if it survives the cut to the low word. -/
theorem funOperand_sound [WordRead] [LawfulWordRead] {op : RelOp} {var : CspVar} {x low k : Int} {c : Value}
    (pos : 0 < var.width) (range : (wsRange var.width var.signed).1 ≤ x ∧
      x ≤ (wsRange var.width var.signed).2) (fits : c.val < 2 ^ c.width) (bits : c.isReal = false) (above : low ≤ x)
    (word : wordCompared var x c = true → op.holds (bitsAt x var.width) (c.val % 2 ^ 64) = true)
    (holds : funHolds op var x c = true) (operand : funOperand var low c = some k) :
    op.holds x k = true := by
  unfold funHolds at holds
  simp only [Bool.and_eq_true, decide_eq_true_eq] at holds
  obtain ⟨known, holds⟩ := holds
  -- The operand is the low word or a signed number.
  rcases funOperand_cases known bits above operand with ⟨compared, rfl, plain⟩ | ⟨varSigned, valSigned, narrow, rfl⟩
  · -- Where the low word is compared the variable is not negative, so its bits are its value.
    have nonneg : 0 ≤ x := by
      cases varSigned : var.signed
      · simpa [wsRange, varSigned] using range.1
      · exact plain varSigned
    rw [← bitsAt_self range.2 pos nonneg]
    exact word compared
  · -- Two signed values are compared as numbers.
    rw [varSigned, valSigned, if_pos ⟨rfl, rfl⟩] at holds
    rwa [signedRead_eq known bits fits narrow]

/-- The range of a variable's type is far from the largest numbers. -/
theorem wsRange_big {w : Nat} {signed : Bool} {x : Int}
    (range : (wsRange w signed).1 ≤ x ∧ x ≤ (wsRange w signed).2) : -big ≤ x ∧ x ≤ big := by
  have top : (2 : Int) ^ min (max w 1) 64 ≤ 2 ^ 64 := pow_le_pow_right₀ (by decide) (by omega)
  have lower : (2 : Int) ^ (min (max w 1) 64 - 1) ≤ 2 ^ 64 := pow_le_pow_right₀ (by decide) (by omega)
  have room : (2 : Int) ^ 64 ≤ big := by decide
  unfold wsRange at range
  cases signed <;> simp only [if_true, Bool.false_eq_true, if_false] at range <;> omega

/-- Narrowing by a relation with a number keeps the values that are related to it. -/
theorem funNarrow_spec (op : RelOp) {d : Dom} (ok : d.Ok) (k : Int) :
    (funNarrow op d k).Ok ∧ (∀ x, Dom.Has (funNarrow op d k) x → Dom.Has d x) ∧
      ∀ x, Dom.Has d x → -big ≤ x ∧ x ≤ big → op.holds x k = true → Dom.Has (funNarrow op d k) x := by
  -- An equality meets a point, an inequality leaves one out, and an order clips at it.
  have point := Dom.ok_single (le_refl k)
  cases op with
  | eq | caseEq =>
    refine ⟨ok.meet point, fun x here => ((Dom.has_meet ok point).mp here).1, fun x here _ holds => ?_⟩
    have same : x = k := of_decide_eq_true holds
    exact (Dom.has_meet ok point).mpr ⟨here, (Dom.has_single ..).mpr ⟨same.ge, same.le⟩⟩
  | neq | caseNeq =>
    refine ⟨ok.minus point, fun x here => ((Dom.has_minus ok point).mp here).1,
      fun x here _ holds => ?_⟩
    have other : x ≠ k := of_decide_eq_true holds
    refine (Dom.has_minus ok point).mpr ⟨here, fun same => other ?_⟩
    have := (Dom.has_single ..).mp same
    omega
  | lt | leq | gt | geq =>
    refine ⟨ok.clip _ _, fun x here => ((Dom.has_clip ..).mp here).1, fun x here range holds => ?_⟩
    have order := of_decide_eq_true holds
    exact (Dom.has_clip ..).mpr ⟨here, by omega, by omega⟩

/-- Narrowing by a relation with some number of a set keeps the values related to one of them. -/
theorem funRangeNarrow_spec {op : RelOp} {d set nd : Dom} (ok : d.Ok) (okSet : set.Ok)
    (narrowed : funRangeNarrow op d set = some nd) :
    nd.Ok ∧ (∀ x, Dom.Has nd x → Dom.Has d x) ∧
      ∀ x k, Dom.Has d x → -big ≤ x ∧ x ≤ big → Dom.Has set k → op.holds x k = true →
        Dom.Has nd x := by
  -- Only the ends of the set of values count for an order.
  unfold funRangeNarrow at narrowed
  dsimp only at narrowed
  cases op with
  | eq | caseEq =>
    cases narrowed
    refine ⟨ok.meet okSet, fun x here => ((Dom.has_meet ok okSet).mp here).1,
      fun x k here _ member holds => ?_⟩
    have same : x = k := of_decide_eq_true holds
    exact (Dom.has_meet ok okSet).mpr ⟨here, same ▸ member⟩
  | neq | caseNeq => cases narrowed
  | lt | leq | gt | geq =>
    rw [Option.some.injEq] at narrowed
    subst narrowed
    refine ⟨ok.clip _ _, fun x here => ((Dom.has_clip ..).mp here).1,
      fun x k here range member holds => ?_⟩
    have order := of_decide_eq_true holds
    have ends := okSet.bounds member
    exact (Dom.has_clip ..).mpr ⟨here, by omega, by omega⟩

end Operand

section Fun

open Search

/-- Every choice of a value for each list is a combination. -/
theorem mem_combinations {values : Nat → List Int} {a : Nat → Int} (deps : List Nat)
    (inside : ∀ v ∈ deps, a v ∈ values v) : deps.map a ∈ combinations (deps.map values) := by
  induction deps with
  | nil => exact List.mem_singleton_self []
  | cons v deps ih =>
    refine List.mem_flatMap.mpr ⟨deps.map a, ih fun u member => inside u (List.mem_cons_of_mem _ member),
      List.mem_map.mpr ⟨a v, inside v List.mem_cons_self, rfl⟩⟩

/-- Writing a combination is quiet, and an assignment's own one writes the assignment. -/
theorem writeCombo (csp : Csp) (deps : List Nat) (combo : List Int) (s : Search) :
    Quiet csp s ((deps.zip combo).foldl (fun s p => s.write csp p.1 p.2) s) ∧
      ∀ a, combo = deps.map a →
        ((deps.zip combo).foldl (fun s p => s.write csp p.1 p.2) s).store =
          csp.written deps a s.store := by
  -- The values are written in the order of the variables.
  induction deps generalizing combo s with
  | nil => exact ⟨Quiet.refl csp s, fun a _ => rfl⟩
  | cons v deps ih =>
    cases combo with
    | nil => exact ⟨Quiet.refl csp s, fun a impossible => by cases impossible⟩
    | cons x combo =>
      obtain ⟨quiet, stored⟩ := ih combo (s.write csp v x)
      refine ⟨(quiet_write csp s v x).trans quiet, fun a same => ?_⟩
      obtain ⟨rfl, rest⟩ := List.cons.inj same
      exact stored a rest

/-- How `csp_fun_range` reads a value it can compare a variable with. -/
def RangeValue [WordRead] (var : CspVar) (c : Value) (k : Int) : Prop :=
  c.xz = 0 ∧ c.width ≤ 64 ∧ (var.signed = c.isSigned ∨ var.signed = false ∧ c.width ≤ var.width) ∧
    k = if c.isSigned then c.signedRead else ((WordRead.toU64 c).getD 0 : Nat)

/-- The combination loop collects the value every assignment of the combinations gives. -/
theorem funRangeLoop_spec [WordRead] (ok : csp.Ok) (var : CspVar) (other : Nat) (combos : List (List Int))
    (vals : List Int) :
    Quiet csp s (funRangeLoop csp var other combos vals s).2 ∧
      ∀ out, (funRangeLoop csp var other combos vals s).1 = some out →
        (∀ x ∈ vals, x ∈ out) ∧ ∀ a, (csp.src other).deps.map a ∈ combos →
          ∃ k ∈ out, RangeValue var (csp.valueAt other a) k := by
  -- Each combination adds the value it gives, or ends the loop.
  induction combos generalizing s vals with
  | nil =>
    refine ⟨Quiet.refl csp s, fun out told => ?_⟩
    cases told
    exact ⟨fun x member => member, fun a impossible => absurd impossible List.not_mem_nil⟩
  | cons combo combos ih =>
    obtain ⟨quiet, stored⟩ := writeCombo csp (csp.src other).deps combo s
    unfold funRangeLoop
    dsimp only
    split
    · exact ⟨quiet, fun out impossible => nomatch impossible⟩
    · rename_i comparable
      obtain ⟨rest, found⟩ := ih (s := ((csp.src other).deps.zip combo).foldl
        (fun s p => s.write csp p.1 p.2) s) (vals ++ [_])
      refine ⟨quiet.trans rest, fun out told => ?_⟩
      obtain ⟨kept, reached⟩ := found out told
      refine ⟨fun x member => kept x (List.mem_append_left _ member), fun a member => ?_⟩
      rcases List.mem_cons.mp member with here | member
      · -- The assignment at hand is read from the object as it was just written.
        refine ⟨_, kept _ (List.mem_append_right _ (List.mem_singleton_self _)), ?_⟩
        rw [stored a here.symm, (ok.judged other a s.store).2] at comparable ⊢
        obtain ⟨known, comparable⟩ := not_or.mp comparable
        obtain ⟨narrow, signs⟩ := not_or.mp comparable
        refine ⟨not_not.mp known, not_lt.mp narrow, ?_, rfl⟩
        by_contra mixed
        obtain ⟨differ, wider⟩ := not_or.mp mixed
        exact signs ⟨differ, wider⟩
      · exact reached a member

/-- Where the other side is not negative, `csp_fun_range` compares with the number the relation compares with. -/
theorem rangeValue_sound [WordRead] [LawfulWordRead] {op : RelOp} {var : CspVar} {x k : Int} {c : Value}
    (pos : 0 < var.width)
    (range : (wsRange var.width var.signed).1 ≤ x ∧ x ≤ (wsRange var.width var.signed).2)
    (fits : c.val < 2 ^ c.width) (bits : c.isReal = false)
    (safe : var.signed = false → c.isSigned = true → c.width ≤ var.width → 2 * c.val < 2 ^ c.width)
    (holds : funHolds op var x c = true) (read : RangeValue var c k) : op.holds x k = true := by
  obtain ⟨known, narrow, signs, rfl⟩ := read
  have word : c.val < 2 ^ 64 := lt_of_lt_of_le fits (Nat.pow_le_pow_right (by decide) narrow)
  unfold funHolds at holds
  simp only [Bool.and_eq_true, decide_eq_true_eq] at holds
  cases varSigned : var.signed
  · -- The relation is unsigned, and a signed side is read as the number its bits are.
    have nonneg : 0 ≤ x := by simpa [wsRange, varSigned] using range.1
    have number : (if c.isSigned then c.signedRead else ((WordRead.toU64 c).getD 0 : Nat) : Int) = c.val := by
      cases valSigned : c.isSigned
      · rw [if_neg Bool.false_ne_true, toU64_small known bits word, Option.getD_some]
      · rw [varSigned, valSigned] at signs
        rw [if_pos rfl, signedRead_eq known bits fits narrow]
        exact number_plain true fun _ => safe varSigned valSigned (by simpa using signs)
    rw [number]
    simpa [varSigned, bitsAt_self range.2 pos nonneg, number_plain (c := c) false] using holds.2
  · have valSigned : c.isSigned = true := by simpa [varSigned] using signs
    rw [valSigned, if_pos rfl, signedRead_eq known bits fits narrow]
    simpa [varSigned, valSigned] using holds.2

/-- The assignments a node is enforced for, read safely. -/
def SafelySatisfies (csp : Csp) (n : Node) (a : Nat → Int) : Prop := ReadSafe csp a n ∧ Satisfies csp n a

variable {var other whole : Nat} {op : RelOp} {neg : Bool}

/-- `csp_fun_range` loses no assignment that satisfies the relation and is read safely. -/
theorem enforced_funRange [WordRead] [LawfulWordRead] (ok : csp.Ok) (describes : Exact csp (.fn var op other whole neg))
    (subs : csp.hasSubs = true) (oks : ∀ v, (s.d v).Ok) :
    Enforced csp (SafelySatisfies csp (.fn var op other whole neg)) s
      (s.funRange csp var op other) := by
  obtain ⟨agree, pos, inRange⟩ := describes
  -- Nothing is narrowed where the range is not tried or a value cannot be compared.
  unfold Search.funRange
  dsimp only
  split
  · exact Enforced.quiet (Quiet.refl csp s)
  · rename_i tried
    obtain ⟨nonempty, tried⟩ := not_or.mp tried
    obtain ⟨few, apart⟩ := not_or.mp tried
    split
    · exact Enforced.quiet (Quiet.refl csp s)
    · obtain ⟨quiet, found⟩ := funRangeLoop_spec
        (s := { s with work := s.work + ((csp.src other).deps.map fun v => domSize (s.d v)).prod }) ok
        (csp.var var) other (combinations ((csp.src other).deps.map fun v => domValues (s.d v))) []
      -- Counting the combinations is quiet, and so is running them.
      have before : Quiet csp s _ :=
        (⟨rfl, rfl, rfl, rfl, rfl, rfl⟩ : Quiet csp s { s with
          work := s.work + ((csp.src other).deps.map fun v => domSize (s.d v)).prod }).trans quiet
      split
      · rename_i t untried
        rw [untried] at before
        exact Enforced.quiet before
      · rename_i vals t listed
        rw [listed] at before found
        have okSet := Dom.ok_norm (vals.map fun k => (k, k))
        split
        · exact Enforced.quiet before
        · rename_i nd narrowed
          obtain ⟨okNarrow, smaller, keeps⟩ := funRangeNarrow_spec (before.d ▸ oks var) okSet narrowed
          refine Enforced.after before (enforced_set csp t var (fun _ => okNarrow) smaller
            fun a holds within => ?_)
          -- The assignment's own values are one of the combinations.
          obtain ⟨k, member, read⟩ := (found vals rfl).2 a (mem_combinations _ fun v _ =>
            Dom.mem_values.mpr (before.d ▸ within v))
          obtain ⟨safe, assign, holds⟩ := holds
          obtain ⟨same, fits, bits⟩ := agree a assign
          have ordered : op ≠ .neq ∧ op ≠ .caseNeq := by
            constructor <;> (rintro rfl; cases narrowed)
          -- The value it gives is in the set, and the variable's value is related to it.
          refine keeps (a var) k (within var) (wsRange_big (inRange a assign)) ?_
            (rangeValue_sound pos (inRange a assign) fits.1 bits (fun unsigned signed narrower =>
              (safe holds).2 subs unsigned ordered.1 ordered.2 nonempty (not_lt.mp few) apart signed
                narrower) (same.mp holds) read)
          exact (Dom.has_norm _ _).mpr ⟨(k, k), List.mem_map.mpr ⟨k, member, rfl⟩, le_refl _, le_refl _⟩

/-- Enforcing a `Fun` relation loses no assignment that satisfies it and is read safely. -/
theorem enforced_fun [WordRead] [LawfulWordRead] (ok : csp.Ok) (describes : Exact csp (.fn var op other whole neg))
    (oks : ∀ v, (s.d v).Ok) :
    Enforced csp (SafelySatisfies csp (.fn var op other whole neg)) s
      (s.enforceFun csp var op other whole neg) := by
  -- An other side that is not fixed is ranged over only in a problem that asks for it.
  unfold Search.enforceFun
  split
  · split
    · exact Enforced.quiet (Quiet.refl csp s)
    · rename_i ranged
      have subs : csp.hasSubs = true := by
        have := (not_or.mp ranged).2
        simpa using this
      exact enforced_funRange ok describes subs oks
  · rename_i fixed
    have fixed : srcFixed csp s.d other = true := by simpa using fixed
    -- With the variable fixed as well the whole relation is judged.
    split
    · exact enforced_judge ok fun a holds => holds.2.2
    · obtain ⟨agree, pos, inRange⟩ := describes
      dsimp only
      have quiet : Quiet csp s (s.evalValue csp other).2 := quiet_writeFixed csp _ s
      have value (a) (within : Within a s.d) := evalValue_at ok within fixed
      split
      · -- An unknown other side satisfies no relation.
        rename_i unknown
        refine Enforced.refuted quiet fun a holds within => ?_
        have relation := (agree a holds.2.1).1.mp holds.2.2
        rw [value a within] at unknown
        unfold funHolds at relation
        simp only [Bool.and_eq_true, decide_eq_true_eq] at relation
        exact unknown relation.1
      · split
        · exact Enforced.quiet quiet
        · -- The operand is read from the other side's value, and the relation excludes what it excludes.
          rename_i k operand
          obtain ⟨okNarrow, smaller, keeps⟩ := funNarrow_spec op (quiet.d ▸ oks var) k
          refine Enforced.after quiet (enforced_set csp _ var (fun _ => okNarrow) smaller
            fun a holds within => ?_)
          have before : Within a s.d := by rwa [← quiet.d]
          obtain ⟨safe, assign, holds⟩ := holds
          obtain ⟨same, fits, bits⟩ := agree a assign
          rw [value a before] at operand
          exact keeps (a var) (within var) (wsRange_big (inRange a assign))
            (funOperand_sound pos (inRange a assign) fits.1 bits
              ((quiet.d ▸ oks var).bounds (within var)).1 (safe holds).1 (same.mp holds) operand)

/-- A `Fun` relation over fixed variables succeeds only where it holds. -/
theorem settled_fun [WordRead] (ok : csp.Ok) (within : Within a s.d)
    (fixed : ∀ v ∈ (Node.fn var op other whole neg).deps csp, s.d v = [(a v, a v)])
    (done : (s.enforceFun csp var op other whole neg).1 = true) : csp.truth whole a ≠ neg := by
  have onOther : ∀ v ∈ (csp.src other).deps, s.d v = [(a v, a v)] := fun v member =>
    fixed v (by simp [Node.deps, member])
  have onWhole : ∀ v ∈ (csp.src whole).deps, s.d v = [(a v, a v)] := fun v member =>
    fixed v (by simp [Node.deps, member])
  unfold Search.enforceFun at done
  rw [srcFixed_of ok onOther, srcFixed_of ok onWhole, if_neg (by decide), if_pos rfl] at done
  exact settled_judge ok within onWhole done

end Fun

end Xezim
