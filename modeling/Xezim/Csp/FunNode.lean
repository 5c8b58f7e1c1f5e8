import Xezim.Csp.Context
import Xezim.Csp.EvalLaws
import Xezim.Reference

/-! Function nodes: exactly which values of the variable enforcing one keeps, and where none that satisfies
the relation is lost. -/

namespace Xezim

open Search Splice

/-- A number `x` of a variable is in the relation with a value beside it. Values of one signedness are compared as
the numbers they are, mixed ones as unsigned numbers where neither the variable is negative nor its bits reach beyond
the value's, or the value's beyond an unsigned variable's; of an unsigned number only the low word counts. -/
def ValueRelates (op : RelOp) (var : CspVar) (low x : Int) (c : Value) : Prop :=
  (var.signed = true → c.isSigned = true → c.width ≤ 64 → op.holds x (c.number true) = true) ∧
    (var.signed = true → c.isSigned = false → 0 ≤ low → var.width ≤ c.width →
      op.holds x (c.val % 2 ^ 64) = true) ∧
    (var.signed = false → (c.isSigned = true → c.width ≤ var.width) → op.holds x (c.val % 2 ^ 64) = true)

/-- A known value of one word, of the signedness of the variable or no wider than an unsigned one. -/
def RangeComparable (var : CspVar) (c : Value) : Prop :=
  c.xz = 0 ∧ c.width ≤ 64 ∧ (var.signed = c.isSigned ∨ var.signed = false ∧ c.width ≤ var.width)

instance (var : CspVar) (c : Value) : Decidable (RangeComparable var c) :=
  inferInstanceAs (Decidable (_ ∧ _ ∧ (_ ∨ _)))

/-- The number such a value is, with its own sign. -/
def rangeNumber (var : CspVar) (c : Value) : Option Int :=
  if RangeComparable var c then some (c.number c.isSigned) else none

theorem rangeNumber_isSome {var : CspVar} {c : Value} : (rangeNumber var c).isSome ↔ RangeComparable var c := by
  unfold rangeNumber
  split <;> simp_all

/-- Values of the listed variables from their domains. -/
def InDomains (d : Nat → Dom) (deps : List Nat) (a : Nat → Int) : Prop := ∀ v ∈ deps, Dom.Has (d v) (a v)

/-- A value of the variable is kept: enforcing succeeds and leaves it in the domain. -/
def KeepsValue (var : Nat) (r : Bool × Search) (x : Int) : Prop := r.1 = true ∧ Dom.Has (r.2.d var) x

/-- `csp_fun_range` gets to narrowing. -/
def RangeTried (csp : Csp) (s : Search) (var : Nat) (op : RelOp) (other : Nat) : Prop :=
  ((csp.src other).stale = false ∧ csp.hasSubs = true) ∧ (csp.src other).deps ≠ [] ∧
    (csp.src other).deps.length ≤ 4 ∧ var ∉ (csp.src other).deps ∧
    ((csp.src other).deps.map fun v => domSize (s.d v)).prod ≤ 256 ∧ op ≠ .neq ∧ op ≠ .caseNeq

/-- The self-determined value of the expression, not its value in the context of the relation, is known and in
the relation with `x` once its variables are fixed; before that, one of those it takes under values of the domains
is, when they all can be compared. -/
def OwnAdmits (csp : Csp) (s : Search) (var : Nat) (op : RelOp) (other : Nat) (e : SvExpr) (x : Int) : Prop :=
  if srcFixed csp s.d other then
    ∀ a, InDomains s.d (csp.src other).deps a → (e.self a).xz = 0 ∧
      ValueRelates op (csp.var var) (domBounds (s.d var)).1 x (e.self a)
  else
    RangeTried csp s var op other →
      (∀ a, InDomains s.d (csp.src other).deps a → RangeComparable (csp.var var) (e.self a)) →
      ∃ a, InDomains s.d (csp.src other).deps a ∧ op.holds x ((e.self a).number e.ws.2) = true

/-- The evaluator gives an expression its self-determined value, whatever else the object holds. -/
def Evaluates (csp : Csp) (other : Nat) (e : SvExpr) : Prop :=
  ∀ a o, (csp.src other).value (csp.written (csp.src other).deps a o) = e.self a

section Reading

variable [WordRead] [LawfulWordRead] {var : CspVar} {c : Value} {x low : Int}

/-- What `csp_enforce` compares a variable with is in the relation exactly when the value is. -/
theorem valueRelates_iff (op : RelOp) (known : c.xz = 0) (bits : c.isReal = false) (fits : c.val < 2 ^ c.width) :
    ValueRelates op var low x c ↔ ∀ k, funOperand var low c = some k → op.holds x k = true := by
  -- The low word is what the function answers for a known value.
  have word : (WordRead.toU64 c).map (fun n : Nat => (n : Int)) = some ((c.val : Int) % 2 ^ 64) := by
    rw [LawfulWordRead.toU64_known c known bits]
    simp
  unfold ValueRelates funOperand
  -- The two signednesses make the four readings of the source.
  cases varSigned : var.signed <;> cases valSigned : c.isSigned
  · simp [word]
  · by_cases narrow : c.width ≤ var.width <;> simp [word, narrow]
  · by_cases plain : 0 ≤ low ∧ var.width ≤ c.width
    · simp [word, plain]
    · simp only [if_neg plain]
      simpa using fun nonneg wide => absurd ⟨nonneg, wide⟩ plain
  · by_cases narrow : c.width ≤ 64
    · simp [narrow, signedRead_eq known bits fits narrow]
    · simp [narrow]

/-- What `csp_fun_range` reads of a value it can compare is its number. -/
theorem rangeNumber_eq (comparable : RangeComparable var c) (bits : c.isReal = false)
    (fits : c.val < 2 ^ c.width) : (if c.isSigned then c.signedRead else ((WordRead.toU64 c).getD 0 : Nat) : Int) =
      c.number c.isSigned := by
  -- One signed word reads as its number, and an unsigned one as its low word, which is all of it.
  obtain ⟨known, narrow, -⟩ := comparable
  cases signed : c.isSigned with
  | true => rw [if_pos rfl, signedRead_eq known bits fits narrow]
  | false =>
    have word : c.val < 2 ^ 64 := fits.trans_le (Nat.pow_le_pow_right (by decide) narrow)
    rw [if_neg Bool.false_ne_true, toU64_small known bits word, Option.getD_some, number_plain false (by simp)]

end Reading

section Narrowing

variable {csp : Csp} {s : Search} {var other whole : Nat} {op : RelOp} {neg : Bool} {e : SvExpr}
  {x : Int}

/-- Replacing a domain by a smaller one keeps what the smaller one has. -/
theorem kept_set {nd : Dom} (ok : nd.Ok) (smaller : ∀ y, nd.Has y → Dom.Has (s.d var) y) :
    KeepsValue var (s.set var nd) x ↔ nd.Has x := by
  unfold KeepsValue Search.set
  split
  · -- A domain that is not changed keeps what it had.
    rename_i same
    simp [same]
  · constructor
    · rintro ⟨-, here⟩
      simpa using here
    · intro here
      refine ⟨?_, by simpa using here⟩
      -- A domain that still has a value is not empty, so the narrowing succeeds.
      obtain ⟨p, member, -⟩ := here
      cases nd with
      | nil => cases member
      | cons _ _ => rfl

/-- What narrowing by a relation with a number keeps. -/
theorem has_funNarrow {d : Dom} (ok : d.Ok) {k : Int} (near : -big ≤ x ∧ x ≤ big) :
    Dom.Has (funNarrow op d k) x ↔ Dom.Has d x ∧ op.holds x k = true := by
  -- An equality meets a point, an inequality leaves one out, and an order clips at it.
  have point := Dom.ok_single (le_refl k)
  cases op with
  | eq | caseEq =>
    rw [funNarrow, Dom.has_meet ok point, Dom.has_single]
    simp only [RelOp.holds, decide_eq_true_eq]
    refine and_congr_right fun _ => ?_
    omega
  | neq | caseNeq =>
    rw [funNarrow, Dom.has_minus ok point, Dom.has_single]
    simp only [RelOp.holds, decide_eq_true_eq]
    refine and_congr_right fun _ => ?_
    omega
  | lt | leq | gt | geq =>
    rw [funNarrow, Dom.has_clip]
    simp only [RelOp.holds, decide_eq_true_eq]
    refine and_congr_right fun _ => ?_
    omega

/-- What narrowing by a relation with some number of a set keeps. -/
theorem has_funRangeNarrow {d set nd : Dom} (ok : d.Ok) (okSet : set.Ok) (nonempty : set ≠ [])
    (near : -big ≤ x ∧ x ≤ big) (narrowed : funRangeNarrow op d set = some nd) :
    nd.Has x ↔ d.Has x ∧ ∃ k, set.Has k ∧ op.holds x k = true := by
  -- Only the ends of the set of values count for an order.
  obtain ⟨low, high⟩ := okSet.bounds_mem nonempty
  have between (k : Int) (here : set.Has k) := okSet.bounds here
  unfold funRangeNarrow at narrowed
  dsimp only at narrowed
  cases op with
  | eq | caseEq =>
    cases narrowed
    rw [Dom.has_meet ok okSet]
    simp [RelOp.holds]
  | neq | caseNeq => cases narrowed
  | lt | leq =>
    cases narrowed
    rw [Dom.has_clip]
    -- The largest value is the easiest one to be below.
    refine and_congr_right fun _ => ⟨fun here => ⟨_, high, ?_⟩, ?_⟩
    · simp only [RelOp.holds, decide_eq_true_eq]
      omega
    · rintro ⟨k, member, here⟩
      have := between k member
      simp only [RelOp.holds, decide_eq_true_eq] at here
      omega
  | gt | geq =>
    cases narrowed
    rw [Dom.has_clip]
    -- The smallest value is the easiest one to be above.
    refine and_congr_right fun _ => ⟨fun here => ⟨_, low, ?_⟩, ?_⟩
    · simp only [RelOp.holds, decide_eq_true_eq]
      omega
    · rintro ⟨k, member, here⟩
      have := between k member
      simp only [RelOp.holds, decide_eq_true_eq] at here
      omega

end Narrowing

section Combinations

variable {csp : Csp} {s : Search} {var other whole : Nat} {op : RelOp} {neg : Bool} {e : SvExpr} {x : Int}

/-- The values a combination gives the listed variables. -/
def assigned (deps : List Nat) (combo : List Int) (v : Nat) : Int := combo.getD (deps.idxOf v) 0

/-- A combination of as many values as there are variables is what it gives them. -/
theorem map_assigned {deps : List Nat} (nodup : deps.Nodup) {combo : List Int}
    (length : combo.length = deps.length) : deps.map (assigned deps combo) = combo := by
  refine List.ext_getElem (by simp [length]) fun i inside within => ?_
  have below : i < deps.length := by simpa using inside
  simp [assigned, nodup.idxOf_getElem i below, List.getElem?_eq_getElem within]

/-- The combinations are the choices of a value for each variable. -/
theorem mem_combinations_iff {values : Nat → List Int} {deps : List Nat} (nodup : deps.Nodup)
    {combo : List Int} : combo ∈ combinations (deps.map values) ↔
      ∃ a : Nat → Int, combo = deps.map a ∧ ∀ v ∈ deps, a v ∈ values v := by
  constructor
  · intro member
    -- A combination lists one value for each variable, in the order of the variables.
    have spec : ∀ (deps : List Nat) (combo : List Int), combo ∈ combinations (deps.map values) →
        List.Forall₂ (fun x v => x ∈ values v) combo deps := by
      intro deps
      induction deps with
      | nil =>
        intro combo member
        rw [List.mem_singleton.mp member]
        exact .nil
      | cons v deps ih =>
        intro combo member
        obtain ⟨tail, inside, here⟩ := List.mem_flatMap.mp member
        obtain ⟨y, value, rfl⟩ := List.mem_map.mp here
        exact .cons value (ih tail inside)
    have each := spec deps combo member
    -- The variables are distinct, so a combination is an assignment.
    refine ⟨assigned deps combo, (map_assigned nodup each.length_eq).symm, fun v inside => ?_⟩
    obtain ⟨i, below, rfl⟩ := List.getElem_of_mem inside
    have short : i < combo.length := each.length_eq ▸ below
    have here := each.get short below
    simpa [assigned, nodup.idxOf_getElem i below, short] using here
  · rintro ⟨a, rfl, inside⟩
    exact mem_combinations deps inside

/-- The combination loop: it stops at a combination whose value cannot be compared, and else collects the
numbers of all of them. -/
theorem funRangeLoop_values [WordRead] [LawfulWordRead] (evaluates : Evaluates csp other e) (var : CspVar)
    (as : List (Nat → Int))
    (vals : List Int) (s : Search) :
    (funRangeLoop csp var other (as.map fun a => (csp.src other).deps.map a) vals s).2.d = s.d ∧
      (funRangeLoop csp var other (as.map fun a => (csp.src other).deps.map a) vals s).1 =
        (as.mapM fun a => rangeNumber var (e.self a)).map (vals ++ ·) := by
  induction as generalizing vals s with
  | nil => simp [funRangeLoop]
  | cons a as ih =>
    -- Writing a combination leaves the values of its assignment in the object.
    obtain ⟨quiet, stored⟩ := writeCombo csp (csp.src other).deps ((csp.src other).deps.map a) s
    have value := evaluates a s.store
    rw [← stored a rfl] at value
    rw [List.map_cons]
    unfold funRangeLoop
    dsimp only
    rw [value, List.mapM_cons]
    split
    · rename_i incomparable
      refine ⟨quiet.d, ?_⟩
      -- One value that cannot be compared ends the loop without an answer.
      have refused : ¬ RangeComparable var (e.self a) := by
        rintro ⟨known, narrow, signs⟩
        rcases incomparable with unknown | wide | ⟨mixed, wider⟩
        · exact unknown known
        · omega
        · exact signs.elim mixed wider
      rw [show rangeNumber var (e.self a) = none from if_neg refused]
      rfl
    · rename_i readable
      -- Otherwise the value is a number and the loop goes on.
      have comparable : RangeComparable var (e.self a) := by
        obtain ⟨known, readable⟩ := not_or.mp readable
        obtain ⟨narrow, signs⟩ := not_or.mp readable
        exact ⟨not_not.mp known, not_lt.mp narrow, by tauto⟩
      rw [show rangeNumber var (e.self a) = some _ from if_pos comparable,
        rangeNumber_eq comparable rfl (e.fits a _ _).1]
      obtain ⟨same, rest⟩ := ih _ _
      refine ⟨same.trans quiet.d, rest.trans ?_⟩
      cases as.mapM fun a => rangeNumber var (e.self a) <;> simp

/-- A list is mapped as a whole exactly when each of its members is. -/
theorem mapM_isSome {α β : Type} {f : α → Option β} {l : List α} :
    (l.mapM f).isSome ↔ ∀ a ∈ l, (f a).isSome := by
  induction l with
  | nil => simp
  | cons a l ih =>
    rw [List.mapM_cons, List.forall_mem_cons, ← ih]
    cases f a <;> cases l.mapM f <;> simp

/-- What a list that is mapped as a whole is mapped to. -/
theorem mem_mapM {α β : Type} {f : α → Option β} {l : List α} {l' : List β} (made : l.mapM f = some l')
    (y : β) : y ∈ l' ↔ ∃ a ∈ l, f a = some y := by
  induction l generalizing l' with
  -- The answers are collected in order, and all of them have to be there.
  | nil =>
    obtain rfl : [] = l' := by simpa using made
    simp
  | cons a l ih =>
    rw [List.mapM_cons] at made
    obtain ⟨z, first, made⟩ := Option.bind_eq_some_iff.mp made
    obtain ⟨rest, others, made⟩ := Option.bind_eq_some_iff.mp made
    obtain rfl := Option.some.inj made
    rw [List.mem_cons, ih others]
    simp [first, eq_comm]

end Combinations

section Enforced

variable {csp : Csp} {s : Search} {var other whole : Nat} {op : RelOp} {neg : Bool} {e : SvExpr} {x : Int}

/-- The value of an expression depends on the variables it reads. -/
theorem Evaluates.congr (evaluates : Evaluates csp other e) {a b : Nat → Int}
    (same : ∀ v ∈ (csp.src other).deps, a v = b v) : e.self a = e.self b := by
  rw [← evaluates a (fun _ => (0, 0)), ← evaluates b (fun _ => (0, 0))]
  -- The object written depends on the listed variables only.
  have written (deps : List Nat) (o : Store) (same : ∀ v ∈ deps, a v = b v) :
      csp.written deps a o = csp.written deps b o := by
    induction deps generalizing o with
    | nil => rfl
    | cons v deps ih =>
      unfold Csp.written
      rw [List.foldl_cons, List.foldl_cons, same v List.mem_cons_self]
      exact ih _ fun u member => same u (List.mem_cons_of_mem _ member)
  rw [written _ _ same]

/-- Domains that are not empty have an assignment. -/
theorem exists_within {d : Nat → Dom} (oks : ∀ v, (d v).Ok) (alive : ∀ v, d v ≠ []) : ∃ a, Within a d :=
  ⟨fun v => (domBounds (d v)).1, fun v => ((oks v).bounds_mem (alive v)).1⟩

/-- Once the expression is fixed, enforcing keeps what its own value admits. -/
theorem kept_fixed [WordRead] [LawfulWordRead] (evaluates : Evaluates csp other e) (oks : ∀ v, (s.d v).Ok)
    (alive : ∀ v, s.d v ≠ [])
    (near : ∀ y, Dom.Has (s.d var) y → -big ≤ y ∧ y ≤ big) (fixed : srcFixed csp s.d other = true)
    (unknown : srcFixed csp s.d whole = false) :
    KeepsValue var (s.enforceFun csp var op other whole neg) x ↔
      Dom.Has (s.d var) x ∧ OwnAdmits csp s var op other e x := by
  obtain ⟨a, within⟩ := exists_within oks alive
  have allFixed : allFixed s.d (csp.src other).deps = true := ((Bool.and_eq_true _ _).mp fixed).2
  have quiet : Quiet csp s (s.evalValue csp other).2 := quiet_writeFixed csp _ s
  have value : (s.evalValue csp other).1 = e.self a := by
    rw [← evaluates a s.store, ← writeFixed_all within allFixed]
    rfl
  -- Any values of the fixed variables are these.
  have only (b : Nat → Int) (inside : InDomains s.d (csp.src other).deps b) : e.self b = e.self a := by
    refine evaluates.congr fun v member => ?_
    obtain ⟨y, here⟩ := Option.isSome_iff_exists.mp (List.all_eq_true.mp allFixed v member)
    rw [Dom.eq_of_fixed here (inside v member), Dom.eq_of_fixed here (within v)]
  have admits : OwnAdmits csp s var op other e x ↔ (e.self a).xz = 0 ∧
      ∀ k, funOperand (csp.var var) (domBounds (s.d var)).1 (e.self a) = some k → op.holds x k = true := by
    have reads (known : (e.self a).xz = 0) :
        ValueRelates op (csp.var var) (domBounds (s.d var)).1 x (e.self a) ↔
          ∀ k, funOperand (csp.var var) (domBounds (s.d var)).1 (e.self a) = some k → op.holds x k = true :=
      valueRelates_iff op known rfl (e.fits a e.ws.1 e.ws.2).1
    rw [← and_congr_right reads]
    unfold OwnAdmits
    rw [if_pos fixed]
    constructor
    · exact fun all => all a fun v _ => within v
    · intro here b inside
      rw [only b inside]
      exact here
  rw [admits]
  unfold Search.enforceFun
  rw [if_neg (by simp [fixed]), if_neg (by simp [unknown])]
  dsimp only
  rw [value, quiet.d]
  by_cases known : (e.self a).xz = 0
  · rw [if_neg (by simpa using known)]
    simp only [known, true_and]
    cases funOperand (csp.var var) (domBounds (s.d var)).1 (e.self a) with
    | none => simp [KeepsValue, quiet.d]
    | some k =>
      obtain ⟨okNarrow, smaller, -⟩ := funNarrow_spec op (oks var) k
      rw [kept_set okNarrow fun y here => quiet.d ▸ smaller y here]
      constructor
      · intro here
        have inside := smaller x here
        refine ⟨inside, fun j same => ?_⟩
        cases same
        exact ((has_funNarrow (oks var) (near x inside)).mp here).2
      · rintro ⟨inside, holds⟩
        exact (has_funNarrow (oks var) (near x inside)).mpr ⟨inside, holds k rfl⟩
  · rw [if_pos known]
    simp [KeepsValue, known]

/-- The choices of a value for each variable, one assignment for each combination. -/
theorem choices (csp : Csp) (s : Search) (other : Nat) (nodup : (csp.src other).deps.Nodup) : ∃ as : List (Nat → Int),
    combinations ((csp.src other).deps.map fun v => domValues (s.d v)) =
      as.map (fun a => (csp.src other).deps.map a) ∧
    (∀ a ∈ as, InDomains s.d (csp.src other).deps a) ∧
    ∀ a, InDomains s.d (csp.src other).deps a → ∃ b ∈ as, ∀ v ∈ (csp.src other).deps, a v = b v := by
  -- Every combination reads back as an assignment in the domains.
  have spec {combo : List Int} (member : combo ∈ combinations ((csp.src other).deps.map fun v =>
      domValues (s.d v))) : (csp.src other).deps.map (assigned (csp.src other).deps combo) = combo ∧
      InDomains s.d (csp.src other).deps (assigned (csp.src other).deps combo) := by
    obtain ⟨a, rfl, inside⟩ := (mem_combinations_iff nodup).mp member
    have back : _ = (csp.src other).deps.map a := map_assigned nodup (by simp)
    refine ⟨back, fun v here => ?_⟩
    rw [List.map_inj_left.mp back v here]
    exact Dom.mem_values.mp (inside v here)
  refine ⟨(combinations ((csp.src other).deps.map fun v => domValues (s.d v))).map
    (assigned (csp.src other).deps), ?_, ?_, ?_⟩
  · rw [List.map_map]
    exact (List.map_id _).symm.trans (List.map_congr_left fun combo member => (spec member).1.symm)
  · intro a member
    obtain ⟨combo, here, rfl⟩ := List.mem_map.mp member
    exact (spec here).2
  · -- Two assignments that agree on the variables give the same combination.
    intro a inside
    have member : (csp.src other).deps.map a ∈
        combinations ((csp.src other).deps.map fun v => domValues (s.d v)) :=
      (mem_combinations_iff nodup).mpr ⟨a, rfl, fun v here => Dom.mem_values.mpr (inside v here)⟩
    exact ⟨_, List.mem_map_of_mem member, fun v here => (List.map_inj_left.mp (spec member).1 v here).symm⟩

/-- Before that, enforcing keeps what one of the values it may take admits. -/
theorem kept_open [WordRead] [LawfulWordRead] (evaluates : Evaluates csp other e) (nodup : (csp.src other).deps.Nodup)
    (oks : ∀ v, (s.d v).Ok) (alive : ∀ v, s.d v ≠ [])
    (near : ∀ y, Dom.Has (s.d var) y → -big ≤ y ∧ y ≤ big) (unknown : srcFixed csp s.d other = false) :
    KeepsValue var (s.enforceFun csp var op other whole neg) x ↔
      Dom.Has (s.d var) x ∧ OwnAdmits csp s var op other e x := by
  have untried (missed : ¬ RangeTried csp s var op other) {t : Search} (same : t.d = s.d) :
      KeepsValue var (true, t) x ↔ Dom.Has (s.d var) x ∧ OwnAdmits csp s var op other e x := by
    unfold OwnAdmits KeepsValue
    rw [if_neg (by simp [unknown])]
    simp [missed, same]
  unfold Search.enforceFun
  rw [if_pos unknown]
  split
  · rename_i skipped
    refine untried (fun tried => ?_) rfl
    rcases skipped with stale | subs
    · exact absurd tried.1.1 (by simp [stale])
    · exact absurd tried.1.2 (by simp [subs])
  · rename_i ranged
    unfold Search.funRange
    dsimp only
    split
    · rename_i skipped
      refine untried (fun tried => ?_) rfl
      obtain ⟨-, nonempty, few, apart, -⟩ := tried
      rcases skipped with constant | many | reads
      · exact nonempty constant
      · omega
      · exact apart reads
    · rename_i listed
      split
      · rename_i many
        refine untried (fun tried => ?_) rfl
        have := tried.2.2.2.2.1
        omega
      · rename_i few
        obtain ⟨as, combos, inside, chosen⟩ := choices csp s other nodup
        obtain ⟨same, values⟩ := funRangeLoop_values evaluates (csp.var var) as []
          { s with work := s.work + ((csp.src other).deps.map fun v => domSize (s.d v)).prod }
        rw [combos]
        generalize funRangeLoop csp (csp.var var) other (as.map fun a => (csp.src other).deps.map a) []
          { s with work := s.work + ((csp.src other).deps.map fun v => domSize (s.d v)).prod } = r at *
        obtain ⟨out, t⟩ := r
        dsimp only at same values ⊢
        have compared : (∀ a, InDomains s.d (csp.src other).deps a → RangeComparable (csp.var var) (e.self a)) ↔
            (as.mapM fun a => rangeNumber (csp.var var) (e.self a)).isSome := by
          simp only [mapM_isSome, rangeNumber_isSome]
          refine ⟨fun all a member => all a (inside a member), fun all a here => ?_⟩
          obtain ⟨b, member, agree⟩ := chosen a here
          rw [evaluates.congr agree]
          exact all b member
        cases collected : as.mapM fun a => rangeNumber (csp.var var) (e.self a) with
        | none =>
          -- Some value cannot be compared, so nothing is learnt.
          rw [collected] at values compared
          obtain rfl : out = none := values
          dsimp only
          unfold KeepsValue OwnAdmits
          rw [if_neg (by simp [unknown])]
          simp only [same, true_and, iff_self_and]
          exact fun _ _ all => absurd (compared.mp all) (by simp)
        | some vals =>
          rw [collected] at values compared
          obtain rfl : out = some vals := by simpa using values
          dsimp only
          have all := compared.mpr rfl
          have among (k : Int) : k ∈ vals ↔ ∃ a, InDomains s.d (csp.src other).deps a ∧
              (e.self a).number e.ws.2 = k := by
            rw [mem_mapM collected]
            constructor
            · rintro ⟨a, member, here⟩
              exact ⟨a, inside a member, Option.some.inj ((if_pos (all a (inside a member))).symm.trans here)⟩
            · rintro ⟨a, within, here⟩
              obtain ⟨b, member, agree⟩ := chosen a within
              rw [evaluates.congr agree] at here
              exact ⟨b, member, (if_pos (all b (inside b member))).trans (congrArg some here)⟩
          have okSet := Dom.ok_norm (vals.map fun k => (k, k))
          have has (k : Int) : Dom.Has (domNorm (vals.map fun k => (k, k))) k ↔ k ∈ vals := by
            rw [Dom.has_norm]
            exact has_points
          have nonempty : domNorm (vals.map fun k => (k, k)) ≠ [] := by
            obtain ⟨a, within⟩ := exists_within oks alive
            intro empty
            have member := (has _).mpr ((among _).mpr ⟨a, fun v _ => within v, rfl⟩)
            rw [empty] at member
            exact Dom.has_nil _ member
          rw [same]
          cases narrowed : funRangeNarrow op (s.d var) (domNorm (vals.map fun k => (k, k))) with
          | none =>
            refine untried (fun tried => ?_) same
            obtain ⟨notNeq, notCase⟩ := tried.2.2.2.2.2
            cases op <;> first | exact notNeq rfl | exact notCase rfl | cases narrowed
          | some nd =>
            obtain ⟨okNarrow, smaller, -⟩ := funRangeNarrow_spec (oks var) okSet narrowed
            rw [kept_set okNarrow fun y here => same ▸ smaller y here]
            have tried : RangeTried csp s var op other := by
              obtain ⟨nonempty, listed⟩ := not_or.mp listed
              obtain ⟨short, apart⟩ := not_or.mp listed
              obtain ⟨fresh, subs⟩ := not_or.mp ranged
              refine ⟨⟨by simpa using fresh, by simpa using subs⟩, nonempty, by omega, apart, by omega, ?_, ?_⟩ <;>
                rintro rfl <;> cases narrowed
            have admits : OwnAdmits csp s var op other e x ↔
                ∃ k, Dom.Has (domNorm (vals.map fun k => (k, k))) k ∧ op.holds x k = true := by
              unfold OwnAdmits
              rw [if_neg (by simp [unknown])]
              simp only [has, among]
              constructor
              · intro admitted
                obtain ⟨a, within, holds⟩ := admitted tried all
                exact ⟨_, ⟨a, within, rfl⟩, holds⟩
              · rintro ⟨k, ⟨a, within, rfl⟩, holds⟩ _ _
                exact ⟨a, within, holds⟩
            rw [admits]
            constructor
            · intro here
              have inside := smaller x here
              exact (has_funRangeNarrow (oks var) okSet nonempty (near x inside) narrowed).mp here
            · rintro ⟨inside, here⟩
              exact (has_funRangeNarrow (oks var) okSet nonempty (near x inside) narrowed).mpr ⟨inside, here⟩

end Enforced

section Lossless

variable {csp : Csp} {s : Search} {var other whole : Nat} {op : RelOp} {neg : Bool} {e : SvExpr}
  {cmp : (Nat → Int) → Option Bool} {plain : (Nat → Int) → Prop} {a : Nat → Int}

/-- A value of the signedness of the variable is in the relation with it when its number is. -/
theorem valueRelates_number {v : CspVar} {c : Value} {x : Int} (sign : c.isSigned = v.signed)
    (word : v.signed = false → c.val < 2 ^ 64) (holds : op.holds x (c.number v.signed) = true) (low : Int) :
    ValueRelates op v low x c := by
  unfold ValueRelates
  rw [sign]
  refine ⟨fun signed _ _ => by rwa [signed] at holds, fun signed unsigned => ?_, fun unsigned _ => ?_⟩
  · -- A signed pair reads the number, and an unsigned one the low word, which is the whole value.
    rw [signed] at unsigned
    cases unsigned
  · rw [unsigned, number_plain false (by simp)] at holds
    have := word unsigned
    rwa [show (c.val : Int) % 2 ^ 64 = c.val by omega]

/-- A side picked as the variable is all its bits. -/
theorem pick_var {x y : FunSide csp} {v : Nat} (picked : x.pick y = some v) : ∃ s, x.expr = .var csp v s := by
  obtain ⟨u, here, picked⟩ := Option.bind_eq_some_iff.mp picked
  obtain ⟨d, -, picked⟩ := Option.bind_eq_some_iff.mp picked
  split at picked
  · cases picked
    obtain ⟨s, same, -⟩ := x.plain_expr v here
    exact ⟨s, same⟩
  · cases picked

/-- What a relation asks for, negated or not. -/
theorem holds_negated_if {op : RelOp} {neg : Bool} {x y : Int} (holds : op.holds x y = !neg) :
    (if neg then op.negated else op).holds x y = true := by
  cases neg with
  | true => rw [if_pos rfl, RelOp.holds_negated, holds]; rfl
  | false => rw [if_neg (by simp), holds]; rfl

/-- The segment expression on its own is the bits of a value that is no narrower. -/
theorem segExpr_self (slo : Nat) {sw : Nat} (pos : 0 < sw) (word : sw ≤ 64) (wide : sw ≤ e.ws.1)
    (unsigned : e.ws.2 = false) (known : (e.self a).xz = 0) :
    ((segExpr e slo sw).self a).xz = 0 ∧ ((segExpr e slo sw).self a).isSigned = false ∧
      ((segExpr e slo sw).self a).val = window (e.self a).val slo sw := by
  have ws : (segExpr e slo sw).ws = (e.ws.1, false) := by
    simp only [segExpr, SvExpr.ws, Bool.and_false, Prod.mk.injEq, and_true]
    omega
  have small : (e.planes a e.ws.1 false).1 < 2 ^ e.ws.1 := (e.fits a e.ws.1 false).1
  have clean : (e.planes a e.ws.1 false).2 = 0 := by
    unfold SvExpr.self SvExpr.inContext at known
    rwa [unsigned] at known
  -- None of the shift, the mask and their conjunction reaches beyond the value's own width.
  have shifted : cutPlanes e.ws.1 ((e.planes a e.ws.1 false).1 >>> slo, (e.planes a e.ws.1 false).2 >>> slo) =
      ((e.planes a e.ws.1 false).1 >>> slo, 0) := by
    rw [clean, Nat.zero_shiftRight, cutPlanes_self (lt_of_le_of_lt (Nat.shiftRight_le _ _) small)
      (Nat.two_pow_pos _)]
  have mask : cutPlanes e.ws.1 (ones sw, 0) = (ones sw, 0) :=
    cutPlanes_self ((Nat.sub_lt (Nat.two_pow_pos sw) Nat.one_pos).trans_le (Nat.pow_le_pow_right (by decide) wide))
      (Nat.two_pow_pos _)
  have cut : cutPlanes e.ws.1 ((e.planes a e.ws.1 false).1 >>> slo &&& ones sw, 0) =
      ((e.planes a e.ws.1 false).1 >>> slo &&& ones sw, 0) :=
    cutPlanes_self (lt_of_le_of_lt Nat.and_le_left (lt_of_le_of_lt (Nat.shiftRight_le _ _) small))
      (Nat.two_pow_pos _)
  unfold SvExpr.self SvExpr.inContext
  rw [ws]
  simp only [segExpr, SvExpr.planes, extendPlane, Bool.false_eq_true, false_and, if_false, min_eq_left word,
    shifted, mask, Nat.zero_and, cut, true_and]
  rw [unsigned]
  rfl

/-- Where the other side is known, as wide as the context and of one signedness with it and the variable, its value
on its own is in the relation whenever the relation holds. -/
theorem made_admits (made : FunMade csp (.fn var op other whole neg) e cmp plain)
    (pos : 0 < (csp.var var).width) (narrow : (csp.var var).width ≤ 64)
    (range : (wsRange (csp.var var).width (csp.var var).signed).1 ≤ a var ∧
      a var ≤ (wsRange (csp.var var).width (csp.var var).signed).2)
    (here : plain a) (holds : cmp a = some (!neg)) :
    (e.self a).xz = 0 ∧ (∀ low, ValueRelates op (csp.var var) low (a var) (e.self a)) ∧
      op.holds (a var) ((e.self a).number e.ws.2) = true := by
  cases made with
  | @rel op' _ left right _ _ _ _ _ made =>
    obtain ⟨wide, sign, context, known, word⟩ := here
    have width : max (csp.var var).width e.ws.1 = e.ws.1 := max_eq_right wide
    have self : e.inContext a e.ws.1 (csp.var var).signed = e.self a := by rw [← sign]; rfl
    have related : op.holds (a var) ((e.self a).number (csp.var var).signed) = true := by
      unfold cspRelFun at made
      dsimp only at made holds
      split at made
      · rename_i v picked
        cases made
        obtain ⟨s, same⟩ := pick_var picked
        obtain ⟨knownX, number⟩ := var_number s pos narrow wide range
        rw [same] at holds context
        rw [svCompare_known (l := .var csp var s) width context knownX (self ▸ known), number, self] at holds
        exact holds_negated_if (Option.some.inj holds)
      · obtain ⟨v, picked, made⟩ := Option.map_eq_some_iff.mp made
        cases made
        obtain ⟨s, same⟩ := pick_var picked
        obtain ⟨knownX, number⟩ := var_number s pos narrow wide range
        rw [same] at holds context
        rw [svCompare_known (r := .var csp var s) ((max_comm _ _).trans width) context (self ▸ known) knownX,
          number, self] at holds
        rw [RelOp.holds_flip]
        exact holds_negated_if (Option.some.inj holds)
    exact ⟨known, valueRelates_number sign (fun unsigned => word (sign.trans unsigned)) related, by rwa [sign]⟩
  | @wide op' v s segs read e₀ reads other' _ nodes _ _ equality bits shape made member =>
    obtain ⟨wide, unsigned, known⟩ := here
    obtain ⟨small, clean, windows⟩ := bits a
    obtain ⟨deps, -, made⟩ := Option.bind_eq_some_iff.mp made
    split at made
    · cases made
    cases made
    obtain ⟨seg, inside, same⟩ := List.mem_map.mp member
    cases same
    obtain ⟨posSeg, word, inner, type⟩ := shape seg inside
    obtain ⟨clear, plainSign, value⟩ := segExpr_self seg.1 posSeg word (inner.trans wide)
      unsigned known
    -- The relation makes the two patterns equal, so their windows are.
    have self : e₀.inContext a e₀.ws.1 false = e₀.self a := by rw [← unsigned]; rfl
    have pattern : (read a).1 = (e₀.self a).val := by
      have leaf : (SvExpr.leaf (csp.var v).width s read).inContext a e₀.ws.1 false =
          ⟨e₀.ws.1, (read a).1, 0, false, false, false⟩ := by
        have bounded : (read a).1 < 2 ^ e₀.ws.1 := small.trans_le (Nat.pow_le_pow_right (by decide) wide)
        simp [SvExpr.inContext, SvExpr.planes, extendPlane, clean, cutPlanes, Nat.mod_eq_of_lt bounded]
      dsimp only at holds
      rw [svCompare_known (l := .leaf (csp.var v).width s read) (W := e₀.ws.1) (S := false) (max_eq_right wide)
        (by rw [unsigned, Bool.and_false]) (by rw [leaf]) (self ▸ known), leaf, self,
        number_plain false (by simp), number_plain false (by simp)] at holds
      rcases equality with rfl | rfl <;> simpa [RelOp.holds] using holds
    have below : ((segExpr e₀ seg.1 seg.2.1).self a).val < 2 ^ 64 := by
      rw [value]
      exact lt_of_testBit fun i far => by simp [not_lt.mpr (word.trans far)]
    have related : RelOp.eq.holds (a seg.2.2)
        (((segExpr e₀ seg.1 seg.2.1).self a).number (csp.var seg.2.2).signed) = true := by
      rw [type] at range ⊢
      rw [number_plain false (by simp), value, ← pattern, windows seg inside]
      have span := wsRange_span posSeg word false
      have zero : (wsRange seg.2.1 false).1 = 0 := rfl
      dsimp only at range
      rw [bitsAt_of_small (by omega) (by omega), Int.toNat_of_nonneg (by omega)]
      simp [RelOp.holds]
    have sign : ((segExpr e₀ seg.1 seg.2.1).self a).isSigned = (csp.var seg.2.2).signed := by rw [plainSign, type]
    refine ⟨clear, valueRelates_number sign (fun _ => below) related, ?_⟩
    rwa [show (segExpr e₀ seg.1 seg.2.1).ws.2 = (csp.var seg.2.2).signed from sign]

section Product

attribute [local instance] referenceWordRead

/-- The product of two known unsigned values in a context. -/
def productPlanes (_ : Nat → Int) (W : Nat) (_ : Bool) (x y : Nat × Nat) : Nat × Nat :=
  (x.1 * y.1 % 2 ^ W, 0)

/-- A problem of 16 bits `x` and `w` bits `y` and `z`, with the sources `y * z` and `x == y * z`. -/
def productCsp (w : Nat) : Csp where
  vars := [⟨false, 16, false⟩, ⟨false, w, false⟩, ⟨false, w, false⟩]
  dom0 := [[(0, 65535)], [(0, 2 ^ w - 1)], [(0, 2 ^ w - 1)]]
  srcs := [⟨[1, 2], false, fun _ => false, fun o =>
      ⟨w, (o 1).1 * (o 2).1 % 2 ^ w, 0, false, false, false⟩⟩,
    ⟨[0, 1, 2], false, fun o => (o 0).1 = (o 1).1 * (o 2).1 % 2 ^ max 16 w, fun _ =>
      ⟨1, 0, 1, false, false, false⟩⟩]
  nodes := []
  dists := []
  hasSubs := false
  auxBase := fun _ => none
  wide := fun _ => false
  segs := fun _ => false
  sizes := []
  wideFree := []
  drawFree := false

/-- `y * z`. -/
def product (w : Nat) : SvExpr := .binary productPlanes (.var (productCsp w) 1 false) (.var (productCsp w) 2 false)

/-- `x` as a side. -/
def productLeft (w : Nat) : FunSide (productCsp w) where
  expr := .var (productCsp w) 0 false
  plain := some 0
  reads := some [0]
  plain_expr := by
    intro v here
    cases here
    exact ⟨false, rfl, fun impossible => absurd impossible Bool.false_ne_true⟩

/-- `y * z` as a side. -/
def productRight (w : Nat) : FunSide (productCsp w) where
  expr := product w
  plain := none
  reads := some [1, 2]
  plain_expr := by
    intro v here
    cases here

/-- A search in which `y` and `z` are fixed and `x` is open. -/
def productSearch (y z : Int) : Search :=
  { fixedSearch (fun _ => 0) with
    d := fun v => if v = 0 then [(0, 65535)] else if v = 1 then [(y, y)] else [(z, z)] }

theorem product_made (w : Nat) : FunMade (productCsp w) (.fn 0 .eq 0 1 false) (product w)
    (fun a => svCompare .eq a (.var (productCsp w) 0 false) (product w))
    (fun a => 16 ≤ max w w ∧ (false && false) = false ∧ (false && (false && false)) = false ∧ (product w).Known a) := by
  have made : cspRelFun .eq (productLeft w) (productRight w) 0 1 false =
      some (.fn 0 .eq 0 1 false, product w) := rfl
  exact .rel made

theorem product_evaluates (w : Nat) : Evaluates (productCsp w) 0 (product w) := by
  intro a o
  simp [productCsp, Csp.src, Csp.written, cspWrite, Csp.var, product, SvExpr.self, SvExpr.inContext,
    SvExpr.planes, SvExpr.ws, SvExpr.var, productPlanes, extendPlane, cutPlanes]

theorem product_judges (w : Nat) (a : Nat → Int) (o : Store) :
    ((productCsp w).src 1).verdict ((productCsp w).written ((productCsp w).src 1).deps a o) =
      decide (svCompare .eq a (.var (productCsp w) 0 false) (product w) = some true) := by
  have fits (W v x : Nat) (wide : x ≤ W) : bitsAt (a v) x % 2 ^ W = bitsAt (a v) x :=
    Nat.mod_eq_of_lt ((bitsAt_lt _ x).trans_le (Nat.pow_le_pow_right (by decide) wide))
  simp [productCsp, Csp.src, Csp.written, cspWrite, Csp.var, product, SvExpr.inContext, svCompare,
    SvExpr.planes, SvExpr.ws, SvExpr.var, productPlanes, extendPlane, cutPlanes, Value.number, RelOp.holds,
    fits]
  constructor <;> intro same <;> exact_mod_cast same

end Product

end Lossless

end Xezim
