import Xezim.Csp.DomWords
import Xezim.Csp.EnforceLaws
import Xezim.Reference

/-! Every domain the search holds stays sorted and disjoint, whatever a node sets. -/

namespace Xezim

open Search Checked

/-- The domains the search holds, and those its trail puts back, are sorted and disjoint. -/
structure Search.DomsOk (s : Search) : Prop where
  doms : ∀ v, (s.d v).Ok
  trail : ∀ p ∈ s.trail, Dom.Ok p.2

/-- A set taken from a constant, and the constant from the set, stay within `i128`: where `csp_enforce` moves the set
nothing wraps. -/
def Dom.Moves (values : Dom) (k : Int) : Prop :=
  ∀ p ∈ values, (InI128 (p.1 - k) ∧ InI128 (p.2 - k)) ∧ InI128 (k - p.1) ∧ InI128 (k - p.2)

mutual

/-- Every set a node names is sorted and disjoint, and can be moved by the constant part of its form. -/
def Node.SetsOk : Node → Prop
  | .true => True
  | .false => True
  | .lin .. => True
  | .inside l values _ _ _ _ => Dom.Ok values ∧ values.Moves l.k
  | .allDiff _ => True
  | .pop .. => True
  | .eval .. => True
  | .fn .. => True
  | .and ns => allSetsOk ns
  | .or ns => allSetsOk ns
  | .ite cond ncond thn els => Node.SetsOk cond ∧ Node.SetsOk ncond ∧ Node.SetsOk thn ∧ Node.SetsOk els

/-- So is every set the nodes of a list name. -/
def allSetsOk : List Node → Prop
  | [] => True
  | n :: ns => Node.SetsOk n ∧ allSetsOk ns

end

/-- The values an open variable of a membership may take, moved without wrapping. -/
def Dom.moved (values : Dom) (k c : Int) : Dom :=
  if c = 1 then values.map fun p => (p.1 - k, p.2 - k) else domNorm (values.map fun p => (k - p.2, k - p.1))

/-- The same in machine arithmetic. -/
def I128.moved (values : Dom) (k c : Int) : Dom :=
  if c = 1 then values.map fun p => (wrap (p.1 - k), wrap (p.2 - k))
  else I128.domNorm (values.map fun p => (wrap (k - p.2), wrap (k - p.1)))

mutual

/-- What the memberships of a node move comes to the same in machine arithmetic. -/
def Node.MovesExactly : Node → Prop
  | .true => True
  | .false => True
  | .lin .. => True
  | .inside l values _ _ _ _ => ∀ c, I128.moved values l.k c = values.moved l.k c
  | .allDiff _ => True
  | .pop .. => True
  | .eval .. => True
  | .fn .. => True
  | .and ns => allMoveExactly ns
  | .or ns => allMoveExactly ns
  | .ite cond ncond thn els =>
    Node.MovesExactly cond ∧ Node.MovesExactly ncond ∧ Node.MovesExactly thn ∧ Node.MovesExactly els

/-- So does what the memberships of a list of nodes move. -/
def allMoveExactly : List Node → Prop
  | [] => True
  | n :: ns => Node.MovesExactly n ∧ allMoveExactly ns

end

/-- A set that stays in range is moved without wrapping. -/
theorem I128.moved_eq {values : Dom} {k : Int} (moves : values.Moves k) (c : Int) :
    I128.moved values k c = values.moved k c := by
  -- No end of the set leaves 128 bits when it is moved, so wrapping changes nothing.
  have up : (values.map fun p => (wrap (p.1 - k), wrap (p.2 - k))) = values.map fun p => (p.1 - k, p.2 - k) :=
    List.map_congr_left fun p member => by
      rw [wrap_eq (moves p member).1.1, wrap_eq (moves p member).1.2]
  have down : (values.map fun p => (wrap (k - p.2), wrap (k - p.1))) = values.map fun p => (k - p.2, k - p.1) :=
    List.map_congr_left fun p member => by
      rw [wrap_eq (moves p member).2.1, wrap_eq (moves p member).2.2]
  have machine : Dom.Machine (values.map fun p => (k - p.2, k - p.1)) := fun q member => by
    obtain ⟨p, listed, rfl⟩ := List.mem_map.mp member
    exact ⟨(moves p listed).2.2, (moves p listed).2.1⟩
  unfold I128.moved Dom.moved
  rw [up, down, I128.domNorm_eq machine]

mutual

/-- A node whose sets stay in range moves them without wrapping. -/
theorem Node.SetsOk.moves : ∀ {n : Node}, n.SetsOk → n.MovesExactly
  | .true, _ => trivial
  | .false, _ => trivial
  | .lin .., _ => trivial
  | .inside .., sets => fun c => I128.moved_eq sets.2 c
  | .allDiff _, _ => trivial
  | .pop .., _ => trivial
  | .eval .., _ => trivial
  | .fn .., _ => trivial
  | .and _, sets => allSetsOk_moves sets
  | .or _, sets => allSetsOk_moves sets
  | .ite .., sets => ⟨sets.1.moves, sets.2.1.moves, sets.2.2.1.moves, sets.2.2.2.moves⟩

/-- Nodes whose sets stay in range move them without wrapping. -/
theorem allSetsOk_moves : ∀ {ns : List Node}, allSetsOk ns → allMoveExactly ns
  | [], _ => trivial
  | _ :: _, sets => ⟨sets.1.moves, allSetsOk_moves sets.2⟩

end

variable {csp : Csp} {s t : Search}

namespace Search.DomsOk

/-- A change of the object, the random numbers and the work count keeps the domains. -/
theorem quiet (ok : s.DomsOk) (same : Quiet csp s t) : t.DomsOk :=
  ⟨fun v => by rw [same.d]; exact ok.doms v, fun p member => ok.trail p (same.trail ▸ member)⟩

/-- `St::set` to a sorted, disjoint list. -/
theorem set (ok : s.DomsOk) (v : Nat) {nd : Dom} (okNew : nd.Ok) : (s.set v nd).2.DomsOk := by
  unfold Search.set
  -- A narrowing that changes nothing leaves the search alone.
  by_cases same : nd = s.d v
  · rw [if_pos same]
    exact ok
  · rw [if_neg same]
    refine ⟨fun u => ?_, fun p member => ?_⟩
    · -- The variable has the new domain and the others their old ones.
      by_cases here : u = v
      · subst here
        simpa using okNew
      · simpa [here] using ok.doms u
    · -- The trail gains the variable's old domain.
      rcases List.mem_cons.mp member with rfl | old
      · exact ok.doms v
      · exact ok.trail p old

/-- What bounds leave of a term's domain is sorted and disjoint. -/
theorem narrowTerm {d nd : Dom} (ok : d.Ok) {c slack : Int} {upper : Bool}
    (narrowed : Xezim.narrowTerm d c slack upper = some nd) : nd.Ok := by
  unfold Xezim.narrowTerm at narrowed
  dsimp only at narrowed
  split_ifs at narrowed
  all_goals
    rw [← Option.some.inj narrowed]
    exact ok.clip _ _

/-- The loop of `St::prop_bound`. -/
theorem propTerms (ok : s.DomsOk) (slack : Int) (upper : Bool) (terms : List (Nat × Int)) :
    (s.propTerms slack upper terms).2.DomsOk := by
  -- Every term is narrowed on its own, and the walk ends at the first that is refuted.
  induction terms generalizing s with
  | nil => exact ok
  | cons p rest ih =>
    unfold Search.propTerms
    cases narrowed : Xezim.narrowTerm (s.d p.1) p.2 slack upper with
    | none => exact ih ok
    | some nd =>
      -- The narrowed domain is part of the old one.
      have next := ok.set p.1 (narrowTerm (ok.doms p.1) narrowed)
      dsimp only
      generalize s.set p.1 nd = r at next ⊢
      obtain ⟨done, t⟩ := r
      cases done with
      | true => exact ih next
      | false => exact next

/-- `St::prop_bound`. -/
theorem propBound (ok : s.DomsOk) (l : Lin) (upper : Bool) : (Search.propBound l upper s).2.DomsOk := by
  unfold Search.propBound
  dsimp only
  split_ifs
  · exact ok
  · exact ok.propTerms _ _ _
  · exact ok.propTerms _ _ _

/-- Two bounds, the second one where the first left something. -/
theorem propBounds (ok : s.DomsOk) (l l' : Lin) (upper upper' : Bool) :
    (match Search.propBound l upper s with
      | (true, s) => Search.propBound l' upper' s
      | (false, s) => (false, s)).2.DomsOk := by
  have first := ok.propBound l upper
  generalize Search.propBound l upper s = r at first ⊢
  obtain ⟨done, t⟩ := r
  cases done with
  | true => exact first.propBound l' upper'
  | false => exact first

/-- The disequality takes one value out. -/
theorem propNe (ok : s.DomsOk) (l : Lin) : (Search.propNe l s).2.DomsOk := by
  unfold Search.propNe
  split
  · exact ok
  · exact ok
  · split_ifs
    · exact ok
    · exact ok.set _ ((ok.doms _).minus (Dom.ok_single (le_refl _)))

/-- A node judged by the evaluator. -/
theorem judge (ok : s.DomsOk) (csp : Csp) (src : Nat) (neg : Bool) : (s.judge csp src neg).2.DomsOk := by
  unfold Search.judge
  split_ifs
  · exact ok.quiet (quiet_evalSrc csp s src)
  · exact ok

/-- `csp_wrap_eq` meets the domain with ascending values. -/
theorem wrapEq (ok : s.DomsOk) {l : Lin} {w : Nat} {r : Bool × Search} (done : cspWrapEq l w s = some r) :
    r.2.DomsOk := by
  unfold cspWrapEq at done
  -- Only the branch with one open term writes, and it meets the domain with its candidates.
  split_ifs at done
  dsimp only at done
  split at done
  · cases done
  · cases done
    exact ok
  · split_ifs at done
    obtain ⟨cands, listed, rfl⟩ := Option.map_eq_some_iff.mp done
    have pos : (0 : Int) < 2 ^ w := by positivity
    exact ok.set _ ((ok.doms _).meet (ok_points (residues_sorted pos listed).1))

/-- `csp_wrap_set` meets the domain with what `dom_norm` makes. -/
theorem wrapSet (ok : s.DomsOk) {l : Lin} {set : Dom} {neg sg : Bool} {w : Nat} {r : Bool × Search}
    (done : cspWrapSet l set neg w sg s = some r) : r.2.DomsOk := by
  unfold cspWrapSet at done
  by_cases wide : w = 0 ∨ 64 < w
  · -- Outside 1 to 64 bits there is no answer, so nothing was done.
    rw [if_pos wide] at done
    cases done
  rw [if_neg wide] at done
  dsimp only at done
  cases opened : openTerm s.d l.t l.k none with
  | none => simp [opened] at done
  | some found =>
    obtain ⟨rest, free⟩ := found
    cases free with
    | none =>
      simp only [opened, Option.some.injEq] at done
      rw [← done]
      exact ok
    | some p =>
      obtain ⟨v, c⟩ := p
      simp only [opened] at done
      -- Whatever the target is, the branches that write meet the domain with a normalised set.
      generalize (if neg = true then _ else _ : Dom) = target at done
      split_ifs at done
      all_goals
        first
          | (rw [← Option.some.inj done]; exact ok)
          | (rw [← Option.some.inj done]; exact ok.set _ ((ok.doms _).meet (Dom.ok_norm _)))
          | (obtain ⟨allowed, -, rfl⟩ := Option.map_eq_some_iff.mp done
             exact ok.set _ ((ok.doms _).meet (Dom.ok_norm _)))

/-- The open side of `csp_wrap_rel`. -/
theorem wrapSide (ok : s.DomsOk) {rel : Rel} {wr : Wrap} {delta k : Int} {x : Lin} {left : Bool} {r : Bool × Search}
    (done : cspWrapSide rel wr delta x k left s = some r) : r.2.DomsOk := by
  unfold cspWrapSide at done
  cases rel with
  | le => exact ok.wrapSet done
  | eq => exact ok.wrapSet done
  | ne => exact ok.wrapSet done

/-- `csp_wrap_rel`. -/
theorem wrapRel (ok : s.DomsOk) {l : Lin} {rel : Rel} {fits : List Fit} {wr : Wrap} {r : Bool × Search}
    (done : cspWrapRel l rel fits wr s = some r) : r.2.DomsOk := by
  unfold cspWrapRel at done
  split at done
  · dsimp only at done
    split_ifs at done
    -- One fixed side narrows the other, and two fixed sides are only compared.
    split at done
    · cases done
      exact ok
    · exact ok.wrapSide done
    · exact ok.wrapSide done
    · cases done
  · cases done

/-- A wrapped reading where there is one, and the evaluator otherwise. -/
theorem wrapped {found : Option (Bool × Search)} (kept : ∀ r, found = some r → r.2.DomsOk)
    {other : Bool × Search} (okOther : other.2.DomsOk) : (found.getD other).2.DomsOk := by
  cases found with
  | none => exact okOther
  | some r => exact kept r rfl

/-- `csp_enforce` of `Lin`. -/
theorem enforceLin (ok : s.DomsOk) (csp : Csp) (l : Lin) (rel : Rel) (fits : List Fit) (src : Nat) (sneg : Bool)
    (wrap : Option Wrap) : (s.enforceLin csp l rel fits src sneg wrap).2.DomsOk := by
  unfold Search.enforceLin
  -- Where the parts fit, the linear propagators run.
  by_cases holds : fitsHold s.d fits = true
  · rw [if_pos holds]
    cases rel with
    | le => exact ok.propBound l true
    | eq => exact ok.propBounds l l true false
    | ne => exact ok.propNe l
  · rw [if_neg holds]
    -- Where they do not, the wrapped relation is tried before the source is judged.
    refine wrapped (fun r done => ?_) (ok.judge csp src sneg)
    obtain ⟨wr, -, done⟩ := Option.bind_eq_some_iff.mp done
    split_ifs at done
    cases rel with
    | le => exact ok.wrapRel done
    | eq => exact ok.wrapEq done
    | ne => exact ok.wrapRel done

/-- `csp_enforce` of `In`. -/
theorem enforceInside (ok : s.DomsOk) (csp : Csp) (l : Lin) {values : Dom} (okSet : values.Ok) (neg : Bool)
    (fits : List Fit) (src : Nat) (wrap : Option Wrap) :
    (s.enforceInside csp l values neg fits src wrap).2.DomsOk := by
  unfold Search.enforceInside
  by_cases holds : fitsHold s.d fits = true
  · rw [if_pos holds]
    cases single : l.t.head?.filter fun p => l.t.length = 1 ∧ (p.2 = 1 ∨ p.2 = -1) with
    | some p =>
      -- The one variable takes the set moved by the constant part, turned around for a negative coefficient.
      obtain ⟨v, c⟩ := p
      have unit : c = 1 ∨ c = -1 := by
        have kept := (Option.filter_eq_some_iff.mp single).2
        simp only [decide_eq_true_eq] at kept
        exact kept.2
      have okAllowed := (solved_set okSet unit (k := l.k)).1
      dsimp only
      cases neg with
      | true => exact ok.set v ((ok.doms v).minus okAllowed)
      | false => exact ok.set v ((ok.doms v).meet okAllowed)
    | none =>
      dsimp only
      split_ifs
      · exact ok
      · exact ok
      · exact ok
      · exact ok.propBounds _ _ true false
  · rw [if_neg holds]
    refine wrapped (fun r done => ?_) (ok.judge csp src neg)
    obtain ⟨wr, -, done⟩ := Option.bind_eq_some_iff.mp done
    split_ifs at done
    exact ok.wrapSet done

/-- The loop of `AllDiff`. -/
theorem allDiffLoop (ok : s.DomsOk) {taken : Dom} (okTaken : taken.Ok) (vs : List Nat) (free : Nat)
    (pool : List (Int × Int)) : (Search.allDiffLoop taken vs free pool s).2.DomsOk := by
  -- A variable already taken is passed over, and the others lose what is taken.
  induction vs generalizing free pool s with
  | nil => exact ok
  | cons v rest ih =>
    unfold Search.allDiffLoop
    split_ifs
    · exact ih ok free pool
    · have next := ok.set v ((ok.doms v).minus okTaken)
      generalize s.set v (domMinus (s.d v) taken) = r at next ⊢
      obtain ⟨done, t⟩ := r
      cases done with
      | true => exact ih next _ _
      | false => exact next

/-- `csp_enforce` of `AllDiff`. -/
theorem enforceAllDiff (ok : s.DomsOk) (vs : List Nat) : (Search.enforceAllDiff vs s).2.DomsOk := by
  unfold Search.enforceAllDiff
  dsimp only
  split_ifs
  · exact ok
  · exact ok.allDiffLoop (Dom.ok_norm _) vs 0 []

/-- `csp_enforce` of `Pop`. -/
theorem enforcePop (ok : s.DomsOk) (x c w : Nat) : (Search.enforcePop x c w s).2.DomsOk := by
  unfold Search.enforcePop
  cases domFixed (s.d x) with
  -- A fixed argument fixes the count.
  | some v => exact ok.set c ((ok.doms c).meet (Dom.ok_single (le_refl _)))
  | none =>
    dsimp only
    split_ifs
    · -- A small domain is filtered by the counts, and the counts are then met.
      generalize (domValues (s.d x)).filter _ = xs
      have next := ok.set x (Dom.ok_norm (xs.map fun v => (v, v)))
      generalize s.set x (domNorm (xs.map fun v => (v, v))) = r at next ⊢
      obtain ⟨done, t⟩ := r
      cases done with
      | true => exact next.set c (Dom.ok_norm _)
      | false => exact next
    · exact ok.set c ((ok.doms c).clip _ _)
    · exact ok.set c ((ok.doms c).clip _ _)
    · exact ok

/-- The candidate loop of `csp_eval_forward` changes the object only. -/
theorem quiet_forwardLoop (csp : Csp) (src : Nat) (neg : Bool) (v : Nat) (xs keep : List Int) (s : Search) :
    Quiet csp s (s.forwardLoop csp src neg v xs keep).2 := by
  induction xs generalizing keep s with
  | nil => exact Quiet.refl csp s
  | cons x rest ih =>
    unfold Search.forwardLoop
    exact ((quiet_write csp s v x).trans (quiet_evalSrc csp _ src)).trans (ih _ _)

/-- The combination loop of `csp_fun_range` changes the object only. -/
theorem quiet_funRangeLoop [WordRead] (csp : Csp) (var : CspVar) (other : Nat) (combos : List (List Int))
    (vals : List Int)
    (s : Search) : Quiet csp s (funRangeLoop csp var other combos vals s).2 := by
  -- Writing a combination and reading the sources back leaves the domains alone.
  induction combos generalizing vals s with
  | nil => exact Quiet.refl csp s
  | cons combo rest ih =>
    have quiet := (writeCombo csp (csp.src other).deps combo s).1
    unfold funRangeLoop
    dsimp only
    split_ifs
    all_goals
      first
        | exact quiet
        | exact quiet.trans (ih _ _)

/-- `csp_eval_forward`. -/
theorem evalForward (ok : s.DomsOk) (csp : Csp) (src : Nat) (neg : Bool) :
    (s.evalForward csp src neg).2.DomsOk := by
  unfold Search.evalForward
  split_ifs
  · exact ok
  · cases Search.openDep s.d (csp.src src).deps with
    | none => exact ok
    | some v =>
      dsimp only
      split_ifs
      · exact ok
      · exact ok
      · -- Counting the work leaves the domains alone.
        have counted : ({ s with work := s.work + domSize (s.d v) } : Search).DomsOk := ⟨ok.doms, ok.trail⟩
        exact (counted.quiet (quiet_forwardLoop csp src neg v _ [] _)).set v (Dom.ok_norm _)

/-- `csp_fun_range`. -/
theorem funRange [WordRead] (ok : s.DomsOk) (csp : Csp) (var : Nat) (op : RelOp) (other : Nat) :
    (s.funRange csp var op other).2.DomsOk := by
  unfold Search.funRange
  dsimp only
  split_ifs
  · exact ok
  · exact ok
  · generalize (((csp.src other).deps.map fun v => domSize (s.d v)).prod) = n
    -- Counting the work and running the combinations leave the domains alone.
    have counted : ({ s with work := s.work + n } : Search).DomsOk := ⟨ok.doms, ok.trail⟩
    have next := counted.quiet (quiet_funRangeLoop csp (csp.var var) other
      (combinations ((csp.src other).deps.map fun v => domValues (s.d v))) [] _)
    generalize Search.funRangeLoop csp (csp.var var) other
      (combinations ((csp.src other).deps.map fun v => domValues (s.d v))) [] { s with work := s.work + n } =
        r at next ⊢
    obtain ⟨found, t⟩ := r
    cases found with
    | none => exact next
    | some vals =>
      dsimp only at next ⊢
      cases narrowed : Search.funRangeNarrow op (t.d var) (domNorm (vals.map fun k => (k, k))) with
      | none => exact next
      -- The listed values are normalised before the variable is narrowed by them.
      | some nd => exact next.set var (funRangeNarrow_spec (next.doms var) (Dom.ok_norm _) narrowed).1

/-- `csp_enforce` of `Fun`. -/
theorem enforceFun [WordRead] (ok : s.DomsOk) (csp : Csp) (var : Nat) (op : RelOp) (other whole : Nat) (neg : Bool) :
    (s.enforceFun csp var op other whole neg).2.DomsOk := by
  unfold Search.enforceFun
  split_ifs
  · exact ok
  · exact ok.funRange csp var op other
  · exact ok.judge csp whole neg
  · -- Reading the other side writes only values.
    have next : (s.evalValue csp other).2.DomsOk := ok.quiet (quiet_writeFixed csp _ s)
    generalize s.evalValue csp other = r at next ⊢
    obtain ⟨c, t⟩ := r
    dsimp only at next ⊢
    split_ifs
    · exact next
    · cases funOperand (csp.var var) (domBounds (t.d var)).1 c with
      | none => exact next
      -- The variable loses what the one value excludes.
      | some k => exact next.set var (funNarrow_spec op (next.doms var) k).1

/-- The scan of a disjunction changes the object only. -/
theorem quiet_orScan (csp : Csp) (ns : List Node) (i nOpen last : Nat) (s : Search) :
    Quiet csp s (cspOrScan csp ns i nOpen last s).2 := by
  -- The status of each disjunct leaves the domains alone.
  induction ns generalizing i nOpen last s with
  | nil => exact Quiet.refl csp s
  | cons n rest ih =>
    have first := quiet_cspStatus csp n s
    unfold cspOrScan
    generalize cspStatus csp n s = r at first ⊢
    obtain ⟨told, t⟩ := r
    cases told with
    | none => exact first.trans (ih _ _ _ t)
    | some verdict =>
      cases verdict with
      | true => exact first
      | false => exact first.trans (ih _ _ _ t)

end Search.DomsOk

mutual

/-- Enforcing a node keeps every domain sorted and disjoint. -/
theorem kept_node [WordRead] (csp : Csp) : ∀ (n : Node) (s : Search), n.SetsOk → s.DomsOk →
    (cspEnforce csp n s).2.DomsOk
  | .true, s, _, ok => ok
  | .false, s, _, ok => ok
  | .lin .., _, _, ok => ok.enforceLin ..
  | .inside .., s, sets, ok => ok.enforceInside csp _ sets.1 ..
  | .allDiff vs, s, _, ok => ok.enforceAllDiff vs
  | .pop x c w, s, _, ok => ok.enforcePop x c w
  | .eval src neg, s, _, ok => by
    unfold cspEnforce
    split_ifs
    · exact ok.judge csp src neg
    · exact ok.evalForward csp src neg
  | .fn .., _, _, ok => ok.enforceFun ..
  | .and ns, s, sets, ok => kept_all csp ns s sets ok
  | .or ns, s, sets, ok => by
    have scanned := ok.quiet (Search.DomsOk.quiet_orScan csp ns 0 0 0 s)
    unfold cspEnforce
    generalize cspOrScan csp ns 0 0 0 s = r at scanned ⊢
    obtain ⟨found, t⟩ := r
    match found with
    | none => exact scanned
    | some (0, _) => exact scanned
    | some (1, i) => exact kept_at csp ns i t sets scanned
    | some (_ + 2, _) => exact scanned
  | .ite cond ncond thn els, s, sets, ok => by
    obtain ⟨setsCond, setsNot, setsThn, setsEls⟩ := sets
    have first := ok.quiet (quiet_cspStatus csp cond s)
    unfold cspEnforce
    generalize cspStatus csp cond s = r at first ⊢
    obtain ⟨told, t⟩ := r
    match told with
    | some true => exact kept_node csp thn t setsThn first
    | some false => exact kept_node csp els t setsEls first
    | none =>
      -- The condition is open, so one branch that cannot hold decides it.
      have second := first.quiet (quiet_cspStatus csp thn t)
      dsimp only
      generalize cspStatus csp thn t = r at second ⊢
      obtain ⟨toldThn, u⟩ := r
      have third := second.quiet (quiet_cspStatus csp els u)
      have rest : (match cspStatus csp els u with
          | (some false, s) => cspEnforce csp cond s
          | (_, s) => (true, s)).2.DomsOk := by
        generalize cspStatus csp els u = r at third ⊢
        obtain ⟨toldEls, w⟩ := r
        match toldEls with
        | some false => exact kept_node csp cond w setsCond third
        | some true => exact third
        | none => exact third
      match toldThn with
      | some false => exact kept_node csp ncond u setsNot second
      | some true => exact rest
      | none => exact rest

/-- Enforcing a conjunction keeps every domain sorted and disjoint. -/
theorem kept_all [WordRead] (csp : Csp) :
    ∀ (ns : List Node) (s : Search), allSetsOk ns → s.DomsOk → (cspEnforceAll csp ns s).2.DomsOk
  | [], s, _, ok => ok
  | n :: ns, s, sets, ok => by
    -- Each conjunct is enforced on what the ones before it left.
    have first := kept_node csp n s sets.1 ok
    unfold cspEnforceAll
    generalize cspEnforce csp n s = r at first ⊢
    obtain ⟨done, t⟩ := r
    cases done with
    | true => exact kept_all csp ns t sets.2 first
    | false => exact first

/-- Enforcing one alternative keeps every domain sorted and disjoint. -/
theorem kept_at [WordRead] (csp : Csp) :
    ∀ (ns : List Node) (i : Nat) (s : Search), allSetsOk ns → s.DomsOk → (cspEnforceAt csp ns i s).2.DomsOk
  | [], _, _, _, ok => ok
  | n :: _, 0, s, sets, ok => kept_node csp n s sets.1 ok
  | _ :: ns, i + 1, s, sets, ok => kept_at csp ns i s sets.2 ok

end

/-- Some number of the type is no value of a domain. -/
def Dom.LeavesOut (d : Dom) : Prop := ∃ x, InI128 x ∧ ¬ d.Has x

/-- The operations on two domains compute the set operations they are named after, and make domains. -/
structure DomsExact (a b : Dom) : Prop where
  norm : ∀ v, Dom.Machine v → (I128.domNorm v).Ok ∧ ((I128.domNorm v).Pairwise fun p q => p.2 + 1 < q.1) ∧
    ∀ x, (I128.domNorm v).Has x ↔ ∃ p ∈ v, p.1 ≤ x ∧ x ≤ p.2
  clip : ∀ lo hi, (domClip a lo hi).Ok ∧ ∀ x, (domClip a lo hi).Has x ↔ a.Has x ∧ lo ≤ x ∧ x ≤ hi
  meet : (domMeet a b).Ok ∧ ∀ x, (domMeet a b).Has x ↔ a.Has x ∧ b.Has x
  minus : (I128.domMinus a b).Ok ∧ ∀ x, (I128.domMinus a b).Has x ↔ a.Has x ∧ ¬ b.Has x
  has : ∀ x, domHas a x = true ↔ a.Has x
  fixed : ∀ x, domFixed a = some x ↔ ∀ y, a.Has y ↔ y = x
  size : a.LeavesOut → I128.domSize a = {x | a.Has x}.ncard
  nth : a.LeavesOut → (∀ j k, j < k → k < I128.domSize a → I128.domNth a j < I128.domNth a k) ∧
    ∀ x, a.Has x ↔ ∃ k < I128.domSize a, I128.domNth a k = x

/-- The domain operations are exact on sorted disjoint lists of machine intervals, and every domain of the search
stays sorted and disjoint through all that enforcing a node sets, where the sets of the node are moved without
wrapping. -/
theorem domains_exact [WordRead] {a b : Dom} (okA : a.Ok) (okB : b.Ok) (rangeA : Dom.Machine a) (rangeB : Dom.Machine b)
    (csp : Csp) {n : Node} (sets : n.SetsOk) {s : Search} (doms : s.DomsOk) :
    DomsExact a b ∧ (cspEnforce csp n s).2.DomsOk ∧ n.MovesExactly := by
  -- A domain that leaves out a machine number is shorter than 2^128, so its size does not wrap.
  have sized : a.LeavesOut → I128.domSize a = domSize a := by
    intro ⟨x, inside, out⟩
    rw [I128.domSize_eq okA rangeA (Dom.part_of_out inside out)]
    have small := okA.size_lt rangeA inside out
    omega
  -- Part by part, the 128-bit operation is the unbounded one on these domains.
  refine ⟨⟨fun v range => ?_, fun lo hi => ⟨okA.clip lo hi, fun x => Dom.has_clip ..⟩,
    ⟨okA.meet okB, fun x => Dom.has_meet okA okB⟩, ?_, fun x => Dom.domHas_iff a x, fun x => okA.fixed_iff,
    fun part => ?_, fun part => ?_⟩, kept_node csp n s sets doms, sets.moves⟩
  · rw [I128.domNorm_eq range]
    exact ⟨Dom.ok_norm v, Dom.norm_gaps v, Dom.has_norm v⟩
  · rw [I128.domMinus_eq rangeA rangeB]
    exact ⟨okA.minus okB, fun x => Dom.has_minus okA okB⟩
  · rw [sized part, okA.ncard]
  · have nth := I128.domNth_eq okA rangeA (Dom.part_of_out part.choose_spec.1 part.choose_spec.2)
    simp only [sized part, nth]
    refine ⟨fun j k order small => Dom.nth_lt okA order small, fun x => ⟨Dom.exists_nth okA, ?_⟩⟩
    rintro ⟨k, small, rfl⟩
    exact Dom.has_nth okA small

/-- Two variables of a few bits. -/
def digitCsp : Csp where
  vars := [⟨false, 4, false⟩, ⟨false, 4, false⟩]
  dom0 := [[(0, 9)], [(0, 9)]]
  srcs := []
  nodes := []
  dists := []
  hasSubs := false
  auxBase := fun _ => none
  wide := fun _ => false
  segs := fun _ => false
  sizes := []
  wideFree := []
  drawFree := false

/-- A search with every variable between zero and nine. -/
def digitSearch : Search :=
  ⟨fun _ => [(0, 9)], [], [], 0, 0, false, 0, false, fun _ => (0, 0), 0⟩

attribute [local instance] referenceWordRead

/-- The minus of a variable is put between minus eight and minus six, or at minus two. -/
theorem domains_exact_digit :
    DomsExact [(0, 3), (5, 9)] [(2, 6)] ∧
      (cspEnforce digitCsp (.inside ⟨[(0, -1)], 0⟩ [(-8, -6), (-2, -2)] false [] 0 none) digitSearch).2.DomsOk ∧
      (Node.inside ⟨[(0, -1)], 0⟩ [(-8, -6), (-2, -2)] false [] 0 none).MovesExactly :=
  domains_exact ⟨by decide, by decide⟩ ⟨by decide, by decide⟩ (by simp [Dom.Machine, InI128])
    (by simp [Dom.Machine, InI128]) digitCsp (n := .inside ..)
    ⟨⟨by decide, by decide⟩, by simp [Dom.Moves, InI128]⟩ (s := digitSearch)
    ⟨fun _ => Dom.ok_single (by decide), fun _ member => nomatch member⟩

/-- All numbers of the type. -/
def wholeI128 : Dom := [(minI128, maxI128)]

/-- `dom_size` counts no value of the domain that has every `i128`. -/
theorem wholeI128_size :
    ¬ ∀ a : Dom, a.Ok → Dom.Machine a → I128.domSize a = {x | a.Has x}.ncard := by
  intro counts
  have ok : wholeI128.Ok := Dom.ok_single (by decide)
  have counted := counts wholeI128 ok (by simp [wholeI128, Dom.Machine, InI128, minI128, maxI128])
  rw [ok.ncard] at counted
  revert counted
  decide

end Xezim
