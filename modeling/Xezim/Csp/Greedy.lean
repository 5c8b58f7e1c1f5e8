import Xezim.Csp.PreferenceLaws

/-! A solve with preferences: what an accepted run leaves in the object, which preferences the greedy pass
retains, and which searches that refute the others leave the object alone. -/

namespace Xezim

section Run

variable {csp : Csp} {a : Nat → Int}

/-- The object holds an assignment: each bit a stored variable covers is the one its value writes. -/
def Csp.Shows (csp : Csp) (o : Store) (a : Nat → Int) : Prop :=
  ∀ v < csp.vars.length, csp.wide v = false → ∀ b i, csp.covers v b i →
    ((o b).1.testBit i, (o b).2.testBit i) = (csp.wroteBit v (a v) i, false)

/-- Writing a list of variables goes through the object's own writes. -/
theorem foldl_write (a : Nat → Int) (vs : List Nat) (s : Search) :
    (vs.foldl (fun t v => t.write csp v (a v)) s).store = csp.written vs a s.store := by
  induction vs generalizing s with
  | nil => rfl
  | cons v vs ih => exact ih _

/-- Writing every stored variable of a consistent assignment makes the object hold it. -/
theorem shows_stored (consistent : csp.Consistent a) (s : Search) :
    csp.Shows (csp.stored.foldl (fun t v => t.write csp v (a v)) s).store a := by
  intro v small narrow b i covered
  rw [foldl_write]
  refine written_bit consistent (fun u member => ?_) s.store ?_ covered
  · simpa using (List.mem_filter.mp member).2
  · exact List.mem_filter.mpr ⟨List.mem_range.mpr small, by simp [narrow]⟩

/-- A search that ends otherwise than solved never reports a solution. -/
theorem findLoop_ne_sat [WordRead] (aux : Aux) (rng : Nat → Nat) (fuel budget runBudget levelTries : Nat)
    (s : Search) : (findLoop csp aux rng fuel budget runBudget levelTries s).1 ≠ some .sat := by
  -- A cut level is tried again or the loop gives up; no turn of it answers sat.
  induction fuel generalizing budget runBudget levelTries s with
  | zero => exact fun impossible => (nomatch impossible)
  | succ fuel ih =>
    unfold findLoop
    dsimp only
    generalize cspSearch csp aux rng (min runBudget budget) _ = result
    obtain ⟨r, left, t⟩ := result
    dsimp only
    split
    · exact fun impossible => (nomatch impossible)
    · split
      · exact ih _ _ _ _
      · split
        · exact fun impossible => (nomatch impossible)
        · exact fun impossible => (nomatch impossible)
    · split
      · exact fun impossible => (nomatch impossible)
      · exact ih _ _ _ _

/-- Drawing the places no constraint reads leaves every other place alone. -/
theorem cspDrawFree_store (rng : Nat → Nat) (sim : SolverSim) {b : Nat} (apart : ∀ p ∈ csp.wideFree, p.1 ≠ b) :
    (cspDrawFree csp rng sim).store b = sim.store b := by
  unfold cspDrawFree
  revert apart
  generalize csp.wideFree = places
  intro apart
  induction places generalizing sim with
  | nil => rfl
  | cons p places ih =>
    rw [List.foldl_cons, ih _ fun q member => apart q (List.mem_cons_of_mem _ member)]
    exact Function.update_of_ne (apart p List.mem_cons_self).symm _ _

/-- A verdict that does not depend on those places is the same after they are drawn. -/
theorem cspDrawFree_unread (accepts : Store → Bool) (rng : Nat → Nat) (sim : SolverSim)
    (unread : ∀ p ∈ csp.wideFree, ∀ o x, accepts (Function.update o p.1 x) = accepts o) :
    accepts (cspDrawFree csp rng sim).store = accepts sim.store := by
  unfold cspDrawFree
  revert unread
  generalize csp.wideFree = places
  intro unread
  induction places generalizing sim with
  | nil => rfl
  | cons p places ih =>
    rw [List.foldl_cons, ih _ fun q member => unread q (List.mem_cons_of_mem _ member)]
    exact unread p List.mem_cons_self _ _

end Run

namespace RandClass

variable (cls : RandClass) (rng : Nat → Nat)

/-- A class as the translation makes it: each set of preferences gives a proper problem, and the places
drawn freely belong to no variable and no check. -/
structure Ok : Prop where
  problems : ∀ enabled, (cls.csp enabled).Ok
  uncovered : ∀ p ∈ cls.base.wideFree, ∀ v i, ¬ cls.base.covers v p.1 i
  unread : ∀ p ∈ cls.base.wideFree, ∀ o x, cls.accepts (Function.update o p.1 x) = cls.accepts o

/-- The object is in a verified state: its checks accept it, and it holds an assignment that meets the class
with the given preferences. -/
structure Held (enabled : Option (List Nat)) (o : Store) : Prop where
  accepted : cls.accepts o = true
  meets : ∃ a, cls.Meets enabled a ∧ cls.base.Shows o a

/-- What one run does: when it succeeds the object is in a verified state; a refutation means that no assignment
read safely meets the class, and leaves the object as it is where the problem is silent. -/
structure Ran [WordRead] (enabled : Option (List Nat)) (sim : SolverSim) (r : CspOutcome × SolverSim) : Prop where
  sat : r.1 = .sat → cls.Held enabled r.2.store
  unsat : r.1 = .unsat → ((cls.csp enabled).Silent → r.2.store = sim.store) ∧
    ∀ a, allReadSafe (cls.csp enabled) a (cls.csp enabled).nodes → ¬ cls.Meets enabled a

variable {cls rng}

/-- Every run does that. -/
theorem ran [WordRead] [LawfulWordRead] (rng : Nat → Nat) (ok : cls.Ok) (enabled : Option (List Nat))
    (sim : SolverSim) :
    cls.Ran enabled sim (cls.run rng enabled sim) := by
  -- The find answers for the problem; what is left is whether the check accepts the values written.
  have okCsp := ok.problems enabled
  obtain ⟨start, store, found⟩ :=
    found_cspFind okCsp (cls.aux (cls.csp enabled)) rng sim.store sim.draws
  have unsolved : (cspFind (cls.csp enabled) (cls.aux (cls.csp enabled)) rng sim.store sim.draws).1 ≠
      some .sat := findLoop_ne_sat _ _ _ _ _ _ _
  unfold run cspRun
  generalize cspFind (cls.csp enabled) (cls.aux (cls.csp enabled)) rng sim.store sim.draws = result
    at found unsolved
  obtain ⟨out | out, s⟩ := result
  · have solution := (found.solved rfl).solution okCsp
    dsimp only
    have shown := shows_stored solution.1.consistent s
    generalize (cls.csp enabled).stored.foldl _ s = t at shown ⊢
    split
    · rename_i accepted
      refine ⟨fun _ => ?_, fun impossible => (nomatch impossible)⟩
      have meets := (solution_iff cls enabled _).mp solution
      dsimp only
      split
      · refine ⟨?_, _, meets, fun v small narrow b i covered => ?_⟩
        · exact (cspDrawFree_unread cls.accepts rng t.sim ok.unread).trans accepted
        · have apart : ∀ p ∈ (cls.csp enabled).wideFree, p.1 ≠ b := by
            rintro p member rfl
            exact ok.uncovered p member v i covered
          rw [cspDrawFree_store rng t.sim apart]
          exact shown v small narrow b i covered
      · exact ⟨accepted, _, meets, shown⟩
    · exact ⟨fun impossible => (nomatch impossible), fun impossible => (nomatch impossible)⟩
  · refine ⟨fun sat => absurd (congrArg some sat) unsolved, fun unsat => ⟨fun silent => ?_, fun a safe meets => ?_⟩⟩
    · exact (found.untouched silent).trans store
    · exact found.unsat (congrArg some unsat) a
        (sought_iff.mpr ⟨safe, (solution_iff cls enabled a).mpr meets⟩)

section Pass

variable (cls rng)

/-- The greedy pass over preferences in order: one is retained when some assignment meets it together with
those retained before it, and dropped when no assignment read safely does. -/
inductive Greedy : List Nat → List Nat → List Nat → Prop
  | done (enabled : List Nat) : Greedy [] enabled enabled
  | keep {id : Nat} {ids enabled final : List Nat} (met : ∃ a, cls.Meets (some (id :: enabled)) a)
      (rest : Greedy ids (id :: enabled) final) : Greedy (id :: ids) enabled final
  | drop {id : Nat} {ids enabled final : List Nat}
      (unmet : ∀ a, allReadSafe (cls.csp (some (id :: enabled))) a
        (cls.csp (some (id :: enabled))).nodes → ¬ cls.Meets (some (id :: enabled)) a)
      (rest : Greedy ids enabled final) : Greedy (id :: ids) enabled final

/-- The preferences are retained together, or they are those the greedy pass keeps, taken nearest class
first and the one declared later before the one declared earlier. -/
def Retains : Option (List Nat) → Prop
  | none => True
  | some final => ∃ order : List (Nat × Nat × Nat), order.Perm (cls.translate none).priority ∧
      order.Pairwise prior ∧ cls.Greedy (order.map fun p => p.2.2) [] final

/-- A solve ends verified: the object is as the last accepted run left it, in a verified state for the
retained preferences, and these are the right ones. -/
structure Verified (r : Sized) : Prop where
  restored : r.sim.store = r.accepted.store
  held : cls.Held r.retained r.sim.store
  retains : cls.Retains r.retained

/-- No preference disturbs the object for good. Each of those left in order, with the given ones retained before it,
is met by some assignment, and then the object is intact again; or none read safely meets it, and then the search
for one leaves the object alone, or what follows does not need it intact because some preference is retained yet. -/
def Undisturbed [WordRead] : Prop → List Nat → List Nat → Prop
  | intact, [], _ => intact
  | intact, id :: ids, enabled =>
    ((∃ a, cls.Meets (some (id :: enabled)) a) → Undisturbed True ids (id :: enabled)) ∧
      ((∀ a, allReadSafe (cls.csp (some (id :: enabled))) a (cls.csp (some (id :: enabled))).nodes →
          ¬ cls.Meets (some (id :: enabled)) a) →
        (cls.csp (some (id :: enabled))).Silent ∧ Undisturbed intact ids enabled ∨ Undisturbed False ids enabled)

variable {cls rng}

/-- An object that is intact is no worse. -/
theorem Undisturbed.intact [WordRead] {ids enabled : List Nat} {intact intact' : Prop} (better : intact → intact')
    (here : cls.Undisturbed intact ids enabled) : cls.Undisturbed intact' ids enabled := by
  induction ids generalizing enabled with
  | nil => exact better here
  | cons id ids ih =>
    refine ⟨here.1, fun unmet => ?_⟩
    rcases here.2 unmet with ⟨silent, rest⟩ | rest
    · exact .inl ⟨silent, ih rest⟩
    · exact .inr rest

/-- The preference loop retains the right preferences; the last accepted state is verified for them, and is the one
it leaves where no preference disturbs the object for good. -/
theorem passing_greedy [WordRead] [LawfulWordRead] (ok : cls.Ok) (ids : List Nat) {enabled : List Nat}
    {sim accepted : SolverSim}
    (held : cls.Held (some enabled) accepted.store)
    (undisturbed : cls.Undisturbed (sim.store = accepted.store) ids enabled)
    (sat : (cls.greedy rng ids enabled sim accepted).outcome = .sat) :
    ∃ final, (cls.greedy rng ids enabled sim accepted).retained = some final ∧ cls.Greedy ids enabled final ∧
      cls.Held (some final) (cls.greedy rng ids enabled sim accepted).accepted.store ∧
      (cls.greedy rng ids enabled sim accepted).sim.store =
        (cls.greedy rng ids enabled sim accepted).accepted.store := by
  induction ids generalizing enabled sim accepted with
  | nil => exact ⟨enabled, rfl, .done enabled, held, undisturbed⟩
  | cons id ids ih =>
    have one := ran rng ok (some (id :: enabled)) sim
    unfold greedy at sat ⊢
    generalize cls.run rng (some (id :: enabled)) sim = result at *
    obtain ⟨out, after⟩ := result
    cases out with
    | sat =>
      have held := one.sat rfl
      have met := held.meets.imp fun a here => here.1
      obtain ⟨final, retained, pass, rest⟩ := ih held ((undisturbed.1 met).intact fun _ => rfl) sat
      exact ⟨final, retained, .keep met pass, rest⟩
    | unsat =>
      obtain ⟨quiet, unmet⟩ := one.unsat rfl
      -- The object is still intact, or need not be.
      have undisturbed : cls.Undisturbed (after.store = accepted.store) ids enabled := by
        rcases undisturbed.2 unmet with ⟨silent, rest⟩ | rest
        · exact rest.intact (quiet silent).trans
        · exact rest.intact False.elim
      obtain ⟨final, retained, pass, rest⟩ := ih held undisturbed sat
      exact ⟨final, retained, .drop unmet pass, rest⟩
    | gaveUp => cases sat
    | notApplicable => cases sat

instance : IsTrans (Nat × Nat × Nat) prior where
  trans p q r := by
    unfold prior
    omega

instance : Std.Total (α := Nat × Nat × Nat) prior where
  total p q := by
    unfold prior
    omega

end Pass

section Pair

/-- Two variables of eight bits between 0 and 3, and the constraints `x == y`, `x % 5 == 4`. -/
def pairBase : Csp where
  vars := [⟨false, 8, false⟩, ⟨false, 8, false⟩]
  dom0 := [[(0, 3)], [(0, 3)]]
  srcs := [⟨[0, 1], false, fun o => (o 0).1 == (o 1).1, fun _ => ⟨1, 0, 1, false, false, false⟩⟩,
    ⟨[0], false, fun o => (o 0).1 % 5 == 4, fun _ => ⟨1, 0, 1, false, false, false⟩⟩,
    ⟨[0], false, fun o => (o 0).1 == 1, fun _ => ⟨1, 0, 1, false, false, false⟩⟩,
    ⟨[0], false, fun o => (o 0).1 == 2, fun _ => ⟨1, 0, 1, false, false, false⟩⟩]
  nodes := []
  dists := []
  hasSubs := false
  auxBase := fun _ => none
  wide := fun _ => false
  segs := fun _ => false
  sizes := []
  wideFree := []
  drawFree := false

/-- The node of `x == y`. -/
def pairEqual : Node := .lin ⟨[(0, 1), (1, -1)], 0⟩ .eq [] 0 false none

/-- The node of `x == k` with the given source. -/
def pairIs (k : Int) (src : Nat) : Node := .lin ⟨[(0, 1)], -k⟩ .eq [] src false none

/-- A class that requires `x == y` and prefers two things. -/
def pairClass (first second : Node) : RandClass where
  base := pairBase
  constraints := [⟨false, some 0, 0, [.hard pairEqual [] [] fun o => (o 0).1 == (o 1).1,
    .soft (.hard first [] [] fun _ => true), .soft (.hard second [] [] fun _ => true)]⟩]
  subDynamic := false
  aux := fun _ => plainAux

theorem pairBase_dom (v : Nat) : pairBase.dom v = if v < 2 then [(0, 3)] else [(0, 0)] := by
  match v with
  | 0 | 1 => rfl
  | _ + 2 => simp [Csp.dom, pairBase]

theorem pairBase_covers (v b i : Nat) : pairBase.covers v b i ↔ b = v := by
  have plain : (pairBase.var v).aux = false := by
    match v with
    | 0 | 1 | _ + 2 => rfl
  unfold Csp.covers
  rw [plain, if_neg Bool.false_ne_true]

/-- The value plane of a place two objects agree on. -/
theorem pairBase_read {v : Nat} {o o' : Store} (same : pairBase.SameRead v o o') :
    (o v).1 = (o' v).1 :=
  Nat.eq_of_testBit_eq fun i => (same v i ((pairBase_covers v v i).mpr rfl)).1

variable {first second : Node} {enabled : Option (List Nat)} {a : Nat → Int}

/-- A node without fits describes its source. -/
theorem exact_plain {csp : Csp} {l : Lin} {rel : Rel} {src : Nat} {sneg : Bool} (ok : l.Ok) :
    Exact csp (.lin l rel [] src sneg none) :=
  ⟨ok, fun _ impossible => (nomatch impossible), fun impossible => absurd rfl impossible,
    fun _ impossible => (nomatch impossible)⟩

theorem mem_unlessTrue {n m : Node} (member : m ∈ n.unlessTrue) : m = n := by
  cases n with
  | true => exact absurd member (by simp [Node.unlessTrue])
  | _ => exact List.mem_singleton.mp member

/-- The nodes of the class are those of its items. -/
theorem pairClass_nodes {n : Node} (member : n ∈ ((pairClass first second).csp enabled).nodes) :
    n = pairEqual ∨ n = first ∨ n = second := by
  simp only [RandClass.csp, translate, pairClass, pairBase, List.foldl_cons, List.foldl_nil,
    translateItems, cspItem, List.length_nil, List.nil_append, List.append_nil] at member
  -- Each preference is enabled, so its node is there, or it is not.
  split at member <;> split at member <;>
    simp only [Node.unlessTrue, List.append_assoc, List.mem_append, List.append_nil] at member
  · exact member.imp mem_unlessTrue (Or.imp mem_unlessTrue mem_unlessTrue)
  · exact member.imp mem_unlessTrue fun here => .inl (mem_unlessTrue here)
  · exact member.imp mem_unlessTrue fun here => .inr (mem_unlessTrue here)
  · exact .inl (mem_unlessTrue member)

/-- A class whose preferences describe their sources is a proper class. -/
theorem pairClass_ok (exactFirst : ∀ enabled, Exact ((pairClass first second).csp enabled) first)
    (exactSecond : ∀ enabled, Exact ((pairClass first second).csp enabled) second) :
    (pairClass first second).Ok where
  problems enabled :=
    { sized := rfl
      doms := fun v => by
        show Dom.Ok (pairBase.dom v)
        rw [pairBase_dom]
        split
        · exact Dom.ok_single (by decide)
        · exact Dom.ok_single (by decide)
      range := fun v x (here : Dom.Has (pairBase.dom v) x) => by
        rw [pairBase_dom] at here
        split at here
        · have := (Dom.has_single ..).mp here
          omega
        · have := (Dom.has_single ..).mp here
          omega
      fresh := fun i => by
        match i with
        | 0 | 1 | 2 | 3 | _ + 4 => rfl
      narrow := fun _ _ _ => rfl
      reads := fun i o o' same => by
        have plane {v : Nat} (dep : v ∈ (pairBase.src i).deps) : (o v).1 = (o' v).1 :=
          pairBase_read (same v dep)
        show (pairBase.src i).verdict o = (pairBase.src i).verdict o' ∧
          (pairBase.src i).value o = (pairBase.src i).value o'
        match i with
        | 0 =>
          have x : (o 0).1 = (o' 0).1 := plane (by simp [Csp.src, pairBase])
          have y : (o 1).1 = (o' 1).1 := plane (by simp [Csp.src, pairBase])
          exact ⟨by simp [Csp.src, pairBase, x, y], rfl⟩
        | 1 | 2 | 3 =>
          have x : (o 0).1 = (o' 0).1 := plane (by simp [Csp.src, pairBase])
          exact ⟨by simp [Csp.src, pairBase, x], rfl⟩
        | _ + 4 => exact ⟨rfl, rfl⟩
      described := fun n member => by
        rcases pairClass_nodes member with rfl | rfl | rfl
        · exact exact_plain ⟨by decide, by decide⟩
        · exact exactFirst enabled
        · exact exactSecond enabled
      linked := fun a _ _ u v b i _ _ first second => by
        have first := (pairBase_covers u b i).mp first
        have second := (pairBase_covers v b i).mp second
        rw [← first, ← second] }
  uncovered p impossible := nomatch impossible
  unread p impossible := nomatch impossible

attribute [local instance] referenceWordRead

end Pair

end RandClass

end Xezim
