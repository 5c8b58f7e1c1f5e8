import Xezim.Csp.EvalLaws

/-! Enforcing any node: by induction on the node, no assignment that satisfies it is lost, and over fixed
variables it succeeds only where the node holds. -/

namespace Xezim

variable {csp : Csp} {a : Nat → Int} {s : Search}

/-- The assignments every node of a list is enforced for. -/
def SafelySatisfiesAll (csp : Csp) (ns : List Node) (a : Nat → Int) : Prop :=
  allReadSafe csp a ns ∧ csp.Assignment a ∧ allHold csp a ns

/-- The assignments the alternative at an index is enforced for. -/
def SafelySatisfiesAt (csp : Csp) (ns : List Node) (i : Nat) (a : Nat → Int) : Prop :=
  allReadSafe csp a ns ∧ csp.Assignment a ∧ ∀ n, ns[i]? = some n → nodeHolds csp a n

/-- What the scan of a disjunction knows: nothing holds when no alternative is open, and only the last open
one can when just one is. -/
theorem cspOrScan_spec (ok : csp.Ok) (ns : List Node) (i nOpen last : Nat) (s : Search)
    (oks : ∀ v, (s.d v).Ok) (described : allExact csp ns) :
    Quiet csp s (cspOrScan csp ns i nOpen last s).2 ∧
      ∀ m k, (cspOrScan csp ns i nOpen last s).1 = some (m, k) → nOpen ≤ m ∧
        ∀ a, csp.Assignment a → Within a s.d →
          (m = nOpen → k = last ∧ ¬ anyHolds csp a ns) ∧
          (m = nOpen + 1 → ∃ j, k = i + j ∧
            (anyHolds csp a ns → ∀ n, ns[j]? = some n → nodeHolds csp a n)) := by
  induction ns generalizing i nOpen last s with
  | nil =>
    refine ⟨Quiet.refl csp s, fun m k told => ?_⟩
    cases told
    exact ⟨le_refl _, fun a _ _ => ⟨fun _ => ⟨rfl, fun impossible => impossible⟩, fun more => by omega⟩⟩
  | cons n ns ih =>
    obtain ⟨exactHead, exactTail⟩ := described
    have quiet := quiet_cspStatus csp n s
    have sound (a) (assign : csp.Assignment a) (within : Within a s.d) (b : Bool)
        (told : (cspStatus csp n s).1 = some b) := cspStatus_sound ok assign n s b oks within exactHead told
    unfold cspOrScan
    split
    · rename_i t status
      exact ⟨by rwa [status] at quiet, fun m k impossible => nomatch impossible⟩
    · rename_i t status
      rw [status] at quiet sound
      obtain ⟨rest, found⟩ := ih (i + 1) nOpen last t (by rwa [quiet.d]) exactTail
      refine ⟨quiet.trans rest, fun m k told => ?_⟩
      obtain ⟨more, known⟩ := found m k told
      refine ⟨more, fun a assign within => ?_⟩
      obtain ⟨allFalse, one⟩ := known a assign (by rwa [quiet.d])
      have head : ¬ nodeHolds csp a n := fun here =>
        absurd ((sound a assign within false rfl).mp here) (by decide)
      refine ⟨fun same => ⟨(allFalse same).1, fun held => ?_⟩, fun same => ?_⟩
      · exact held.elim head (allFalse same).2
      · obtain ⟨j, rfl, only⟩ := one same
        exact ⟨j + 1, by omega, fun held => only (held.resolve_left head)⟩
    · rename_i t status
      rw [status] at quiet
      obtain ⟨rest, found⟩ := ih (i + 1) (nOpen + 1) i t (by rwa [quiet.d]) exactTail
      refine ⟨quiet.trans rest, fun m k told => ?_⟩
      obtain ⟨more, known⟩ := found m k told
      refine ⟨by omega, fun a assign within => ⟨fun same => by omega, fun same => ?_⟩⟩
      obtain ⟨allFalse, -⟩ := known a assign (by rwa [quiet.d])
      obtain ⟨rfl, others⟩ := allFalse same
      -- No later alternative can hold, so this one does when any does.
      refine ⟨0, rfl, fun held m here => ?_⟩
      cases here
      exact held.resolve_right others

mutual

/-- Enforcing a node loses no assignment that satisfies it, where signs are safe. -/
theorem enforced_node [WordRead] [LawfulWordRead] (ok : csp.Ok) :
    ∀ (n : Node) (s : Search), (∀ v, (s.d v).Ok) → Exact csp n →
      Enforced csp (SafelySatisfies csp n) s (cspEnforce csp n s)
  | .true, s, _, _ => Enforced.quiet (Quiet.refl csp s)
  | .false, s, _, _ => Enforced.refuted (Quiet.refl csp s) fun _ holds _ => holds.2.2
  | .lin .., s, oks, described => (enforced_lin ok described oks).mono fun _ _ holds => holds.2
  | .inside .., s, oks, described => (enforced_inside ok described oks).mono fun _ _ holds => holds.2
  | .allDiff vs, s, oks, _ => (enforced_allDiff vs oks).mono fun _ _ holds => holds.2
  | .pop .., s, oks, described => (enforced_pop described oks).mono fun _ _ holds => holds.2
  | .eval src neg, s, oks, _ => by
    unfold cspEnforce
    split
    · exact enforced_judge ok fun a holds => holds.2.2
    · exact (enforced_evalForward ok src neg oks).mono fun _ _ holds => holds.2
  | .fn .., s, oks, described => enforced_fun ok described oks
  | .and ns, s, oks, described => (enforced_all ok ns s oks described).mono fun _ _ holds => holds
  | .or ns, s, oks, described => by
    obtain ⟨quiet, found⟩ := cspOrScan_spec ok ns 0 0 0 s oks described
    unfold cspEnforce
    split
    · rename_i t scan
      exact Enforced.quiet (by rwa [scan] at quiet)
    · rename_i k t scan
      rw [scan] at quiet found
      refine Enforced.refuted quiet fun a holds within => ?_
      exact (((found 0 k rfl).2 a holds.2.1 within).1 rfl).2 holds.2.2
    · rename_i k t scan
      rw [scan] at quiet found
      refine Enforced.after quiet (Enforced.mono (fun a within holds => ?_)
        (enforced_at ok ns k t (by rwa [quiet.d]) described))
      obtain ⟨j, same, only⟩ := ((found 1 k rfl).2 a holds.2.1 (by rwa [← quiet.d])).2 rfl
      rw [Nat.zero_add] at same
      exact ⟨holds.1, holds.2.1, same ▸ only holds.2.2⟩
    · rename_i m t _ _ scan
      exact Enforced.quiet (by rwa [scan] at quiet)
  | .ite cond ncond thn els, s, oks, described => by
    obtain ⟨exactCond, exactNot, exactThn, exactEls, opposite⟩ := described
    have known {t : Search} (quiet : Quiet csp s t) {n : Node} (exactN : Exact csp n) {b : Bool}
        {a : Nat → Int} (assign : csp.Assignment a) (within : Within a s.d)
        (told : (cspStatus csp n t).1 = some b) : nodeHolds csp a n ↔ b = true :=
      cspStatus_sound ok assign n t b (by rwa [quiet.d]) (by rwa [quiet.d]) exactN told
    have first := quiet_cspStatus csp cond s
    unfold cspEnforce
    split
    · rename_i t status
      rw [status] at first
      refine Enforced.after first (Enforced.mono (fun a within holds => ?_)
        (enforced_node ok thn t (by rwa [first.d]) exactThn))
      have here := (known (Quiet.refl csp s) exactCond holds.2.1 (by rwa [← first.d])
        (congrArg Prod.fst status)).mpr rfl
      exact ⟨holds.1.2.2.1, holds.2.1, (holds.2.2.resolve_right fun other => other.1 here).2⟩
    · rename_i t status
      rw [status] at first
      refine Enforced.after first (Enforced.mono (fun a within holds => ?_)
        (enforced_node ok els t (by rwa [first.d]) exactEls))
      have here : ¬ nodeHolds csp a cond := fun yes => absurd ((known (Quiet.refl csp s) exactCond
        holds.2.1 (by rwa [← first.d]) (congrArg Prod.fst status)).mp yes) (by decide)
      exact ⟨holds.1.2.2.2, holds.2.1, (holds.2.2.resolve_left fun other => here other.1).2⟩
    · rename_i t status
      rw [status] at first
      have second := first.trans (quiet_cspStatus csp thn t)
      split
      · rename_i u statusThn
        rw [statusThn] at second
        refine Enforced.after second (Enforced.mono (fun a within holds => ?_)
          (enforced_node ok ncond u (by rwa [second.d]) exactNot))
        have no : ¬ nodeHolds csp a thn := fun yes => absurd ((known first exactThn holds.2.1
          (by rwa [← second.d]) (congrArg Prod.fst statusThn)).mp yes) (by decide)
        exact ⟨holds.1.2.1, holds.2.1, (opposite a holds.2.1).mpr
          (holds.2.2.resolve_left fun other => no other.2).1⟩
      · rename_i u _ statusThn
        rw [statusThn] at second
        have third := second.trans (quiet_cspStatus csp els u)
        split
        · rename_i w statusEls
          rw [statusEls] at third
          refine Enforced.after third (Enforced.mono (fun a within holds => ?_)
            (enforced_node ok cond w (by rwa [third.d]) exactCond))
          have no : ¬ nodeHolds csp a els := fun yes => absurd ((known second exactEls holds.2.1
            (by rwa [← third.d]) (congrArg Prod.fst statusEls)).mp yes) (by decide)
          exact ⟨holds.1.1, holds.2.1, (holds.2.2.resolve_right fun other => no other.2).1⟩
        · rename_i w _ statusEls
          exact Enforced.quiet (by rwa [statusEls] at third)

/-- Enforcing a conjunction loses no assignment that satisfies it. -/
theorem enforced_all [WordRead] [LawfulWordRead] (ok : csp.Ok) :
    ∀ (ns : List Node) (s : Search), (∀ v, (s.d v).Ok) → allExact csp ns →
      Enforced csp (SafelySatisfiesAll csp ns) s (cspEnforceAll csp ns s)
  | [], s, _, _ => Enforced.quiet (Quiet.refl csp s)
  | n :: ns, s, oks, described => by
    unfold cspEnforceAll
    refine Enforced.andThen (Enforced.mono (fun a _ holds => ?_)
      (enforced_node ok n s oks described.1)) fun step => Enforced.mono (fun a _ holds => ?_)
        (enforced_all ok ns _ (step.ok oks) described.2)
    · exact ⟨holds.1.1, holds.2.1, holds.2.2.1⟩
    · exact ⟨holds.1.2, holds.2.1, holds.2.2.2⟩

/-- Enforcing one alternative loses no assignment that satisfies it. -/
theorem enforced_at [WordRead] [LawfulWordRead] (ok : csp.Ok) :
    ∀ (ns : List Node) (i : Nat) (s : Search), (∀ v, (s.d v).Ok) → allExact csp ns →
      Enforced csp (SafelySatisfiesAt csp ns i) s (cspEnforceAt csp ns i s)
  | [], _, s, _, _ => Enforced.quiet (Quiet.refl csp s)
  | n :: _, 0, s, oks, described =>
    (enforced_node ok n s oks described.1).mono fun _ _ holds =>
      ⟨holds.1.1, holds.2.1, holds.2.2 n rfl⟩
  | _ :: ns, i + 1, s, oks, described =>
    (enforced_at ok ns i s oks described.2).mono fun _ _ holds =>
      ⟨holds.1.2, holds.2.1, fun m here => holds.2.2 m here⟩

end

/-- Over fixed variables the scan of a disjunction leaves no alternative open. -/
theorem cspOrScan_fixed (ok : csp.Ok) (assign : csp.Assignment a) (ns : List Node)
    (i nOpen last : Nat) (s : Search) (oks : ∀ v, (s.d v).Ok) (within : Within a s.d)
    (described : allExact csp ns)
    (fixed : ∀ v ∈ Node.deps.depsList csp ns, s.d v = [(a v, a v)]) :
    ((cspOrScan csp ns i nOpen last s).1 = none → anyHolds csp a ns) ∧
      ∀ m k, (cspOrScan csp ns i nOpen last s).1 = some (m, k) → m = nOpen := by
  induction ns generalizing i nOpen last s with
  | nil =>
    refine ⟨fun impossible => (nomatch impossible), fun m k told => ?_⟩
    cases told
    rfl
  | cons n ns ih =>
    obtain ⟨exactHead, exactTail⟩ := described
    have quiet := quiet_cspStatus csp n s
    have decided : (cspStatus csp n s).1.isSome := cspStatus_decided ok n s within fun v member => by
      rw [fixed v (List.mem_append_left _ member), Dom.fixed_single]
      rfl
    have rest {t : Search} (here : Quiet csp s t) (nOpen' last' : Nat) :=
      ih (i + 1) nOpen' last' t (by rwa [here.d]) (by rwa [here.d]) exactTail fun v member => by
        rw [here.d]
        exact fixed v (List.mem_append_right _ member)
    unfold cspOrScan
    split
    · rename_i t status
      refine ⟨fun _ => .inl ?_, fun m k impossible => (nomatch impossible)⟩
      exact (cspStatus_sound ok assign n s true oks within exactHead (congrArg Prod.fst status)).mpr rfl
    · rename_i t status
      rw [status] at quiet
      obtain ⟨held, noOpen⟩ := rest quiet nOpen last
      exact ⟨fun here => .inr (held here), noOpen⟩
    · rename_i t status
      rw [status] at decided
      cases decided

/-- Fixed variables stay fixed while a node is enforced with success. -/
theorem fixed_enforced [WordRead] [LawfulWordRead] (ok : csp.Ok) (n : Node) (oks : ∀ v, (s.d v).Ok)
    (described : Exact csp n)
    (done : (cspEnforce csp n s).1 = true) {v : Nat} {x : Int} (fixed : s.d v = [(x, x)]) :
    (cspEnforce csp n s).2.d v = [(x, x)] :=
  (enforced_node ok n s oks described).same oks done fixed

/-- An assignment that is left in the domains was in them before. -/
theorem before [WordRead] [LawfulWordRead] (ok : csp.Ok) (n : Node) (oks : ∀ v, (s.d v).Ok) (described : Exact csp n)
    (after : Within a (cspEnforce csp n s).2.d) : Within a s.d :=
  fun v => (enforced_node ok n s oks described).step.shrink v _ (after v)

mutual

/-- Over fixed variables a node is enforced with success only where it holds. -/
theorem settled_node [WordRead] [LawfulWordRead] (ok : csp.Ok) (assign : csp.Assignment a) :
    ∀ (n : Node) (s : Search), (∀ v, (s.d v).Ok) → Exact csp n →
      (∀ v ∈ n.deps csp, s.d v = [(a v, a v)]) → (cspEnforce csp n s).1 = true →
      Within a (cspEnforce csp n s).2.d → nodeHolds csp a n
  | .true, _, _, _, _, _, _ => trivial
  | .false, _, _, _, _, done, _ => nomatch done
  | .lin .., s, oks, described, fixed, done, after =>
    settled_lin ok described assign oks (before ok _ oks described after) fixed done
  | .inside .., s, oks, described, fixed, done, after =>
    settled_inside ok described assign oks (before ok _ oks described after) fixed done
  | .allDiff _, s, oks, described, fixed, done, after =>
    settled_allDiff (before ok _ oks described after) fixed done
  | .pop x c _, s, oks, _, fixed, done, _ =>
    settled_pop oks (fixed x (by simp [Node.deps])) (fixed c (by simp [Node.deps])) done
  | .eval src neg, s, oks, described, fixed, done, after => by
    have within := before ok (.eval src neg) oks described after
    unfold cspEnforce at done
    rw [if_pos (srcFixed_of ok fixed)] at done
    exact settled_judge ok within fixed done
  | .fn var op other whole neg, s, oks, described, fixed, done, after =>
    settled_fun ok (before ok (.fn var op other whole neg) oks described after) fixed done
  | .and ns, s, oks, described, fixed, done, after =>
    settled_all ok assign ns s oks described fixed done after
  | .or ns, s, oks, described, fixed, done, after => by
    have within := before ok (.or ns) oks described after
    obtain ⟨held, noOpen⟩ := cspOrScan_fixed ok assign ns 0 0 0 s oks within described fixed
    unfold cspEnforce at done
    split at done
    · rename_i t scan
      exact held (congrArg Prod.fst scan)
    · cases done
    · rename_i k t scan
      cases noOpen 1 k (congrArg Prod.fst scan)
    · rename_i m t no _ scan
      obtain ⟨m, k⟩ := m
      exact (no k (Prod.ext (noOpen m k (congrArg Prod.fst scan)) rfl)).elim
  | .ite cond ncond thn els, s, oks, described, fixed, done, after => by
    have within := before ok (.ite cond ncond thn els) oks described after
    obtain ⟨exactCond, -, exactThn, exactEls, -⟩ := described
    have onDeps (v : Nat) (member : v ∈ cond.deps csp ∨ v ∈ thn.deps csp ∨ v ∈ els.deps csp) :
        s.d v = [(a v, a v)] := fixed v (by simpa [Node.deps, or_assoc] using member)
    have first := quiet_cspStatus csp cond s
    have sound (b : Bool) := cspStatus_sound ok assign cond s b oks within exactCond
    -- A condition over fixed variables is decided.
    have decided : (cspStatus csp cond s).1.isSome := cspStatus_decided ok cond s within
      fun v member => by
        rw [onDeps v (.inl member), Dom.fixed_single]
        rfl
    rcases status : cspStatus csp cond s with ⟨r, t⟩
    rw [status] at first decided sound
    cases r with
    | none => cases decided
    | some b =>
      cases b with
      | true =>
        have run : cspEnforce csp (.ite cond ncond thn els) s = cspEnforce csp thn t := by
          rw [cspEnforce, status]
        rw [run] at done after
        refine .inl ⟨(sound true rfl).mpr rfl, settled_node ok assign thn t (by rwa [first.d])
          exactThn (fun v member => ?_) done after⟩
        rw [first.d]
        exact onDeps v (.inr (.inl member))
      | false =>
        have run : cspEnforce csp (.ite cond ncond thn els) s = cspEnforce csp els t := by
          rw [cspEnforce, status]
        rw [run] at done after
        refine .inr ⟨fun yes => absurd ((sound false rfl).mp yes) (by decide),
          settled_node ok assign els t (by rwa [first.d]) exactEls (fun v member => ?_) done after⟩
        rw [first.d]
        exact onDeps v (.inr (.inr member))

/-- Over fixed variables a conjunction is enforced with success only where it holds. -/
theorem settled_all [WordRead] [LawfulWordRead] (ok : csp.Ok) (assign : csp.Assignment a) :
    ∀ (ns : List Node) (s : Search), (∀ v, (s.d v).Ok) → allExact csp ns →
      (∀ v ∈ Node.deps.depsList csp ns, s.d v = [(a v, a v)]) →
      (cspEnforceAll csp ns s).1 = true → Within a (cspEnforceAll csp ns s).2.d → allHold csp a ns
  | [], _, _, _, _, _, _ => trivial
  | n :: ns, s, oks, described, fixed, done, after => by
    have step := (enforced_node ok n s oks described.1).step
    rcases first : cspEnforce csp n s with ⟨b, t⟩
    cases b with
    | false =>
      have run : cspEnforceAll csp (n :: ns) s = (false, t) := by rw [cspEnforceAll, first]
      rw [run] at done
      cases done
    | true =>
      have run : cspEnforceAll csp (n :: ns) s = cspEnforceAll csp ns t := by
        rw [cspEnforceAll, first]
      rw [run] at done after
      have yes : (cspEnforce csp n s).1 = true := congrArg Prod.fst first
      rw [first] at step
      have still (v : Nat) (x : Int) (fixedTo : s.d v = [(x, x)]) : t.d v = [(x, x)] := by
        have := fixed_enforced ok n oks described.1 yes fixedTo
        rwa [first] at this
      have between : Within a t.d := fun v =>
        (enforced_all ok ns t (step.ok oks) described.2).step.shrink v _ (after v)
      exact ⟨settled_node ok assign n s oks described.1
          (fun v member => fixed v (List.mem_append_left _ member)) yes (by rwa [first]),
        settled_all ok assign ns t (step.ok oks) described.2
          (fun v member => still v _ (fixed v (List.mem_append_right _ member))) done after⟩

end

end Xezim
