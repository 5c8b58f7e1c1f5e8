import Xezim.TwoState.FusionLaws

/-! Where the turns of the fusing loop start, in the stream and in the fused stream. -/

namespace Xezim

/-- A turn fuses by the rules. -/
def FuseTurn.Ok : FuseTurn → Prop
  | .keep _ => True
  | .pair a b f => fusePair a b = some f
  | .triple a b c f g => fuseTriple a b c = some (f, g)

section Loop

variable {tgt : Nat → Bool} {fuel i p : Nat} {a : TsInsn} {rest l : List TsInsn}

/-- What a turn relies on: it takes the next instructions, by the rules, and none but the first is a
branch target. -/
structure FuseTurn.Starts (tgt : Nat → Bool) (i : Nat) (l : List TsInsn) (turn : FuseTurn) : Prop where
  ok : turn.Ok
  takes : turn.taken ++ l.drop turn.taken.length = l
  apart : ∀ k, 0 < k → k < turn.taken.length → tgt (i + k) = false

/-- A turn consumes at least one instruction. -/
theorem FuseTurn.taken_pos (turn : FuseTurn) : 0 < turn.taken.length := by
  cases turn <;> simp [taken]

/-- A turn writes one entry of `new_of` for each instruction it consumes. -/
theorem FuseTurn.length_newOf (turn : FuseTurn) (j : Nat) :
    (turn.newOf j).length = turn.taken.length := by
  cases turn <;> rfl

/-- The first entry a turn writes is where its own instructions start. -/
theorem FuseTurn.newOf_head (turn : FuseTurn) (j : Nat) : (turn.newOf j)[0]? = some j := by
  cases turn <;> rfl

/-- An instruction kept as it is. -/
theorem starts_keep : (FuseTurn.keep a).Starts tgt i (a :: rest) where
  ok := trivial
  takes := rfl
  apart k pos below := by simp [FuseTurn.taken] at below; omega

/-- A pair fused where its second half is no target. -/
theorem starts_pair {b f : TsInsn} (fused : (if tgt (i + 1) = false then fusePair a b else none) = some f) :
    (FuseTurn.pair a b f).Starts tgt i (a :: b :: rest) := by
  split at fused
  case isFalse => cases fused
  case isTrue free =>
    refine ⟨fused, rfl, fun k pos below => ?_⟩
    obtain rfl : k = 1 := by simp [FuseTurn.taken] at below; omega
    exact free

/-- Every turn of the loop is one. -/
theorem fuseTurn_starts : (fuseTurn tgt i a rest).Starts tgt i (a :: rest) := by
  unfold fuseTurn
  split
  · split
    · rename_i b c rest f g fused
      split at fused
      case isFalse => cases fused
      case isTrue free =>
        refine ⟨fused, rfl, fun k pos below => ?_⟩
        have : k = 1 ∨ k = 2 := by simp [FuseTurn.taken] at below; omega
        rcases this with rfl | rfl
        · exact free.1
        · exact free.2
    · split
      · exact starts_pair ‹_›
      · exact starts_keep
  · split
    · exact starts_pair ‹_›
    · exact starts_keep
  · exact starts_keep

/-- Turns that fuse a stream from a position on. -/
inductive Fuses (tgt : Nat → Bool) : Nat → List TsInsn → List FuseTurn → Prop
  | nil (i : Nat) : Fuses tgt i [] []
  | cons {i : Nat} {l left : List TsInsn} {turn : FuseTurn} {turns : List FuseTurn} :
      turn.Starts tgt i l → l = turn.taken ++ left →
      Fuses tgt (i + turn.taken.length) left turns → Fuses tgt i l (turn :: turns)

/-- The loop fuses the stream it is given. -/
theorem fuseFrom_fuses (enough : l.length ≤ fuel) : Fuses tgt i l (fuseFrom tgt fuel i l) := by
  induction fuel generalizing i l with
  | zero =>
    cases l with
    | nil => exact .nil i
    | cons a rest => simp at enough
  | succ fuel ih =>
    cases l with
    | nil => exact .nil i
    | cons a rest =>
      have starts := @fuseTurn_starts tgt i a rest
      have pos := (fuseTurn tgt i a rest).taken_pos
      refine .cons starts starts.takes.symm (ih ?_)
      simp only [List.length_drop, List.length_cons] at enough ⊢
      omega

variable {turns : List FuseTurn}

/-- The turns take the whole stream. -/
theorem Fuses.taken (fuses : Fuses tgt i l turns) : turns.flatMap FuseTurn.taken = l := by
  induction fuses with
  | nil _ => rfl
  | cons _ split _ ih => rw [List.flatMap_cons, ih, ← split]

/-- Every turn fuses by the rules. -/
theorem Fuses.ok (fuses : Fuses tgt i l turns) : ∀ turn ∈ turns, turn.Ok := by
  induction fuses with
  | nil _ => simp
  | cons starts _ _ ih => exact List.forall_mem_cons.mpr ⟨starts.ok, ih⟩

/-- A branch target is where some turn starts, or the end. -/
theorem Fuses.boundary (fuses : Fuses tgt i l turns) (low : i ≤ p) (high : p ≤ i + l.length)
    (target : tgt p = true ∨ p = i + l.length) :
    ∃ pre post, turns = pre ++ post ∧ p = i + (pre.flatMap FuseTurn.taken).length := by
  induction fuses with
  | nil i => exact ⟨[], [], rfl, by simp at high ⊢; omega⟩
  | @cons i l left turn turns starts split fuses ih =>
    by_cases first : p = i
    · exact ⟨[], turn :: turns, rfl, by simp [first]⟩
    · have length := congrArg List.length split
      simp only [List.length_append] at length
      -- Inside the turn there is no target.
      have past : i + turn.taken.length ≤ p := by
        by_contra inside
        rcases target with target | rfl
        · have free := starts.apart (p - i) (by omega) (by omega)
          rw [Nat.add_sub_cancel' low, target] at free
          cases free
        · omega
      obtain ⟨pre, post, rfl, offset⟩ := ih past (by omega) (target.imp_right fun last => by omega)
      refine ⟨turn :: pre, post, rfl, ?_⟩
      rw [List.flatMap_cons, List.length_append, offset]
      omega

end Loop

section Positions

variable {pre post turns : List FuseTurn} {j : Nat}

/-- `new_of` sends the start of a turn to where its instructions start. -/
theorem newOfFrom_start (j : Nat) (pre post : List FuseTurn) :
    (newOfFrom j (pre ++ post))[(pre.flatMap FuseTurn.taken).length]? =
      some (j + (pre.flatMap FuseTurn.pushed).length) := by
  induction pre generalizing j with
  | nil =>
    cases post with
    | nil => rfl
    | cons turn post =>
      have head := turn.newOf_head j
      have inside := (List.getElem?_eq_some_iff.mp head).1
      simp only [List.nil_append, newOfFrom, List.flatMap_nil, List.length_nil, Nat.add_zero]
      rw [List.getElem?_append_left inside, head]
  | cons turn pre ih =>
    simp only [List.cons_append, newOfFrom, List.flatMap_cons, List.length_append]
    rw [List.getElem?_append_right (by rw [turn.length_newOf]; omega), turn.length_newOf,
      Nat.add_sub_cancel_left, ih, Nat.add_assoc]

/-- Where a run of the stream and one of the fused stream stand together: before the same turn, or both
past the end. -/
def Meet (turns : List FuseTurn) (pc pc' : Nat) : Prop :=
  ∃ pre post, turns = pre ++ post ∧ pc' = (pre.flatMap FuseTurn.pushed).length ∧
    (pc = (pre.flatMap FuseTurn.taken).length ∨
      post = [] ∧ (turns.flatMap FuseTurn.taken).length ≤ pc)

/-- The runs stand together before the first turn. -/
theorem meet_start (turns : List FuseTurn) : Meet turns 0 0 := ⟨[], turns, rfl, rfl, .inl rfl⟩

/-- They stand together after a turn. -/
theorem meet_next {turn : FuseTurn} {k k' : Nat} (turns_eq : turns = pre ++ turn :: post)
    (k_eq : k = (pre.flatMap FuseTurn.taken).length + turn.taken.length)
    (k'_eq : k' = (pre.flatMap FuseTurn.pushed).length + turn.pushed.length) : Meet turns k k' := by
  refine ⟨pre ++ [turn], post, by simp [turns_eq], ?_, .inl ?_⟩
  · simp [k'_eq]
  · simp [k_eq]

/-- An instruction of the stream that a turn takes. -/
theorem taken_at {turn : FuseTurn} (turns_eq : turns = pre ++ turn :: post) {k : Nat}
    (inside : k < turn.taken.length) :
    (turns.flatMap FuseTurn.taken)[(pre.flatMap FuseTurn.taken).length + k]? = turn.taken[k]? := by
  rw [turns_eq, List.flatMap_append, List.getElem?_append_right (by omega), Nat.add_sub_cancel_left,
    List.flatMap_cons, List.getElem?_append_left inside]

/-- An instruction of the fused stream that a turn pushes. -/
theorem pushed_at {turn : FuseTurn} (turns_eq : turns = pre ++ turn :: post) {k : Nat}
    (inside : k < turn.pushed.length) :
    (turns.flatMap FuseTurn.pushed)[(pre.flatMap FuseTurn.pushed).length + k]? = turn.pushed[k]? := by
  rw [turns_eq, List.flatMap_append, List.getElem?_append_right (by omega), Nat.add_sub_cancel_left,
    List.flatMap_cons, List.getElem?_append_left inside]

end Positions

section Streams

variable {insns : List TsInsn} {insn : TsInsn} {t : Nat}

/-- An opcode that only fusion, or a pass after it, emits with a branch target. -/
def TsInsn.branchesFused : TsInsn → Bool
  | .loadSigBrNz .. | .brFalseLoadSig .. | .eqBrFalse .. | .jmpPoll _ => true
  | _ => false

/-- The turns of a stream fuse it. -/
theorem fuseTurns_fuses (insns : List TsInsn) : Fuses (isTgt insns) 0 insns (fuseTurns insns) :=
  fuseFrom_fuses (Nat.le_refl _)

/-- The targets an instruction can branch to are looked at. -/
theorem TsInsn.marked_of_targets (fresh : insn.branchesFused = false) (target : t ∈ insn.targets) :
    t ∈ insn.marked := by
  cases insn
  -- The case tables are looked at with their fallbacks.
  case caseJmp s cj => simpa [targets, marked, or_comm] using target
  case caseMaskJmp s cm => exact List.mem_append_left _ target
  all_goals first | exact target | cases fresh

/-- Every branch leads to where a turn starts, or past the end, and `new_of` says where that is. -/
theorem meet_target (fresh : insn.branchesFused = false) (member : insn ∈ insns)
    (target : t ∈ insn.targets) : Meet (fuseTurns insns) t (newTarget insns t) := by
  have fuses := fuseTurns_fuses insns
  have marked : isTgt insns t = true := by
    simp only [isTgt, List.any_eq_true, List.contains_iff_mem]
    exact ⟨insn, member, insn.marked_of_targets fresh target⟩
  have boundary := fuses.boundary (p := min t insns.length) (by omega) (by omega) (by
    rcases Nat.le_total t insns.length with le | le
    · exact .inl (by rwa [Nat.min_eq_left le])
    · exact .inr (by omega))
  obtain ⟨pre, post, turns_eq, offset⟩ := boundary
  have start := newOfFrom_start 0 pre post
  rw [Nat.zero_add] at offset start
  refine ⟨pre, post, turns_eq, ?_, ?_⟩
  · rw [newTarget, List.getD_eq_getElem?_getD, turns_eq, offset, start]
    rfl
  · rcases Nat.lt_or_ge t insns.length with below | past
    · exact .inl (by omega)
    · -- Nothing is left to take past the end.
      have all : (fuseTurns insns).flatMap FuseTurn.taken = insns := fuses.taken
      have length := congrArg List.length all
      rw [turns_eq, List.flatMap_append, List.length_append] at length
      cases post with
      | nil => exact .inr ⟨rfl, by rwa [all]⟩
      | cons turn post =>
        have pos := turn.taken_pos
        rw [List.flatMap_cons, List.length_append] at length
        omega

end Streams

end Xezim
