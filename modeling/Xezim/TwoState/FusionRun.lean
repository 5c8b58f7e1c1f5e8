import Xezim.Reference
import Xezim.TwoState.FusionLayout

/-! A fused stream runs as the stream it came from. -/

namespace Xezim

open Lockstep

section Simulation

variable {insns : List TsInsn} {c c' d d' : Cfg Regs}

/-- The fused stream of a stream that some rule applies to. -/
def fusedStream (insns : List TsInsn) : List TsInsn :=
  ((fuseTurns insns).flatMap FuseTurn.pushed).map (TsInsn.retarget (newTarget insns))

/-- Two configurations with the same signals, queue and saves, after the same store calls and stop
requests. -/
structure Beside (insns : List TsInsn) (c c' : Cfg Regs) : Prop where
  sim : c'.sim = c.sim
  ops : c'.ops.map StoreOp.plain = c.ops.map StoreOp.plain
  asked : asked (fusedStream insns) c'.pcs = asked insns c.pcs

/-- Configurations before the same turn, with the same registers. -/
structure Meets (insns : List TsInsn) (c c' : Cfg Regs) : Prop extends Beside insns c c' where
  turn : Meet (fuseTurns insns) c.pc c'.pc
  regs : c'.regs = c.regs

/-- Runs that end the same way. -/
structure SameEnd (last : Cfg Regs) (e : Ending) (last' : Cfg Regs) (e' : Ending) : Prop where
  ending : e' = e
  sim : last'.sim = last.sim
  ops : last'.ops.map StoreOp.plain = last.ops.map StoreOp.plain
  /-- Registers are looked at again only where the stream was run to its end. -/
  regs : e = .done → last'.regs = last.regs

/-- The stream stopped on data with x or z bits that the fused one is about to queue. -/
structure QueuesUnknown [ValueOps] (fused : List TsInsn) (last : Cfg Regs) (e : Ending) (c' : Cfg Regs) : Prop where
  ending : e = .xbail
  sim : c'.sim = last.sim
  ops : c'.ops.map StoreOp.plain = last.ops.map StoreOp.plain
  store : ∃ f, fused[c'.pc]? = some (.elemStoreNbaFromSig f) ∧ (c'.sim.sigPlanes f.sig).2 ≠ 0#64

/-- Where a turn stands in both streams. -/
structure TurnAt (insns : List TsInsn) (turn : FuseTurn) (pc pc' : Nat) : Prop where
  ok : turn.Ok
  taken : ∀ k < turn.taken.length, insns[pc + k]? = turn.taken[k]?
  pushed : ∀ k < turn.pushed.length,
    (fusedStream insns)[pc' + k]? = (turn.pushed[k]?).map (TsInsn.retarget (newTarget insns))
  next : Meet (fuseTurns insns) (pc + turn.taken.length) (pc' + turn.pushed.length)

/-- Two runs about to start meet. -/
theorem meets_start (insns : List TsInsn) (regs : Regs) (s : Sim) :
    Meets insns (Cfg.start regs s) (Cfg.start regs s) where
  sim := rfl
  ops := rfl
  asked := rfl
  turn := meet_start _
  regs := rfl

/-- Configurations that meet stand before a turn, or both past the end. -/
theorem Meets.turn_or_end (meets : Meets insns c c') :
    (∃ turn, TurnAt insns turn c.pc c'.pc) ∨
      insns[c.pc]? = none ∧ (fusedStream insns)[c'.pc]? = none := by
  -- The turns left over say where both streams stand; no turn left means both have ended.
  have fuses := fuseTurns_fuses insns
  obtain ⟨pre, post, turns_eq, pcPushed, pcTaken⟩ := meets.turn
  cases post with
  | nil =>
    refine .inr ⟨List.getElem?_eq_none ?_, List.getElem?_eq_none ?_⟩
    · have all := congrArg List.length fuses.taken
      rw [List.append_nil] at turns_eq
      rcases pcTaken with pcTaken | ⟨-, past⟩
      · rw [pcTaken, ← turns_eq, all]
      · rwa [← all]
    · rw [List.append_nil] at turns_eq
      rw [pcPushed, fusedStream, List.length_map, turns_eq]
  | cons turn post =>
    rcases pcTaken with pcTaken | ⟨nil, -⟩
    case inr => cases nil
    refine .inl ⟨turn, fuses.ok turn (by simp [turns_eq]), fun k inside => ?_, fun k inside => ?_, ?_⟩
    · have here := taken_at turns_eq inside
      rwa [fuses.taken, ← pcTaken] at here
    · rw [fusedStream, List.getElem?_map, pcPushed, pushed_at turns_eq inside]
    · exact meet_next turns_eq (by rw [pcTaken]) (by rw [pcPushed])

variable [ValueOps] {D : Design} {answers : Nat → Bool}

/-- The same outcome, its target renumbered, leads on alike. -/
theorem resume_both {insn insn' : TsInsn} {out out' : TsOutcome} (beside : Beside insns d d')
    (here : insns[d.pc]? = some insn) (here' : (fusedStream insns)[d'.pc]? = some insn')
    (polls : insn'.polls = insn.polls)
    (falls : ∀ r op, out = .next r op → Meet (fuseTurns insns) (d.pc + 1) (d'.pc + 1))
    (jumps : ∀ r t, out = .jump r t → Meet (fuseTurns insns) t (newTarget insns t))
    (same : out'.plain = (out.retarget (newTarget insns)).plain) :
    (∃ c c', d.resume D out = .inl c ∧ d'.resume D out' = .inl c' ∧ Meets insns c c') ∨
      ∃ e, d.resume D out = .inr e ∧ d'.resume D out' = .inr e ∧ e ≠ .done := by
  have count : asked (fusedStream insns) (d'.pcs ++ [d'.pc]) = asked insns (d.pcs ++ [d.pc]) := by
    rw [asked_append here, asked_append here', polls, beside.asked]
  cases out with
  | next r op =>
    cases out' <;> simp only [TsOutcome.plain, TsOutcome.retarget, reduceCtorEq] at same
    case next r' op' =>
      simp only [TsOutcome.next.injEq] at same
      obtain ⟨rfl, plain⟩ := same
      refine .inl ⟨_, _, rfl, rfl, ⟨⟨?_, ?_, count⟩, falls _ _ rfl, rfl⟩⟩
      · -- A call and its plain form do the same.
        simp only [Cfg.after, beside.sim]
        cases op <;> cases op' <;> simp_all
        rename_i op op'
        rw [← op'.apply_plain, plain, op.apply_plain]
      · simp only [Cfg.after, List.map_append, beside.ops]
        cases op <;> cases op' <;> simp_all
  | jump r t =>
    cases out' <;> simp only [TsOutcome.plain, TsOutcome.retarget, reduceCtorEq] at same
    case jump r' t' =>
      simp only [TsOutcome.jump.injEq] at same
      obtain ⟨rfl, rfl⟩ := same
      refine .inl ⟨_, _, rfl, rfl, ⟨⟨beside.sim, ?_, count⟩, jumps _ _ rfl, rfl⟩⟩
      simp [Cfg.after, beside.ops]
  | bail | xbail | leave | unreachable =>
    cases out' <;> simp only [TsOutcome.plain, TsOutcome.retarget, reduceCtorEq] at same
    exact .inr ⟨_, rfl, rfl, by decide⟩

/-- What a turn of the fusing loop does to the runs of the two streams. -/
abbrev FuseStep (D : Design) (insns : List TsInsn) (answers : Nat → Bool) (c c' : Cfg Regs) : Prop :=
  Turn (ctrlStep D insns answers) (ctrlStep D (fusedStream insns) answers) (Meets insns) SameEnd
    (QueuesUnknown (fusedStream insns)) c c'

/-- The last instructions of a turn, with the same outcome, complete it. -/
theorem fuseStep_of_last {insn insn' : TsInsn} {out out' : TsOutcome} {m n : Nat}
    (left : Steps (ctrlStep D insns answers) m c d)
    (right : Steps (ctrlStep D (fusedStream insns) answers) n c' d') (beside : Beside insns d d')
    (here : insns[d.pc]? = some insn) (here' : (fusedStream insns)[d'.pc]? = some insn')
    (polls : insn'.polls = insn.polls)
    (falls : ∀ r op, out = .next r op → Meet (fuseTurns insns) (d.pc + 1) (d'.pc + 1))
    (jumps : ∀ r t, out = .jump r t → Meet (fuseTurns insns) t (newTarget insns t))
    (outcome : tsStep d.sim (answers (asked insns d.pcs)) d.regs insn = out)
    (outcome' : tsStep d'.sim (answers (asked (fusedStream insns) d'.pcs)) d'.regs insn' = out')
    (same : out'.plain = (out.retarget (newTarget insns)).plain) : FuseStep D insns answers c c' := by
  -- Both sides take their last step together, so resuming them either meets again or ends both.
  have step : ctrlStep D insns answers d = d.resume D out := by rw [ctrlStep_at here, outcome]
  have step' : ctrlStep D (fusedStream insns) answers d' = d'.resume D out' := by
    rw [ctrlStep_at here', outcome']
  rcases resume_both (D := D) beside here here' polls falls jumps same with
    ⟨e, e', on, on', meets⟩ | ⟨e, ends, ends', early⟩
  · exact .on (left.trans (.one (step.trans on))) (right.trans (.one (step'.trans on'))) meets
  · exact .ends left (step.trans ends) right (step'.trans ends')
      ⟨rfl, beside.sim, beside.ops, fun done => absurd done early⟩

/-- A kept instruction leads on alike. -/
theorem fuseStep_keep {a : TsInsn} (fresh : ∀ insn ∈ insns, insn.branchesFused = false)
    (meets : Meets insns c c') (placed : TurnAt insns (.keep a) c.pc c'.pc) :
    FuseStep D insns answers c c' := by
  -- A kept instruction is the same on both sides up to its retargeted jump.
  have here : insns[c.pc]? = some a := placed.taken 0 Nat.one_pos
  have here' : (fusedStream insns)[c'.pc]? = some (a.retarget (newTarget insns)) :=
    placed.pushed 0 Nat.one_pos
  have member := List.mem_of_getElem? here
  have polled : ∀ t, a ≠ .jmpPoll t := by
    rintro t rfl
    cases fresh _ member
  refine fuseStep_of_last (.refl c) (.refl c') meets.toBeside here here' (a.polls_retarget _)
    (fun _ _ _ => placed.next) (fun r t jump => ?_) rfl rfl ?_
  · exact meet_target (fresh a member) member (tsStep_jump_mem jump)
  · rw [meets.asked, meets.sim, meets.regs, tsStep_retarget _ polled]

/-- A straight step that makes no store call keeps configurations side by side. -/
theorem Beside.skip {a : TsInsn} (beside : Beside insns c c') (here : insns[c.pc]? = some a)
    (quiet : a.polls = false) (r : Regs) : Beside insns (c.after D (c.pc + 1) r none) c' where
  sim := beside.sim
  ops := by simp [Cfg.after, beside.ops]
  asked := beside.asked.trans (asked_quiet here quiet).symm

/-- So does one of the fused stream. -/
theorem Beside.skip_fused {a : TsInsn} (beside : Beside insns c c')
    (here : (fusedStream insns)[c'.pc]? = some a) (quiet : a.polls = false) (r : Regs) :
    Beside insns c (c'.after D (c'.pc + 1) r none) where
  sim := beside.sim
  ops := by simp [Cfg.after, beside.ops]
  asked := (asked_quiet here quiet).trans beside.asked

/-- A fused pair leads on as its parts, unless it is an element store. -/
theorem fuseStep_pair {a b f : TsInsn} (fresh : ∀ insn ∈ insns, insn.branchesFused = false)
    (meets : Meets insns c c') (placed : TurnAt insns (.pair a b f) c.pc c'.pc)
    (data : ∀ g, f ≠ .elemStoreNbaFromSig g) : FuseStep D insns answers c c' := by
  have fused : fusePair a b = some f := placed.ok
  obtain ⟨opens, quietA, quietB, quietF⟩ := fusePair_opens fused
  have hereA : insns[c.pc]? = some a := placed.taken 0 (by simp [FuseTurn.taken])
  have hereB : insns[c.pc + 1]? = some b := placed.taken 1 (by simp [FuseTurn.taken])
  have here' : (fusedStream insns)[c'.pc]? = some (f.retarget (newTarget insns)) :=
    placed.pushed 0 Nat.one_pos
  have memberA := List.mem_of_getElem? hereA
  have memberB := List.mem_of_getElem? hereB
  have polled : ∀ t, f ≠ .jmpPoll t := by
    rintro t rfl
    cases quietF
  have quiet' : (f.retarget (newTarget insns)).polls = false := by rw [TsInsn.polls_retarget, quietF]
  have law := fusePair_step (s := c.sim) (p := answers (asked (fusedStream insns) c'.pcs))
    (q := answers (asked insns c.pcs)) (u := answers (asked insns (c.pcs ++ [c.pc]))) fused data c.regs
  have law' := tsStep_retarget (s := c.sim) (p := answers (asked (fusedStream insns) c'.pcs))
    (r := c.regs) (newTarget insns) polled
  rw [law] at law'
  cases first : tsStep c.sim (answers (asked insns c.pcs)) c.regs a with
  | next r op =>
    obtain rfl := tsStep_opensPair opens first
    have step : ctrlStep D insns answers c = .inl (c.after D (c.pc + 1) r none) := by
      rw [ctrlStep_at hereA, first]
      rfl
    refine fuseStep_of_last (.one step) (.refl c') (meets.toBeside.skip hereA quietA r) hereB here'
      (by rw [quiet', quietB]) (fun _ _ _ => placed.next) (fun r t jump => ?_) rfl rfl ?_
    · exact meet_target (fresh b memberB) memberB (tsStep_jump_mem jump)
    · rw [meets.sim, meets.regs, law', first]
      rfl
  | jump r t =>
    -- The first half branches away, and the fused pair with it.
    refine fuseStep_of_last (.refl c) (.refl c') meets.toBeside hereA here' (by rw [quiet', quietA])
      (by simp) (fun r' t' jump => ?_) first rfl ?_
    · cases jump
      exact meet_target (fresh a memberA) memberA (tsStep_jump_mem first)
    · rw [meets.sim, meets.regs, law', first]
      rfl
  | bail | xbail | leave | unreachable =>
    refine fuseStep_of_last (.refl c) (.refl c') meets.toBeside hereA here' (by rw [quiet', quietA])
      (by simp) (by simp) first rfl ?_
    rw [meets.sim, meets.regs, law', first]
    rfl

/-- A load without x bits is a step. -/
theorem ctrlStep_load {insns : List TsInsn} {dl sig : Nat} (here : insns[c.pc]? = some (.loadSig dl sig))
    (clean : (c.sim.sigPlanes sig).2 = 0#64) :
    ctrlStep D insns answers c =
      .inl (c.after D (c.pc + 1) (setReg c.regs dl (c.sim.sigPlanes sig).1) none) := by
  rw [ctrlStep_at here, loadSig_clean clean]
  rfl

/-- A load with x bits ends the run. -/
theorem ctrlStep_load_unknown {insns : List TsInsn} {dl sig : Nat}
    (here : insns[c.pc]? = some (.loadSig dl sig)) (unknown : (c.sim.sigPlanes sig).2 ≠ 0#64) :
    ctrlStep D insns answers c = .inr .xbail := by
  rw [ctrlStep_at here, loadSig_unknown unknown]
  rfl

/-- A fused element store leads on as its parts, or queues data that the load would have stopped on. -/
theorem fuseStep_elemStore {a b : TsInsn} {g : TsElemStoreFromSig} (meets : Meets insns c c')
    (placed : TurnAt insns (.pair a b (.elemStoreNbaFromSig g)) c.pc c'.pc) :
    FuseStep D insns answers c c' := by
  obtain ⟨op, rfl, rfl, same, rfl⟩ := fusePair_elemStore placed.ok
  have hereA : insns[c.pc]? = some (.loadSig g.dl g.sig) := placed.taken 0 (by simp [FuseTurn.taken])
  have hereB : insns[c.pc + 1]? = some (.elemStoreNba g.op) := placed.taken 1 (by simp [FuseTurn.taken])
  have here' : (fusedStream insns)[c'.pc]? = some (.elemStoreNbaFromSig g) := placed.pushed 0 Nat.one_pos
  -- With known planes the load feeds the store; an x plane ends the run after one of the two parts.
  by_cases clean : (c.sim.sigPlanes g.sig).2 = 0#64
  · refine fuseStep_of_last (.one (ctrlStep_load hereA clean)) (.refl c')
      (meets.toBeside.skip hereA rfl _) hereB here' rfl (fun _ _ _ => placed.next) (fun r t jump => ?_) rfl rfl ?_
    · have jumped := tsStep_jump_mem jump
      cases jumped
    · rw [meets.sim, meets.regs, tsStep_straight rfl]
      exact elemStoreNbaFromSig_step same clean c.regs
  · exact .parts (.refl c) (ctrlStep_load_unknown hereA clean) (.refl c')
      ⟨rfl, meets.sim, meets.ops, g, here', by rwa [meets.sim]⟩

/-- A stream stores no element whose data and index are loaded, one after the other, into one register. -/
def LoadsApart (insns : List TsInsn) : Prop :=
  ∀ i d sig1 sig2 op, insns[i]? = some (.loadSig d sig1) → insns[i + 1]? = some (.loadSig d sig2) →
    insns[i + 2]? = some (.elemStoreNba op) → op.s = d → op.idx ≠ d

/-- A fused triple leads on as its parts, or queues data that the load would have stopped on. -/
theorem fuseStep_triple {a b b' f g : TsInsn} (apart : LoadsApart insns) (meets : Meets insns c c')
    (placed : TurnAt insns (.triple a b b' f g) c.pc c'.pc) : FuseStep D insns answers c c' := by
  obtain ⟨d1, sig1, d2, sig2, op, rfl, rfl, rfl, data, index, rfl, rfl⟩ := fuseTriple_eq placed.ok
  have hereA : insns[c.pc]? = some (.loadSig d1 sig1) := placed.taken 0 (by simp [FuseTurn.taken])
  have hereB : insns[c.pc + 1]? = some (.loadSig d2 sig2) := placed.taken 1 (by simp [FuseTurn.taken])
  have hereC : insns[c.pc + 2]? = some (.elemStoreNba op) := placed.taken 2 (by simp [FuseTurn.taken])
  have hereF : (fusedStream insns)[c'.pc]? = some (.loadSig d2 sig2) :=
    placed.pushed 0 (by simp [FuseTurn.pushed])
  have hereG : (fusedStream insns)[c'.pc + 1]? = some (.elemStoreNbaFromSig ⟨sig1, d1, op⟩) :=
    placed.pushed 1 (by simp [FuseTurn.pushed])
  have ne : d1 ≠ d2 := by
    rintro rfl
    exact apart c.pc d1 sig1 sig2 op hereA hereB hereC data index
  by_cases index_clean : (c.sim.sigPlanes sig2).2 = 0#64
  · have stepF : ctrlStep D (fusedStream insns) answers c' = _ :=
      ctrlStep_load hereF (by rwa [meets.sim])
    by_cases clean : (c.sim.sigPlanes sig1).2 = 0#64
    · let d := c.after D (c.pc + 1) (setReg c.regs d1 (c.sim.sigPlanes sig1).1) none
      have stepA : ctrlStep D insns answers c = .inl d := ctrlStep_load hereA clean
      have stepB : ctrlStep D insns answers d = _ := ctrlStep_load hereB index_clean
      refine fuseStep_of_last (.cons stepA (.one stepB)) (.one stepF)
        (((meets.toBeside.skip hereA rfl _).skip hereB rfl _).skip_fused hereF rfl _) hereC hereG rfl
        (fun _ _ _ => placed.next) (fun r t jump => ?_) rfl rfl ?_
      · have jumped := tsStep_jump_mem jump
        cases jumped
      · -- The loads write different registers, so their order does not matter.
        rw [tsStep_straight rfl]
        show (tsStep c'.sim _ (setReg c'.regs d2 (c'.sim.sigPlanes sig2).1) _).plain =
          (tsStep c.sim _ (setReg (setReg c.regs d1 (c.sim.sigPlanes sig1).1) d2
            (c.sim.sigPlanes sig2).1) _).plain
        rw [meets.sim, meets.regs, setReg_comm c.regs ne]
        exact elemStoreNbaFromSig_step data clean _
    · exact .parts (.refl c) (ctrlStep_load_unknown hereA clean) (.one stepF)
        ⟨rfl, meets.sim, by simp [Cfg.after, meets.ops], _, hereG, by
          simpa [Cfg.after, meets.sim] using clean⟩
  · -- Either load stops the stream, and the index load the fused one.
    have ends : ∃ n d, Steps (ctrlStep D insns answers) n c d ∧
        ctrlStep D insns answers d = .inr .xbail ∧ d.sim = c.sim ∧ d.ops = c.ops := by
      by_cases clean : (c.sim.sigPlanes sig1).2 = 0#64
      · refine ⟨1, _, .one (ctrlStep_load hereA clean), ctrlStep_load_unknown hereB index_clean, rfl, ?_⟩
        simp [Cfg.after]
      · exact ⟨0, c, .refl c, ctrlStep_load_unknown hereA clean, rfl, rfl⟩
    obtain ⟨n, d, run, ended, sim, ops⟩ := ends
    exact .ends run ended (.refl c') (ctrlStep_load_unknown hereF (by rwa [meets.sim]))
      ⟨rfl, by rw [meets.sim, sim], by rw [meets.ops, ops], by simp⟩

/-- Configurations that meet lead on alike. -/
theorem fuseStep (fresh : ∀ insn ∈ insns, insn.branchesFused = false) (apart : LoadsApart insns)
    (meets : Meets insns c c') : FuseStep D insns answers c c' := by
  rcases meets.turn_or_end with ⟨turn, placed⟩ | ⟨past, past'⟩
  · -- The kind of the turn both streams stand at decides the step.
    cases turn with
    | keep a => exact fuseStep_keep fresh meets placed
    | pair a b f =>
      by_cases data : ∃ g, f = .elemStoreNbaFromSig g
      · obtain ⟨g, rfl⟩ := data
        exact fuseStep_elemStore meets placed
      · exact fuseStep_pair fresh meets placed fun g same => data ⟨g, same⟩
    | triple a b b' f g => exact fuseStep_triple apart meets placed
  · have ended : ctrlStep D insns answers c = .inr .done := by simp [ctrlStep, past]
    have ended' : ctrlStep D (fusedStream insns) answers c' = .inr .done := by simp [ctrlStep, past']
    exact .ends (.refl c) ended (.refl c') ended' ⟨rfl, meets.sim, meets.ops, fun _ => meets.regs⟩

/-- A run of one stream as a run of the other. -/
def RunsAlike (D : Design) (insns fused : List TsInsn) (answers : Nat → Bool) (c : Cfg Regs) : Prop :=
  (∀ last e, CtrlRun D insns answers c last e →
    (∃ last' e', CtrlRun D fused answers c last' e' ∧ SameEnd last e last' e') ∨
      ∃ n c', Steps (ctrlStep D fused answers) n c c' ∧ QueuesUnknown fused last e c') ∧
  ∀ last' e', CtrlRun D fused answers c last' e' →
    ∃ last e, CtrlRun D insns answers c last e ∧
      (SameEnd last e last' e' ∨
        ∃ n c', Steps (ctrlStep D fused answers) n c c' ∧ QueuesUnknown fused last e c')

/-- A stream runs as itself. -/
theorem runsAlike_refl (insns : List TsInsn) (c : Cfg Regs) : RunsAlike D insns insns answers c :=
  ⟨fun last e run => .inl ⟨last, e, run, rfl, rfl, rfl, fun _ => rfl⟩,
    fun last e run => ⟨last, e, run, .inl ⟨rfl, rfl, rfl, fun _ => rfl⟩⟩⟩

/-- The fused stream of a stream that some rule applies to runs as it. -/
theorem runsAlike_fused (fresh : ∀ insn ∈ insns, insn.branchesFused = false) (apart : LoadsApart insns)
    (regs : Regs) (s : Sim) : RunsAlike D insns (fusedStream insns) answers (Cfg.start regs s) := by
  -- Every turn matches steps of both streams, so the simulation runs in both directions.
  have turn : ∀ c c', Meets insns c c' → FuseStep D insns answers c c' :=
    fun c c' meets => fuseStep fresh apart meets
  have start := meets_start insns regs s
  refine ⟨fun last e ⟨n, run, ended⟩ => ?_, fun last' e' ⟨n, run, ended⟩ => ?_⟩
  · rcases forward turn start run ended with ⟨k, last', e', run', ended', same⟩ | ⟨k, c', run', queues⟩
    · exact .inl ⟨last', e', ⟨k, run', ended'⟩, same⟩
    · exact .inr ⟨k, c', run', queues⟩
  · rcases backward turn start run ended with
      ⟨k, last, e, run', ended', same⟩ | ⟨k, last, e, j, c', run', ended', left, queues⟩
    · exact ⟨last, e, ⟨k, run', ended'⟩, .inl same⟩
    · exact ⟨last, e, ⟨k, run', ended'⟩, .inr ⟨j, c', left, queues⟩⟩

/-- Fusing keeps every run of a stream as the lowering emits it, except that a fused element store queues
data with x or z bits where the stream's own load stops on it. -/
theorem fuseTsPairs_runs (insns : List TsInsn) (fresh : ∀ insn ∈ insns, insn.branchesFused = false)
    (apart : LoadsApart insns) (D : Design) (answers : Nat → Bool) (regs : Regs) (s : Sim) :
    RunsAlike D insns (fuseTsPairs insns) answers (Cfg.start regs s) := by
  unfold fuseTsPairs
  split
  · exact runsAlike_refl insns _
  · split
    · exact runsAlike_fused fresh apart regs s
    · exact runsAlike_refl insns _

end Simulation

section Samples

attribute [local instance] referenceOps

/-- An element store at a loaded index, and a branch on a loaded condition. -/
def loadingStream : List TsInsn :=
  [.loadSig 0 1, .loadSig 1 2, .elemStoreNba ⟨10, 0, 3, 1, 0, 2, 3#64⟩, .loadSig 2 3, .brNz 2 6,
    .covHit 0, .covHit 1]

/-- Its two element loads and its branch fuse, and it runs as before. -/
theorem fuseTsPairs_runs_loading :
    fuseTsPairs loadingStream =
      [.loadSig 1 2, .elemStoreNbaFromSig ⟨1, 0, ⟨10, 0, 3, 1, 0, 2, 3#64⟩⟩, .loadSigBrNz 2 3 4,
        .covHit 0, .covHit 1] ∧
    RunsAlike twoBitDesign loadingStream (fuseTsPairs loadingStream) (fun _ => false)
      (Cfg.start (fun _ => 0#64) (freshSim fun _ => twoBit 1)) := by
  refine ⟨rfl, fuseTsPairs_runs loadingStream (by decide) ?_ _ _ _ _⟩
  intro i d sig1 sig2 op first second third
  -- Only one position of the stream stores an element.
  have atZero : i = 0 := by
    rcases i with _ | _ | _ | _ | _ | i <;> simp [loadingStream] at third ⊢
  subst atZero
  simp [loadingStream] at first second
  omega

/-- A data load and the element store it fuses to. -/
def queueingStream : List TsInsn := [.loadSig 0 1, .elemStoreNba ⟨10, 0, 3, 1, 0, 2, 3#64⟩]

/-- Fusing does not keep every outcome: where the data of an element store has an x bit, the stream stops
and the fused one queues it. -/
theorem fuseTsPairs_not_same_outcome :
    ¬ ∀ insns : List TsInsn, (∀ insn ∈ insns, insn.branchesFused = false) →
      ∀ (D : Design) (answers : Nat → Bool) (regs : Regs) (s : Sim) (last : Cfg Regs) (e : Ending),
        CtrlRun D insns answers (Cfg.start regs s) last e →
          ∃ last' e', CtrlRun D (fuseTsPairs insns) answers (Cfg.start regs s) last' e' ∧
            SameEnd last e last' e' := by
  -- The plain stream stops on the x load before it queues; the fused one queues and is done.
  intro all
  let start : Cfg Regs := Cfg.start (fun _ => 0#64) (freshSim fun _ => ⟨2, 0, 1, false, false, false⟩)
  have stops : CtrlRun twoBitDesign queueingStream (fun _ => false) start start .xbail := ⟨0, .refl _, rfl⟩
  obtain ⟨last', e', ⟨n, run, ended⟩, same⟩ := all queueingStream (by decide) _ _ _ _ _ _ stops
  have queues : ∃ c, Steps (ctrlStep twoBitDesign (fuseTsPairs queueingStream) fun _ => false) 1 start c ∧
      ctrlStep twoBitDesign (fuseTsPairs queueingStream) (fun _ => false) c = .inr .done :=
    ⟨_, .one rfl, rfl⟩
  obtain ⟨c, run', ended'⟩ := queues
  have here := run'.ending_unique ended' run ended
  subst here
  rw [ended'] at ended
  cases ended
  cases same.ending

end Samples

end Xezim
