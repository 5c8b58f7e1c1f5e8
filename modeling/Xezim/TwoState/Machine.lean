import Xezim.Lib.Lockstep
import Xezim.TwoState.Exec

/-! The control-flow executor as a machine that takes one instruction at a time. -/

namespace Xezim

open Lockstep

/-- An instruction that asks whether to stop. -/
def TsInsn.polls : TsInsn → Bool
  | .loopPoll | .jmpPoll _ => true
  | _ => false

/-- How often a run asked whether to stop. -/
def asked (insns : List TsInsn) (pcs : List Nat) : Nat :=
  pcs.countP fun pc => (insns[pc]?).any TsInsn.polls

/-- A position executed more is a stop request more where it asks. -/
theorem asked_append {insns : List TsInsn} {pcs : List Nat} {pc : Nat} {insn : TsInsn} (here : insns[pc]? = some insn) :
    asked insns (pcs ++ [pc]) = asked insns pcs + (if insn.polls then 1 else 0) := by
  simp [asked, List.countP_append, List.countP_cons, here]

/-- A position that does not ask leaves the count. -/
theorem asked_quiet {insns : List TsInsn} {pcs : List Nat} {pc : Nat} {insn : TsInsn}
    (here : insns[pc]? = some insn) (quiet : insn.polls = false) :
    asked insns (pcs ++ [pc]) = asked insns pcs := by
  rw [asked_append here, quiet]
  rfl

/-- How a run of the control-flow executor ends. -/
inductive Ending where
  /-- Past the end of the stream, returning true. -/
  | done
  | bail
  | xbail
  | leave
  | unreachable
  deriving DecidableEq, Repr

section Machine

variable [ValueOps] (D : Design)

/-- Take the outcome of the instruction at hand. -/
def Cfg.resume (c : Cfg Regs) : TsOutcome → Cfg Regs ⊕ Ending
  | .next r op => .inl (c.after D (c.pc + 1) r op)
  | .jump r t => .inl (c.after D t r none)
  | .bail => .inr .bail
  | .xbail => .inr .xbail
  | .leave => .inr .leave
  | .unreachable => .inr .unreachable

/-- One turn of `exec_two_state_ctrl`; `answers` are those to the stop requests, in the order asked. -/
def ctrlStep (insns : List TsInsn) (answers : Nat → Bool) (c : Cfg Regs) : Cfg Regs ⊕ Ending :=
  match insns[c.pc]? with
  | none => .inr .done
  | some insn => c.resume D (tsStep c.sim (answers (asked insns c.pcs)) c.regs insn)

/-- A run of the executor from a configuration to its last one. -/
def CtrlRun (insns : List TsInsn) (answers : Nat → Bool) (c last : Cfg Regs) (e : Ending) : Prop :=
  ∃ n, Steps (ctrlStep D insns answers) n c last ∧ ctrlStep D insns answers last = .inr e

/-- What `exec_two_state_ctrl` returns for a run's end. -/
def Ending.halt (last : Cfg Regs) : Ending → Halt Regs
  | .done => .done last
  | .bail => .bail
  | .xbail => .xbail
  | .leave => .leave
  | .unreachable => .unreachable

variable {D} {insns : List TsInsn} {answers polls : Nat → Bool} {c c' last : Cfg Regs} {e : Ending} {n : Nat}

/-- The turn at an instruction. -/
theorem ctrlStep_at {insn : TsInsn} (here : insns[c.pc]? = some insn) :
    ctrlStep D insns answers c =
      c.resume D (tsStep c.sim (answers (asked insns c.pcs)) c.regs insn) := by
  simp [ctrlStep, here]

/-- Every turn executes one position. -/
theorem ctrlStep_length (stepped : ctrlStep D insns answers c = .inl c') :
    c'.pcs.length = c.pcs.length + 1 := by
  unfold ctrlStep at stepped
  split at stepped
  · cases stepped
  · unfold Cfg.resume at stepped
    split at stepped <;> cases stepped <;> simp [Cfg.after]

/-- A run executes as many positions as it takes turns. -/
theorem steps_length (run : Steps (ctrlStep D insns answers) n c c') :
    c'.pcs.length = c.pcs.length + n := by
  induction run with
  | refl _ => rfl
  | cons stepped _ ih => rw [ih, ctrlStep_length stepped]; omega

/-- Where the stop requests are answered alike, the executor takes the same turn. -/
theorem exec_turn (alike : polls c.pcs.length = answers (asked insns c.pcs)) (fuel : Nat) :
    execTwoStateCtrl D insns polls (fuel + 1) c =
      match ctrlStep D insns answers c with
      | .inl c' => execTwoStateCtrl D insns polls fuel c'
      | .inr e => e.halt c := by
  conv_lhs => unfold execTwoStateCtrl
  rw [alike, ctrlStep]
  cases insns[c.pc]? with
  | none => rfl
  | some insn =>
    dsimp only
    cases tsStep c.sim (answers (asked insns c.pcs)) c.regs insn <;> rfl

/-- Where the stop requests are answered alike, the executor returns what the run ends with. -/
theorem exec_of_steps
    (alike : ∀ m d, Steps (ctrlStep D insns answers) m c d →
      polls d.pcs.length = answers (asked insns d.pcs))
    (run : Steps (ctrlStep D insns answers) n c last) (ended : ctrlStep D insns answers last = .inr e) :
    execTwoStateCtrl D insns polls (n + 1) c = e.halt last := by
  induction run with
  | refl c => rw [exec_turn (alike 0 c (.refl c)), ended]
  | @cons n c d last stepped run ih =>
    rw [exec_turn (alike 0 c (.refl c)), stepped]
    exact ih (fun m d run => alike (m + 1) d (.cons stepped run)) ended

/-- Answers given in the order asked are answers given at some times: the executor returns what the run
ends with. -/
theorem exec_of_ctrlRun (insns : List TsInsn) (answers : Nat → Bool) (c : Cfg Regs) :
    ∃ polls : Nat → Bool, ∀ last e, CtrlRun D insns answers c last e →
      ∃ fuel, execTwoStateCtrl D insns polls fuel c = e.halt last := by
  classical
  -- At each time there is one configuration the run can be in.
  let polls m :=
    if reached : ∃ d, Steps (ctrlStep D insns answers) (m - c.pcs.length) c d then
      answers (asked insns reached.choose.pcs)
    else false
  refine ⟨polls, fun last e ⟨n, run, ended⟩ => ⟨n + 1, exec_of_steps ?_ run ended⟩⟩
  intro m d run
  have time : d.pcs.length - c.pcs.length = m := by
    rw [steps_length run]
    omega
  have reached : ∃ d', Steps (ctrlStep D insns answers) (d.pcs.length - c.pcs.length) c d' :=
    ⟨d, by rwa [time]⟩
  have same := Steps.unique reached.choose_spec (by rwa [time])
  simp only [polls, dif_pos reached, same]

end Machine

end Xezim
