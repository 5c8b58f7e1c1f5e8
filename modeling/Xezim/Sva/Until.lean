import Mathlib.Data.List.Range

/-! Property-valued `until`: the incremental evaluation of one attempt, and what it should report. -/

namespace Xezim.Sva

/-- `SvaOutcome`. -/
inductive SvaOutcome
  | pass
  | vacuous
  | fail
  deriving DecidableEq, Repr

/-- The evaluation of an operand from one tick on: the advances it stays pending for, its outcome, and
whether it is nonvacuous after each number of advances. -/
structure Evaluation where
  delay : Nat
  outcome : SvaOutcome
  shown : Nat → Bool

/-- `SvaState` of an operand: its evaluation after some advances. -/
structure SvaState where
  eval : Evaluation
  age : Nat

/-- `sva_new_state`. -/
def svaNewState (eval : Evaluation) : SvaState := ⟨eval, 0⟩

/-- `sva_advance`. -/
def svaAdvance (st : SvaState) : Option SvaOutcome × SvaState :=
  (if st.age = st.eval.delay then some st.eval.outcome else none, { st with age := st.age + 1 })

/-- `sva_attempt_nonvacuous`. -/
def svaAttemptNonvacuous (st : SvaState) : Bool := st.eval.shown st.age

/-- `sva_op_nonvacuous`. -/
def svaOpNonvacuous (resolved : Option SvaOutcome) (st : SvaState) : Bool :=
  match resolved with
  | some .pass => true
  | some .vacuous => false
  | some .fail | none => svaAttemptNonvacuous st

/-- `SvaUntilTick`. -/
structure SvaUntilTick where
  left : SvaState
  right : SvaState
  leftResult : Option SvaOutcome
  rightResult : Option SvaOutcome

namespace SvaUntilTick

/-- An operand is advanced while it has no result. -/
def advanceOperand (result : Option SvaOutcome) (st : SvaState) : Option SvaOutcome × SvaState :=
  if result = none then svaAdvance st else (result, st)

/-- One tick advanced, the right operand first. -/
def advance (tick : SvaUntilTick) : SvaUntilTick :=
  let (rightResult, right) := advanceOperand tick.rightResult tick.right
  let (leftResult, left) := advanceOperand tick.leftResult tick.left
  ⟨left, right, leftResult, rightResult⟩

/-- Either operand is nonvacuous. -/
def nonvacuous (tick : SvaUntilTick) : Bool :=
  svaOpNonvacuous tick.leftResult tick.left || svaOpNonvacuous tick.rightResult tick.right

/-- The left operand held and the right one has failed. -/
def folds (tick : SvaUntilTick) : Bool :=
  (tick.leftResult = some .pass || tick.leftResult = some .vacuous) && tick.rightResult = some .fail

end SvaUntilTick

/-- `SvaState::Until`. -/
structure SvaUntil where
  ticks : List SvaUntilTick
  nonvacuous : Bool
  closed : Bool

/-- The loop that folds finished front ticks. -/
def foldFront (nonvacuous : Bool) : List SvaUntilTick → Bool × List SvaUntilTick
  | [] => (nonvacuous, [])
  | front :: ticks =>
    if front.folds then foldFront (nonvacuous || front.nonvacuous) ticks else (nonvacuous, front :: ticks)

/-- What the scan of the ticks ends with. -/
inductive Scan
  /-- The attempt holds. -/
  | holds (nonvacuous : Bool)
  /-- The scan met a failed left operand, or passed every tick. -/
  | ends (nonvacuous failed possible : Bool)

/-- The scan: a right operand that holds after left operands that all held decides the attempt, a failed
left operand ends the scan. -/
def scan (prefixPending possible nonvacuous : Bool) : List SvaUntilTick → Scan
  | [] => .ends nonvacuous false possible
  | tick :: ticks =>
    let nonvacuous := nonvacuous || tick.nonvacuous
    if tick.rightResult ≠ some .fail ∧ tick.rightResult.isSome ∧ prefixPending = false then .holds nonvacuous
    else
      let possible := possible || tick.rightResult ≠ some .fail
      match tick.leftResult with
      | some .fail => .ends nonvacuous true possible
      | none => scan true possible nonvacuous ticks
      | _ => scan prefixPending possible nonvacuous ticks

/-- `sva_advance_until`, the operands of a tick that begins now given. -/
def svaAdvanceUntil (left right : Evaluation) (st : SvaUntil) : Option SvaOutcome × SvaUntil :=
  let ticks :=
    if st.closed then st.ticks else st.ticks ++ [⟨svaNewState left, svaNewState right, none, none⟩]
  let (folded, ticks) := foldFront st.nonvacuous (ticks.map SvaUntilTick.advance)
  match scan false false folded ticks with
  | .holds nonvacuous => (some (if nonvacuous then .pass else .vacuous), ⟨ticks, nonvacuous, st.closed⟩)
  | .ends nonvacuous failed possible =>
    let closed := st.closed || failed
    (if closed && !possible then some .fail else none, ⟨ticks, nonvacuous, closed⟩)

/-- An attempt: the evaluations of both operands from each tick on. -/
structure Attempt where
  left : Nat → Evaluation
  right : Nat → Evaluation

namespace Attempt

variable (p : Attempt)

/-- The attempt after some calls. -/
def after : Nat → SvaUntil
  | 0 => ⟨[], false, false⟩
  | t + 1 => (svaAdvanceUntil (p.left t) (p.right t) (after t)).2

/-- What a call returns. -/
def outcome (t : Nat) : Option SvaOutcome := (svaAdvanceUntil (p.left t) (p.right t) (p.after t)).1

/-- The first outcome returned. -/
def Returns (o : SvaOutcome) : Prop := ∃ t, p.outcome t = some o ∧ ∀ s < t, p.outcome s = none

end Attempt

section Reference

/-- An evaluation is nonvacuous once it is complete. -/
def Evaluation.nonvacuous (e : Evaluation) : Bool := svaOpNonvacuous (some e.outcome) ⟨e, e.delay + 1⟩

variable (p : Attempt)

namespace Attempt

/-- Tick `k` makes the attempt hold: its right operand holds and so does the left one of every tick
before. -/
def Holds (k : Nat) : Prop := (p.right k).outcome ≠ .fail ∧ ∀ j < k, (p.left j).outcome ≠ .fail

/-- Tick `k` makes the attempt fail: its left operand fails and so does the right one of every tick up to
it. -/
def Fails (k : Nat) : Prop := (p.left k).outcome = .fail ∧ ∀ j ≤ k, (p.right j).outcome = .fail

/-- Tick `k` is the deciding tick of an attempt that holds. -/
def Decides (k : Nat) : Prop := p.Holds k ∧ ∀ j < k, ¬ p.Holds j

/-- An operand of a tick up to `k` is nonvacuous. -/
def NonvacuousUpTo (k : Nat) : Prop :=
  ∃ j ≤ k, (p.left j).nonvacuous = true ∨ (p.right j).nonvacuous = true

/-- The outcome an attempt should have. -/
def Refers : SvaOutcome → Prop
  | .fail => ∃ k, p.Fails k
  | .pass => ∃ k, p.Decides k ∧ p.NonvacuousUpTo k
  | .vacuous => ∃ k, p.Decides k ∧ ¬ p.NonvacuousUpTo k

end Attempt

end Reference

end Xezim.Sva
