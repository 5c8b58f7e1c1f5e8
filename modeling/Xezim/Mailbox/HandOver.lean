import Xezim.Value
import Mathlib.Logic.Function.Basic

/-! Mailboxes and semaphores with the processes parked on them. -/

namespace Xezim.Mailbox

open Function

/-- A process blocked in `get` or `peek` on an empty mailbox. -/
structure MailboxGetWaiter (γ σ : Type) where
  pid : Nat
  lvalue : γ
  cont : List σ
  isPeek : Bool

/-- A process blocked in `put` on a full mailbox, with its message. -/
structure MailboxPutWaiter (σ : Type) where
  pid : Nat
  value : Value
  cont : List σ

/-- How a process goes on: its continuation is scheduled, or it had none left and is finished. -/
inductive Resumption (σ : Type) where
  | schedule (pid : Nat) (cont : List σ)
  | childFinished (pid : Nat)

/-- Resume a process. -/
def resume {σ : Type} (pid : Nat) (cont : List σ) : Resumption σ :=
  if cont.isEmpty then .childFinished pid else .schedule pid cont

/-- What a destination receives: a pattern to assign, the members of a stashed struct, or the value itself. -/
inductive Content (μ π : Type) where
  | pattern (items : π)
  | struct (members : Option μ)
  | scalar (v : Value)

/-- A message handed to a waiter. -/
structure Delivery (γ σ μ π : Type) where
  waiter : MailboxGetWaiter γ σ
  message : Value
  content : Content μ π

/-- A mailbox, its bound (none where it is 0), the parked processes, the tables its messages point into, and what was
delivered and resumed so far. -/
structure Box (γ σ μ π : Type) where
  queue : List Value
  bound : Nat
  getWaiters : List (MailboxGetWaiter γ σ)
  putWaiters : List (MailboxPutWaiter σ)
  patterns : Nat → Option π
  shadow : Nat → μ
  freeIds : List Nat
  delivered : List (Delivery γ σ μ π)
  resumed : List (Resumption σ)

variable {γ σ μ π : Type}

/-- What delivering reads about values and destinations. -/
structure Destinations (γ : Type) where
  /-- `Value::to_u64`. -/
  toU64 : Value → Option Nat
  /-- The destination of a process is an unpacked struct. -/
  structArg : Nat → γ → Bool

namespace Box

variable (d : Destinations γ) (b : Box γ σ μ π)

/-- A slot was freed: admit one parked `put`. -/
def admitPutWaiter (b : Box γ σ μ π) : Box γ σ μ π :=
  if b.bound = 0 then b
  else if b.bound ≤ b.queue.length then b
  else
    match b.putWaiters with
    | [] => b
    | w :: rest =>
      { b with queue := b.queue ++ [w.value], putWaiters := rest, resumed := b.resumed ++ [resume w.pid w.cont] }

/-- The token of a message that stands for a pattern, with the items kept for it. -/
def patternOf (v : Value) : Option (Nat × π) :=
  if v.width ≠ 64 ∨ v.isFill = false then none
  else
    match d.toU64 v with
    | none => none
    | some tok => (b.patterns tok).map fun items => (tok, items)

/-- The members of the shadow that a token names. -/
def unstashStruct (tok : Value) : Option μ :=
  match d.toU64 tok with
  | none => none
  | some id => if id = 0 then none else some (b.shadow id)

/-- A consumed slot releases its shadow id. -/
def releaseMsg (tok : Value) : Box γ σ μ π :=
  match d.toU64 tok with
  | none => b
  | some id => if id ≠ 0 ∧ id ∉ b.freeIds then { b with freeIds := b.freeIds ++ [id] } else b

/-- What a destination receives for a message. -/
def content (w : MailboxGetWaiter γ σ) (v : Value) : Content μ π :=
  match b.patternOf d v with
  | some (_, items) => .pattern items
  | none => if d.structArg w.pid w.lvalue then .struct (b.unstashStruct d v) else .scalar v

/-- The tables once a message was assigned, which a `peek` leaves as they are. -/
def assignDelivered (w : MailboxGetWaiter γ σ) (v : Value) (consume : Bool) : Box γ σ μ π :=
  match b.patternOf d v with
  | some (tok, _) => if consume then { b with patterns := update b.patterns tok none } else b
  | none => if d.structArg w.pid w.lvalue && consume then b.releaseMsg d v else b

/-- Write a message into a waiter's destination and resume the waiter. -/
def deliverToWaiter (w : MailboxGetWaiter γ σ) (v : Value) (consume : Bool) : Box γ σ μ π :=
  let assigned := b.assignDelivered d w v consume
  { assigned with
    delivered := b.delivered ++ [⟨w, v, b.content d w v⟩]
    resumed := b.resumed ++ [resume w.pid w.cont] }

/-- One round of the drain: the head goes to the first waiter. -/
def drainStep : Option (Box γ σ μ π) :=
  match b.queue, b.getWaiters with
  | front :: rest, w :: waiters =>
    let popped := { b with getWaiters := waiters }
    let consumed := if w.isPeek then popped else { popped with queue := rest }.admitPutWaiter
    some (consumed.deliverToWaiter d w front !w.isPeek)
  | _, _ => none

end Box

namespace Box

variable {d : Destinations γ} {b : Box γ σ μ π}

/-- Admitting a `put` leaves the waiters for messages alone. -/
@[simp] theorem admitPutWaiter_getWaiters (b : Box γ σ μ π) : b.admitPutWaiter.getWaiters = b.getWaiters := by
  unfold admitPutWaiter
  split_ifs
  · rfl
  · rfl
  · split <;> rfl

/-- Releasing an id leaves the waiters alone. -/
@[simp] theorem assignDelivered_getWaiters (b : Box γ σ μ π) (w : MailboxGetWaiter γ σ) (v : Value) (consume : Bool) :
    (b.assignDelivered d w v consume).getWaiters = b.getWaiters := by
  unfold assignDelivered releaseMsg
  split
  · split_ifs <;> rfl
  · split_ifs
    · split
      · rfl
      · split_ifs <;> rfl
    · rfl

/-- A round takes the first waiter. -/
theorem drainStep_getWaiters {next : Box γ σ μ π} (step : b.drainStep d = some next) :
    ∃ w, b.getWaiters = w :: next.getWaiters := by
  unfold drainStep at step
  split at step
  next front rest w waiters messages parked =>
    refine ⟨w, ?_⟩
    rw [parked, ← Option.some.inj step]
    by_cases peek : w.isPeek = true
    · simp [deliverToWaiter, peek]
    · simp [deliverToWaiter, peek]
  next => cases step

/-- `drain_mailbox_get_waiters`, which goes on until there is no message or no waiter. -/
def drain (d : Destinations γ) (b : Box γ σ μ π) : Box γ σ μ π :=
  match _step : b.drainStep d with
  | none => b
  | some next => next.drain d
  termination_by b.getWaiters.length
  decreasing_by
    obtain ⟨w, parked⟩ := drainStep_getWaiters _step
    simp [parked]

end Box

/-- The boxes at the head of each round of a drain. -/
inductive DrainRun (d : Destinations γ) : Box γ σ μ π → Box γ σ μ π → Prop
  | stop (b : Box γ σ μ π) : DrainRun d b b
  | round {b next c : Box γ σ μ π} (step : b.drainStep d = some next) (rest : DrainRun d next c) : DrainRun d b c

/-- A process blocked in `get` of a semaphore that has too few keys. -/
structure SemGetWaiter (σ : Type) where
  pid : Nat
  n : BitVec 64
  cont : List σ

/-- A semaphore, its key count and the requests signed words. -/
structure Semaphore (σ : Type) where
  count : BitVec 64
  getWaiters : List (SemGetWaiter σ)
  resumed : List (Resumption σ)

namespace Semaphore

/-- One round of waking: the first waiter is served if its full request is there. -/
def wakeStep (s : Semaphore σ) : Option (Semaphore σ) :=
  match s.getWaiters with
  | [] => none
  | w :: rest =>
    if w.n.toInt ≤ s.count.toInt then some ⟨s.count - w.n, rest, s.resumed ++ [resume w.pid w.cont]⟩ else none

/-- A round takes the first waiter, whose request is there. -/
theorem wakeStep_cases {s next : Semaphore σ} (step : s.wakeStep = some next) :
    ∃ w, s.getWaiters = w :: next.getWaiters ∧ w.n.toInt ≤ s.count.toInt ∧ next.count = s.count - w.n ∧
      next.resumed = s.resumed ++ [resume w.pid w.cont] := by
  unfold wakeStep at step
  split at step
  next => cases step
  next w rest parked =>
    split_ifs at step with enough
    obtain rfl := Option.some.inj step
    exact ⟨w, parked, enough, rfl, rfl⟩

/-- `wake_semaphore_waiters`, which goes on until a request is not met. -/
def wake (s : Semaphore σ) : Semaphore σ :=
  match _step : s.wakeStep with
  | none => s
  | some next => next.wake
  termination_by s.getWaiters.length
  decreasing_by
    obtain ⟨w, parked, -⟩ := wakeStep_cases _step
    simp [parked]

end Semaphore

/-- The semaphores at the head of each round of waking. -/
inductive WakeRun : Semaphore σ → Semaphore σ → Prop
  | stop (s : Semaphore σ) : WakeRun s s
  | round {s next t : Semaphore σ} (step : s.wakeStep = some next) (rest : WakeRun next t) : WakeRun s t

end Xezim.Mailbox
