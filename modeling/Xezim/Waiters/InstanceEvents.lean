import Mathlib.Data.Finset.Sort
import Xezim.Lib.Postings

/-! The processes parked on events of class instances, indexed by event and by process. -/

namespace Xezim.Waiters

open Function Postings

/-- An event field of a class instance. -/
abbrev EventKey := Nat × String

/-- `InstanceEventKeys`. -/
inductive InstanceEventKeys
  | one (k : EventKey)
  | any (ks : List EventKey)

/-- The keys with one event put in place of another. -/
def InstanceEventKeys.replace (old new : EventKey) : InstanceEventKeys → InstanceEventKeys
  | one _ => one new
  | any ks => any (ks.map fun k => if k = old then new else k)

/-- `InstanceEventWaiter`; `γ` is the type of continuations. -/
structure InstanceEventWaiter (γ : Type) where
  key : InstanceEventKeys
  pid : Nat
  continuation : γ

/-- `InstanceEventWaiters`: the entries by arrival, and the indexes of their arrival numbers. -/
structure InstanceEventWaiters (γ : Type) where
  entries : Nat → Option (InstanceEventWaiter γ)
  byKey : EventKey → Option (Finset Nat)
  byPid : Nat → Option (List Nat)
  /-- A `u64` counter in the source, unbounded here. -/
  next : Nat

variable {γ : Type}

/-- `keys_of`. -/
def InstanceEventWaiter.keysOf (w : InstanceEventWaiter γ) : List EventKey :=
  match w.key with
  | .one k => [k]
  | .any ks => ks

namespace InstanceEventWaiters

/-- No process is parked. -/
def default : InstanceEventWaiters γ := ⟨fun _ => none, fun _ => none, fun _ => none, 0⟩

variable (c : InstanceEventWaiters γ)

/-- `push`. -/
def push (w : InstanceEventWaiter γ) : InstanceEventWaiters γ where
  entries := update c.entries c.next (some w)
  byKey := w.keysOf.foldl (file c.next) c.byKey
  byPid := update c.byPid w.pid (some ((c.byPid w.pid).getD [] ++ [c.next]))
  next := c.next + 1

/-- `contains_pid`. -/
def containsPid (pid : Nat) : Bool := (c.byPid pid).isSome

/-- `unlink`. -/
def unlink (seq : Nat) (w : InstanceEventWaiter γ) : InstanceEventWaiters γ :=
  { c with
    byKey := w.keysOf.foldl (withdraw seq) c.byKey
    byPid :=
      match c.byPid w.pid with
      | some seqs =>
        let kept := seqs.filter (· ≠ seq)
        update c.byPid w.pid (if kept.isEmpty then none else some kept)
      | none => c.byPid }

/-- One entry of a process that is removed. -/
def dropSeq (seq : Nat) : InstanceEventWaiters γ :=
  match c.entries seq with
  | some w => { c with entries := update c.entries seq none, byKey := w.keysOf.foldl (withdraw seq) c.byKey }
  | none => c

/-- `remove_pid`. -/
def removePid (pid : Nat) : InstanceEventWaiters γ :=
  match c.byPid pid with
  | none => c
  | some seqs => seqs.foldl dropSeq { c with byPid := update c.byPid pid none }

/-- `remove_pids`. -/
def removePids (pids : List Nat) : InstanceEventWaiters γ := pids.foldl removePid c

/-- `rekey`. -/
def rekey (old new : EventKey) : InstanceEventWaiters γ :=
  match c.byKey old with
  | none => c
  | some seqs =>
    let rest := update c.byKey old none
    { c with
      entries := fun seq =>
        if seq ∈ seqs then (c.entries seq).map fun w => { w with key := w.key.replace old new } else c.entries seq
      byKey := update rest new (some (under rest new ∪ seqs)) }

/-- One waiter of an event that is taken. -/
def takeSeq (acc : InstanceEventWaiters γ × List (Nat × γ)) (seq : Nat) : InstanceEventWaiters γ × List (Nat × γ) :=
  match acc.1.entries seq with
  | some w =>
    ({ acc.1 with entries := update acc.1.entries seq none }.unlink seq w, acc.2 ++ [(w.pid, w.continuation)])
  | none => acc

/-- `take_key`. -/
def takeKey (key : EventKey) : InstanceEventWaiters γ × List (Nat × γ) :=
  match c.byKey key with
  | none => (c, [])
  | some seqs => (seqs.sort).foldl takeSeq ({ c with byKey := update c.byKey key none }, [])

end InstanceEventWaiters

/-- One call of the interface. -/
inductive ParkOp (γ : Type) where
  | push (w : InstanceEventWaiter γ)
  | takeKey (key : EventKey)
  | rekey (old new : EventKey)
  | removePid (pid : Nat)
  | removePids (pids : List Nat)
  | containsPid (pid : Nat)

/-- What a call answers. -/
inductive ParkReply (γ : Type) where
  | done
  | woken (ws : List (Nat × γ))
  | flag (b : Bool)

/-- Carry out a call on the indexed waiters. -/
def ParkOp.onWaiters (c : InstanceEventWaiters γ) : ParkOp γ → InstanceEventWaiters γ × ParkReply γ
  | push w => (c.push w, .done)
  | takeKey key => ((c.takeKey key).1, .woken (c.takeKey key).2)
  | rekey old new => (c.rekey old new, .done)
  | removePid pid => (c.removePid pid, .done)
  | removePids pids => (c.removePids pids, .done)
  | containsPid pid => (c, .flag (c.containsPid pid))

/-- What the call does to the waiters in the order they parked in. -/
def ParkOp.onParked (l : List (InstanceEventWaiter γ)) : ParkOp γ → List (InstanceEventWaiter γ) × ParkReply γ
  | push w => (l ++ [w], .done)
  | takeKey key =>
    (l.filter fun w => key ∉ w.keysOf, .woken ((l.filter fun w => key ∈ w.keysOf).map fun w => (w.pid, w.continuation)))
  | rekey old new =>
    (l.map fun w => if old ∈ w.keysOf then { w with key := w.key.replace old new } else w, .done)
  | removePid pid => (l.filter fun w => w.pid ≠ pid, .done)
  | removePids pids => (l.filter fun w => w.pid ∉ pids, .done)
  | containsPid pid => (l, .flag (l.any fun w => w.pid = pid))

/-- Carry out calls in order, and collect what they answer. -/
def runParked {σ : Type} (step : σ → ParkOp γ → σ × ParkReply γ) : σ → List (ParkOp γ) → σ × List (ParkReply γ)
  | s, [] => (s, [])
  | s, op :: rest =>
    let next := step s op
    let run := runParked step next.1 rest
    (run.1, next.2 :: run.2)

/-- The live entries in the order they parked in. -/
def InstanceEventWaiters.parked (c : InstanceEventWaiters γ) : List (InstanceEventWaiter γ) :=
  (List.range c.next).filterMap c.entries

/-- The indexes list exactly the live entries. -/
structure InstanceEventWaiters.Indexes (c : InstanceEventWaiters γ) : Prop where
  fresh : ∀ seq, c.next ≤ seq → c.entries seq = none
  byKey : ∀ key seq, seq ∈ under c.byKey key ↔ ∃ w, c.entries seq = some w ∧ key ∈ w.keysOf
  byPid : ∀ pid seq, seq ∈ (c.byPid pid).getD [] ↔ ∃ w, c.entries seq = some w ∧ w.pid = pid
  keysFilled : Filled c.byKey
  pidsFilled : ∀ pid, c.byPid pid ≠ some []
  pidsOnce : ∀ pid, ((c.byPid pid).getD []).Nodup

end Xezim.Waiters
