import Xezim.Mailbox.HandOver
import Mathlib.Data.List.Perm.Basic

/-! Handing messages over loses none and duplicates none, and wakes processes in order. -/

namespace Xezim.Mailbox

open Function
open scoped List

variable {γ σ μ π : Type}

/-- What waiters receive from a stream of messages: each one the head at its turn, which a `get` takes. -/
def serve : List (MailboxGetWaiter γ σ) → List Value → List (MailboxGetWaiter γ σ × Value)
  | [], _ => []
  | _ :: _, [] => []
  | w :: waiters, v :: stream => (w, v) :: serve waiters (if w.isPeek then v :: stream else stream)

/-- The messages that `get` took. -/
def taken (deliveries : List (Delivery γ σ μ π)) : List Value :=
  deliveries.filterMap fun x => if x.waiter.isPeek then none else some x.message

namespace Box

/-- The queued messages and then those of the parked producers. -/
def stream (b : Box γ σ μ π) : List Value :=
  b.queue ++ b.putWaiters.map MailboxPutWaiter.value

/-- Producers are parked only on a bounded box that is full. -/
def ParkedOnlyFull (b : Box γ σ μ π) : Prop :=
  b.putWaiters ≠ [] → 0 < b.bound ∧ b.bound ≤ b.queue.length

end Box

/-- The token of a message that is marked as standing for a pattern. -/
def tokenOf (d : Destinations γ) (v : Value) : Option Nat :=
  if v.width ≠ 64 ∨ v.isFill = false then none else d.toU64 v

/-- One box after another, by handing messages over and admitting producers. -/
structure HandedOver (d : Destinations γ) (b c : Box γ σ μ π) (deliveries : List (Delivery γ σ μ π))
    (admitted : List (MailboxPutWaiter σ)) : Prop where
  /-- Waiters are served in the order they parked. -/
  getWaiters : b.getWaiters = deliveries.map Delivery.waiter ++ c.getWaiters
  /-- Producers are admitted in the order they parked. -/
  putWaiters : b.putWaiters = admitted ++ c.putWaiters
  delivered : c.delivered = b.delivered ++ deliveries
  /-- Each waiter receives the head at its turn. -/
  turns : deliveries.map (fun x => (x.waiter, x.message)) = serve (deliveries.map Delivery.waiter) b.stream
  /-- What was taken, what is queued and what is still parked are the messages there were, in order. -/
  conserved : taken deliveries ++ c.stream = b.stream
  /-- Each process served is resumed once, and no other. -/
  resumed : ∃ order, c.resumed = b.resumed ++ order ∧
    order.Perm (deliveries.map (fun x => resume x.waiter.pid x.waiter.cont) ++
      admitted.map fun w => resume w.pid w.cont)
  /-- The shadow ids set free are those of the struct messages that were taken. -/
  released : ∀ id, id ∈ c.freeIds ↔ id ∈ b.freeIds ∨ ∃ x ∈ deliveries, x.waiter.isPeek = false ∧
    (∃ members, x.content = .struct members) ∧ d.toU64 x.message = some id ∧ id ≠ 0
  /-- Where no two messages share a token, each destination receives what its message stood for. -/
  contents : (b.stream.filterMap (tokenOf d)).Nodup →
    ∀ x ∈ deliveries, x.content = b.content d x.waiter x.message

variable {d : Destinations γ} {b c : Box γ σ μ π}

/-- Nothing was handed over yet. -/
theorem HandedOver.refl (b : Box γ σ μ π) : HandedOver d b b [] [] := by
  refine ⟨by simp, by simp, by simp, by simp [serve], by simp [taken], ⟨[], by simp, by simp⟩, by simp, ?_⟩
  intro _ x member
  cases member

/-- What admitting a producer does: at most one comes in, at the end. -/
theorem Box.admitPutWaiter_spec (b : Box γ σ μ π) :
    ∃ admitted, b.putWaiters = admitted ++ b.admitPutWaiter.putWaiters ∧
      b.admitPutWaiter.queue = b.queue ++ admitted.map MailboxPutWaiter.value ∧
      b.admitPutWaiter.resumed = b.resumed ++ admitted.map (fun w => resume w.pid w.cont) ∧
      b.admitPutWaiter.bound = b.bound ∧ b.admitPutWaiter.patterns = b.patterns ∧
      b.admitPutWaiter.shadow = b.shadow ∧ b.admitPutWaiter.freeIds = b.freeIds ∧
      b.admitPutWaiter.delivered = b.delivered ∧ (0 < b.bound →
        b.admitPutWaiter.queue.length ≤ max b.bound b.queue.length) ∧
      ((b.putWaiters ≠ [] → 0 < b.bound ∧ b.bound ≤ b.queue.length + 1) → b.admitPutWaiter.ParkedOnlyFull) := by
  unfold Box.admitPutWaiter
  by_cases unbounded : b.bound = 0
  · rw [if_pos unbounded]
    refine ⟨[], by simp, by simp, by simp, rfl, rfl, rfl, rfl, rfl, by omega, fun parked waits => ?_⟩
    have full := parked waits
    omega
  · rw [if_neg unbounded]
    by_cases full : b.bound ≤ b.queue.length
    · rw [if_pos full]
      exact ⟨[], by simp, by simp, by simp, rfl, rfl, rfl, rfl, rfl, by omega, fun _ _ => ⟨by omega, full⟩⟩
    · rw [if_neg full]
      cases waiting : b.putWaiters with
      | nil =>
        refine ⟨[], by simp [waiting], by simp, by simp, rfl, rfl, rfl, rfl, rfl, fun _ => Nat.le_max_right _ _,
          fun _ waits => ?_⟩
        exact absurd waiting waits
      | cons w rest =>
        refine ⟨[w], rfl, rfl, rfl, rfl, rfl, rfl, rfl, rfl, fun _ => ?_, fun parked _ => ?_⟩
        · simp only [List.length_append, List.length_singleton]
          omega
        · -- The slot that was freed is the only one, so the box is full again.
          have nearly := parked (by simp)
          simp only [List.length_append, List.length_singleton]
          omega

namespace Box

/-- The tables alone decide what a message stands for. -/
theorem content_congr {b c : Box γ σ μ π} (patterns : c.patterns = b.patterns) (shadow : c.shadow = b.shadow)
    (w : MailboxGetWaiter γ σ) (v : Value) : c.content d w v = b.content d w v := by
  simp only [content, patternOf, unstashStruct, patterns, shadow]

/-- Only a message with a token stands for a pattern, and the token is its own. -/
theorem patternOf_some {v : Value} {tok : Nat} {items : π} (found : b.patternOf d v = some (tok, items)) :
    tokenOf d v = some tok := by
  unfold patternOf at found
  unfold tokenOf
  split_ifs at found ⊢ with plain
  cases known : d.toU64 v with
  | none => simp [known] at found
  | some t =>
    simp only [known, Option.map_eq_some_iff, Prod.mk.injEq] at found
    obtain ⟨_, -, rfl, -⟩ := found
    rfl

/-- Taking a pattern's token away leaves what the other messages stand for. -/
theorem content_other {b c : Box γ σ μ π} {tok : Nat} (patterns : c.patterns = update b.patterns tok none)
    (shadow : c.shadow = b.shadow) (w : MailboxGetWaiter γ σ) {v : Value} (other : tokenOf d v ≠ some tok) :
    c.content d w v = b.content d w v := by
  -- Only a pattern under another token was dropped.
  have same : c.patternOf d v = b.patternOf d v := by
    unfold tokenOf at other
    unfold patternOf
    split_ifs at other ⊢ with plain
    · rfl
    · cases known : d.toU64 v with
      | none => rfl
      | some t =>
        have apart : t ≠ tok := fun equal => other (by rw [known, equal])
        simp only [patterns, update_of_ne apart]
  simp only [content, same, unstashStruct, shadow]

/-- What assigning a message leaves of the box. -/
theorem assignDelivered_spec (b : Box γ σ μ π) (w : MailboxGetWaiter γ σ) (v : Value) (consume : Bool) :
    ∃ patterns freeIds, b.assignDelivered d w v consume = { b with patterns := patterns, freeIds := freeIds } ∧
      (patterns = b.patterns ∨ consume = true ∧ ∃ tok, tokenOf d v = some tok ∧ patterns = update b.patterns tok none) ∧
      ∀ id, id ∈ freeIds ↔ id ∈ b.freeIds ∨
        consume = true ∧ (∃ members, b.content d w v = .struct members) ∧ d.toU64 v = some id ∧ id ≠ 0 := by
  unfold assignDelivered content
  -- A pattern gives up its token, a struct its message, and anything else leaves both tables as they are.
  cases found : b.patternOf d v with
  | some entry =>
    obtain ⟨tok, items⟩ := entry
    by_cases take : consume = true
    · exact ⟨_, b.freeIds, by simp [take], .inr ⟨take, tok, patternOf_some found, rfl⟩, by simp⟩
    · exact ⟨b.patterns, b.freeIds, by simp [take], .inl rfl, by simp⟩
  | none =>
    by_cases releases : (d.structArg w.pid w.lvalue && consume) = true
    · obtain ⟨isStruct, take⟩ := Bool.and_eq_true_iff.mp releases
      simp only [releases, if_true, releaseMsg]
      cases known : d.toU64 v with
      | none => exact ⟨b.patterns, b.freeIds, rfl, .inl rfl, by simp⟩
      | some id =>
        by_cases new : id ≠ 0 ∧ id ∉ b.freeIds
        · refine ⟨b.patterns, b.freeIds ++ [id], by simp only [if_pos new], .inl rfl, fun j => ?_⟩
          simp only [List.mem_append, List.mem_singleton, isStruct, take, if_true, Option.some.injEq, true_and,
            Content.struct.injEq, exists_eq', ne_eq]
          constructor
          · rintro (old | rfl)
            · exact .inl old
            · exact .inr ⟨rfl, new.1⟩
          · rintro (old | ⟨rfl, -⟩)
            · exact .inl old
            · exact .inr rfl
        · refine ⟨b.patterns, b.freeIds, by simp only [if_neg new], .inl rfl, fun j => ?_⟩
          simp only [Option.some.injEq]
          constructor
          · exact .inl
          · rintro (old | ⟨-, -, rfl, nonzero⟩)
            · exact old
            · by_contra unlisted
              exact new ⟨nonzero, unlisted⟩
    · refine ⟨b.patterns, b.freeIds, by simp only [releases, if_false, Bool.false_eq_true], .inl rfl, fun j => ?_⟩
      constructor
      · exact .inl
      · rintro (old | ⟨take, ⟨members, struct⟩, -⟩)
        · exact old
        · by_cases isStruct : d.structArg w.pid w.lvalue = true
          · exact absurd (by simp [isStruct, take]) releases
          · simp [isStruct] at struct

/-- One round hands the head over to the first waiter. -/
theorem drainStep_spec {next : Box γ σ μ π} (parked : b.ParkedOnlyFull) (step : b.drainStep d = some next) :
    ∃ w v rest admitted, b.getWaiters = w :: next.getWaiters ∧ b.stream = v :: rest ∧
      next.stream = (if w.isPeek then v :: rest else rest) ∧ b.putWaiters = admitted ++ next.putWaiters ∧
      next.delivered = b.delivered ++ [⟨w, v, b.content d w v⟩] ∧
      next.resumed = b.resumed ++ (admitted.map (fun p => resume p.pid p.cont) ++ [resume w.pid w.cont]) ∧
      next.shadow = b.shadow ∧
      (next.patterns = b.patterns ∨
        w.isPeek = false ∧ ∃ tok, tokenOf d v = some tok ∧ next.patterns = update b.patterns tok none) ∧
      (∀ id, id ∈ next.freeIds ↔ id ∈ b.freeIds ∨ w.isPeek = false ∧
        (∃ members, b.content d w v = .struct members) ∧ d.toU64 v = some id ∧ id ≠ 0) ∧
      next.bound = b.bound ∧ (0 < b.bound → next.queue.length ≤ max b.bound b.queue.length) ∧ next.ParkedOnlyFull := by
  unfold drainStep at step
  split at step
  next front rest w waiters messages served =>
    obtain rfl := Option.some.inj step
    clear step
    by_cases peek : w.isPeek = true
    · -- A peek leaves the message where it is, and admits nobody.
      simp only [peek, if_true, Bool.not_true]
      obtain ⟨patterns, freeIds, assigned, tables, free⟩ :=
        assignDelivered_spec (d := d) { b with getWaiters := waiters } w front false
      refine ⟨w, front, rest ++ b.putWaiters.map MailboxPutWaiter.value, [], ?_⟩
      simp only [deliverToWaiter, assigned]
      refine ⟨served, by simp [stream, messages], by simp [stream, messages, peek], rfl, rfl, rfl, trivial, ?_, ?_,
        trivial,
        fun _ => Nat.le_max_right _ _, parked⟩
      · exact tables.imp id fun taken => by cases taken.1
      · intro id
        rw [free]
        simp [peek]
    · -- A get frees a slot, which may admit a producer behind the other messages.
      have take : w.isPeek = false := by simpa using peek
      simp only [take, Bool.false_eq_true, if_false, Bool.not_false]
      generalize shape : ({ b with getWaiters := waiters, queue := rest } : Box γ σ μ π) = popped
      obtain ⟨admitted, putters, queue, resumed, bound, patternsKept, shadowKept, freeKept, deliveredKept, size,
        full⟩ :=
        admitPutWaiter_spec popped
      have getters := admitPutWaiter_getWaiters popped
      generalize popped.admitPutWaiter = consumed at *
      subst shape
      obtain ⟨patterns, freeIds, assigned, tables, free⟩ := assignDelivered_spec (d := d) consumed w front true
      have content := content_congr (d := d) (b := b) (c := consumed) patternsKept shadowKept w front
      refine ⟨w, front, rest ++ b.putWaiters.map MailboxPutWaiter.value, admitted, ?_⟩
      simp only [deliverToWaiter, assigned]
      refine ⟨by rw [served, getters], by simp [stream, messages], ?_, putters, by rw [deliveredKept, content],
        by rw [resumed, List.append_assoc], shadowKept, ?_, ?_, bound, fun bounded => ?_, ?_⟩
      · have back : b.putWaiters.map MailboxPutWaiter.value = admitted.map MailboxPutWaiter.value ++
            consumed.putWaiters.map MailboxPutWaiter.value := by
          rw [← List.map_append, ← putters]
        simp only [stream, queue, back, take, Bool.false_eq_true, if_false, List.append_assoc]
      · rw [patternsKept] at tables
        exact tables.imp id fun taken => ⟨take, taken.2⟩
      · intro id
        rw [free, content, freeKept]
        simp [take]
      · have small := size bounded
        rw [messages, List.length_cons]
        simp only at small
        omega
      · refine full fun waits => ?_
        have before := parked waits
        rw [messages, List.length_cons] at before
        exact ⟨before.1, before.2⟩
  next => cases step

end Box

/-- A delivered message is one of the stream. -/
theorem serve_mem {waiters : List (MailboxGetWaiter γ σ)} {stream : List Value} {x : MailboxGetWaiter γ σ × Value}
    (member : x ∈ serve waiters stream) : x.2 ∈ stream := by
  -- A peek leaves the message for the next waiter; a get takes it.
  induction waiters generalizing stream with
  | nil => cases member
  | cons w waiters ih =>
    cases stream with
    | nil => cases member
    | cons v rest =>
      rcases List.mem_cons.mp member with rfl | later
      · exact List.mem_cons_self
      · by_cases peek : w.isPeek = true
        · rw [if_pos peek] at later
          exact ih later
        · rw [if_neg peek] at later
          exact List.mem_cons_of_mem v (ih later)

/-- A round and then others. -/
theorem HandedOver.round {next : Box γ σ μ π} (parked : b.ParkedOnlyFull) (step : b.drainStep d = some next)
    {deliveries : List (Delivery γ σ μ π)} {admitted : List (MailboxPutWaiter σ)}
    (later : HandedOver d next c deliveries admitted) :
    ∃ deliveries admitted, HandedOver d b c deliveries admitted := by
  obtain ⟨w, v, rest, first, served, messages, left, putters, delivered, resumed, shadow, tables, free, -, -, -⟩ :=
    Box.drainStep_spec parked step
  refine ⟨⟨w, v, b.content d w v⟩ :: deliveries, first ++ admitted, ?_, ?_, ?_, ?_, ?_, ?_, ?_, ?_⟩
  · rw [served, later.getWaiters]
    rfl
  · rw [putters, later.putWaiters, List.append_assoc]
  · rw [later.delivered, delivered, List.append_assoc]
    rfl
  · rw [messages]
    simp only [List.map_cons, serve]
    rw [later.turns, left]
  · have conserved := later.conserved
    rw [left] at conserved
    rw [messages]
    by_cases peek : w.isPeek = true
    · rw [if_pos peek] at conserved
      simpa [taken, peek] using conserved
    · rw [if_neg peek] at conserved
      simpa [taken, peek] using conserved
  · obtain ⟨order, after, perm⟩ := later.resumed
    refine ⟨_, by rw [after, resumed, List.append_assoc], ?_⟩
    -- The waiter and the producer it let in come before what the later rounds resume.
    rw [List.map_cons, List.map_append, List.cons_append]
    calc List.map (fun p => resume p.pid p.cont) first ++ [resume w.pid w.cont] ++ order
      _ ~ [resume w.pid w.cont] ++ List.map (fun p => resume p.pid p.cont) first ++ order :=
        List.perm_append_comm.append_right order
      _ ~ _ := by
        refine List.Perm.cons _ ?_
        refine (perm.append_left _).trans ?_
        rw [← List.append_assoc, ← List.append_assoc]
        exact List.perm_append_comm.append_right _
  · intro id
    rw [later.released, free]
    simp only [List.mem_cons, exists_eq_or_imp, or_assoc]
  · intro once x member
    have shorter : (next.stream.filterMap (tokenOf d)).Nodup := by
      rw [left]
      by_cases peek : w.isPeek = true
      · rwa [if_pos peek, ← messages]
      · rw [if_neg peek]
        rw [messages, List.filterMap_cons] at once
        cases known : tokenOf d v with
        | none => rwa [known] at once
        | some tok =>
          rw [known] at once
          exact (List.nodup_cons.mp once).2
    rcases List.mem_cons.mp member with rfl | old
    · rfl
    · rw [later.contents shorter x old]
      rcases tables with same | ⟨take, tok, known, gone⟩
      · exact Box.content_congr same shadow x.waiter x.message
      · -- The token that was taken is not that of a later message.
        apply Box.content_other gone shadow
        intro again
        have pair : (x.waiter, x.message) ∈ serve (deliveries.map Delivery.waiter) next.stream := by
          rw [← later.turns]
          exact List.mem_map_of_mem old
        have waiting := serve_mem pair
        rw [left, if_neg (by simp [take])] at waiting
        rw [messages, List.filterMap_cons, known] at once
        exact (List.nodup_cons.mp once).1 (List.mem_filterMap.mpr ⟨x.message, waiting, again⟩)

/-- Every box a drain comes to was handed over to, keeps producers parked only while it is full, and never holds more
than its bound or than it did. -/
theorem DrainRun.handedOver (run : DrainRun d b c) (parked : b.ParkedOnlyFull) :
    (∃ deliveries admitted, HandedOver d b c deliveries admitted) ∧ c.ParkedOnlyFull ∧ c.bound = b.bound ∧
      (0 < b.bound → c.queue.length ≤ max b.bound b.queue.length) := by
  -- Each round hands over one message, and the rounds after it start from the box it leaves.
  induction run with
  | stop b => exact ⟨⟨[], [], .refl b⟩, parked, rfl, fun _ => Nat.le_max_right _ _⟩
  | round step rest ih =>
    obtain ⟨w, v, stream, first, -, -, -, -, -, -, -, -, -, bound, size, full⟩ := Box.drainStep_spec parked step
    obtain ⟨⟨deliveries, admitted, later⟩, ends, same, grown⟩ := ih full
    refine ⟨later.round parked step, ends, same.trans bound, fun bounded => ?_⟩
    have early := size bounded
    have late := grown (bound ▸ bounded)
    rw [bound] at late
    omega

namespace Box

/-- The drain goes through its rounds and ends where no message or no waiter is left. -/
theorem drain_spec (b : Box γ σ μ π) :
    DrainRun d b (b.drain d) ∧ ((b.drain d).queue = [] ∨ (b.drain d).getWaiters = []) := by
  -- The drain goes on while a round is possible, and without one the queue or the waiters are empty.
  induction b using drain.induct d with
  | case1 b done =>
    rw [drain, done]
    refine ⟨.stop b, ?_⟩
    unfold drainStep at done
    split at done
    · cases done
    next unmatched =>
      by_contra both
      obtain ⟨messages, waiters⟩ := not_or.mp both
      obtain ⟨v, rest, shape⟩ := List.exists_cons_of_ne_nil messages
      obtain ⟨w, others, served⟩ := List.exists_cons_of_ne_nil waiters
      exact unmatched v rest w others shape served
  | case2 b next step ih =>
    have unfolded : b.drain d = next.drain d := by
      rw [drain]
      split
      next nothing => rw [step] at nothing; cases nothing
      next other found => rw [step] at found; rw [Option.some.inj found]
    rw [unfolded]
    exact ⟨.round step ih.1, ih.2⟩

end Box

/-- What a drain of a mailbox is for. -/
structure DrainExact (d : Destinations γ) (b : Box γ σ μ π) : Prop where
  handedOver : ∃ deliveries admitted, HandedOver d b (b.drain d) deliveries admitted
  done : (b.drain d).queue = [] ∨ (b.drain d).getWaiters = []
  bounded : ∀ c, DrainRun d b c → 0 < b.bound → c.queue.length ≤ max b.bound b.queue.length
  parked : ∀ c, DrainRun d b c → c.ParkedOnlyFull

/-- A drain is exact where producers are parked only while the box is full. -/
theorem Box.drain_exact {b : Box γ σ μ π} (parked : b.ParkedOnlyFull) : DrainExact d b := by
  obtain ⟨run, done⟩ := b.drain_spec (d := d)
  exact ⟨(run.handedOver parked).1, done, fun c run => (run.handedOver parked).2.2.2,
    fun c run => (run.handedOver parked).2.1⟩

/-- What waking the waiters of a semaphore is for. -/
structure WakeExact (s : Semaphore σ) : Prop where
  /-- Waiters are served in the order they parked, each one resumed once. -/
  served : ∃ served, s.getWaiters = served ++ s.wake.getWaiters ∧
    s.wake.resumed = s.resumed ++ served.map fun w => resume w.pid w.cont
  /-- It stops only at a request that is not met. -/
  stops : ∀ w rest, s.wake.getWaiters = w :: rest → s.wake.count.toInt < w.n.toInt
  /-- No service takes more keys than there are. -/
  counted : ∀ t next, WakeRun s t → t.wakeStep = some next → 0 ≤ next.count.toInt

/-- Serving requests in order keeps the number of keys within an `i64`. Only a negative request can leave it. -/
def RequestsFit : Int → List Int → Prop
  | _, [] => True
  | count, n :: rest => n ≤ count → count - n < 2 ^ 63 ∧ RequestsFit (count - n) rest

namespace Semaphore

variable {s next : Semaphore σ}

/-- The last round of waking. -/
theorem wake_none (done : s.wakeStep = none) : s.wake = s := by
  rw [wake]
  split
  · rfl
  next found => rw [done] at found; cases found

/-- A round of waking and the others. -/
theorem wake_some (step : s.wakeStep = some next) : s.wake = next.wake := by
  rw [wake]
  split
  next nothing => rw [step] at nothing; cases nothing
  next other found => rw [step] at found; rw [Option.some.inj found]

/-- Waking parks nobody. -/
theorem wake_shorter (s : Semaphore σ) : s.wake.getWaiters.length ≤ s.getWaiters.length := by
  induction s using wake.induct with
  | case1 s done => rw [wake_none done]
  | case2 s next step ih =>
    obtain ⟨w, parked, -⟩ := wakeStep_cases step
    rw [wake_some step, parked, List.length_cons]
    omega

/-- Where a round is not done, the first request is not met. -/
theorem wakeStep_none (done : s.wakeStep = none) {w : SemGetWaiter σ} {rest : List (SemGetWaiter σ)}
    (parked : s.getWaiters = w :: rest) : s.count.toInt < w.n.toInt := by
  unfold wakeStep at done
  rw [parked] at done
  dsimp only at done
  split_ifs at done with enough
  exact Int.not_le.mp enough

/-- Waking is exact when its first round leaves a count that is not negative and the others are exact. -/
theorem wakeExact_some (step : s.wakeStep = some next) :
    WakeExact s ↔ 0 ≤ next.count.toInt ∧ WakeExact next := by
  obtain ⟨w, parked, -, -, resumed⟩ := wakeStep_cases step
  have unfolded := wake_some step
  constructor
  · intro exact
    refine ⟨exact.counted s next (.stop s) step, ?_, ?_, fun t after run => exact.counted t after (.round step run)⟩
    · obtain ⟨served, order, woken⟩ := exact.served
      rw [unfolded] at order woken
      cases served with
      | nil =>
        -- The waiter of the first round is not parked any more.
        have longer : next.getWaiters.length < next.wake.getWaiters.length := by
          rw [show next.wake.getWaiters = w :: next.getWaiters from (order.symm.trans parked)]
          simp
        have bound := wake_shorter next
        omega
      | cons first others =>
        rw [parked, List.cons_append, List.cons.injEq] at order
        obtain ⟨rfl, order⟩ := order
        refine ⟨others, order, ?_⟩
        rw [woken, resumed, List.append_assoc]
        rfl
    · rw [← unfolded]
      exact exact.stops
  · rintro ⟨positive, exact⟩
    refine ⟨?_, ?_, fun t after run found => ?_⟩
    · obtain ⟨served, order, woken⟩ := exact.served
      refine ⟨w :: served, by rw [parked, unfolded, order]; rfl, ?_⟩
      rw [unfolded, woken, resumed, List.append_assoc]
      rfl
    · rw [unfolded]
      exact exact.stops
    · cases run with
      | stop =>
        rw [step] at found
        rw [← Option.some.inj found]
        exact positive
      | round first rest =>
        rw [step] at first
        rw [← Option.some.inj first] at rest
        exact exact.counted t after rest found

/-- Waking is exact when the requests it serves keep the count within an `i64`. -/
theorem wakeExact_iff (s : Semaphore σ) :
    WakeExact s ↔ RequestsFit s.count.toInt (s.getWaiters.map fun w => w.n.toInt) := by
  induction s using wake.induct with
  | case1 s done =>
    have idle : WakeExact s := by
      refine ⟨⟨[], by rw [wake_none done]; rfl, by rw [wake_none done]; simp⟩, ?_, ?_⟩
      · rw [wake_none done]
        exact fun w rest parked => wakeStep_none done parked
      · intro t next run found
        cases run with
        | stop => rw [done] at found; cases found
        | round first rest => rw [done] at first; cases first
    apply iff_of_true idle
    cases parked : s.getWaiters with
    | nil => trivial
    | cons w rest => exact fun enough => absurd enough (Int.not_le.mpr (wakeStep_none done parked))
  | case2 s next step ih =>
    obtain ⟨w, parked, enough, count, -⟩ := wakeStep_cases step
    have left : next.count.toInt = (s.count.toInt - w.n.toInt).bmod (2 ^ 64) := by
      rw [count, BitVec.toInt_sub]
    have low := w.n.two_mul_toInt_lt
    have high := w.n.le_two_mul_toInt
    have lowCount := s.count.two_mul_toInt_lt
    rw [wakeExact_some step, ih, parked, List.map_cons, RequestsFit]
    by_cases fits : s.count.toInt - w.n.toInt < 2 ^ 63
    · -- The difference is the number of keys that are left.
      have same : next.count.toInt = s.count.toInt - w.n.toInt := by
        rw [left]
        exact Int.bmod_eq_of_le (by omega) (by omega)
      rw [same]
      exact ⟨fun both _ => ⟨fits, both.2⟩, fun both => ⟨by omega, (both enough).2⟩⟩
    · have negative : ¬ 0 ≤ next.count.toInt := by
        rw [left, Int.bmod_def]
        split_ifs <;> omega
      exact iff_of_false (fun both => negative both.1) (fun both => fits (both enough).1)

end Semaphore

/-- A drain is exact for every mailbox whose producers are parked only while it is full, and waking the waiters of a
semaphore is as well if and only if the requests it serves keep the number of keys within an `i64`. -/
theorem handOver_exact_iff (d : Destinations γ) (b : Box γ σ μ π) (parked : b.ParkedOnlyFull) (s : Semaphore σ) :
    DrainExact d b ∧ WakeExact s ↔ RequestsFit s.count.toInt (s.getWaiters.map fun w => w.n.toInt) := by
  rw [s.wakeExact_iff]
  exact ⟨And.right, fun fit => ⟨Box.drain_exact parked, fit⟩⟩

/-- A full box of one message, with a `get`, a `peek` and a producer parked on it. -/
def fullBox : Box Unit Unit Unit Unit where
  queue := [⟨8, 1, 0, false, false, false⟩]
  bound := 1
  getWaiters := [⟨0, (), [()], false⟩, ⟨1, (), [], true⟩]
  putWaiters := [⟨2, ⟨8, 2, 0, false, false, false⟩, [()]⟩]
  patterns := fun _ => none
  shadow := fun _ => ()
  freeIds := []
  delivered := []
  resumed := []

/-- The box hands both messages over, and a semaphore of two keys serves a request for one of them. -/
theorem handOver_exact_iff_fullBox :
    DrainExact ⟨fun v => some v.val, fun _ _ => false⟩ fullBox ∧
        WakeExact (⟨2#64, [⟨0, 1#64, [()]⟩], []⟩ : Semaphore Unit) ↔
      RequestsFit 2 [1] :=
  handOver_exact_iff _ fullBox (fun _ => ⟨by decide, by decide⟩) _

/-- A semaphore with nearly all keys there can be, and three processes that ask for one key less than none. -/
def overfull : Semaphore Unit :=
  ⟨BitVec.ofInt 64 (2 ^ 63 - 3), [⟨0, -1#64, [()]⟩, ⟨1, -1#64, [()]⟩, ⟨2, -1#64, [()]⟩], []⟩

/-- Serving negative requests can wrap the number of keys below zero. -/
theorem overfull_negative : ¬ WakeExact overfull := by
  intro exact
  have third := exact.counted _ _ (.round rfl (.round rfl (.stop _))) rfl
  revert third
  decide

end Xezim.Mailbox
