import Xezim.Lib.TimedSlab
import Mathlib.Algebra.Group.Nat.Defs
import Mathlib.Logic.Function.Basic

/-! The tables through which blocks run two-state, and putting blocks that keep reading x to sleep. -/

namespace Xezim.Sleep

/-- Consecutive x-read bails before a block is put to sleep. -/
def tsXbailStreak : Nat := 8

/-- The first sleep, in successful two-state evaluations. -/
def tsXbailSleepUnit : Nat := 256

/-- A gap this long between two bails of one block restarts its streak. -/
def tsXbailForget : Nat := 65536

/-- Aborts tolerated of a block before its demotion. -/
def tsAbortDemote : Nat := 8

/-- The largest stream of the arena. -/
def tsHdrLenMax : Nat := 8191

/-- A lowered stream. -/
structure TwoStateBlock (Stream : Type) where
  stream : Stream
  /-- The number of its instructions. -/
  len : Nat
  numRegs : Nat
  hasWide : Bool
  wideWords : Nat
  hasCtrl : Bool
  deriving DecidableEq

/-- The header of a stream in the arena; kind 0 means none. -/
structure TsHdr where
  off : Nat
  lenKind : Nat
  numRegs : Nat
  deriving DecidableEq

/-- The executor of the stream. -/
def TsHdr.kind (h : TsHdr) : Nat := h.lenKind / 8192

/-- How a comb entry is dispatched. -/
inductive CombPlan (Stream : Type) where
  | unresolved
  | ts (block : TwoStateBlock Stream)
  | jit
  | tpl
  | interp
  deriving DecidableEq

/-- The lowered form of a block. -/
inductive TsSlot (Stream : Type) where
  | untried
  | no
  | yes (block : TwoStateBlock Stream)
  deriving DecidableEq

/-- What a bailing block ran through: a comb entry's plan or arena header, its slot, or an edge block's slot. -/
inductive Kind where
  | plan
  | slot
  | edge
  deriving DecidableEq

/-- A sleeping block: what was swapped out, and where. -/
structure TsSleepRec (Stream : Type) where
  kind : Kind
  idx : Nat
  lenKind : Nat
  sleptAt : Nat
  plan : Option (CombPlan Stream)
  slot : Option (TsSlot Stream)
  deriving DecidableEq

/-- The bails of a block: their streak, the last one, and until when the first after waking counts as immediate. -/
structure Streak where
  streak : Nat
  last : Nat
  probeUntil : Nat
  deriving DecidableEq

/-- The tables the blocks run through. A vector is total here: beyond its end it reads as what `resize` fills in. -/
structure Forms (Stream : Type) where
  tsHdr : Nat → TsHdr
  combPlan : Nat → CombPlan Stream
  tsComb : Nat → TsSlot Stream
  tsEdge : Nat → TsSlot Stream

/-- The two-state engine, as far as putting blocks to sleep goes. -/
structure Engine (Stream : Type) where
  /-- The successful two-state evaluations, by which sleeps are timed: a `u64` counter in the source, unbounded here. -/
  profTsEvals : Nat
  tsArenaLen : Nat
  forms : Forms Stream
  /-- Ghost: the tables as they stood if nothing were ever put to sleep. -/
  awake : Forms Stream
  sleepers : TimedSlab (TsSleepRec Stream)
  tsCombXb : Nat → Streak
  tsEdgeXb : Nat → Streak
  /-- The interpreted evaluations of a sleeping block, plus one; 0 means awake. -/
  tsAsleepComb : Nat → Nat
  tsAsleepEdge : Nat → Nat
  tsLastXbail : Bool
  tsExecAborted : Bool
  tsCombAbortn : Nat → Nat
  tsEdgeAbortn : Nat → Nat
  combPlanAbortn : Nat → Nat

variable {Stream : Type}

/-- Whether a kind is that of edge blocks. -/
def Kind.isEdge : Kind → Bool
  | edge => true
  | _ => false

namespace Engine

/-- The bails of a comb entry or of an edge block. -/
def xb (s : Engine Stream) (edge : Bool) (idx : Nat) : Streak := if edge then s.tsEdgeXb idx else s.tsCombXb idx

/-- The bails of one block replaced. -/
def setXb (s : Engine Stream) (edge : Bool) (idx : Nat) (x : Streak) : Engine Stream :=
  if edge then { s with tsEdgeXb := Function.update s.tsEdgeXb idx x }
  else { s with tsCombXb := Function.update s.tsCombXb idx x }

/-- The asleep marker of a comb entry or of an edge block. -/
def marker (s : Engine Stream) (edge : Bool) (idx : Nat) : Nat :=
  if edge then s.tsAsleepEdge idx else s.tsAsleepComb idx

/-- The asleep marker of one block replaced. -/
def setMarker (s : Engine Stream) (edge : Bool) (idx n : Nat) : Engine Stream :=
  if edge then { s with tsAsleepEdge := Function.update s.tsAsleepEdge idx n }
  else { s with tsAsleepComb := Function.update s.tsAsleepComb idx n }

end Engine

/-- One more bail. The first since waking restarts the streak when it comes late, any other after a long gap. -/
def countBail (now : Nat) (x : Streak) : Streak :=
  let streak :=
    if x.probeUntil ≠ 0 then if x.probeUntil < now then 0 else x.streak
    else if tsXbailForget < now - x.last then 0 else x.streak
  ⟨min 255 (streak + 1), now, 0⟩

/-- What a block runs through swapped for its demoted form, and the record of it; nothing where there is nothing to
swap out. -/
def swapOut (forms : Forms Stream) (kind : Kind) (idx now : Nat) : Option (TsSleepRec Stream × Forms Stream) :=
  match kind with
  | .plan =>
    -- An entry runs two-state through its arena header, its plan, or both.
    let h := forms.tsHdr idx
    let hdr := if h.lenKind ≠ 0 then Function.update forms.tsHdr idx { h with lenKind := 0 } else forms.tsHdr
    match forms.combPlan idx with
    | .ts block =>
      some (⟨.plan, idx, h.lenKind, now, some (.ts block), none⟩,
        { forms with tsHdr := hdr, combPlan := Function.update forms.combPlan idx .interp })
    | _ =>
      if h.lenKind ≠ 0 then some (⟨.plan, idx, h.lenKind, now, none, none⟩, { forms with tsHdr := hdr }) else none
  | .slot =>
    some (⟨.slot, idx, 0, now, none, some (forms.tsComb idx)⟩,
      { forms with tsComb := Function.update forms.tsComb idx .no })
  | .edge =>
    some (⟨.edge, idx, 0, now, none, some (forms.tsEdge idx)⟩,
      { forms with tsEdge := Function.update forms.tsEdge idx .no })

/-- A two-state attempt has bailed on an x read: it is counted, and a long enough streak puts the block to sleep. -/
def tsXbailNote (s : Engine Stream) (kind : Kind) (idx : Nat) : Engine Stream :=
  let now := s.profTsEvals
  let x := countBail now (s.xb kind.isEdge idx)
  let s := s.setXb kind.isEdge idx x
  if x.streak < tsXbailStreak then s
  else
    let wakeAt := now + tsXbailSleepUnit * 2 ^ min (x.streak - tsXbailStreak) 12
    let s := s.setMarker kind.isEdge idx 1
    match swapOut s.forms kind idx now with
    | none => s
    | some (sleeper, forms) => { s with forms := forms, sleepers := s.sleepers.push wakeAt sleeper }

/-- What a record swapped out put back. -/
def TsSleepRec.putBack (r : TsSleepRec Stream) (forms : Forms Stream) : Forms Stream :=
  match r.kind with
  | .plan =>
    let plans := match r.plan with
      | some plan => Function.update forms.combPlan r.idx plan
      | none => forms.combPlan
    let hdrs :=
      if r.lenKind ≠ 0 then Function.update forms.tsHdr r.idx { forms.tsHdr r.idx with lenKind := r.lenKind }
      else forms.tsHdr
    { forms with combPlan := plans, tsHdr := hdrs }
  | .slot =>
    match r.slot with
    | some slot => { forms with tsComb := Function.update forms.tsComb r.idx slot }
    | none => forms
  | .edge =>
    match r.slot with
    | some slot => { forms with tsEdge := Function.update forms.tsEdge r.idx slot }
    | none => forms

/-- One block woken: it is awake again, and how soon its next bail counts as immediate follows from how often it was
evaluated while it slept. -/
def wake (now : Nat) (s : Engine Stream) (r : TsSleepRec Stream) : Engine Stream :=
  let edge := r.kind.isEdge
  let evals := s.marker edge r.idx - 1
  let s := s.setMarker edge r.idx 0
  let slept := max (now - r.sleptAt) 1
  let cadence := if evals = 0 then slept else max (slept / evals) 1
  let s := s.setXb edge r.idx { s.xb edge r.idx with probeUntil := now + cadence * 4 }
  { s with forms := r.putBack s.forms }

/-- The sleepers whose time has come, woken one after the other. -/
def wakeLoop (now : Nat) : Nat → Engine Stream → Engine Stream
  | 0, s => s
  | n + 1, s => match s.sleepers.pop now with
    | none => s
    | some (none, sleepers) => wakeLoop now n { s with sleepers := sleepers }
    | some (some r, sleepers) => wakeLoop now n (wake now { s with sleepers := sleepers } r)

/-- Every sleeping block whose wake time has passed is restored. -/
def tsWakeSleepers (s : Engine Stream) : Engine Stream :=
  wakeLoop s.profTsEvals s.sleepers.heap.length s

end Xezim.Sleep
