import Xezim.Comb.Item
import Xezim.Value

/-! Edge signals that are copies of one driver, and the scan that answers for a group once. -/

namespace Xezim.Edges

open Comb

/-- What the grouping reads of every signal. -/
structure SignalTables where
  /-- Length of `signal_table`. -/
  nsig : Nat
  signalWidths : Nat → Nat
  signalReal : Nat → Bool
  signalTwoState : Nat → Bool
  sdfDelays : Nat → Nat

/-- The copies an item makes, as pairs of destination and source. -/
def copies : CombItem → List (Nat × Nat)
  | .directCopy dst src _ => [(dst, src)]
  | .fastDirectCopy dst src => [(dst, src)]
  | .fastDirectFanout src dsts => dsts.map fun d => (d, src)
  | .fusedBufFanout src dsts invert =>
    if invert || src.bit ≠ 0 then [] else (dsts.filter fun d => d.bit = 0).map fun d => (d.sigId, src.sigId)
  | .fusedGate (.buf1 dst src invert) =>
    if !invert && src.bit = 0 && dst.bit = 0 then [(dst.sigId, src.sigId)] else []
  | _ => []

section Build

variable (T : SignalTables) (entries : List CombEntry)

/-- `writer_count`, a saturating `u32`. -/
def writerCount (d : Nat) : Nat := min ((entries.flatMap CombEntry.writeSignalIds).count d) (2 ^ 32 - 1)

/-- `eligible`: the conditions under which a copy counts. -/
def eligible (dst src : Nat) : Bool :=
  dst < T.nsig && src < T.nsig && dst ≠ src && writerCount entries dst = 1 && T.signalWidths dst ≤ 64 &&
    T.signalWidths dst = T.signalWidths src && !T.signalReal dst && !T.signalReal src &&
    T.signalTwoState dst = T.signalTwoState src && T.sdfDelays dst = 0

/-- `copy_src`: the signal each signal is taken for a copy of. -/
def copySrc : Nat → Option Nat :=
  (entries.flatMap fun e => copies e.item).foldl
    (fun table c => if eligible T entries c.1 c.2 then Function.update table c.1 (some c.2) else table) fun _ => none

/-- `MAX_COPY_HOPS`. -/
def maxCopyHops : Nat := 64

/-- The walk up the copies from a signal, with the hops left at its end. -/
def follow (table : Nat → Option Nat) : Nat → Nat → Nat × Nat
  | 0, cur => (cur, 0)
  | left + 1, cur =>
    match table cur with
    | none => (cur, left + 1)
    | some s => follow table left s

/-- The loop over the edge signals; a group is numbered by the place of its root. -/
def assignGroups (table : Nat → Option Nat) : List Nat → List Nat → List (Option Nat) × List Nat
  | roots, [] => ([], roots)
  | roots, sid :: ids =>
    let (root, left) := follow table maxCopyHops sid
    -- No hop: an independently driven root. No hop left: a cycle, or too long a chain.
    if left = maxCopyHops ∨ left = 0 then
      let (groups, roots) := assignGroups table roots ids
      (none :: groups, roots)
    else
      let roots := if root ∈ roots then roots else roots ++ [root]
      let (groups, final) := assignGroups table roots ids
      (some (roots.idxOf root) :: groups, final)

/-- `build_edge_sig_groups`: `edge_group_of` and `edge_group_count`. Groups of one member are dissolved. -/
def buildEdgeSigGroups (noDedup : Bool) (ids : List Nat) : List (Option Nat) × Nat :=
  if noDedup || ids.isEmpty then ([], 0)
  else
    let (groups, roots) := assignGroups (copySrc T entries) [] ids
    (groups.map fun g => g.filter fun g => 2 ≤ groups.count (some g), roots.length)

end Build

/-- The snapshots an edge is read from. -/
structure Snapshots where
  signalTable : Nat → Value
  prevVal : Nat → Word
  prevXz : Nat → Word
  prevWide : Nat → Option Value

/-- What one edge signal answers. -/
structure EdgeAnswer where
  curV : Word
  curX : Word
  prevV : Word
  prevX : Word
  firesPos : Bool
  firesNeg : Bool
  firesAny : Bool
  deriving DecidableEq

/-- `EdgeGroupMemo`; the generation is a `u64` that no run of passes wraps. -/
structure EdgeGroupMemo where
  generation : Nat
  answer : EdgeAnswer

instance : Inhabited EdgeGroupMemo := ⟨⟨0, ⟨0, 0, 0, 0, false, false, false⟩⟩⟩

/-- The answer computed from the signal's own tables. -/
def ownAnswer (T : SignalTables) (st : Snapshots) (sid : Nat) : EdgeAnswer :=
  let curV := (st.signalTable sid).planes.1
  let curX := (st.signalTable sid).planes.2
  let prevV := st.prevVal sid
  let prevX := st.prevXz sid
  let (firesPos, firesNeg) :=
    if !(curX ||| prevX).getLsbD 0 then
      let changed := (curV ^^^ prevV).getLsbD 0
      (changed && curV.getLsbD 0, changed && !curV.getLsbD 0)
    else
      let cbOne := curV.getLsbD 0 && !curX.getLsbD 0
      let cbZero := !curV.getLsbD 0 && !curX.getLsbD 0
      let pbOne := prevV.getLsbD 0 && !prevX.getLsbD 0
      let pbZero := !prevV.getLsbD 0 && !prevX.getLsbD 0
      ((pbZero && !cbZero) || (!pbOne && cbOne), (pbOne && !cbOne) || (!pbZero && cbZero))
  let firesAny :=
    if 64 < T.signalWidths sid then
      match st.prevWide sid with
      | none => decide (curV ≠ prevV ∨ curX ≠ prevX)
      | some p => decide (st.signalTable sid ≠ p)
    else decide (curV ≠ prevV ∨ curX ≠ prevX)
  ⟨curV, curX, prevV, prevX, firesPos, firesNeg, firesAny⟩

/-- The tables of a detect pass that do not change during it. -/
structure DetectTables where
  tables : SignalTables
  edgeSignalIds : List Nat
  edgeGroupOf : List (Option Nat)

/-- One detect pass: what it sees, the positions it scans, those with a sensitive block, and whether a signal is
forced. -/
structure Pass where
  snapshots : Snapshots
  positions : List Nat
  fanout : Nat → Bool
  forced : Bool

namespace DetectTables

variable (D : DetectTables)

/-- The group a position answers with. -/
def groupAt (p : Pass) (pos : Nat) : Option Nat :=
  if D.edgeGroupOf ≠ [] ∧ p.forced = false then (D.edgeGroupOf[pos]?).join else none

/-- One position: the memo slots after it, and the answer used, if any. A reused answer that does not fire
leaves before the signal is looked up. -/
def scanPos (p : Pass) (generation : Nat) (memo : List EdgeGroupMemo) (pos : Nat) :
    List EdgeGroupMemo × Option EdgeAnswer :=
  if !p.fanout pos then (memo, none)
  else
    match (D.groupAt p pos).bind fun g => (memo[g]?).filter fun m => m.generation = generation with
    | some m => (memo, some m.answer)
    | none =>
      match D.edgeSignalIds[pos]? with
      | none => (memo, none)
      | some sid =>
        let answer := ownAnswer D.tables p.snapshots sid
        match D.groupAt p pos with
        | none => (memo, some answer)
        | some g => (memo.set g ⟨generation, answer⟩, some answer)

/-- The scan of `check_edges_inner`: the answer used for each position that has one. -/
def scan (p : Pass) (generation : Nat) : List EdgeGroupMemo → List Nat → List EdgeGroupMemo × List (Nat × EdgeAnswer)
  | memo, [] => (memo, [])
  | memo, pos :: positions =>
    let (memo, answer) := D.scanPos p generation memo pos
    let (memo, answers) := scan p generation memo positions
    (memo, (answer.map fun a => (pos, a)).toList ++ answers)

/-- A run of detect passes, each under a generation of its own. -/
def detect : Nat → List EdgeGroupMemo → List Pass → List (Pass × List (Nat × EdgeAnswer))
  | _, _, [] => []
  | generation, memo, p :: passes =>
    let (memo, answers) := D.scan p (generation + 1) memo p.positions
    (p, answers) :: detect (generation + 1) memo passes

end DetectTables

end Xezim.Edges
