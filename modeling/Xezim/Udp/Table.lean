import Xezim.Lib.Digits

/-! The table of a user-defined primitive, and the lookup tables compiled from it. -/

namespace Xezim

open Digits

/-- `UdpSym`: one input or state symbol of a table row. -/
inductive UdpSym where
  | level (c : Char)
  | anyQ
  | b
  | edge (first last : Char)
  | edgeShort (c : Char)
  deriving DecidableEq

/-- `UdpOut`: the output symbol of a table row. -/
inductive UdpOut where
  | level (c : Char)
  | noChange
  deriving DecidableEq

/-- `UdpTableRow`. -/
structure UdpTableRow where
  inputs : List UdpSym
  state : Option UdpSym
  output : UdpOut
  deriving DecidableEq

/-- An edge symbol. -/
def UdpSym.isEdge : UdpSym → Bool
  | .edge .. | .edgeShort _ => true
  | .level _ | .anyQ | .b => false

/-- `udp_level_match`: a symbol matches a level, 2 standing for x. -/
def udpLevelMatch : UdpSym → Nat → Bool
  | .level c, a => if c = '0' then a == 0 else if c = '1' then a == 1 else a == 2
  | .anyQ, _ => true
  | .b, a => a == 0 || a == 1
  | .edge .., _ | .edgeShort _, _ => false

/-- The symbol of a level. -/
def levelChar (code : Nat) : Char := if code = 0 then '0' else if code = 1 then '1' else 'x'

/-- `udp_edge_match`: a symbol matches a transition. -/
def udpEdgeMatch (sym : UdpSym) (p c : Nat) : Bool :=
  let pc := levelChar p
  let cc := levelChar c
  let ml (s a : Char) : Bool := s == '?' || s == a
  match sym with
  | .edge first last => ml first pc && ml last cc
  | .edgeShort e =>
    if e = 'r' then pc == '0' && cc == '1'
    else if e = 'f' then pc == '1' && cc == '0'
    else if e = 'p' then decide ((pc, cc) ∈ [('0', '1'), ('0', 'x'), ('x', '1')])
    else if e = 'n' then decide ((pc, cc) ∈ [('1', '0'), ('1', 'x'), ('x', '0')])
    else if e = '*' then pc != cc
    else false
  | .level _ | .anyQ | .b => false

/-- The positions of a row's edge symbols. -/
def UdpTableRow.edges (row : UdpTableRow) : List Nat :=
  (List.range row.inputs.length).filter fun i => (row.inputs.getD i .anyQ).isEdge

/-- The level a row's output stands for, none for no change. -/
def UdpOut.code : UdpOut → Option Nat
  | .level c => some (if c = '0' then 0 else if c = '1' then 1 else 2)
  | .noChange => none

/-- `udp_match_row`: what a row answers to the current and previous inputs and the state. -/
def udpMatchRow (row : UdpTableRow) (cur prev : List Nat) (curState : Nat) (isSequential : Bool) :
    Option (Option Nat) :=
  if row.inputs.length ≠ cur.length then none
  -- Two edges in one row are rejected.
  else if row.edges.length > 1 then none
  else if (List.range cur.length).any fun i =>
      !(row.edges.contains i || udpLevelMatch (row.inputs.getD i .anyQ) (cur.getD i 0)) then none
  else if row.edges.any fun e =>
      prev.getD e 0 == cur.getD e 0 ||
        !udpEdgeMatch (row.inputs.getD e .anyQ) (prev.getD e 0) (cur.getD e 0) then none
  else if isSequential && row.state.any fun sym => !udpLevelMatch sym curState then none
  else some row.output.code

/-- The state after the first matching row, x where none matches. -/
def udpNext (rows : List UdpTableRow) (cur prev : List Nat) (state : Nat) (isSequential : Bool) :
    Nat :=
  match rows.findSome? fun row => udpMatchRow row cur prev state isSequential with
  | some output => output.getD state
  | none => 2

/-- `decode_ternary`: the levels a number encodes. -/
def decodeTernary (inputCount encoded : Nat) : List Nat := unpack 3 inputCount encoded

/-- `MAX_LUT_ENTRIES`. -/
def maxLutEntries : Nat := 200000

/-- `compile_udp_transition_lut`: the next state by state, previous and current inputs, and the
number of input vectors. -/
def compileUdpTransitionLut (rows : List UdpTableRow) (inputCount : Nat) (isSequential : Bool) :
    Option (List Nat × Nat) :=
  let inputStates := 3 ^ inputCount
  let entries := inputStates * inputStates * 3
  if entries > maxLutEntries then none
  else
    -- The entry of `(state, prev, cur)` stands at `(state * inputStates + prev) * inputStates + cur`.
    some ((List.range entries).map fun idx =>
      udpNext rows (decodeTernary inputCount (idx % inputStates))
        (decodeTernary inputCount (idx / inputStates % inputStates))
        (idx / (inputStates * inputStates)) isSequential, inputStates)

/-- The entry of a table, none past its end, where the code panics. -/
def lutAt (lut : List Nat) (inputStates state prevIdx curIdx : Nat) : Option Nat :=
  lut[(state * inputStates + prevIdx) * inputStates + curIdx]?

/-- Every change of the other inputs alone holds the state. -/
def passiveHolds (lut : List Nat) (inputStates eventInput : Nat) : Bool :=
  (List.range 3).all fun state =>
    (List.range inputStates).all fun prevIdx =>
      (List.range inputStates).all fun curIdx =>
        prevIdx == curIdx || digit 3 prevIdx eventInput != digit 3 curIdx eventInput ||
          lutAt lut inputStates state prevIdx curIdx == some state

/-- The transitions of an input that change some state for some levels of the others, as a mask by
previous and current level. -/
def eventMask (lut : List Nat) (inputStates eventInput : Nat) : Nat :=
  (List.range 9).foldl (fun mask t =>
    let prevDigit := t / 3
    let curDigit := t % 3
    if prevDigit ≠ curDigit ∧
        (List.range 3).any fun state => (List.range inputStates).any fun curIdx =>
          digit 3 curIdx eventInput == curDigit &&
            lutAt lut inputStates state (replaceDigit 3 curIdx eventInput prevDigit) curIdx !=
              some state then
      mask ||| 1 <<< t
    else mask) 0

/-- `compile_udp_event_filter`: the one input whose changes can change the state, with the mask of
its transitions that do. -/
def compileUdpEventFilter (lut : List Nat) (inputStates inputCount : Nat) : Option (Nat × Nat) :=
  (List.range inputCount).findSome? fun eventInput =>
    if passiveHolds lut inputStates eventInput then
      let mask := eventMask lut inputStates eventInput
      if mask ≠ 0 then some (eventInput, mask) else none
    else none

end Xezim
