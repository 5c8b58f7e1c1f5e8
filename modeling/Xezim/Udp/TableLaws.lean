import Mathlib.Data.List.GetD
import Xezim.Udp.Eval

/-! The compiled tables answer what the row search answers. -/

namespace Xezim

open Digits

/-- A vector of levels of a given length. -/
structure Levels (n : Nat) (levels : List Nat) : Prop where
  length : levels.length = n
  small : ∀ a ∈ levels, a < 3

/-- Replacing a level by a level leaves a vector of levels. -/
theorem Levels.set {n : Nat} {levels : List Nat} (ok : Levels n levels) (i : Nat) {a : Nat}
    (small : a < 3) : Levels n (levels.set i a) where
  length := by rw [List.length_set, ok.length]
  small b member := by
    rcases List.mem_or_eq_of_mem_set member with old | rfl
    · exact ok.small b old
    · exact small

/-- A level of a vector. -/
theorem Levels.getD {n : Nat} {levels : List Nat} (ok : Levels n levels) (i : Nat) :
    levels.getD i 0 < 3 := by
  by_cases inside : i < levels.length
  · rw [List.getD_eq_getElem _ _ inside]
    exact ok.small _ (List.getElem_mem inside)
  · rw [List.getD_eq_default _ _ (Nat.le_of_not_lt inside)]
    decide

/-- All inputs x. -/
theorem levels_replicate (n : Nat) : Levels n (List.replicate n 2) where
  length := List.length_replicate
  small a member := by rw [List.eq_of_mem_replicate member]; decide

/-- The loops encode a vector by its digits. -/
theorem encodeTernary_eq (codes : List Nat) : encodeTernary codes = Nat.ofDigits 3 codes := by
  have run : ∀ (codes : List Nat) (sum place : Nat),
      (codes.foldl (fun acc code => (acc.1 + code * acc.2, acc.2 * 3)) (sum, place)).1 =
        sum + place * Nat.ofDigits 3 codes := by
    intro codes
    induction codes with
    | nil => intro sum place; simp
    | cons code rest ih =>
      intro sum place
      rw [List.foldl_cons, ih, Nat.ofDigits_cons]
      ring
  rw [encodeTernary, run]
  ring

/-- Encoding all inputs x. -/
theorem encode_replicate (n : Nat) : Nat.ofDigits 3 (List.replicate n 2) = 3 ^ n - 1 := by
  have sum : Nat.ofDigits 3 (List.replicate n 2) + 1 = 3 ^ n := by
    induction n with
    | zero => rfl
    | succ n ih =>
      rw [List.replicate_succ, Nat.ofDigits_cons, Nat.pow_succ, ← ih]
      ring
  omega

/-- Decoding an encoded vector. -/
theorem decode_encode {n : Nat} {levels : List Nat} (ok : Levels n levels) :
    decodeTernary n (Nat.ofDigits 3 levels) = levels := by
  rw [decodeTernary, ← ok.length]
  exact unpack_ofDigits ok.small

/-- An encoded vector indexes the table's vectors. -/
theorem encode_lt {n : Nat} {levels : List Nat} (ok : Levels n levels) :
    Nat.ofDigits 3 levels < 3 ^ n := by
  rw [← ok.length]
  exact ofDigits_lt ok.small

/-- A row's output is a level. -/
theorem outputCode_lt {output : UdpOut} {a : Nat} (code : output.code = some a) : a < 3 := by
  cases output with
  | noChange => cases code
  | level c =>
    cases code
    split
    · decide
    · split <;> decide

/-- The next state is a level. -/
theorem udpNext_lt (rows : List UdpTableRow) (cur prev : List Nat) {state : Nat} (small : state < 3)
    (isSequential : Bool) : udpNext rows cur prev state isSequential < 3 := by
  unfold udpNext
  split
  · rename_i output found
    obtain ⟨row, -, matched⟩ := List.exists_of_findSome?_eq_some found
    cases output with
    | none => exact small
    | some a =>
      -- Only a row's own output is answered.
      unfold udpMatchRow at matched
      repeat' split at matched
      all_goals first | cases matched | skip
      exact outputCode_lt (Option.some.inj matched)
  · decide

section Compiled

variable {rows : List UdpTableRow} {n : Nat} {isSequential : Bool} {lut : List Nat} {states : Nat}

/-- The compiled table holds the next state of every state and pair of input vectors. -/
theorem lutAt_compiled (compiled : compileUdpTransitionLut rows n isSequential = some (lut, states))
    {prev cur : List Nat} (prevOk : Levels n prev) (curOk : Levels n cur) {state : Nat}
    (small : state < 3) :
    states = 3 ^ n ∧ lutAt lut states state (Nat.ofDigits 3 prev) (Nat.ofDigits 3 cur) =
      some (udpNext rows cur prev state isSequential) := by
  simp only [compileUdpTransitionLut] at compiled
  split at compiled
  · cases compiled
  · simp only [Option.some.injEq, Prod.mk.injEq] at compiled
    obtain ⟨rfl, rfl⟩ := compiled
    refine ⟨rfl, ?_⟩
    have p := encode_lt prevOk
    have c := encode_lt curOk
    have positive : 0 < 3 ^ n := Nat.pow_pos (by decide)
    generalize 3 ^ n = states at *
    have high : state * states + Nat.ofDigits 3 prev < 3 * states := by nlinarith
    have inside : (state * states + Nat.ofDigits 3 prev) * states + Nat.ofDigits 3 cur <
        states * states * 3 := by nlinarith
    -- The three parts of the index come apart by division.
    have quotient : ((state * states + Nat.ofDigits 3 prev) * states + Nat.ofDigits 3 cur) / states =
        state * states + Nat.ofDigits 3 prev := by
      rw [Nat.mul_comm, Nat.mul_add_div positive, Nat.div_eq_of_lt c, Nat.add_zero]
    have low : ((state * states + Nat.ofDigits 3 prev) * states + Nat.ofDigits 3 cur) % states =
        Nat.ofDigits 3 cur := by
      rw [Nat.mul_comm, Nat.mul_add_mod, Nat.mod_eq_of_lt c]
    have middle : (state * states + Nat.ofDigits 3 prev) % states = Nat.ofDigits 3 prev := by
      rw [Nat.mul_comm, Nat.mul_add_mod, Nat.mod_eq_of_lt p]
    have top : (state * states + Nat.ofDigits 3 prev) / states = state := by
      rw [Nat.mul_comm, Nat.mul_add_div positive, Nat.div_eq_of_lt p, Nat.add_zero]
    rw [lutAt, List.getElem?_map, List.getElem?_range inside, Option.map_some, low,
      ← Nat.div_div_eq_div_mul, quotient, middle, top, decode_encode prevOk, decode_encode curOk]

/-- The number of vectors of a compiled table. -/
theorem states_eq (compiled : compileUdpTransitionLut rows n isSequential = some (lut, states)) :
    states = 3 ^ n :=
  (lutAt_compiled compiled (levels_replicate n) (levels_replicate n) (by decide : 0 < 3)).1

/-- Every entry of a compiled table is a level. -/
theorem lut_small (compiled : compileUdpTransitionLut rows n isSequential = some (lut, states))
    {i a : Nat} (entry : lut[i]? = some a) : a < 3 := by
  simp only [compileUdpTransitionLut] at compiled
  split at compiled
  · cases compiled
  · simp only [Option.some.injEq, Prod.mk.injEq] at compiled
    obtain ⟨rfl, rfl⟩ := compiled
    rw [List.getElem?_map] at entry
    obtain ⟨idx, range, rfl⟩ := Option.map_eq_some_iff.mp entry
    have inside := List.mem_range.mp (List.mem_of_getElem? range)
    have positive : 0 < 3 ^ n := Nat.pow_pos (by decide)
    refine udpNext_lt _ _ _ ?_ _
    rw [Nat.div_lt_iff_lt_mul (Nat.mul_pos positive positive)]
    omega

/-- The digit of an encoded vector is its level. -/
theorem digit_encode {levels : List Nat} (ok : Levels n levels) (i : Nat) :
    digit 3 (Nat.ofDigits 3 levels) i = levels.getD i 0 := digit_ofDigits ok.small i

/-- Replacing a digit of an encoded vector. -/
theorem replaceDigit_encode {levels : List Nat} (ok : Levels n levels) {i : Nat} (inside : i < n)
    (a : Nat) :
    replaceDigit 3 (Nat.ofDigits 3 levels) i a = Nat.ofDigits 3 (levels.set i a) :=
  replaceDigit_ofDigits ok.small (ok.length.symm ▸ inside) a

/-- What the event filter found out about its input. -/
structure Filtered (rows : List UdpTableRow) (n : Nat) (isSequential : Bool) (event mask : Nat) :
    Prop where
  inside : event < n
  passive : ∀ prev cur state, Levels n prev → Levels n cur → state < 3 → prev ≠ cur →
    prev.getD event 0 = cur.getD event 0 → udpNext rows cur prev state isSequential = state
  inactive : ∀ prev cur state, Levels n cur → prev < 3 → state < 3 → prev ≠ cur.getD event 0 →
    mask.testBit (prev * 3 + cur.getD event 0) = false →
    udpNext rows cur (cur.set event prev) state isSequential = state

/-- A bit of the mask of active transitions. -/
theorem testBit_eventMask (lut : List Nat) (states event : Nat) {t : Nat} (inside : t < 9) :
    (eventMask lut states event).testBit t =
      decide (t / 3 ≠ t % 3 ∧
        (List.range 3).any fun state => (List.range states).any fun curIdx =>
          digit 3 curIdx event == t % 3 &&
            lutAt lut states state (replaceDigit 3 curIdx event (t / 3)) curIdx != some state) := by
  have run : ∀ (active : Nat → Bool) (ts : List Nat) (mask k : Nat),
      (ts.foldl (fun mask t => if active t then mask ||| 1 <<< t else mask) mask).testBit k =
        (mask.testBit k || (ts.contains k && active k)) := by
    intro active ts
    induction ts with
    | nil => intro mask k; simp
    | cons t rest ih =>
      intro mask k
      rw [List.foldl_cons, ih]
      by_cases here : k = t
      · subst here
        by_cases on : active k = true <;> simp [on, Nat.one_shiftLeft, Nat.testBit_two_pow_self]
      · have apart : (1 <<< t).testBit k = false := by
          rw [Nat.one_shiftLeft, Nat.testBit_two_pow_of_ne (Ne.symm here)]
        by_cases on : active t = true <;> simp [on, here, apart]
  have bit := run (fun t => decide (t / 3 ≠ t % 3 ∧
    (List.range 3).any fun state => (List.range states).any fun curIdx =>
      digit 3 curIdx event == t % 3 &&
        lutAt lut states state (replaceDigit 3 curIdx event (t / 3)) curIdx != some state))
    (List.range 9) 0 t
  have member : (List.range 9).contains t = true := by simpa using inside
  rw [member, Nat.zero_testBit, Bool.false_or, Bool.true_and] at bit
  rw [← bit, eventMask]
  simp only [decide_eq_true_eq]

/-- The event filter finds an input only where the filter's facts hold of it. -/
theorem filtered_of_filter
    (compiled : compileUdpTransitionLut rows n isSequential = some (lut, states)) {event mask : Nat}
    (found : compileUdpEventFilter lut states n = some (event, mask)) :
    Filtered rows n isSequential event mask := by
  obtain ⟨e, member, picked⟩ := List.exists_of_findSome?_eq_some found
  have inside := List.mem_range.mp member
  have count := states_eq compiled
  split at picked
  · rename_i holds
    dsimp only at picked
    split at picked
    · simp only [Option.some.injEq, Prod.mk.injEq] at picked
      obtain ⟨rfl, rfl⟩ := picked
      refine ⟨inside, fun prev cur state prevOk curOk small differ same => ?_,
        fun prev cur state curOk smallPrev small differ clear => ?_⟩
      · -- The pair was among those the filter went through.
        simp only [passiveHolds, List.all_eq_true, List.mem_range] at holds
        have pair := holds state small (Nat.ofDigits 3 prev) (count ▸ encode_lt prevOk)
          (Nat.ofDigits 3 cur) (count ▸ encode_lt curOk)
        rw [digit_encode prevOk, digit_encode curOk, same,
          (lutAt_compiled compiled prevOk curOk small).2] at pair
        have apart : Nat.ofDigits 3 prev ≠ Nat.ofDigits 3 cur := by
          rw [ne_eq, ofDigits_inj prevOk.small curOk.small (prevOk.length.trans curOk.length.symm)]
          exact differ
        simpa [apart] using pair
      · have smallCur := curOk.getD e
        rw [testBit_eventMask lut states e (by omega),
          show (prev * 3 + cur.getD e 0) / 3 = prev by omega,
          show (prev * 3 + cur.getD e 0) % 3 = cur.getD e 0 by omega] at clear
        simp only [ne_eq, decide_eq_false_iff_not, not_and, Bool.not_eq_true, List.any_eq_false,
          List.mem_range] at clear
        have entry := clear differ state small (Nat.ofDigits 3 cur) (count ▸ encode_lt curOk)
        rw [digit_encode curOk, replaceDigit_encode curOk inside,
          (lutAt_compiled compiled (curOk.set e smallPrev) curOk small).2] at entry
        simpa using entry
    · cases picked
  · cases picked

end Compiled

end Xezim
