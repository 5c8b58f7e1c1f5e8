import Mathlib.Data.Nat.Bitwise
import Mathlib.Logic.Function.Basic
import Xezim.Soa.Store
import Xezim.WordLaws

/-! What a store of signals is for: every signal shows what was last written to it. -/

namespace Xezim.Soa

open Splice

/-- Both planes of a signal. -/
abbrev Planes := Nat × Nat

/-- What a signal is declared as. -/
structure SignalDecl where
  width : Nat
  isSigned : Bool
  isReal : Bool
  twoState : Bool

namespace SignalDecl

variable (d : SignalDecl)

/-- What the signal keeps of two planes: they are cut to its width, and a two-state signal has its unknown bits
folded to zero. -/
def held (p : Planes) : Planes :=
  if d.twoState then (p.1.ldiff p.2 % 2 ^ d.width, 0) else (p.1 % 2 ^ d.width, p.2 % 2 ^ d.width)

/-- The value that shows two planes of the signal. -/
def value (p : Planes) : Value := ⟨d.width, p.1, p.2, d.isSigned, d.isReal, false⟩

/-- Both planes stay below the declared width. -/
def Fits (p : Planes) : Prop := p.1 < 2 ^ d.width ∧ p.2 < 2 ^ d.width

/-- What a signal keeps fits. -/
theorem held_fits (p : Planes) : d.Fits (d.held p) := by
  have pos : 0 < 2 ^ d.width := Nat.two_pow_pos _
  unfold held Fits
  split
  · exact ⟨Nat.mod_lt _ pos, pos⟩
  · exact ⟨Nat.mod_lt _ pos, Nat.mod_lt _ pos⟩

/-- The bits a signal keeps. -/
theorem testBit_held (p : Planes) (i : Nat) :
    (d.held p).1.testBit i = (decide (i < d.width) && (p.1.testBit i && !(d.twoState && p.2.testBit i))) ∧
      (d.held p).2.testBit i = (decide (i < d.width) && (p.2.testBit i && !d.twoState)) := by
  unfold held
  cases d.twoState
  · simp [Nat.testBit_mod_two_pow]
  · simp [Nat.testBit_mod_two_pow, Nat.testBit_ldiff]

/-- Different planes are shown as different values. -/
theorem value_inj {p q : Planes} : d.value p = d.value q ↔ p = q := by
  constructor
  · intro same
    simp only [value, Value.mk.injEq] at same
    exact Prod.ext same.2.1 same.2.2.1
  · rintro rfl
    rfl

/-- The bits of two planes up to the declared width. -/
def bits (p : Planes) : List LogicBit := (List.range d.width).map fun i => (p.1.testBit i, p.2.testBit i)

/-- A bit of the planes. -/
theorem bits_get (p : Planes) (i : Nat) :
    (d.bits p)[i]?.getD (false, false) =
      if i < d.width then (p.1.testBit i, p.2.testBit i) else (false, false) := by
  unfold bits
  rw [List.getElem?_map]
  split
  · rename_i inside
    rw [List.getElem?_range inside]
    rfl
  · rename_i outside
    rw [List.getElem?_eq_none (by simpa using outside)]
    rfl

/-- Planes that fit are their bits. -/
theorem bits_inj {p q : Planes} (fitsP : d.Fits p) (fitsQ : d.Fits q) (same : d.bits p = d.bits q) : p = q := by
  have each : ∀ i, i < d.width → (p.1.testBit i, p.2.testBit i) = (q.1.testBit i, q.2.testBit i) := by
    intro i inside
    have bit := congrArg (fun l => l[i]?.getD (false, false)) same
    simpa only [bits_get, if_pos inside] using bit
  refine Prod.ext (plane_ext fun i => ?_) (plane_ext fun i => ?_)
  · by_cases inside : i < d.width
    · exact congrArg Prod.fst (each i inside)
    · rw [testBit_of_lt fitsP.1 (by omega), testBit_of_lt fitsQ.1 (by omega)]
  · by_cases inside : i < d.width
    · exact congrArg Prod.snd (each i inside)
    · rw [testBit_of_lt fitsP.2 (by omega), testBit_of_lt fitsQ.2 (by omega)]

end SignalDecl

/-- The declaration of a signal, from its initial value and the two-state declarations. -/
def declOf (values : List Value) (twoState : List Bool) (id : Nat) : SignalDecl :=
  match values[id]? with
  | some v => ⟨v.width, v.isSigned, v.isReal, twoState[id]?.getD false⟩
  | none => ⟨0, false, false, false⟩

/-- The initial planes of a signal. -/
def initialPlanes (values : List Value) (id : Nat) : Planes :=
  match values[id]? with
  | some v => (v.val, v.xz)
  | none => (0, 0)

namespace Call

/-- The planes a call writes to a signal of a store of `n` signals. -/
def written (n id : Nat) : Call → Option Planes
  | writeBits target val xz => if target = id then some (val.toNat, xz.toNat) else none
  | writeValue target v => if target = id then some (v.val, v.xz) else none
  | syncFromAos aos => if id < n then aos[id]?.map fun v => (v.val, v.xz) else none
  | syncSignalFromAos target v => if target = id then some (v.val, v.xz) else none

/-- The signal whose change a call reports. -/
def target : Call → Option Nat
  | writeBits id _ _ => some id
  | writeValue id _ => some id
  | syncFromAos _ => none
  | syncSignalFromAos id _ => some id

/-- A call on valid signals, with values of their widths, that writes bits to narrow signals only. -/
def Valid (n : Nat) (decl : Nat → SignalDecl) : Call → Prop
  | writeBits id _ _ => id < n ∧ (decl id).width ≤ 64
  | writeValue id v => id < n ∧ v.width = (decl id).width
  | syncFromAos aos => ∀ (id : Nat) v, id < n → aos[id]? = some v → v.width = (decl id).width
  | syncSignalFromAos id v => id < n ∧ v.width = (decl id).width

end Call

/-- The planes last written to a signal. -/
def lastWritten (n : Nat) (start : Nat → Planes) (calls : List Call) (id : Nat) : Planes :=
  calls.foldl (fun p c => (c.written n id).getD p) (start id)

/-- A store shows the planes `shown` of its `n` signals on every reading path. -/
structure Shows [VmOps] (s : SoaSignalStore) (n : Nat) (decl : Nat → SignalDecl) (shown : Nat → Planes) : Prop where
  value : ∀ id < n, s.readTransientValue id = (decl id).value (shown id)
  low : ∀ id < n, s.getInlineBits id = (s.readTransientValue id).planes
  unknown : ∀ id < n, s.hasXz id = decide ((s.readTransientValue id).xz ≠ 0)

/-- How many of the first `n` signals read differently in two stores. -/
def changedReads [VmOps] (s s' : SoaSignalStore) (n : Nat) : Nat :=
  (List.range n).countP fun id => s'.readTransientValue id ≠ s.readTransientValue id

/-- A call reports whether its signal reads differently, and advances the generation by one for every signal that
does. -/
structure Reports [VmOps] (s : SoaSignalStore) (n : Nat) (c : Call) : Prop where
  changed : ∀ id, c.target = some id →
    (s.call c).2 = some (decide ((s.call c).1.readTransientValue id ≠ s.readTransientValue id))
  generation : (s.call c).1.generation = s.generation + BitVec.ofNat 64 (changedReads s (s.call c).1 n)
  advanced : n < 2 ^ 64 → ((s.call c).1.generation ≠ s.generation ↔
    ∃ id < n, (s.call c).1.readTransientValue id ≠ s.readTransientValue id)

end Xezim.Soa
