import Mathlib.Algebra.Group.Int.Defs
import Mathlib.Algebra.Group.Nat.Defs
import Mathlib.Tactic.Common

/-! Partial computations on signed 64-bit and 128-bit integers, which overflow when a result leaves their
range. -/

namespace Xezim.Checked

/-- The least signed 64-bit integer. -/
def minI64 : Int := -9223372036854775808

/-- The greatest signed 64-bit integer. -/
def maxI64 : Int := 9223372036854775807

/-- A signed 64-bit integer. -/
def InI64 (n : Int) : Prop := minI64 ≤ n ∧ n ≤ maxI64

/-- The bounds of the range. -/
theorem inI64_iff {n : Int} : InI64 n ↔ -9223372036854775808 ≤ n ∧ n ≤ 9223372036854775807 := Iff.rfl

/-- The greatest integer of the range. -/
theorem maxI64_eq : maxI64 = 9223372036854775807 := rfl

instance : DecidablePred InI64 := fun n => inferInstanceAs (Decidable (minI64 ≤ n ∧ n ≤ maxI64))

/-- What a computation comes to: an overflow, nothing, or a result. -/
inductive Outcome (α : Type) where
  | overflow
  | miss
  | hit (a : α)
  deriving DecidableEq

namespace Outcome

variable {α β : Type}

/-- The rest of a computation runs on the result of the first part. -/
def bind (x : Outcome α) (f : α → Outcome β) : Outcome β :=
  match x with
  | overflow => overflow
  | miss => miss
  | hit a => f a

instance : Monad Outcome where
  pure := hit
  bind := bind

/-- An optional value. -/
def ofOption : Option α → Outcome α
  | some a => hit a
  | none => miss

/-- A result that is there only under a condition. -/
def require (p : Prop) [Decidable p] : Outcome Unit := if p then hit () else miss

@[simp] theorem pure_eq (a : α) : (pure a : Outcome α) = hit a := rfl

@[simp] theorem bind_overflow (f : α → Outcome β) : (overflow >>= f) = overflow := rfl

@[simp] theorem bind_miss (f : α → Outcome β) : (miss >>= f) = miss := rfl

@[simp] theorem bind_hit (a : α) (f : α → Outcome β) : (hit a >>= f) = f a := rfl

/-- A sequence finds a result when both parts do. -/
theorem bind_eq_hit {x : Outcome α} {f : α → Outcome β} {b : β} :
    (x >>= f) = hit b ↔ ∃ a, x = hit a ∧ f a = hit b := by
  cases x with
  | overflow => simp
  | miss => simp
  | hit a => simp

/-- A sequence overflows when its first part does, or the rest on its result. -/
theorem bind_eq_overflow {x : Outcome α} {f : α → Outcome β} :
    (x >>= f) = overflow ↔ x = overflow ∨ ∃ a, x = hit a ∧ f a = overflow := by
  cases x with
  | overflow => simp
  | miss => simp
  | hit a => simp

@[simp] theorem ofOption_eq_hit {x : Option α} {a : α} : ofOption x = hit a ↔ x = some a := by
  cases x <;> simp [ofOption]

@[simp] theorem ofOption_ne_overflow (x : Option α) : ofOption x ≠ overflow := by
  cases x <;> simp [ofOption]

@[simp] theorem require_eq_hit {p : Prop} [Decidable p] {u : Unit} : require p = hit u ↔ p := by
  unfold require
  split <;> simp [*]

/-- A condition that holds. -/
theorem require_pos {p : Prop} [Decidable p] (holds : p) : require p = hit () := if_pos holds

/-- A condition that fails. -/
theorem require_neg {p : Prop} [Decidable p] (fails : ¬ p) : require p = miss := if_neg fails

@[simp] theorem require_ne_overflow {p : Prop} [Decidable p] : require p ≠ overflow := by
  unfold require
  split <;> simp

end Outcome

/-- An integer that has to be in range. -/
def inRange (n : Int) : Outcome Int := if InI64 n then .hit n else .overflow

/-- `a + b`. -/
def add (a b : Int) : Outcome Int := inRange (a + b)

/-- `a - b`. -/
def sub (a b : Int) : Outcome Int := inRange (a - b)

/-- `checked_add` and its siblings: nothing instead of an overflow. -/
def checked (n : Int) : Outcome Int := if InI64 n then .hit n else .miss

/-- An integer in range is itself. -/
theorem inRange_pos {n : Int} (fits : InI64 n) : inRange n = .hit n := if_pos fits

/-- An integer out of range overflows. -/
theorem inRange_neg {n : Int} (beyond : ¬ InI64 n) : inRange n = .overflow := if_neg beyond

/-- A sum in range. -/
theorem add_pos {a b : Int} (fits : InI64 (a + b)) : add a b = .hit (a + b) := inRange_pos fits

/-- A sum out of range. -/
theorem add_neg {a b : Int} (beyond : ¬ InI64 (a + b)) : add a b = .overflow := inRange_neg beyond

/-- A difference in range. -/
theorem sub_pos {a b : Int} (fits : InI64 (a - b)) : sub a b = .hit (a - b) := inRange_pos fits

/-- A difference out of range. -/
theorem sub_neg {a b : Int} (beyond : ¬ InI64 (a - b)) : sub a b = .overflow := inRange_neg beyond

/-- A checked result in range. -/
theorem checked_pos {n : Int} (fits : InI64 n) : checked n = .hit n := if_pos fits

/-- A checked result out of range. -/
theorem checked_neg {n : Int} (beyond : ¬ InI64 n) : checked n = .miss := if_neg beyond

@[simp] theorem inRange_eq_hit {n m : Int} : inRange n = .hit m ↔ InI64 n ∧ n = m := by
  unfold inRange
  split <;> simp [*]

@[simp] theorem inRange_eq_overflow {n : Int} : inRange n = .overflow ↔ ¬ InI64 n := by
  unfold inRange
  split <;> simp [*]

@[simp] theorem checked_eq_hit {n m : Int} : checked n = .hit m ↔ InI64 n ∧ n = m := by
  unfold checked
  split <;> simp [*]

@[simp] theorem checked_ne_overflow (n : Int) : checked n ≠ .overflow := by
  unfold checked
  split <;> simp

/-- The number of unsigned 64-bit integers. -/
def sizeU64 : Nat := 18446744073709551616

/-- The value of `sizeU64`. -/
theorem sizeU64_eq : sizeU64 = 18446744073709551616 := rfl

/-- An unsigned result that has to be in range. -/
def inRangeU64 (n : Nat) : Outcome Nat := if n < sizeU64 then .hit n else .overflow

/-- A checked unsigned result: nothing instead of an overflow. -/
def checkedU64 (n : Nat) : Outcome Nat := if n < sizeU64 then .hit n else .miss

/-- An unsigned result in range is itself. -/
theorem inRangeU64_pos {n : Nat} (fits : n < sizeU64) : inRangeU64 n = .hit n := if_pos fits

/-- A checked unsigned result in range. -/
theorem checkedU64_pos {n : Nat} (fits : n < sizeU64) : checkedU64 n = .hit n := if_pos fits

/-- A checked unsigned result out of range. -/
theorem checkedU64_neg {n : Nat} (beyond : ¬ n < sizeU64) : checkedU64 n = .miss := if_neg beyond

@[simp] theorem checkedU64_eq_hit {n m : Nat} : checkedU64 n = .hit m ↔ n < sizeU64 ∧ n = m := by
  unfold checkedU64
  split <;> simp [*]

@[simp] theorem checkedU64_ne_overflow (n : Nat) : checkedU64 n ≠ .overflow := by
  unfold checkedU64
  split <;> simp

/-- A signed 128-bit integer. -/
def InI128 (n : Int) : Prop := -2 ^ 127 ≤ n ∧ n < 2 ^ 127

instance : DecidablePred InI128 := fun n => inferInstanceAs (Decidable (-2 ^ 127 ≤ n ∧ n < 2 ^ 127))

/-- The result of an operation on signed 128-bit integers. -/
def i128 (n : Int) : Outcome Int := if InI128 n then .hit n else .overflow

/-- A result in range is itself. -/
theorem i128_pos {n : Int} (low : -2 ^ 127 ≤ n) (high : n < 2 ^ 127) : i128 n = .hit n :=
  if_pos ⟨low, high⟩

end Xezim.Checked
