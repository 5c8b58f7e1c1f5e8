import Mathlib.Data.Nat.Digits.Defs

/-! Vectors of digits packed into one number, lowest digit first. -/

namespace Digits

variable {b : Nat}

/-- The digit at a position of a packed vector. -/
def digit (b x i : Nat) : Nat := x / b ^ i % b

/-- A packed vector with the digit at one position replaced. -/
def replaceDigit (b x i c : Nat) : Nat := x - digit b x i * b ^ i + c * b ^ i

/-- The first digits of a packed vector. -/
def unpack (b : Nat) : Nat → Nat → List Nat
  | 0, _ => []
  | n + 1, x => x % b :: unpack b n (x / b)

/-- The first digit is the remainder. -/
@[simp] theorem digit_zero (x : Nat) : digit b x 0 = x % b := by simp [digit]

/-- The later digits are those of the quotient. -/
theorem digit_succ (x i : Nat) : digit b x (i + 1) = digit b (x / b) i := by
  rw [digit, digit, Nat.pow_succ', Nat.div_div_eq_div_mul]

/-- A digit is below the base. -/
theorem digit_lt (positive : 0 < b) (x i : Nat) : digit b x i < b := Nat.mod_lt _ positive

/-- Replacing the first digit keeps the quotient. -/
theorem replaceDigit_zero (x c : Nat) : replaceDigit b x 0 c = b * (x / b) + c := by
  rw [replaceDigit, digit_zero, Nat.pow_zero, Nat.mul_one, Nat.mul_one]
  have whole := Nat.div_add_mod x b
  omega

/-- Replacing a later digit replaces it in the quotient. -/
theorem replaceDigit_succ (x i c : Nat) :
    replaceDigit b x (i + 1) c = b * replaceDigit b (x / b) i c + x % b := by
  have whole := Nat.div_add_mod x b
  have below : digit b (x / b) i * b ^ i ≤ x / b := by
    rw [digit]
    exact (Nat.mul_le_mul_right _ (Nat.mod_le _ _)).trans (Nat.div_mul_le_self _ _)
  rw [replaceDigit, replaceDigit, digit_succ, Nat.pow_succ', Nat.mul_add, Nat.mul_sub]
  have scaled : b * (digit b (x / b) i * b ^ i) ≤ b * (x / b) := Nat.mul_le_mul_left b below
  have old : digit b (x / b) i * (b * b ^ i) = b * (digit b (x / b) i * b ^ i) := by ring
  have new : c * (b * b ^ i) = b * (c * b ^ i) := by ring
  rw [old, new]
  omega

/-- The digits of a vector after one was replaced. -/
theorem digit_replaceDigit {c : Nat} (small : c < b) (x i j : Nat) :
    digit b (replaceDigit b x i c) j = if j = i then c else digit b x j := by
  have positive : 0 < b := Nat.zero_lt_of_lt small
  -- Both positions count down together until one of them is the first digit.
  induction i generalizing x j with
  | zero =>
    rw [replaceDigit_zero]
    cases j with
    | zero => simp [Nat.mod_eq_of_lt small]
    | succ j => simp [digit_succ, Nat.mul_add_div positive, Nat.div_eq_of_lt small]
  | succ i ih =>
    have rest : x % b < b := Nat.mod_lt _ positive
    rw [replaceDigit_succ]
    cases j with
    | zero => simp
    | succ j =>
      rw [digit_succ, Nat.mul_add_div positive, Nat.div_eq_of_lt rest, Nat.add_zero, ih, digit_succ]
      simp only [Nat.add_right_cancel_iff]

/-- A packed vector has the digits it was packed from. -/
theorem unpack_ofDigits {digits : List Nat} (small : ∀ d ∈ digits, d < b) :
    unpack b digits.length (Nat.ofDigits b digits) = digits := by
  induction digits with
  | nil => rfl
  | cons d rest ih =>
    have here : d < b := small d List.mem_cons_self
    have positive : 0 < b := Nat.zero_lt_of_lt here
    rw [List.length_cons, unpack, Nat.ofDigits_cons, Nat.add_comm, Nat.mul_add_mod,
      Nat.mod_eq_of_lt here, Nat.mul_add_div positive, Nat.div_eq_of_lt here, Nat.add_zero,
      ih fun e member => small e (List.mem_cons_of_mem _ member)]

/-- The digit at a position is the packed one. -/
theorem digit_ofDigits {digits : List Nat} (small : ∀ d ∈ digits, d < b) (i : Nat) :
    digit b (Nat.ofDigits b digits) i = digits.getD i 0 := by
  -- The lowest digit is the remainder, the others are digits of the quotient.
  induction digits generalizing i with
  | nil => simp [digit]
  | cons d rest ih =>
    have here : d < b := small d List.mem_cons_self
    have positive : 0 < b := Nat.zero_lt_of_lt here
    rw [Nat.ofDigits_cons, Nat.add_comm]
    cases i with
    | zero => simp [Nat.mod_eq_of_lt here]
    | succ i =>
      rw [digit_succ, Nat.mul_add_div positive, Nat.div_eq_of_lt here, Nat.add_zero,
        ih fun e member => small e (List.mem_cons_of_mem _ member)]
      simp

/-- A packed vector is below the power of its length. -/
theorem ofDigits_lt {digits : List Nat} (small : ∀ d ∈ digits, d < b) :
    Nat.ofDigits b digits < b ^ digits.length := by
  induction digits with
  | nil => simp
  | cons d rest ih =>
    have here : d < b := small d List.mem_cons_self
    have tail := ih fun e member => small e (List.mem_cons_of_mem _ member)
    rw [Nat.ofDigits_cons, List.length_cons, Nat.pow_succ']
    calc d + b * Nat.ofDigits b rest < b + b * Nat.ofDigits b rest := by omega
      _ = b * (Nat.ofDigits b rest + 1) := by ring
      _ ≤ b * b ^ rest.length := Nat.mul_le_mul_left b tail

/-- Replacing a digit of a packed vector packs the replaced vector. -/
theorem replaceDigit_ofDigits {digits : List Nat} (small : ∀ d ∈ digits, d < b) {i : Nat}
    (inside : i < digits.length) (c : Nat) :
    replaceDigit b (Nat.ofDigits b digits) i c = Nat.ofDigits b (digits.set i c) := by
  induction digits generalizing i with
  | nil => exact absurd inside (Nat.not_lt_zero i)
  | cons d rest ih =>
    have here : d < b := small d List.mem_cons_self
    have positive : 0 < b := Nat.zero_lt_of_lt here
    have quotient : (d + b * Nat.ofDigits b rest) / b = Nat.ofDigits b rest := by
      rw [Nat.add_comm, Nat.mul_add_div positive, Nat.div_eq_of_lt here, Nat.add_zero]
    have remainder : (d + b * Nat.ofDigits b rest) % b = d := by
      rw [Nat.add_comm, Nat.mul_add_mod, Nat.mod_eq_of_lt here]
    rw [Nat.ofDigits_cons]
    cases i with
    | zero => rw [replaceDigit_zero, quotient, List.set_cons_zero, Nat.ofDigits_cons, Nat.add_comm]
    | succ i =>
      rw [replaceDigit_succ, quotient, remainder, List.set_cons_succ, Nat.ofDigits_cons,
        ih (fun e member => small e (List.mem_cons_of_mem _ member)) (Nat.lt_of_succ_lt_succ inside),
        Nat.add_comm]

/-- Vectors of one length pack to different numbers. -/
theorem ofDigits_inj {digits digits' : List Nat} (small : ∀ d ∈ digits, d < b)
    (small' : ∀ d ∈ digits', d < b) (length : digits.length = digits'.length) :
    Nat.ofDigits b digits = Nat.ofDigits b digits' ↔ digits = digits' := by
  refine ⟨fun same => ?_, fun same => same ▸ rfl⟩
  rw [← unpack_ofDigits small, same, length, unpack_ofDigits small']

end Digits
