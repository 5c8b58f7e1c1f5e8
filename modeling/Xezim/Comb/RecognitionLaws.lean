import Xezim.Comb.Recognition
import Xezim.Comb.CommitFrame
import Xezim.Comb.Reference
import Mathlib.Data.Nat.Bitwise

/-! Recognised gates against the assignments they stand for. -/

namespace Xezim.Comb

open FourState

section Codes

/-- A bit and its code. -/
theorem logicOfCode_codeOf (v : Logic) : logicOfCode (codeOf v) = v := by
  cases v <;> rfl

/-- A code and its bit. -/
theorem codeOf_logicOfCode {c : Nat} (code : c < 4) : codeOf (logicOfCode c) = c := by
  have all : ∀ c < 4, codeOf (logicOfCode c) = c := by decide
  exact all c code

/-- Bits with one code are equal. -/
theorem codeOf_inj {a b : Logic} : codeOf a = codeOf b ↔ a = b := by
  constructor
  · intro same
    rw [← logicOfCode_codeOf a, same, logicOfCode_codeOf]
  · intro same
    rw [same]

theorem not4_codeOf (a : Logic) : not4 (codeOf a) = codeOf a.not := by
  cases a <;> rfl

/-- What a gate computes on bits. -/
def GateBin.logic : GateBin → Logic → Logic → Logic
  | .and => Logic.and
  | .or => Logic.or
  | .xor => Logic.xor

/-- The bit that leaves each operand of a gate as it is known. -/
def GateBin.neutral : GateBin → Logic
  | .and => .one
  | .or => .zero
  | .xor => .zero

/-- Every gate is spoiled by an x among neutral bits. -/
theorem GateBin.sensitive : ∀ op : GateBin, Sensitive op.logic op.neutral
  | .and => Logic.and_sensitive
  | .or => Logic.or_sensitive
  | .xor => Logic.xor_sensitive

/-- The gates compute the connectives. -/
theorem GateBin.eval_codeOf (op : GateBin) (a b : Logic) : op.eval (codeOf a) (codeOf b) = codeOf (op.logic a b) := by
  cases op <;> cases a <;> cases b <;> rfl

/-- The conditional gate computes the conditional operator. -/
theorem mux4_codeOf (s a b : Logic) : mux4 (codeOf s) (codeOf a) (codeOf b) = codeOf (s.cond a b) := by
  cases s <;> cases a <;> cases b <;> rfl

end Codes

section Slots

variable (t : GateTables)

/-- A bit of a signal. -/
abbrev Slot := { b : BitRef // b.bit < t.signalWidths b.sigId }

/-- The bits a view holds. -/
def states (view : View) (b : Slot t) : Logic := logicAt view b.1

variable {t}

/-- The value of a signal in a state. -/
def valueIn (σ : Slot t → Logic) (id : Nat) : Value :=
  { width := t.signalWidths id
    val := Nat.ofBits fun i : Fin (t.signalWidths id) => (codeOf (σ ⟨⟨id, i⟩, i.isLt⟩)).testBit 0
    xz := Nat.ofBits fun i : Fin (t.signalWidths id) => (codeOf (σ ⟨⟨id, i⟩, i.isLt⟩)).testBit 1
    isSigned := false
    isReal := false
    isFill := false }

/-- Every state is the state of a view. -/
theorem states_valueIn (σ : Slot t → Logic) : states t (valueIn σ) = σ := by
  funext ⟨⟨id, i⟩, inside⟩
  -- The two planes of a code are the code of the state.
  have code : planeCode (valueIn σ id) i = codeOf (σ ⟨⟨id, i⟩, inside⟩) := by
    change _ < t.signalWidths id at inside
    rw [planeCode]
    unfold valueIn
    rw [Nat.testBit_ofBits_lt _ _ inside, Nat.testBit_ofBits_lt _ _ inside]
    cases σ ⟨⟨id, i⟩, inside⟩ <;> rfl
  show logicOfCode (planeCode (valueIn σ id) i) = _
  rw [code, logicOfCode_codeOf]

variable (d : Design t)

/-- What holds in every view holds in every state. -/
theorem forall_views {Q : (Slot t → Logic) → Prop} : (∀ view, d.Sees view → Q (states t view)) ↔ ∀ σ, Q σ := by
  constructor
  · intro views σ
    rw [← states_valueIn σ]
    exact views _ fun _ => rfl
  · intro all view _
    exact all _

/-- The position of a slot that may be outside. -/
theorem read_states (view : View) (p : Option (Slot t)) :
    FourState.read (logicAt view) (p.map Subtype.val) = FourState.read (states t view) p := by
  cases p <;> rfl

/-- The code at a slot. -/
theorem codeAt_slot [GateOps] [LawfulGateOps] {view : View} (sees : d.Sees view) (b : Slot t) :
    codeAt view b.1 = codeOf (states t view b) := by
  have inside : b.1.bit < (view b.1.sigId).width := by
    rw [sees]
    exact b.2
  rw [codeAt, LawfulGateOps.getBitCode_eq _ _ inside]
  exact (codeOf_logicOfCode (CommitSim.code_lt _ _)).symm

end Slots

section Resolution

variable {t : GateTables} {scopeHint : Option String} {e : Expression} {b : BitRef}

/-- A label counted from the right end of the range on file. -/
def fromRight (dim : Option (Int × Int)) (label : Int) : Int :=
  match dim with
  | some (l, r) => if l < r then r - label else label - min l r
  | none => label

/-- Wrapping loses nothing of the low word. -/
theorem wrapI64_emod (n : Int) : wrapI64 n % 2 ^ 32 = n % 2 ^ 32 := by
  have whole : wrapI64 n % (2 ^ 64 : Nat) = n % (2 ^ 64 : Nat) := Int.bmod_emod
  omega

/-- The low word of a position is that of the counted label. -/
theorem physicalBit_emod (dim : Option (Int × Int)) (n : Nat) :
    physicalBit dim n % 2 ^ 32 = fromRight dim n % 2 ^ 32 := by
  have label := wrapI64_emod n
  cases dim with
  | none => exact label
  | some dim =>
    simp only [physicalBit, fromRight]
    -- Both wraps are undone modulo a word.
    split
    · have wrapped := wrapI64_emod (dim.2 - wrapI64 n)
      omega
    · have wrapped := wrapI64_emod (wrapI64 n - min dim.1 dim.2)
      omega

variable (t scopeHint) in
/-- The bit that a name and the digits of a select lead to by the tables. -/
def Reaches : Expression → BitRef → Prop
  | .paren inner, b => Reaches inner b
  | .ident h, b => resolveIdentId t scopeHint h = some b.sigId ∧ b.bit = 0
  | .index (.ident h) index, b => resolveIdentId t scopeHint h = some b.sigId ∧
      ∃ n, tryConstU64 index = some n ∧ (b.bit : Int) = fromRight (filedRange t scopeHint h) n % 2 ^ 32
  | _, _ => False

/-- The recogniser finds the bit the tables lead to, and it is a bit of its signal. -/
theorem tryResolveBitRef_reaches : ∀ {e : Expression}, tryResolveBitRef t scopeHint e = some b →
    b.bit < t.signalWidths b.sigId ∧ ∀ c, Reaches t scopeHint e c ↔ c = b
  | .paren inner, found => by
    rw [tryResolveBitRef] at found
    simp only [Reaches]
    exact tryResolveBitRef_reaches found
  | .ident h, found => by
    rw [tryResolveBitRef, Option.bind_eq_bind, Option.bind_eq_some_iff] at found
    obtain ⟨id, resolved, found⟩ := found
    split at found
    · rename_i one
      obtain rfl := Option.some.inj found
      refine ⟨by simp [one], ?_⟩
      rintro ⟨sigId, bit⟩
      simp only [Reaches, resolved, Option.some.injEq, BitRef.mk.injEq]
      exact ⟨fun both => ⟨both.1.symm, both.2⟩, fun both => ⟨both.1.symm, both.2⟩⟩
    · exact absurd found (by simp)
  | .index (.ident h) index, found => by
    rw [tryResolveBitRef] at found
    split at found
    · exact absurd found (by simp)
    · split at found
      · exact absurd found (by simp)
      · simp only [Option.bind_eq_bind, Option.bind_eq_some_iff] at found
        obtain ⟨id, resolved, n, digits, found⟩ := found
        split at found
        · rename_i inside
          obtain rfl := Option.some.inj found
          refine ⟨inside.2, ?_⟩
          -- The position is already a natural number below the width of a word.
          have low := physicalBit_emod (filedRange t scopeHint h) n
          have natural : ((physicalBit (filedRange t scopeHint h) n % 2 ^ 32).toNat : Int) =
              physicalBit (filedRange t scopeHint h) n % 2 ^ 32 := Int.toNat_of_nonneg (by omega)
          rintro ⟨sigId, bit⟩
          simp only [Reaches, resolved, digits, Option.some.injEq, exists_eq_left', BitRef.mk.injEq]
          constructor
          · rintro ⟨same, place⟩
            exact ⟨same.symm, by omega⟩
          · rintro ⟨same, place⟩
            exact ⟨same.symm, by omega⟩
        · exact absurd found (by simp)
  | .index (.paren _) _, found => by simp [tryResolveBitRef] at found
  | .index (.index _ _) _, found => by simp [tryResolveBitRef] at found
  | .index (.unary _ _) _, found => by simp [tryResolveBitRef] at found
  | .index (.binary _ _ _) _, found => by simp [tryResolveBitRef] at found
  | .index (.conditional _ _ _) _, found => by simp [tryResolveBitRef] at found
  | .index .other _, found => by simp [tryResolveBitRef] at found
  | .unary _ _, found => by simp [tryResolveBitRef] at found
  | .binary _ _ _, found => by simp [tryResolveBitRef] at found
  | .conditional _ _ _, found => by simp [tryResolveBitRef] at found
  | .other, found => by simp [tryResolveBitRef] at found

/-- Parentheses do not matter to the recogniser. -/
theorem tryResolveBitRef_unparen : ∀ e : Expression,
    tryResolveBitRef t scopeHint (unparen e) = tryResolveBitRef t scopeHint e
  | .paren inner => by
    rw [unparen, tryResolveBitRef]
    exact tryResolveBitRef_unparen inner
  | .ident _ | .index _ _ | .unary _ _ | .binary _ _ _ | .conditional _ _ _ | .other => rfl

end Resolution

namespace Design

variable {t : GateTables} (d : Design t) {scopeHint : Option String} {e : Expression} {view : View}

theorem place_unparen : ∀ e : Expression, d.place (unparen e) = d.place e
  | .paren inner => by
    rw [unparen, place]
    exact place_unparen inner
  | .ident _ | .index _ _ | .unary _ _ | .binary _ _ _ | .conditional _ _ _ | .other => rfl

theorem evaluate_unparen (view : View) : ∀ e : Expression, d.evaluate view (unparen e) = d.evaluate view e
  | .paren inner => by
    rw [unparen, evaluate]
    exact evaluate_unparen view inner
  | .ident _ | .index _ _ | .unary _ _ | .binary _ _ _ | .conditional _ _ _ | .other => rfl

/-- A declared label lies within its range. -/
theorem declaredOffset_lt {dim : Int × Int} {label : Int} {o : Nat} (found : declaredOffset dim label = some o) :
    o < labels dim := by
  -- A label's distance from its end of the range is below the number of labels.
  unfold declaredOffset at found
  unfold labels
  split at found
  · split at found
    · obtain rfl := Option.some.inj found
      omega
    · exact absurd found (by simp)
  · split at found
    · obtain rfl := Option.some.inj found
      omega
    · exact absurd found (by simp)

/-- A denoted bit is a bit of its signal. -/
theorem place_slot : ∀ {e : Expression} {p : Option BitRef}, d.place e = some p →
    ∃ q : Option (Slot t), p = q.map Subtype.val
  | .paren inner, p, found => by
    rw [place] at found
    exact place_slot found
  | .ident h, p, found => by
    rw [place, Option.bind_eq_bind, Option.bind_eq_some_iff] at found
    obtain ⟨id, _, found⟩ := found
    split at found
    · rename_i dims shape
      split at found
      · rename_i one
        obtain rfl := Option.some.inj found
        have width : t.signalWidths id = 1 := (d.wide id dims shape).trans one
        exact ⟨some ⟨⟨id, 0⟩, by simp [width]⟩, rfl⟩
      · exact absurd found (by simp)
    · exact absurd found (by simp)
  | .index (.ident h) index, p, found => by
    simp only [place, Option.bind_eq_bind, Option.bind_eq_some_iff] at found
    obtain ⟨id, _, label, _, found⟩ := found
    split at found
    · rename_i dim inner shape
      split at found
      · rename_i one
        obtain rfl := Option.some.inj found
        cases offset : declaredOffset dim label with
        | none => exact ⟨none, rfl⟩
        | some o =>
          -- Elements of one bit leave the outer range as the width.
          have width : t.signalWidths id = labels dim := by
            rw [d.wide id _ shape, bitCount, List.map_cons, List.prod_cons]
            change labels dim * bitCount inner = labels dim
            rw [one, Nat.mul_one]
          exact ⟨some ⟨⟨id, o⟩, by rw [width]; exact declaredOffset_lt offset⟩, rfl⟩
      · exact absurd found (by simp)
    · exact absurd found (by simp)
  | .index (.paren _) _, _, found => by simp [place] at found
  | .index (.index _ _) _, _, found => by simp [place] at found
  | .index (.unary _ _) _, _, found => by simp [place] at found
  | .index (.binary _ _ _) _, _, found => by simp [place] at found
  | .index (.conditional _ _ _) _, _, found => by simp [place] at found
  | .index .other _, _, found => by simp [place] at found
  | .unary _ _, _, found => by simp [place] at found
  | .binary _ _ _, _, found => by simp [place] at found
  | .conditional _ _ _, _, found => by simp [place] at found
  | .other, _, found => by simp [place] at found

/-- An operand the recogniser accepts takes the bit it denotes. -/
theorem evaluate_operand (view : View) {b : BitRef} : ∀ {e : Expression}, tryResolveBitRef t scopeHint e = some b →
    d.evaluate view e = (d.place e).map fun p => FourState.read (logicAt view) p
  | .paren inner, found => by
    rw [tryResolveBitRef] at found
    rw [evaluate, place]
    exact evaluate_operand view found
  | .ident _, _ | .index _ _, _ => rfl
  | .unary _ _, found => by simp [tryResolveBitRef] at found
  | .binary _ _ _, found => by simp [tryResolveBitRef] at found
  | .conditional _ _ _, found => by simp [tryResolveBitRef] at found
  | .other, found => by simp [tryResolveBitRef] at found

/-- What has a place has only operands that have one. -/
theorem leaves_of_place : ∀ {e : Expression}, (d.place e).isSome → ∀ leaf ∈ e.leaves, (d.place leaf).isSome
  -- A resolved expression is a name, a select or one of these in parentheses.
  | .paren inner, found, leaf, member => by
    rw [place] at found
    rw [Expression.leaves] at member
    exact leaves_of_place found leaf member
  | .ident _, found, leaf, member | .index _ _, found, leaf, member | .other, found, leaf, member => by
    obtain rfl := List.mem_singleton.mp member
    exact found
  | .unary _ _, found, _, _ => by simp [place] at found
  | .binary _ _ _, found, _, _ => by simp [place] at found
  | .conditional _ _ _, found, _, _ => by simp [place] at found

/-- What has a value has only operands that have a place. -/
theorem leaves_of_evaluate : ∀ {e : Expression}, (d.evaluate view e).isSome →
    ∀ leaf ∈ e.leaves, (d.place leaf).isSome
  -- An expression with a value has a value for every part it is made of.
  | .paren inner, found, leaf, member => by
    rw [evaluate] at found
    rw [Expression.leaves] at member
    exact leaves_of_evaluate found leaf member
  | .ident _, found, leaf, member | .index _ _, found, leaf, member | .other, found, leaf, member => by
    obtain rfl := List.mem_singleton.mp member
    simpa [evaluate] using found
  | .unary op operand, found, leaf, member => by
    cases op with
    | bitNot =>
      rw [evaluate, Option.isSome_map] at found
      rw [Expression.leaves] at member
      exact leaves_of_evaluate found leaf member
    | other => simp [evaluate, place] at found
  | .binary op left right, found, leaf, member => by
    obtain ⟨v, value⟩ := Option.isSome_iff_exists.mp found
    simp only [evaluate, Option.bind_eq_bind, Option.bind_eq_some_iff] at value
    obtain ⟨a, first, b, second, _⟩ := value
    rw [Expression.leaves, List.mem_append] at member
    rcases member with member | member
    · exact leaves_of_evaluate (Option.isSome_of_eq_some first) leaf member
    · exact leaves_of_evaluate (Option.isSome_of_eq_some second) leaf member
  | .conditional condition thenExpr elseExpr, found, leaf, member => by
    obtain ⟨v, value⟩ := Option.isSome_iff_exists.mp found
    simp only [evaluate, Option.bind_eq_bind, Option.bind_eq_some_iff] at value
    obtain ⟨s, first, a, second, b, third, _⟩ := value
    rw [Expression.leaves, List.mem_append, List.mem_append] at member
    rcases member with (member | member) | member
    · exact leaves_of_evaluate (Option.isSome_of_eq_some first) leaf member
    · exact leaves_of_evaluate (Option.isSome_of_eq_some second) leaf member
    · exact leaves_of_evaluate (Option.isSome_of_eq_some third) leaf member

section Agreement

variable (scopeHint) (gateDriven : Nat → Bool)

/-- An operand denotes the bit the tables lead to. -/
def Lands (e : Expression) : Prop := ∃ b, d.place e = some (some b) ∧ Reaches t scopeHint e b

/-- Two operands land, each on its own bit or each on the bit of the other. -/
def PairLands (left right : Expression) : Prop :=
  d.Lands scopeHint left ∧ d.Lands scopeHint right ∨
    ∃ a b, d.place left = some (some a) ∧ d.place right = some (some b) ∧
      Reaches t scopeHint left b ∧ Reaches t scopeHint right a

/-- The operands of a conditional land; a condition outside its range may lead to the one bit that both branches are. -/
def CondLands (condition thenExpr elseExpr : Expression) : Prop :=
  d.Lands scopeHint thenExpr ∧ d.Lands scopeHint elseExpr ∧
    (d.Lands scopeHint condition ∨ d.place condition = some none ∧
      ∃ b, Reaches t scopeHint condition b ∧ Reaches t scopeHint thenExpr b ∧ Reaches t scopeHint elseExpr b)

/-- The operands of an assignment land, and a plain copy drives a signal without gates. -/
def Agrees (lhs rhs : Expression) : Prop :=
  d.Lands scopeHint lhs ∧
    match unparen rhs with
    | .conditional condition thenExpr elseExpr => d.CondLands scopeHint condition thenExpr elseExpr
    | .unary .bitNot operand =>
      match unparen operand with
      | .binary _ left right => d.PairLands scopeHint left right
      | _ => d.Lands scopeHint operand
    | .binary _ left right => d.PairLands scopeHint left right
    | r => d.Lands scopeHint r ∧ ∀ b, Reaches t scopeHint lhs b → gateDriven b.sigId = false

/-- A recognised operand: the slot the tables lead to, and the slot it denotes. -/
structure Operand (e : Expression) (a : Slot t) (p : Option (Option (Slot t))) : Prop where
  place : d.place e = p.map (Option.map Subtype.val)
  value : ∀ view, d.evaluate view e = p.map (FourState.read (states t view))
  reaches : ∀ c, Reaches t scopeHint e c ↔ c = a.1

variable {scopeHint} {gateDriven}

/-- Every accepted operand is a recognised one. -/
theorem operand {b : BitRef} (found : tryResolveBitRef t scopeHint e = some b) :
    ∃ (a : Slot t) (p : Option (Option (Slot t))), a.1 = b ∧ d.Operand scopeHint e a p := by
  -- The reference that is found is a slot, and the expression reads that slot or nothing.
  obtain ⟨inside, reaches⟩ := tryResolveBitRef_reaches found
  have value := fun view => d.evaluate_operand view found
  cases denoted : d.place e with
  | none =>
    refine ⟨⟨b, inside⟩, none, rfl, denoted, ?_, reaches⟩
    intro view
    -- Without a place the expression reads nothing.
    rw [value, denoted]
    rfl
  -- With a place it reads the state of the slot there.
  | some p =>
    obtain ⟨q, rfl⟩ := d.place_slot denoted
    refine ⟨⟨b, inside⟩, some q, rfl, denoted, ?_, reaches⟩
    intro view
    rw [value, denoted, Option.map_some, read_states]
    rfl

namespace Operand

variable {d} {left right third : Expression} {a b c : Slot t} {p q r : Option (Option (Slot t))}

/-- The places of slots are told apart by the slots. -/
theorem place_iff (h : d.Operand scopeHint left a p) : d.place left = some (some b.1) ↔ p = some (some b) := by
  rw [h.place]
  rcases p with _ | _ | p <;> simp [Subtype.ext_iff]

/-- An operand lands when it denotes the slot the tables lead to. -/
theorem lands_iff (h : d.Operand scopeHint left a p) : d.Lands scopeHint left ↔ p = some (some a) := by
  rw [← h.place_iff]
  constructor
  · rintro ⟨b, denoted, reached⟩
    rw [denoted, (h.reaches b).mp reached]
  · intro denoted
    exact ⟨a.1, denoted, (h.reaches _).mpr rfl⟩

/-- Two operands land in one order or the other. -/
theorem pairLands_iff (h : d.Operand scopeHint left a p) (k : d.Operand scopeHint right b q) :
    d.PairLands scopeHint left right ↔
      p = some (some a) ∧ q = some (some b) ∨ p = some (some b) ∧ q = some (some a) := by
  rw [PairLands, h.lands_iff, k.lands_iff]
  refine or_congr Iff.rfl ?_
  -- Swapped operands land as well, for the gate is symmetric.
  constructor
  · rintro ⟨a', b', denoted, denoted', reached, reached'⟩
    obtain rfl := (h.reaches b').mp reached
    obtain rfl := (k.reaches a').mp reached'
    exact ⟨h.place_iff.mp denoted, k.place_iff.mp denoted'⟩
  · rintro ⟨first, second⟩
    exact ⟨b.1, a.1, h.place_iff.mpr first, k.place_iff.mpr second, (h.reaches _).mpr rfl, (k.reaches _).mpr rfl⟩

/-- The operands of a conditional land in terms of their slots. -/
theorem condLands_iff (h : d.Operand scopeHint left a p) (k : d.Operand scopeHint right b q)
    (l : d.Operand scopeHint third c r) :
    d.CondLands scopeHint left right third ↔
      q = some (some b) ∧ r = some (some c) ∧ (p = some (some a) ∨ p = some none ∧ b = a ∧ c = a) := by
  -- The condition may also read outside, which makes it unknown.
  have outside : d.place left = some none ↔ p = some none := by
    rw [h.place]
    rcases p with _ | _ | p <;> simp
  -- A condition outside is no matter where both branches are the slot of the condition.
  have shared : (∃ b, Reaches t scopeHint left b ∧ Reaches t scopeHint right b ∧ Reaches t scopeHint third b) ↔
      b = a ∧ c = a := by
    constructor
    · rintro ⟨s, first, second, last⟩
      have isA := (h.reaches s).mp first
      exact ⟨Subtype.ext (((k.reaches s).mp second).symm.trans isA),
        Subtype.ext (((l.reaches s).mp last).symm.trans isA)⟩
    · rintro ⟨isB, isC⟩
      exact ⟨a.1, (h.reaches _).mpr rfl, (k.reaches _).mpr (by rw [isB]), (l.reaches _).mpr (by rw [isC])⟩
  rw [CondLands, h.lands_iff, k.lands_iff, l.lands_iff, outside, shared]

end Operand

section Gates

variable [GateOps] {lhs rhs left right third : Expression} {dst : BitRef} {a b c : Slot t}
  {p q r : Option (Option (Slot t))}

/-- A gate computes the right side in every view. -/
def Computes (gateDriven : Nat → Bool) (rhs : Expression) (gate : FusedGate) : Prop :=
  ∀ view, d.Sees view → ∃ v, d.evaluate view rhs = some v ∧
    fusedGateEval view gateDriven gate = (gate.dst, codeOf v)

/-- A gate computes the right side exactly when the right side has a value, the gate's in every state. -/
theorem computes_iff (gate : FusedGate) {F : Option ((Slot t → Logic) → Logic)} {G : (Slot t → Logic) → Logic}
    (value : ∀ view, d.evaluate view rhs = F.map fun f => f (states t view))
    (output : ∀ view, d.Sees view → fusedGateEval view gateDriven gate = (gate.dst, codeOf (G (states t view)))) :
    d.Computes gateDriven rhs gate ↔ ∃ f, F = some f ∧ ∀ σ, G σ = f σ := by
  constructor
  · intro computes
    cases F with
    | none =>
      -- Without a value no view can agree, and there is one.
      obtain ⟨v, some, _⟩ := computes (valueIn fun _ => .x) fun _ => rfl
      rw [value] at some
      exact absurd some (by simp)
    | some f =>
      refine ⟨f, rfl, (forall_views d).mp ?_⟩
      intro view sees
      obtain ⟨v, some, same⟩ := computes view sees
      rw [value, Option.map_some, Option.some.injEq] at some
      rw [output view sees, Prod.mk.injEq, codeOf_inj] at same
      rw [same.2, some]
  · rintro ⟨f, rfl, same⟩ view sees
    refine ⟨f (states t view), value view, ?_⟩
    rw [output view sees, same]

variable [LawfulGateOps]

/-- An inverted copy. -/
theorem computes_buf_not (h : d.Operand scopeHint left a p) :
    d.Computes gateDriven (.unary .bitNot left) (.buf1 dst a.1 true) ↔ p = some (some a) := by
  -- What the expression reads is the negated state of its place.
  have value : ∀ view, d.evaluate view (.unary .bitNot left) =
      (p.map fun p σ => (FourState.read σ p).not).map fun f => f (states t view) := by
    intro view
    rw [evaluate, h.value, Option.map_map, Option.map_map]
    rfl
  -- What the gate drives is the negated code of its slot.
  have output : ∀ view, d.Sees view →
      fusedGateEval view gateDriven (.buf1 dst a.1 true) = (dst, codeOf (states t view a).not) := by
    intro view sees
    rw [fusedGateEval, codeAt_slot d sees, not4_codeOf]
    rfl
  -- A negation is sensitive to its one input, so the two agree only where the inputs do.
  refine (d.computes_iff (.buf1 dst a.1 true) (G := fun σ => (σ a).not) value output).trans ?_
  cases p with
  | none => simp
  | some p =>
    simp only [Option.map_some, Option.some.injEq, exists_eq_left']
    exact single_iff (by decide) (by decide) a p

/-- A plain copy, whose z a gate's destination takes for x. -/
theorem computes_buf (h : d.Operand scopeHint left a p) :
    d.Computes gateDriven left (.buf1 dst a.1 false) ↔ p = some (some a) ∧ gateDriven dst.sigId = false := by
  have value : ∀ view, d.evaluate view left =
      (p.map fun p σ => FourState.read σ p).map fun f => f (states t view) := by
    intro view
    rw [h.value, Option.map_map]
    rfl
  have output : ∀ view, d.Sees view → fusedGateEval view gateDriven (.buf1 dst a.1 false) =
      (dst, codeOf (if gateDriven dst.sigId = true ∧ states t view a = .z then .x else states t view a)) := by
    intro view sees
    rw [fusedGateEval, codeAt_slot d sees]
    cases gateDriven dst.sigId <;> cases states t view a <;> rfl
  refine (d.computes_iff (.buf1 dst a.1 false)
    (G := fun σ => if gateDriven dst.sigId = true ∧ σ a = .z then .x else σ a) value output).trans ?_
  cases p with
  | none => simp
  | some p =>
    simp only [Option.map_some, Option.some.injEq, exists_eq_left']
    cases driven : gateDriven dst.sigId with
    | false =>
      simp only [Bool.false_eq_true, false_and, if_false, and_true]
      exact single_iff (f := id) (by decide) (by decide) a p
    | true =>
      -- A bit in high impedance everywhere is lost, and one from outside is no bit at all.
      refine ⟨fun same => ?_, fun both => absurd both.2 (by simp)⟩
      exfalso
      cases p with
      | none => exact absurd (same fun _ => .one) (by simp)
      | some p => exact absurd (same fun _ => .z) (by simp)

/-- A gate with two operands, inverted or not. -/
theorem computes_bin {op : GateBin} {invert : Bool} (h : d.Operand scopeHint left a p)
    (k : d.Operand scopeHint right b q)
    (value : ∀ view, d.evaluate view rhs = (d.evaluate view left).bind fun v => (d.evaluate view right).map fun w =>
      if invert then (op.logic v w).not else op.logic v w) :
    d.Computes gateDriven rhs (.bin2 dst a.1 b.1 op invert) ↔
      p = some (some a) ∧ q = some (some b) ∨ p = some (some b) ∧ q = some (some a) := by
  -- What the expression reads is the operation of the two places, negated where it is inverted.
  have values : ∀ view, d.evaluate view rhs = (p.bind fun p => q.map fun q σ =>
      (if invert then Logic.not else id) (op.logic (FourState.read σ p) (FourState.read σ q))).map
        fun f => f (states t view) := by
    intro view
    rw [value, h.value, k.value]
    cases p <;> cases q <;> cases invert <;> rfl
  -- What the gate drives is the operation of the two codes, negated where it is inverted.
  have output : ∀ view, d.Sees view → fusedGateEval view gateDriven (.bin2 dst a.1 b.1 op invert) =
      (dst, codeOf ((if invert then Logic.not else id) (op.logic (states t view a) (states t view b)))) := by
    intro view sees
    rw [fusedGateEval, codeAt_slot d sees, codeAt_slot d sees, op.eval_codeOf]
    cases invert
    · rfl
    · exact congrArg (Prod.mk dst) (not4_codeOf _)
  refine (d.computes_iff (.bin2 dst a.1 b.1 op invert)
    (G := fun σ => (if invert then Logic.not else id) (op.logic (σ a) (σ b))) values output).trans ?_
  cases p with
  | none => simp
  | some p =>
    cases q with
    | none => simp
    | some q =>
      simp only [Option.bind_some, Option.map_some, Option.some.injEq, exists_eq_left']
      -- Each operation is sensitive in both operands and symmetric, so the pair is determined up to its
      -- order.
      refine pair_iff op.sensitive ?_ ?_ a b p q
      · cases invert <;> rfl
      · cases op <;> cases invert <;> rintro v (rfl | rfl) <;> simp [GateBin.logic, GateBin.neutral, Logic.not,
          Logic.and, Logic.or, Logic.xor]

/-- A conditional gate. -/
theorem computes_mux (h : d.Operand scopeHint left a p) (k : d.Operand scopeHint right b q)
    (l : d.Operand scopeHint third c r) :
    d.Computes gateDriven (.conditional left right third) (.mux2 dst a.1 b.1 c.1) ↔
      q = some (some b) ∧ r = some (some c) ∧ (p = some (some a) ∨ p = some none ∧ b = a ∧ c = a) := by
  -- What the expression reads selects between the two branch places.
  have value : ∀ view, d.evaluate view (.conditional left right third) =
      (p.bind fun p => q.bind fun q => r.map fun r σ =>
        (FourState.read σ p).cond (FourState.read σ q) (FourState.read σ r)).map fun f => f (states t view) := by
    intro view
    rw [evaluate, h.value, k.value, l.value]
    cases p <;> cases q <;> cases r <;> rfl
  -- What the gate drives selects between the two branch codes.
  have output : ∀ view, d.Sees view → fusedGateEval view gateDriven (.mux2 dst a.1 b.1 c.1) =
      (dst, codeOf ((states t view a).cond (states t view b) (states t view c))) := by
    intro view sees
    rw [fusedGateEval, codeAt_slot d sees, codeAt_slot d sees, codeAt_slot d sees, mux4_codeOf]
  refine (d.computes_iff (.mux2 dst a.1 b.1 c.1) (G := fun σ => (σ a).cond (σ b) (σ c)) value output).trans ?_
  cases p with
  | none => simp
  | some p =>
    cases q with
    | none => simp
    | some q =>
      cases r with
      | none => simp
      | some r =>
        simp only [Option.bind_some, Option.map_some, Option.some.injEq, exists_eq_left']
        exact cond_iff

omit [LawfulGateOps] in
/-- A gate that drives the denoted bit and computes the right side takes no element for a bit. -/
theorem exact_iff_computes {gate : FusedGate} : d.Exact gateDriven lhs rhs gate ↔
    d.place lhs = some (some gate.dst) ∧ d.Computes gateDriven rhs gate := by
  -- A gate that drives the place and computes the value reads every leaf it needs.
  constructor
  · intro exact
    exact ⟨exact.drives, exact.computes⟩
  · rintro ⟨drives, computes⟩
    refine ⟨drives, ?_, computes⟩
    intro leaf member
    -- One view is enough to see that the value is there.
    obtain ⟨v, value, _⟩ := computes (valueIn fun _ => .x) fun _ => rfl
    rcases List.mem_append.mp member with member | member
    · exact d.leaves_of_place (Option.isSome_of_eq_some drives) leaf member
    · exact d.leaves_of_evaluate (Option.isSome_of_eq_some value) leaf member

omit [GateOps] [LawfulGateOps] in
/-- The connective of a recognised operator. -/
theorem evaluate_binary {op : BinaryOp} {gop : GateBin} (known : gateBin op = some gop) (view : View) :
    d.evaluate view (.binary op left right) =
      (d.evaluate view left).bind fun v => (d.evaluate view right).map fun w => gop.logic v w := by
  rw [evaluate]
  cases op with
  | other => exact absurd known (by simp [gateBin])
  | bitAnd | bitOr | bitXor =>
    obtain rfl := Option.some.inj known
    cases d.evaluate view left <;> cases d.evaluate view right <;> rfl

variable {gate : FusedGate}

/-- A copy stands for its right side when that lands and nothing takes a z for x. -/
theorem computes_copy_iff (h : d.Operand scopeHint lhs c r)
    (found : ((tryResolveBitRef t scopeHint left).bind fun src => some (.buf1 c.1 src false)) = some gate) :
    gate.dst = c.1 ∧ (d.Computes gateDriven left gate ↔
      d.Lands scopeHint left ∧ ∀ b, Reaches t scopeHint lhs b → gateDriven b.sigId = false) := by
  obtain ⟨src, source, made⟩ := Option.bind_eq_some_iff.mp found
  obtain rfl := Option.some.inj made
  -- The gate reads the reference that was found.
  obtain ⟨a, p, rfl, k⟩ := d.operand source
  refine ⟨rfl, ?_⟩
  -- A plain copy keeps a z only where the destination is no net that a gate drives.
  rw [d.computes_buf k, k.lands_iff]
  refine and_congr Iff.rfl ?_
  constructor
  · intro free b reached
    rw [(h.reaches b).mp reached]
    exact free
  · intro free
    exact free c.1 ((h.reaches _).mpr rfl)

/-- A gate of two operands stands for its right side when they land. -/
theorem computes_pair_iff {op : BinaryOp} (invert : Bool)
    (value : ∀ gop, gateBin op = some gop → ∀ view, d.evaluate view rhs =
      (d.evaluate view left).bind fun v => (d.evaluate view right).map fun w =>
        if invert then (gop.logic v w).not else gop.logic v w)
    (found : ((gateBin op).bind fun gop => (tryResolveBitRef t scopeHint left).bind fun a =>
      (tryResolveBitRef t scopeHint right).bind fun b => some (.bin2 dst a b gop invert)) = some gate) :
    gate.dst = dst ∧ (d.Computes gateDriven rhs gate ↔ d.PairLands scopeHint left right) := by
  obtain ⟨gop, known, found⟩ := Option.bind_eq_some_iff.mp found
  obtain ⟨a, first, found⟩ := Option.bind_eq_some_iff.mp found
  obtain ⟨b, second, made⟩ := Option.bind_eq_some_iff.mp found
  obtain rfl := Option.some.inj made
  -- Both operands are found, and the gate is made of what they are.
  obtain ⟨a, p, rfl, h⟩ := d.operand first
  obtain ⟨b, q, rfl, k⟩ := d.operand second
  refine ⟨rfl, ?_⟩
  rw [d.computes_bin h k (value gop known), h.pairLands_iff k]

/-- A recognised gate stands for its assignment exactly when the operands land. -/
theorem recognised_exact_iff (found : tryBuildFusedGate t scopeHint lhs rhs = some gate) :
    d.Exact gateDriven lhs rhs gate ↔ d.Agrees scopeHint gateDriven lhs rhs := by
  rw [exact_iff_computes]
  unfold tryBuildFusedGate at found
  rw [Option.bind_eq_bind, Option.bind_eq_some_iff] at found
  obtain ⟨dst, target, found⟩ := found
  obtain ⟨o, place, rfl, driven⟩ := d.operand target
  have lands : d.place lhs = some (some o.1) ↔ d.Lands scopeHint lhs := by
    rw [driven.place_iff, driven.lands_iff]
  have inside : d.Computes gateDriven rhs gate ↔ d.Computes gateDriven (unparen rhs) gate := by
    simp only [Computes, d.evaluate_unparen]
  -- The gate drives the bit of the left side, so only the right side is left to compare.
  have suffices_right : ∀ {C : Prop}, gate.dst = o.1 ∧ (d.Computes gateDriven (unparen rhs) gate ↔ C) →
      ((d.place lhs = some (some gate.dst) ∧ d.Computes gateDriven rhs gate) ↔ d.Lands scopeHint lhs ∧ C) := by
    rintro C ⟨dst, right⟩
    rw [dst, lands, inside, right]
  split at found
  · exact absurd found (by simp)
  · unfold Agrees
    apply suffices_right
    generalize unparen rhs = r at found ⊢
    cases r with
    | conditional condition thenExpr elseExpr =>
      obtain ⟨s, first, found⟩ := Option.bind_eq_some_iff.mp found
      obtain ⟨a, second, found⟩ := Option.bind_eq_some_iff.mp found
      obtain ⟨b, third, made⟩ := Option.bind_eq_some_iff.mp found
      obtain rfl := Option.some.inj made
      obtain ⟨s, _, rfl, h⟩ := d.operand first
      obtain ⟨a, _, rfl, k⟩ := d.operand second
      obtain ⟨b, _, rfl, l⟩ := d.operand third
      refine ⟨rfl, ?_⟩
      rw [d.computes_mux h k l]
      exact (h.condLands_iff k l).symm
    | unary op operand =>
      cases op with
      | other => exact d.computes_copy_iff driven found
      | bitNot =>
        dsimp only at found ⊢
        generalize shape : unparen operand = inner at found ⊢
        cases inner with
        | binary op left right =>
          -- The operand's parentheses fall away, and a connective is left to invert.
          refine d.computes_pair_iff true ?_ found
          intro gop known view
          rw [evaluate, ← d.evaluate_unparen view operand, shape, d.evaluate_binary known]
          cases d.evaluate view left <;> cases d.evaluate view right <;> rfl
        | paren | ident | index | unary | conditional | other =>
          obtain ⟨src, source, made⟩ := Option.bind_eq_some_iff.mp found
          obtain rfl := Option.some.inj made
          obtain ⟨a, p, rfl, h⟩ := d.operand source
          refine ⟨rfl, ?_⟩
          rw [d.computes_buf_not h]
          exact h.lands_iff.symm
    | binary op left right =>
      refine d.computes_pair_iff false ?_ found
      intro gop known view
      rw [d.evaluate_binary known]
      rfl
    | paren inner => exact d.computes_copy_iff driven found
    | ident h => exact d.computes_copy_iff driven found
    | index base index => exact d.computes_copy_iff driven found
    | other => exact d.computes_copy_iff driven found

end Gates

/-- A select lands in every declared range, ascending or descending, from any label on, when the range on file is the
declared one and its digits spell its label. -/
theorem lands_select {h : HierarchicalIdentifier} {index : Index} {id n o : Nat} {dim : Int × Int}
    {inner : List (Int × Int)} (resolved : resolveIdentId t scopeHint h = some id) (denoted : d.denotes h = some id)
    (shape : d.shape id = .packed (dim :: inner)) (bits : bitCount inner = 1)
    (filed : filedRange t scopeHint h = some dim ∨ filedRange t scopeHint h = none ∧ dim.2 = 0 ∧ 0 ≤ dim.1)
    (small : labels dim ≤ 2 ^ 32) (digits : tryConstU64 index = some n) (label : index.denoted = some (n : Int))
    (inside : declaredOffset dim n = some o) : d.Lands scopeHint (.index (.ident h) index) := by
  have low : o < labels dim := declaredOffset_lt inside
  refine ⟨⟨id, o⟩, ?_, resolved, n, digits, ?_⟩
  · simp [place, denoted, label, shape, bits, inside]
  · have offset : (o : Int) = fromRight (filedRange t scopeHint h) n := by
      unfold declaredOffset at inside
      rcases filed with filed | ⟨filed, right, left⟩
      · rw [filed]
        simp only [fromRight]
        -- The direction of the range decides which end a label is counted from.
        split at inside <;> split at inside <;> simp only [Option.some.injEq, reduceCtorEq] at inside
        · rw [if_neg (by omega)]
          omega
        · rw [if_pos (by omega)]
          omega
      · rw [filed]
        simp only [fromRight]
        split at inside <;> split at inside <;> simp only [Option.some.injEq, reduceCtorEq] at inside <;> omega
    rw [← offset]
    show (o : Int) = o % 2 ^ 32
    omega

end Agreement

section Samples

attribute [local instance] referenceGateOps

/-- A vector `v` of four bits and a net `y`. -/
def sampleTables : GateTables where
  arrays _ := false
  packedSignalElemWidths _ := none
  packedFullDims s := if s = "v" then some [(3, 0)] else none
  ascendingPacked _ := none
  packages _ := false
  pkgVarStorage _ _ := none
  signalNameToId s := if s = "v" then some 0 else if s = "y" then some 1 else none
  signalWidths id := if id = 0 then 4 else 1
  sdfDelays _ := 0

/-- The declarations behind the sample. -/
def sampleDesign : Design sampleTables where
  denotes := resolveIdentId sampleTables none
  shape id := .packed (if id = 0 then [(3, 0)] else [])
  wide id dims shape := by
    obtain rfl := Shape.packed.inj shape
    by_cases first : id = 0
    · subst first
      rfl
    · simp [sampleTables, first, bitCount]

/-- A name of one segment. -/
def plainName (s : String) : HierarchicalIdentifier := ⟨[⟨s, []⟩]⟩

/-- A select of `v` by a hexadecimal literal. -/
def sampleSelect (size : Nat) (digits : List Char) : Expression :=
  .index (.ident (plainName "v")) (.number ⟨some size, false, .hex, digits⟩)

/-- The last label of the vector is recognised and lands, so the gate stands for the assignment. -/
theorem recognised_exact_sample :
    sampleDesign.Exact (fun _ => false) (.ident (plainName "y")) (sampleSelect 2 ['3'])
      (.buf1 ⟨1, 0⟩ ⟨0, 3⟩ false) :=
  (@recognised_exact_iff sampleTables sampleDesign none (fun _ => false) referenceGateOps _ _ referenceGateOps_lawful
    _ rfl).mpr
      ⟨⟨⟨1, 0⟩, rfl, rfl, rfl⟩, ⟨⟨0, 3⟩, rfl, rfl, 3, rfl, by decide⟩, fun _ _ => rfl⟩

/-- A label of more than a word reads the lowest bit instead of x. -/
theorem recognised_truncates : ¬ ∀ (t : GateTables) (d : Design t) (scopeHint : Option String)
    (gateDriven : Nat → Bool) (lhs rhs : Expression) (gate : FusedGate),
    tryBuildFusedGate t scopeHint lhs rhs = some gate → d.Exact gateDriven lhs rhs gate := by
  intro all
  have exact := all sampleTables sampleDesign none (fun _ => false) (.ident (plainName "y"))
    (sampleSelect 33 ['1', '_', '0', '0', '0', '0', '_', '0', '0', '0', '0']) (.buf1 ⟨1, 0⟩ ⟨0, 0⟩ false) rfl
  -- With every bit zero the gate computes zero, and the select reads x.
  obtain ⟨v, value, same⟩ := exact.computes (valueIn (t := sampleTables) fun _ => .zero) fun _ => rfl
  have unknown : sampleDesign.evaluate (valueIn (t := sampleTables) fun _ => .zero)
      (sampleSelect 33 ['1', '_', '0', '0', '0', '0', '_', '0', '0', '0', '0']) = some .x := rfl
  obtain rfl := Option.some.inj (unknown.symm.trans value)
  have zero : fusedGateEval (valueIn (t := sampleTables) fun _ => .zero) (fun _ => false)
      (.buf1 ⟨1, 0⟩ ⟨0, 0⟩ false) = (⟨1, 0⟩, 0) := rfl
  exact absurd (congrArg Prod.snd (zero.symm.trans same)) (by decide)

end Samples

end Design

end Xezim.Comb
