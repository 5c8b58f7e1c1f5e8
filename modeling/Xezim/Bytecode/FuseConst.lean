import Xezim.Bytecode.DeadRegs

/-! A constant load taken into the operation that uses it. -/

namespace Xezim.Bytecode

open Lockstep

variable {Stmt Expr ι W : Type}

section Pass

/-- The scrub of the constant's own register remembered after one more scrub. -/
def lastScrub (c r : RegId) (j : Nat) (scrub : Option Nat) : Option Nat := if r = c then some j else scrub

/-- The scan past placeholders and sign scrubs from a position on: where it stops, and the last scrub of the constant's
own register. -/
def scanScrubs (insns : List (Insn Stmt Expr)) (c : RegId) (j : Nat) (scrub : Option Nat) : Nat × Option Nat :=
  match _held : insns[j]? with
  | some .nop => scanScrubs insns c (j + 1) scrub
  | some (.clearSigned r) => scanScrubs insns c (j + 1) (lastScrub c r j scrub)
  | _ => (j, scrub)
termination_by insns.length - j
decreasing_by
  · have inside := (List.getElem?_eq_some_iff.mp _held).1
    omega
  · have inside := (List.getElem?_eq_some_iff.mp _held).1
    omega

/-- The operations that take a constant for their right operand: destination, left operand and kind. -/
def constOperand (c : RegId) : Insn Stmt Expr → Option (RegId × RegId × BinOpConstKind)
  | .add d l r => if r = c then some (d, l, .add) else none
  | .eq d l r => if r = c then some (d, l, .eq) else none
  | .caseEq d l r => if r = c then some (d, l, .caseEq) else none
  | .bitXor d l r => if r = c then some (d, l, .xor) else none
  | .bitAnd d l r => if r = c then some (d, l, .and) else none
  | .bitOr d l r => if r = c then some (d, l, .or) else none
  | .mul d l r => if r = c then some (d, l, .mul) else none
  | .sub d l r => if r = c then some (d, l, .sub) else none
  | _ => none

/-- The stream a fusion pass rewrites, with the counts and marks it keeps. -/
structure Fusing (Stmt Expr : Type) where
  insns : List (Insn Stmt Expr)
  readers : RegReaders
  liveness : RegLiveness

/-- A value without its sign. -/
def unsign (v : Value) : Value := { v with isSigned := false }

/-- The constant without its sign, where its register is scrubbed on the way. -/
def scrubbed (k : Value) (scrub : Option Nat) : Value := if scrub.isSome then unsign k else k

/-- The fused operation in its place, the constant load and the scrub of it gone. -/
def putConst (s : Fusing Stmt Expr) (i j : Nat) (scrub : Option Nat) (old fused : Insn Stmt Expr) :
    Fusing Stmt Expr :=
  match scrub with
  | some sj =>
    { s with
      insns := ((s.insns.set i .nop).set sj .nop).set j fused
      readers := ((s.readers.remove old).remove ((s.insns[sj]?).getD .nop)).add fused }
  | none => { s with insns := (s.insns.set i .nop).set j fused, readers := (s.readers.remove old).add fused }

/-- One position of `fuse_binop_const`. -/
def fuseConstAt (isTarget : Nat → Bool) (s : Fusing Stmt Expr) (i : Nat) : Fusing Stmt Expr :=
  match s.insns[i]? with
  | some (.loadConst c k) =>
    let scan := scanScrubs s.insns c (i + 1) none
    match s.insns[scan.1]? with
    | none => s
    | some op =>
      match constOperand c op with
      | none => s
      | some (d, l, kind) =>
        -- Both operands in the constant's register: nothing would load it for the left one.
        if l = c then s
        else if (List.range' (i + 1) (scan.1 - i)).any isTarget then s
        else
          let consumed := s.readers.readOutside s.insns c ([i, scan.1] ++ scan.2.toList)
          let live :=
            if consumed && d != c then s.liveness.readBeforeWrite s.insns [scan.1 + 1] c else (false, s.liveness)
          if live.1 then { s with liveness := live.2 }
          else putConst { s with liveness := live.2 } i scan.1 scan.2 op (.binOpConst d l (scrubbed k scan.2) kind)
  | _ => s

/-- `fuse_binop_const`. -/
def fuseBinopConst (insns : List (Insn Stmt Expr)) : List (Insn Stmt Expr) :=
  ((List.range (insns.length - 1)).foldl (fuseConstAt (branchTargetMap insns))
    ⟨insns, .new insns, .new⟩).insns

end Pass

section Scan

variable {insns : List (Insn Stmt Expr)} {c : RegId}

/-- What the scan passes over is placeholders and scrubs; it answers a scrub of the constant's register exactly if it
passed one. -/
theorem scanScrubs_spec (j : Nat) (scrub : Option Nat) :
    j ≤ (scanScrubs insns c j scrub).1 ∧
      (∀ p, j ≤ p → p < (scanScrubs insns c j scrub).1 →
        insns[p]? = some .nop ∨ ∃ r, insns[p]? = some (.clearSigned r)) ∧
      (((scanScrubs insns c j scrub).2 = scrub ∧
          ∀ p, j ≤ p → p < (scanScrubs insns c j scrub).1 → insns[p]? ≠ some (.clearSigned c)) ∨
        ∃ p, (scanScrubs insns c j scrub).2 = some p ∧ j ≤ p ∧ p < (scanScrubs insns c j scrub).1 ∧
          insns[p]? = some (.clearSigned c)) := by
  fun_induction scanScrubs insns c j scrub with
  | case1 j scrub held ih =>
    obtain ⟨le, between, last⟩ := ih
    refine ⟨by omega, fun p atLeast below => ?_, ?_⟩
    · rcases Nat.eq_or_lt_of_le atLeast with rfl | later
      · exact .inl held
      · exact between p later below
    · rcases last with ⟨same, without⟩ | ⟨p, found, atLeast, below, isScrub⟩
      · refine .inl ⟨same, fun p atLeast below => ?_⟩
        rcases Nat.eq_or_lt_of_le atLeast with rfl | later
        · simp [held]
        · exact without p later below
      · exact .inr ⟨p, found, by omega, below, isScrub⟩
  | case2 j scrub r held ih =>
    obtain ⟨le, between, last⟩ := ih
    refine ⟨by omega, fun p atLeast below => ?_, ?_⟩
    · rcases Nat.eq_or_lt_of_le atLeast with rfl | later
      · exact .inr ⟨r, held⟩
      · exact between p later below
    · rcases last with ⟨same, without⟩ | ⟨p, found, atLeast, below, isScrub⟩
      · by_cases own : r = c
        · -- This is a scrub of the constant's register, and no later one is.
          subst own
          exact .inr ⟨j, by simpa [lastScrub] using same, Nat.le_refl j, by omega, held⟩
        · refine .inl ⟨by simpa [lastScrub, own] using same, fun p atLeast below => ?_⟩
          rcases Nat.eq_or_lt_of_le atLeast with rfl | later
          · simpa [held] using own
          · exact without p later below
      · exact .inr ⟨p, found, by omega, below, isScrub⟩
  | case3 j scrub nop scrubs =>
    exact ⟨Nat.le_refl j, fun p atLeast below => by omega, .inl ⟨rfl, fun p atLeast below => by omega⟩⟩

end Scan

section Runs

variable {H : Host Stmt Expr ι W} {D : Numbering ι} {insns out : List (Insn Stmt Expr)} {c : RegId}

theorem clearSigned_computes (r : RegId) :
    Computes H D (.clearSigned r : Insn Stmt Expr) r fun vm => unsign (vm.regs r) :=
  unArm_computes unsign r r (by simp) fun _ => rfl

/-- The operations a constant is fused into compute what the fused one does. -/
theorem constOperand_computes {op : Insn Stmt Expr} {d l : RegId} {kind : BinOpConstKind}
    (operand : constOperand c op = some (d, l, kind)) :
    Computes H D op d fun vm => binOpConstFn H kind (vm.regs l) (vm.regs c) := by
  cases op with
  | add d' l' r | eq d' l' r | caseEq d' l' r | bitXor d' l' r | bitAnd d' l' r | bitOr d' l' r | mul d' l' r
  | sub d' l' r =>
    obtain ⟨rfl, rfl, rfl, rfl⟩ : r = c ∧ d' = d ∧ l' = l ∧ _ = kind := by simpa [constOperand] using operand
    exact binArm_computes _ d' l' r (by simp) fun _ => rfl
  | _ => simp [constOperand] at operand

/-- What stands in both streams between the constant load and the operation: the same placeholder or scrub, but that
scrubs of the constant's register may be gone. -/
def Between (insns out : List (Insn Stmt Expr)) (c : RegId) (p : Nat) : Prop :=
  (insns[p]? = some .nop ∧ out[p]? = some .nop) ∨
    (∃ r, r ≠ c ∧ insns[p]? = some (.clearSigned r) ∧ out[p]? = some (.clearSigned r)) ∨
    insns[p]? = some (.clearSigned c) ∧ (out[p]? = some .nop ∨ out[p]? = some (.clearSigned c))

/-- A stretch holds a scrub of a register. -/
def ScrubIn (insns : List (Insn Stmt Expr)) (c : RegId) (p j : Nat) : Prop :=
  ∃ q, p ≤ q ∧ q < j ∧ insns[q]? = some (.clearSigned c)

/-- Two runs get to a position, alike up to a register which the first one may have scrubbed. -/
def GetTo (H : Host Stmt Expr ι W) (D : Numbering ι) (insns out : List (Insn Stmt Expr)) (c : RegId) (p j : Nat)
    (run run' : Run W) : Prop :=
  ∃ n n' last last', Steps (blockStep H D insns) n run last ∧ Steps (blockStep H D out) n' run' last' ∧
    last.pc = j ∧ Alike (· = c) last last' ∧ (ScrubIn insns c p j → last.vm.regs c = unsign (run.vm.regs c)) ∧
    (¬ ScrubIn insns c p j → last.vm.regs c = run.vm.regs c)

/-- One step of both, after which the rest of a stretch is run. -/
theorem GetTo.cons {p j : Nat} {run run' run₁ run₁' : Run W} (step : blockStep H D insns run = .inl run₁)
    (step' : blockStep H D out run' = .inl run₁') (lt : p < j)
    (scrub : insns[p]? = some (.clearSigned c) → run₁.vm.regs c = unsign (run.vm.regs c))
    (kept : insns[p]? ≠ some (.clearSigned c) → run₁.vm.regs c = run.vm.regs c)
    (rest : GetTo H D insns out c (p + 1) j run₁ run₁') : GetTo H D insns out c p j run run' := by
  obtain ⟨n, n', last, last', steps, steps', atLast, alike, later, never⟩ := rest
  refine ⟨n + 1, n' + 1, last, last', .cons step steps, .cons step' steps', atLast, alike, fun found => ?_,
    fun without => ?_⟩
  · by_cases again : ScrubIn insns c (p + 1) j
    · -- Scrubbing twice is scrubbing once.
      rw [later again]
      by_cases now : insns[p]? = some (.clearSigned c)
      · rw [scrub now]
        rfl
      · rw [kept now]
    · obtain ⟨q, atLeast, below, held⟩ := found
      have now : q = p := by
        by_contra apart
        exact again ⟨q, by omega, below, held⟩
      rw [never again, scrub (now ▸ held)]
  · have none : ¬ ScrubIn insns c (p + 1) j := fun found => by
      obtain ⟨q, atLeast, below, held⟩ := found
      exact without ⟨q, by omega, below, held⟩
    rw [never none]
    exact kept fun held => without ⟨p, Nat.le_refl p, lt, held⟩

/-- Both streams run through what stands between. -/
theorem between_run {p j : Nat} (le : p ≤ j) (between : ∀ q, p ≤ q → q < j → Between insns out c q) {run run' : Run W}
    (here : run.pc = p) (alike : Alike (· = c) run run') : GetTo H D insns out c p j run run' := by
  obtain ⟨n, rfl⟩ := Nat.exists_eq_add_of_le le
  clear le
  -- By induction on how much stands between; each position takes one step in both streams.
  induction n generalizing p run run' with
  | zero =>
    refine ⟨0, 0, run, run', .refl _, .refl _, here, alike, fun scrub => ?_, fun _ => rfl⟩
    obtain ⟨q, atLeast, below, -⟩ := scrub
    omega
  | succ n ih =>
    subst here
    rw [show run.pc + (n + 1) = run.pc + 1 + n by omega] at between ⊢
    have rest (q : Nat) (atLeast : run.pc + 1 ≤ q) (below : q < run.pc + 1 + n) := between q (by omega) below
    have lt : run.pc < run.pc + 1 + n := by omega
    rcases between run.pc (Nat.le_refl _) lt with ⟨left, right⟩ | ⟨r, other, left, right⟩ | ⟨left, right⟩
    · -- A placeholder in both.
      have alike' : Alike (· = c) (run.moveTo (run.pc + 1)) (run'.moveTo (run'.pc + 1)) := by
        rw [alike.pc]
        exact alike.moveTo (run.pc + 1)
      refine .cons (blockStep_nop run left) (blockStep_nop run' (alike.pc.symm ▸ right)) lt (fun held => ?_)
        (fun _ => rfl)
        (ih rfl alike' rest)
      simp [left] at held
    · -- A scrub of another register in both.
      have same : unsign (run'.vm.regs r) = unsign (run.vm.regs r) := by rw [alike.live other]
      refine .cons ((clearSigned_computes r).blockStep run left)
        ((clearSigned_computes r).blockStep run' (alike.pc.symm ▸ right)) lt (fun held => ?_) (fun _ => ?_)
        (ih rfl (alike.put (.inr same)) rest)
      · rw [left] at held
        cases held
        exact absurd rfl other
      · exact Vm.put_other _ _ (Ne.symm other)
    · -- A scrub of the constant's register, in the first stream at least.
      have step := (clearSigned_computes (H := H) (D := D) c).blockStep run left
      have value : (run.put c (unsign (run.vm.regs c))).vm.regs c = unsign (run.vm.regs c) := Vm.put_self _ _ _
      rcases right with gone | stays
      · exact .cons step (blockStep_nop run' (alike.pc.symm ▸ gone)) lt (fun _ => value)
          (fun other => absurd left other)
          (ih rfl (alike.putLeft rfl) rest)
      · exact .cons step ((clearSigned_computes c).blockStep run' (alike.pc.symm ▸ stays)) lt (fun _ => value)
          (fun other => absurd left other) (ih rfl (alike.put (.inl rfl)) rest)

/-- The constant load with the operation, and the fused operation, are run alike up to the constant's register, which
is overwritten by the operation or dead after it. -/
theorem fuseConst_turn {i j : Nat} (lt : i < j) {k k' : Value} {op : Insn Stmt Expr} {d l : RegId}
    {kind : BinOpConstKind} (load : insns[i]? = some (.loadConst c k)) (held : insns[j]? = some op)
    (operand : constOperand c op = some (d, l, kind)) (other : l ≠ c)
    (between : ∀ q, i + 1 ≤ q → q < j → Between insns out c q) (scrub : ScrubIn insns c (i + 1) j → k' = unsign k)
    (kept : ¬ ScrubIn insns c (i + 1) j → k' = k) (gone : out[i]? = some .nop)
    (fused : out[j]? = some (.binOpConst d l k' kind)) {dead : Nat → Prop} (after : d = c ∨ dead (j + 1))
    {run run' : Run W} (here : run.pc = i) (alike : Alike (fun r => r = c ∧ dead i) run run') :
    Together H D insns out (InStep (fun pc r => r = c ∧ dead pc) fun pc => pc ≤ i ∨ j < pc) run run' := by
  subst here
  -- The load sets the constant's register in the first stream alone.
  have step := (loadConst_computes (H := H) (D := D) c k).blockStep run load
  have step' := blockStep_nop (H := H) (D := D) run' (alike.pc.symm ▸ gone)
  have alike₁ : Alike (· = c) (run.put c k) (run'.moveTo (run'.pc + 1)) :=
    (alike.mono fun r isDead => isDead.1).putLeft rfl
  obtain ⟨n, n', last, last', steps, steps', atLast, alike₂, scrubs, keeps⟩ := between_run lt between rfl alike₁
  have constant : last.vm.regs c = k' := by
    by_cases found : ScrubIn insns c (run.pc + 1) j
    · rw [scrubs found, scrub found]
      exact congrArg unsign (Vm.put_self _ _ _)
    · rw [keeps found, kept found]
      exact Vm.put_self _ _ _
  subst atLast
  -- Both streams then compute the same from the left operand and the constant.
  have op := (constOperand_computes (H := H) (D := D) operand).blockStep last held
  have op' := (binOpConst_computes (H := H) (D := D) d l k' kind).blockStep last' (alike₂.pc.symm ▸ fused)
  have same : binOpConstFn H kind (last'.vm.regs l) k' = binOpConstFn H kind (last.vm.regs l) (last.vm.regs c) := by
    rw [alike₂.live other, constant]
  refine .on (.cons step (steps.trans (.one op))) (.cons step' (steps'.trans (.one op')))
    ⟨.inr (Nat.lt_succ_self _), ?_⟩
  rcases after with rfl | isDead
  · exact (alike₂.revive same).mono fun r both => absurd both.1 both.2
  · exact (alike₂.put (.inr same)).mono fun r isC => ⟨isC, isDead⟩

end Runs

section Step

variable {H : Host Stmt Expr ι W} {D : Numbering ι} {isTarget : Nat → Bool} {s : Fusing Stmt Expr}

/-- What the pass keeps: the map covers the targets, no fused branch stands in the stream, and the counts are its
own. -/
structure Fusing.Good (isTarget : Nat → Bool) (s : Fusing Stmt Expr) : Prop where
  mapped : Mapped isTarget s.insns
  unfused : Unfused s.insns
  counts : s.readers.Counts s.insns

/-- Putting the fused operation in its place keeps what the pass needs. -/
theorem putConst_good (good : s.Good isTarget) {i j : Nat} {scrub : Option Nat} {c d l : RegId} {k k' : Value}
    {op : Insn Stmt Expr} {kind : BinOpConstKind} (lt : i < j) (load : s.insns[i]? = some (.loadConst c k))
    (held : s.insns[j]? = some op)
    (scrubHeld : ∀ sj ∈ scrub, i < sj ∧ sj < j ∧ s.insns[sj]? = some (.clearSigned c)) :
    (putConst s i j scrub op (.binOpConst d l k' kind)).Good isTarget := by
  have other : ∀ kind' a b tmp t, (.nop : Insn Stmt Expr) ≠ .cmpBranch kind' a b tmp t := by simp
  have other' : ∀ kind' a b tmp t, (.binOpConst d l k' kind : Insn Stmt Expr) ≠ .cmpBranch kind' a b tmp t := by simp
  -- The operation is counted out before the places are emptied, the fused one counted in after.
  have erased := good.counts.erase .nop held rfl
  cases scrub with
  | none =>
    refine ⟨(good.mapped.set (by simp [Insn.targets])).set (by simp [Insn.targets]),
      (good.unfused.set other).set other', ?_⟩
    have emptied := erased.swap (k := i) .nop (by rwa [List.getElem?_set_ne (by omega)]) rfl rfl
    have filled := emptied.fill (k := j) .nop
      (by rw [List.getElem?_set_ne (by omega), List.getElem?_set_self (List.getElem?_eq_some_iff.mp held).1]) rfl
      (.binOpConst d l k' kind)
    rw [List.set_comm _ _ (show j ≠ i by omega), List.set_set] at filled
    exact filled
  | some sj =>
    obtain ⟨later, below, scrubAt⟩ := scrubHeld sj rfl
    refine ⟨((good.mapped.set (by simp [Insn.targets])).set (by simp [Insn.targets])).set (by simp [Insn.targets]),
      ((good.unfused.set other).set other).set other', ?_⟩
    have unscrubbed := erased.erase (k := sj) .nop (by rwa [List.getElem?_set_ne (by omega)]) rfl
    have emptied := unscrubbed.swap (k := i) .nop
      (by rwa [List.getElem?_set_ne (by omega), List.getElem?_set_ne (by omega)]) rfl rfl
    have filled := emptied.fill (k := j) .nop (by
      rw [List.getElem?_set_ne (by omega), List.getElem?_set_ne (by omega),
        List.getElem?_set_self (List.getElem?_eq_some_iff.mp held).1]) rfl (.binOpConst d l k' kind)
    rw [List.set_comm _ _ (show sj ≠ i by omega), List.set_comm _ _ (show j ≠ i by omega),
      List.set_comm _ _ (show j ≠ sj by omega), List.set_set] at filled
    simpa only [putConst, scrubAt, Option.getD_some] using filled

/-- What the fused stream holds, place by place. -/
theorem putConst_get {i j : Nat} {scrub : Option Nat} {op fused : Insn Stmt Expr} (lt : i < j)
    (inside : j < s.insns.length) (among : ∀ sj ∈ scrub, i < sj ∧ sj < j) (p : Nat) :
    (putConst s i j scrub op fused).insns[p]? =
      if p = j then some fused else if p = i ∨ scrub = some p then some .nop else s.insns[p]? := by
  cases scrub with
  | none =>
    by_cases atJ : p = j
    · subst atJ
      rw [if_pos rfl]
      exact List.getElem?_set_self (by simpa using inside)
    · rw [if_neg atJ]
      simp only [putConst, List.getElem?_set_ne (Ne.symm atJ), or_false, reduceCtorEq]
      by_cases atI : p = i
      · rw [if_pos atI, atI, List.getElem?_set_self (by omega)]
      · rw [if_neg atI, List.getElem?_set_ne (Ne.symm atI)]
  | some sj =>
    obtain ⟨later, below⟩ := among sj rfl
    by_cases atJ : p = j
    · subst atJ
      rw [if_pos rfl]
      exact List.getElem?_set_self (by simpa using inside)
    · rw [if_neg atJ]
      simp only [putConst, List.getElem?_set_ne (Ne.symm atJ), Option.some.injEq]
      by_cases atScrub : sj = p
      · rw [if_pos (.inr atScrub), atScrub, List.getElem?_set_self (by simp; omega)]
      · rw [List.getElem?_set_ne atScrub]
        by_cases atI : p = i
        · rw [if_pos (.inl atI), atI, List.getElem?_set_self (by omega)]
        · rw [if_neg (by simp [atI, atScrub]), List.getElem?_set_ne (Ne.symm atI)]

/-- The constant's register is dead outside the fused places, where nothing there reads it, or no path does, or the
operation overwrites it. -/
theorem constant_dead (good : s.Good isTarget) {i j : Nat} {scrub : Option Nat} {c d : RegId} (lt : i < j)
    (among : ∀ sj ∈ scrub, i < sj ∧ sj < j)
    (unread : s.readers.readOutside s.insns c ([i, j] ++ scrub.toList) = false ∨ d = c ∨
      ¬ MayRead s.insns c (j + 1)) :
    ∃ dead : Nat → Prop, DeadAway s.insns i j (fun pc r => r = c ∧ dead pc) ∧ (d = c ∨ dead (j + 1)) := by
  rcases unread with none | same | dead
  · have distinct : ([i, j] ++ scrub.toList).Nodup := by
      cases scrub with
      | none => simp; omega
      | some sj =>
        have := among sj rfl
        simp
        omega
    refine ⟨fun _ => True, ?_, .inr trivial⟩
    rintro pc insn away held r ⟨rfl, -⟩
    refine ⟨by_contra fun reads => ?_, fun _ _ => .inl ⟨rfl, trivial⟩⟩
    -- A reader outside the places would have been counted.
    have found := (good.counts.readOutside_iff distinct).mpr ⟨pc, insn, fun member => ?_, held, by simpa using reads⟩
    · rw [none] at found
      cases found
    · simp only [List.mem_append, List.mem_cons, List.not_mem_nil, or_false, Option.mem_toList] at member
      rcases member with (rfl | rfl) | isScrub
      · omega
      · omega
      · have := among pc isScrub
        omega
  · exact ⟨fun _ => False, fun pc insn _ _ r isDead => isDead.2.elim, .inl same⟩
  · exact ⟨fun pc => ¬ MayRead s.insns c pc, .of_mayRead _ _ _ _, .inr dead⟩

/-- The fused stream stands for the one it comes from. -/
theorem putConst_standsFor (good : s.Good isTarget) {i j : Nat} {scrub : Option Nat} {c d l : RegId} {k : Value}
    {op : Insn Stmt Expr} {kind : BinOpConstKind} (scan : scanScrubs s.insns c (i + 1) none = (j, scrub))
    (load : s.insns[i]? = some (.loadConst c k)) (held : s.insns[j]? = some op)
    (operand : constOperand c op = some (d, l, kind)) (other : l ≠ c)
    (closed : ∀ p, i < p → p ≤ j → isTarget p = false)
    (unread : s.readers.readOutside s.insns c ([i, j] ++ scrub.toList) = false ∨ d = c ∨
      ¬ MayRead s.insns c (j + 1)) :
    (putConst s i j scrub op (.binOpConst d l (scrubbed k scrub) kind)).Good isTarget ∧
      StandsFor H D (putConst s i j scrub op (.binOpConst d l (scrubbed k scrub) kind)).insns s.insns := by
  obtain ⟨le, between, last⟩ := @scanScrubs_spec _ _ s.insns c (i + 1) none
  rw [scan] at le between last
  dsimp only at le between last
  have lt : i < j := le
  have inside : j < s.insns.length := (List.getElem?_eq_some_iff.mp held).1
  have scrubHeld (sj : Nat) (found : sj ∈ scrub) : i < sj ∧ sj < j ∧ s.insns[sj]? = some (.clearSigned c) := by
    rcases last with ⟨none, -⟩ | ⟨p, some, atLeast, below, isScrub⟩
    · cases none.symm.trans found
    · obtain rfl : p = sj := Option.some.inj (some.symm.trans found)
      exact ⟨atLeast, below, isScrub⟩
  have among (sj : Nat) (found : sj ∈ scrub) : i < sj ∧ sj < j := ⟨(scrubHeld sj found).1, (scrubHeld sj found).2.1⟩
  have place := @putConst_get _ _ s i j scrub op (.binOpConst d l (scrubbed k scrub) kind) lt inside among
  have gone : (putConst s i j scrub op (.binOpConst d l (scrubbed k scrub) kind)).insns[i]? = some .nop := by
    rw [place, if_neg (by omega), if_pos (.inl rfl)]
  have fused : (putConst s i j scrub op (.binOpConst d l (scrubbed k scrub) kind)).insns[j]? =
      some (.binOpConst d l (scrubbed k scrub) kind) := by
    rw [place, if_pos rfl]
  refine ⟨putConst_good good lt load held scrubHeld, ?_⟩
  obtain ⟨dead, away, after⟩ := constant_dead good lt among unread
  refine .of_site i j good.mapped closed inside (fun p away => ?_) away fun run run' here alike =>
    fuseConst_turn lt load held operand other (fun q atLeast below => ?_) (fun found => ?_) (fun none => ?_) gone fused
      after here alike
  · have notScrub : ¬ (p = i ∨ scrub = some p) := by
      rintro (rfl | found)
      · omega
      · have := among p found
        omega
    rw [place, if_neg (by omega), if_neg notScrub]
  · -- Only the remembered scrub is gone.
    by_cases isScrub : scrub = some q
    · exact .inr (.inr ⟨(scrubHeld q isScrub).2.2, .inl (by rw [place, if_neg (by omega), if_pos (.inr isScrub)])⟩)
    · have stays := place q
      rw [if_neg (by omega), if_neg (by simp [isScrub]; omega)] at stays
      rcases between q atLeast below with nop | ⟨r, clears⟩
      · exact .inl ⟨nop, stays.trans nop⟩
      · by_cases own : r = c
        · subst own
          exact .inr (.inr ⟨clears, .inr (stays.trans clears)⟩)
        · exact .inr (.inl ⟨r, own, clears, stays.trans clears⟩)
  · -- A scrub in between was remembered.
    rcases last with ⟨-, without⟩ | ⟨p, remembered, -⟩
    · obtain ⟨q, atLeast, below, clears⟩ := found
      exact absurd clears (without q atLeast below)
    · simp [scrubbed, remembered]
  · rcases last with ⟨none', -⟩ | ⟨p, -, atLeast, below, clears⟩
    · simp [scrubbed, none']
    · exact absurd ⟨p, atLeast, below, clears⟩ none

/-- One position of the pass keeps what it needs, and the runs. -/
theorem fuseConstAt_standsFor (s : Fusing Stmt Expr) (i : Nat) (good : s.Good isTarget) :
    (fuseConstAt isTarget s i).Good isTarget ∧ StandsFor H D (fuseConstAt isTarget s i).insns s.insns := by
  unfold fuseConstAt
  split
  · rename_i c k load
    generalize scan : scanScrubs s.insns c (i + 1) none = found
    obtain ⟨j, scrub⟩ := found
    dsimp only
    split
    · exact ⟨good, .refl⟩
    · rename_i op held
      split
      · exact ⟨good, .refl⟩
      · rename_i d l kind operand
        split
        · exact ⟨good, .refl⟩
        · rename_i other
          split
          · exact ⟨good, .refl⟩
          · rename_i free
            have closed (p : Nat) (later : i < p) (le : p ≤ j) : isTarget p = false := by
              by_contra target
              exact free (List.any_eq_true.mpr ⟨p, List.mem_range'_1.mpr (by omega), by simpa using target⟩)
            -- The state of the search changes neither the stream nor its counts.
            have same (L : RegLiveness) : ({ s with liveness := L } : Fusing Stmt Expr).Good isTarget :=
              ⟨good.mapped, good.unfused, good.counts⟩
            split
            · split
              · exact ⟨same _, .refl⟩
              · rename_i notLive
                have dead : ¬ MayRead s.insns c (j + 1) :=
                  s.liveness.not_mayRead good.unfused.scratchUnread (by simpa using notLive) (j + 1) (by simp)
                exact putConst_standsFor (same _) scan load held operand other closed (.inr (.inr dead))
            · rename_i notLive
              refine putConst_standsFor (same _) scan load held operand other closed ?_
              rcases Bool.eq_false_or_eq_true (s.readers.readOutside s.insns c
                ([i, j] ++ scrub.toList)) with read | unread
              · rw [read] at notLive
                exact .inr (.inl (by simpa using notLive))
              · exact .inl unread
  · exact ⟨good, .refl⟩

end Step

/-- Constant operands taken into their operations: the rewritten stream stands for the one it comes from, where no
fused branch is in it yet. -/
theorem fuseBinopConst_standsFor (H : Host Stmt Expr ι W) (D : Numbering ι) {insns : List (Insn Stmt Expr)}
    (unfused : Unfused insns) : StandsFor H D (fuseBinopConst insns) insns :=
  (StandsFor.foldl Fusing.insns (Fusing.Good (branchTargetMap insns)) fuseConstAt_standsFor _
    ⟨branchTargetMap_mapped insns, unfused, RegReaders.new_counts insns⟩).2

/-- A constant is added and stored. -/
theorem fuseBinopConst_standsFor_add : StandsFor (default : Host Unit Unit Unit Unit) noSignals
    (fuseBinopConst [.loadConst 1 default, .add 2 0 1, .nbaAssign 0 2 8])
    [.loadConst 1 default, .add 2 0 1, .nbaAssign 0 2 8] :=
  fuseBinopConst_standsFor default noSignals (by simp [Unfused])

end Xezim.Bytecode
