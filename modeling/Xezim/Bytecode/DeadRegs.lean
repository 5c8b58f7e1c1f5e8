import Xezim.Bytecode.Liveness
import Xezim.Bytecode.Peephole

/-! Registers no path of a stream reads before overwriting them, as the liveness search finds them. -/

namespace Xezim.Bytecode

variable {Stmt Expr ι W : Type}

/-- Some path from a position reads the register before an instruction overwrites it. -/
inductive MayRead (insns : List (Insn Stmt Expr)) (r : RegId) : Nat → Prop
  | reads {pc : Nat} {insn : Insn Stmt Expr} (held : insns[pc]? = some insn) (read : insn.insnReadsReg r = true) :
      MayRead insns r pc
  | goes {pc t : Nat} {insn : Insn Stmt Expr} (held : insns[pc]? = some insn) (kept : ¬ insn.Overwrites r)
      (next : t ∈ insn.succs pc) (later : MayRead insns r t) : MayRead insns r pc

/-- The register of an eliminated compare is not read after the fused branch, unless it is an operand. -/
def ScratchUnread (insns : List (Insn Stmt Expr)) : Prop :=
  ∀ pc kind a b tmp t, insns[pc]? = some (.cmpBranch kind a b tmp t) → tmp ≠ a → tmp ≠ b → ¬ MayRead insns tmp pc

/-- A stream without fused compares and branches, as the compiler emits it. -/
def Unfused (insns : List (Insn Stmt Expr)) : Prop :=
  ∀ insn ∈ insns, ∀ kind a b tmp t, insn ≠ .cmpBranch kind a b tmp t

variable {insns : List (Insn Stmt Expr)} {r : RegId}

theorem Unfused.scratchUnread (unfused : Unfused insns) : ScratchUnread insns :=
  fun _ kind a b tmp t held _ _ _ => unfused _ (List.mem_of_getElem? held) kind a b tmp t rfl

/-- Putting in another instruction than a fused branch keeps a stream without them. -/
theorem Unfused.set {k : Nat} {insn : Insn Stmt Expr} (unfused : Unfused insns)
    (other : ∀ kind a b tmp t, insn ≠ .cmpBranch kind a b tmp t) : Unfused (insns.set k insn) := by
  intro x member
  rcases List.mem_or_eq_of_mem_set member with before | rfl
  · exact unfused x before
  · exact other

/-- From a closed search no path reads the register before it is overwritten. -/
theorem not_mayRead_of_closed {epoch : Nat} {visited : Nat → Nat} (scratch : ScratchUnread insns)
    (closed : Closed insns r epoch visited []) {pc : Nat} (may : MayRead insns r pc) :
    ¬ Done insns epoch visited pc := by
  -- By induction on the path; a position done holds an instruction that the search has seen.
  induction may with
  | @reads pc insn held read =>
    rintro (outside | seen)
    · simp [outside] at held
    · simp [(closed pc insn seen held).1] at read
  | @goes pc t insn held kept next later ih =>
    rintro (outside | seen)
    · simp [outside] at held
    · obtain ⟨unread, dest | leads⟩ := closed pc insn seen held
      · -- Only a fused branch has a destination that it does not overwrite.
        by_cases isCmp : ∃ kind a b tmp t, insn = .cmpBranch kind a b tmp t
        · obtain ⟨kind, a, b, tmp, target, rfl⟩ := isCmp
          obtain rfl : tmp = r := by simpa [Insn.destReg] using dest
          have apart : tmp ≠ a ∧ tmp ≠ b := by simpa [Insn.insnReadsReg, Insn.insnReadRegs] using unread
          exact scratch pc kind a b tmp target held apart.1 apart.2 (.goes held kept next later)
        · exact kept ⟨dest, fun kind a b tmp target same => isCmp ⟨kind, a, b, tmp, target, same⟩⟩
      · exact ih ((leads t next).resolve_left (by simp))

/-- A search that finds no read is right about every path from its start positions. -/
theorem RegLiveness.not_mayRead (scratch : ScratchUnread insns) (L : RegLiveness) {starts : List Nat}
    (none : (L.readBeforeWrite insns starts r).1 = false) : ∀ pc ∈ starts, ¬ MayRead insns r pc := by
  intro pc member may
  have closed : Closed insns r L.advance.epoch L.advance.visited starts.reverse :=
    fun q _ seen _ => absurd seen (L.advance_fresh q)
  obtain ⟨closed', done, -⟩ := search_closed closed (Prod.ext none rfl)
  exact not_mayRead_of_closed scratch closed' may (done pc (by simpa using member))

/-- A register that no path reads is dead, at every position of which that is so. -/
theorem DeadAway.of_mayRead (insns : List (Insn Stmt Expr)) (first last : Nat) (c : RegId) :
    DeadAway insns first last fun pc r => r = c ∧ ¬ MayRead insns c pc := by
  rintro pc insn - held r ⟨rfl, unread⟩
  refine ⟨by_contra fun reads => unread (.reads held (by simpa using reads)), fun t next => ?_⟩
  by_cases overwritten : insn.Overwrites r
  · exact .inr overwritten
  · exact .inl ⟨rfl, fun later => unread (.goes held overwritten next later)⟩

end Xezim.Bytecode
