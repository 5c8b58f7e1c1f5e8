import Xezim.Bytecode.TrafficLaws

/-! The search for a read of a register before its next definition, against the reads that runs make. -/

namespace Xezim.Bytecode

open Traced

variable {Stmt Expr ι W : Type}

section Search

variable (insns : List (Insn Stmt Expr)) (r : RegId) (epoch : Nat)

/-- The loop of `read_before_write`: it visits the position on top of the stack, unless that one lies outside the
stream or was visited in this epoch; a spent budget answers true. -/
def search : Nat → List Nat → (Nat → Nat) → Bool × (Nat → Nat)
  | _, [], visited => (false, visited)
  | budget, pc :: rest, visited =>
    match insns[pc]? with
    | none => search budget rest visited
    | some insn =>
      if visited pc = epoch then search budget rest visited
      else match budget with
        | 0 => (true, visited)
        | budget + 1 =>
          if insn.insnReadsReg r then (true, Function.update visited pc epoch)
          else if insn.destReg = some r then search budget rest (Function.update visited pc epoch)
          else search budget (insn.succs pc ++ rest) (Function.update visited pc epoch)
termination_by budget stack => (budget, stack.length)

/-- A position with nothing left to visit: outside the stream, or visited in this epoch. -/
def Done (visited : Nat → Nat) (pc : Nat) : Prop := insns[pc]? = none ∨ visited pc = epoch

/-- Every visited position neither reads the register nor, unless it defines it, leads anywhere but to a position done
or still on the stack. -/
def Closed (visited : Nat → Nat) (stack : List Nat) : Prop :=
  ∀ pc insn, visited pc = epoch → insns[pc]? = some insn → insn.insnReadsReg r = false ∧
    (insn.destReg = some r ∨ ∀ t ∈ insn.succs pc, t ∈ stack ∨ Done insns epoch visited t)

variable {insns r epoch}

/-- A position done stays done when another one is visited. -/
theorem Done.update {visited : Nat → Nat} {pc t : Nat} (done : Done insns epoch visited t) :
    Done insns epoch (Function.update visited pc epoch) t := by
  rcases done with outside | seen
  · exact Or.inl outside
  · refine Or.inr ?_
    by_cases same : t = pc
    · simp [same]
    · simpa [Function.update_of_ne same] using seen

/-- A visited position is done. -/
theorem Done.visited {visited : Nat → Nat} {pc : Nat} : Done insns epoch (Function.update visited pc epoch) pc :=
  Or.inr (by simp)

/-- A position done may leave the top of the stack. -/
theorem Closed.pop {visited : Nat → Nat} {pc : Nat} {rest : List Nat}
    (closed : Closed insns r epoch visited (pc :: rest)) (done : Done insns epoch visited pc) :
    Closed insns r epoch visited rest := by
  intro q insn seen here
  obtain ⟨unread, leads⟩ := closed q insn seen here
  refine ⟨unread, leads.imp id fun all t member => ?_⟩
  rcases all t member with onStack | doneT
  · rcases List.mem_cons.mp onStack with rfl | onRest
    · exact Or.inr done
    · exact Or.inl onRest
  · exact Or.inr doneT

/-- Visiting the top of the stack keeps the search closed, when the position does not read the register and the new
stack holds its successors. -/
theorem Closed.visit {visited : Nat → Nat} {pc : Nat} {insn : Insn Stmt Expr} {rest stack : List Nat}
    (closed : Closed insns r epoch visited (pc :: rest)) (here : insns[pc]? = some insn)
    (unread : insn.insnReadsReg r = false)
    (leads : insn.destReg = some r ∨ ∀ t ∈ insn.succs pc, t ∈ stack) (kept : ∀ t ∈ rest, t ∈ stack) :
    Closed insns r epoch (Function.update visited pc epoch) stack := by
  intro q other seen there
  by_cases same : q = pc
  · -- The new position itself.
    subst same
    obtain rfl : insn = other := by simpa [here] using there
    exact ⟨unread, leads.imp id fun all t member => Or.inl (all t member)⟩
  · have seenBefore : visited q = epoch := by simpa [Function.update_of_ne same] using seen
    obtain ⟨unreadQ, leadsQ⟩ := closed q other seenBefore there
    refine ⟨unreadQ, leadsQ.imp id fun all t member => ?_⟩
    rcases all t member with onStack | done
    · rcases List.mem_cons.mp onStack with rfl | onRest
      · exact Or.inr Done.visited
      · exact Or.inl (kept t onRest)
    · exact Or.inr done.update

/-- A search that finds no read leaves every position of its stack done, and the visited positions closed. -/
theorem search_closed {budget : Nat} {stack : List Nat} {visited visited' : Nat → Nat}
    (closed : Closed insns r epoch visited stack) (found : search insns r epoch budget stack visited =
      (false, visited')) :
    Closed insns r epoch visited' [] ∧ (∀ t ∈ stack, Done insns epoch visited' t) ∧
      ∀ t, Done insns epoch visited t → Done insns epoch visited' t := by
  -- The induction follows the search; what was done before stays done.
  induction budget, stack, visited using search.induct insns r epoch with
  | case1 budget visited =>
    obtain rfl : visited = visited' := by simpa [search] using found
    exact ⟨closed, by simp, fun _ done => done⟩
  | case2 budget pc rest visited outside ih =>
    rw [search, outside] at found
    obtain ⟨closed', onRest, kept⟩ := ih (closed.pop (Or.inl outside)) found
    exact ⟨closed', List.forall_mem_cons.mpr ⟨kept pc (Or.inl outside), onRest⟩, kept⟩
  | case3 budget pc rest visited insn here seen ih =>
    rw [search, here] at found
    simp only [seen, if_true] at found
    obtain ⟨closed', onRest, kept⟩ := ih (closed.pop (Or.inr seen)) found
    exact ⟨closed', List.forall_mem_cons.mpr ⟨kept pc (Or.inr seen), onRest⟩, kept⟩
  | case4 pc rest visited insn here unseen =>
    rw [search, here] at found
    simp [unseen] at found
  | case5 pc rest visited insn here unseen budget reads =>
    rw [search, here] at found
    simp [unseen, reads] at found
  | case6 pc rest visited insn here unseen budget unread dest ih =>
    rw [search, here] at found
    simp only [unseen, unread, dest, if_true, if_false, Bool.false_eq_true] at found
    have next := closed.visit here (by simpa using unread) (Or.inl dest) fun t member => member
    obtain ⟨closed', onRest, kept⟩ := ih next found
    exact ⟨closed', List.forall_mem_cons.mpr ⟨kept pc Done.visited, onRest⟩, fun t done => kept t done.update⟩
  | case7 pc rest visited insn here unseen budget unread other ih =>
    rw [search, here] at found
    simp only [unseen, unread, other, if_false, Bool.false_eq_true] at found
    have next : Closed insns r epoch (Function.update visited pc epoch) (insn.succs pc ++ rest) :=
      closed.visit here (by simpa using unread) (Or.inr fun t member => by simp [member]) fun t member => by simp
        [member]
    obtain ⟨closed', onStack, kept⟩ := ih next found
    exact ⟨closed', List.forall_mem_cons.mpr ⟨kept pc Done.visited, fun t member => onStack t (by simp [member])⟩,
      fun t done => kept t done.update⟩

/-- The search marks positions with its epoch only. -/
theorem search_le {budget : Nat} {stack : List Nat} {visited : Nat → Nat} (seen : ∀ pc, visited pc ≤ epoch) :
    ∀ pc, (search insns r epoch budget stack visited).2 pc ≤ epoch := by
  have marked (v : Nat → Nat) (le : ∀ pc, v pc ≤ epoch) (q : Nat) : ∀ pc, Function.update v q epoch pc ≤ epoch := by
    intro pc
    by_cases same : pc = q
    · simp [same]
    · simpa [Function.update_of_ne same] using le pc
  induction budget, stack, visited using search.induct insns r epoch with
  | case1 budget visited => simpa [search] using seen
  | case2 budget pc rest visited outside ih =>
    rw [search, outside]
    exact ih seen
  | case3 budget pc rest visited insn here already ih =>
    rw [search, here]
    simpa only [already, if_true] using ih seen
  | case4 pc rest visited insn here unseen =>
    rw [search, here]
    simpa [unseen] using seen
  | case5 pc rest visited insn here unseen budget reads =>
    rw [search, here]
    simpa only [unseen, reads, if_true, if_false] using marked visited seen pc
  | case6 pc rest visited insn here unseen budget unread dest ih =>
    rw [search, here]
    simpa only [unseen, unread, dest, if_true, if_false, Bool.false_eq_true] using ih (marked visited seen pc)
  | case7 pc rest visited insn here unseen budget unread other ih =>
    rw [search, here]
    simpa only [unseen, unread, other, if_false, Bool.false_eq_true] using ih (marked visited seen pc)

end Search

/-- `RegLiveness`: the epoch in which each position was last visited. None was visited in a later epoch than the
present one. -/
structure RegLiveness where
  visited : Nat → Nat
  epoch : Nat
  visited_le : ∀ pc, visited pc ≤ epoch
  epoch_lt : epoch < 2 ^ 32

namespace RegLiveness

/-- `RegLiveness::new`. -/
def new : RegLiveness := ⟨fun _ => 0, 0, fun _ => Nat.le_refl 0, by decide⟩

/-- A new epoch; where the number wraps to 0 every mark is cleared first. -/
def advance (L : RegLiveness) : RegLiveness :=
  if wraps : (L.epoch + 1) % 2 ^ 32 = 0 then ⟨fun _ => 0, 1, fun _ => Nat.zero_le 1, by decide⟩
  else ⟨L.visited, L.epoch + 1, fun pc => Nat.le_succ_of_le (L.visited_le pc), by have := L.epoch_lt; omega⟩

/-- `read_before_write`: some path from the start positions may read the register before a definition of it. -/
def readBeforeWrite (L : RegLiveness) (insns : List (Insn Stmt Expr)) (starts : List Nat) (r : RegId) :
    Bool × RegLiveness :=
  let next := L.advance
  let found := search insns r next.epoch 1024 starts.reverse next.visited
  (found.1, ⟨found.2, next.epoch, search_le next.visited_le, next.epoch_lt⟩)

/-- No position is visited in a new epoch yet. -/
theorem advance_fresh (L : RegLiveness) (pc : Nat) : L.advance.visited pc ≠ L.advance.epoch := by
  unfold advance
  split
  · simp
  · have before := L.visited_le pc
    simp only
    omega

end RegLiveness

section Runs

variable (H : Host Stmt Expr ι W) (D : Numbering ι) (insns : List (Insn Stmt Expr)) (r : RegId)

/-- An access of the register itself. -/
def Access.touches : Access ι → Bool
  | .readReg q | .writeReg q => q == r
  | .readSig _ | .writeSig _ => false

/-- The first access of the register in a log. -/
def firstTouch (log : List (Access ι)) : Option (Access ι) := log.find? (Access.touches r)

/-- Some run from a position and a state reads the register before it writes it. A parked process resumes with its
registers, in whatever state the rest of the simulator has then. -/
inductive LiveAt : Nat → Vm W → Prop where
  | reads {pc : Nat} {vm : Vm W} {insn : Insn Stmt Expr} (here : insns[pc]? = some insn)
      (first : firstTouch r (execInsn H D pc insn vm).log = some (.readReg r)) : LiveAt pc vm
  | goes {pc pc' : Nat} {vm : Vm W} {insn : Insn Stmt Expr} (here : insns[pc]? = some insn)
      (untouched : firstTouch r (execInsn H D pc insn vm).log = none)
      (next : (execInsn H D pc insn vm).value = .goto pc') (live : LiveAt pc' (execInsn H D pc insn vm).state) :
      LiveAt pc vm
  | resumes {pc pc' : Nat} {vm : Vm W} {insn : Insn Stmt Expr} (w : W) (here : insns[pc]? = some insn)
      (untouched : firstTouch r (execInsn H D pc insn vm).log = none)
      (next : (execInsn H D pc insn vm).value = .suspend pc')
      (live : LiveAt pc' { (execInsn H D pc insn vm).state with world := w }) : LiveAt pc vm

end Runs

/-- A register is live at a position: some run from there reads it before it writes it. -/
def Live (insns : List (Insn Stmt Expr)) (r : RegId) (pc : Nat) : Prop :=
  ∃ (ι W : Type) (H : Host Stmt Expr ι W) (D : Numbering ι) (vm : Vm W), LiveAt H D insns r pc vm

section Sound

variable {insns : List (Insn Stmt Expr)} {r : RegId}

/-- The register of an eliminated compare is not live at the fused branch, unless it is an operand. -/
def ScratchDead (insns : List (Insn Stmt Expr)) : Prop :=
  ∀ pc kind a b tmp t, insns[pc]? = some (.cmpBranch kind a b tmp t) → tmp ≠ a → tmp ≠ b → ¬ Live insns tmp pc

/-- A touched register is read or written in the log. -/
theorem firstTouch_mem {log : List (Access ι)} {a : Access ι} (first : firstTouch r log = some a) : a ∈ log :=
  List.mem_of_find?_eq_some first

/-- A log that writes the register touches it. -/
theorem firstTouch_of_write {log : List (Access ι)} (written : .writeReg r ∈ log) : firstTouch r log ≠ none := by
  intro untouched
  have not := List.find?_eq_none.mp untouched _ written
  simp [Access.touches] at not

/-- A run goes on, or resumes, at a successor. -/
theorem succ_of_next {H : Host Stmt Expr ι W} {D : Numbering ι} {pc pc' : Nat} {insn : Insn Stmt Expr} {vm : Vm W}
    (next : (execInsn H D pc insn vm).value = .goto pc' ∨ (execInsn H D pc insn vm).value = .suspend pc') :
    pc' ∈ insn.succs pc := by
  have follows := (execInsn_traffic H D pc insn vm).2
  rcases next with goes | resumes
  · rwa [goes] at follows
  · rwa [resumes] at follows

/-- From a closed search no run reads the register before writing it, where no fused branch keeps its scratch register
alive. -/
theorem not_liveAt_of_closed {epoch : Nat} {visited : Nat → Nat} (scratch : ScratchDead insns)
    (closed : Closed insns r epoch visited []) {H : Host Stmt Expr ι W} {D : Numbering ι} {pc : Nat} {vm : Vm W}
    (live : LiveAt H D insns r pc vm) : ¬ Done insns epoch visited pc := by
  -- What a visited position and a run through it have in common.
  have visit {pc : Nat} {insn : Insn Stmt Expr} (here : insns[pc]? = some insn)
      (done : Done insns epoch visited pc) : insn.insnReadsReg r = false ∧
        (insn.destReg = some r ∨ ∀ t ∈ insn.succs pc, Done insns epoch visited t) := by
    rcases done with outside | seen
    · simp [outside] at here
    · obtain ⟨unread, leads⟩ := closed pc insn seen here
      exact ⟨unread, leads.imp id fun all t member => by simpa using all t member⟩
  -- A position whose instruction leaves the register untouched leads to positions done.
  have leave {pc : Nat} {vm : Vm W} {insn : Insn Stmt Expr} (here : insns[pc]? = some insn)
      (done : Done insns epoch visited pc) (untouched : firstTouch r (execInsn H D pc insn vm).log = none)
      (live : LiveAt H D insns r pc vm) : ∀ t ∈ insn.succs pc, Done insns epoch visited t := by
    obtain ⟨unread, dest | leads⟩ := visit here done
    · exfalso
      by_cases isCmp : ∃ kind a b tmp t, insn = .cmpBranch kind a b tmp t
      · obtain ⟨kind, a, b, tmp, t, rfl⟩ := isCmp
        obtain rfl : tmp = r := by simpa [Insn.destReg] using dest
        have apart : tmp ≠ a ∧ tmp ≠ b := by simpa [Insn.insnReadsReg, Insn.insnReadRegs] using unread
        exact scratch pc kind a b tmp t here apart.1 apart.2 ⟨ι, W, H, D, vm, live⟩
      · have notCmp : ∀ kind a b tmp t, insn ≠ .cmpBranch kind a b tmp t :=
          fun kind a b tmp t same => isCmp ⟨kind, a, b, tmp, t, same⟩
        exact firstTouch_of_write (execInsn_defines H D pc dest notCmp unread vm) untouched
    · exact leads
  induction live with
  | reads here first =>
    intro done
    have traffic := (execInsn_traffic H D _ _ _).1 _ (firstTouch_mem first)
    simp [Insn.Traffic, (visit here done).1] at traffic
  | goes here untouched next live ih =>
    intro done
    exact ih (leave here done untouched (.goes here untouched next live) _ (succ_of_next (Or.inl next)))
  | resumes w here untouched next live ih =>
    intro done
    exact ih (leave here done untouched (.resumes w here untouched next live) _ (succ_of_next (Or.inr next)))

/-- A search that finds no read is right about every start position, where no fused branch keeps its scratch register
alive. -/
theorem RegLiveness.readBeforeWrite_sound (scratch : ScratchDead insns) (L : RegLiveness) {starts : List Nat}
    (none : (L.readBeforeWrite insns starts r).1 = false) : ∀ pc ∈ starts, ¬ Live insns r pc := by
  rintro pc member ⟨ι, W, H, D, vm, live⟩
  have closed : Closed insns r L.advance.epoch L.advance.visited starts.reverse :=
    fun q _ seen _ => absurd seen (L.advance_fresh q)
  obtain ⟨closed', done, -⟩ := search_closed closed (Prod.ext none rfl)
  exact not_liveAt_of_closed scratch closed' live (done pc (by simpa using member))

end Sound

section Exact

/-- The metadata of a stream is right: every register access of its instructions is reported, and wherever the search
finds no read of a register, no run reads it before writing it. -/
def MetadataExact (insns : List (Insn Stmt Expr)) : Prop :=
  (∀ insn ∈ insns, insn.Described) ∧
    ∀ (L : RegLiveness) (starts : List Nat) (r : RegId), (L.readBeforeWrite insns starts r).1 = false →
      ∀ pc ∈ starts, ¬ Live insns r pc

/-- A search that starts at a fused branch stops there for its scratch register. -/
theorem RegLiveness.readBeforeWrite_cmpBranch {insns : List (Insn Stmt Expr)} {pc : Nat} {kind : CmpKind}
    {a b tmp : RegId} {t : Nat} (here : insns[pc]? = some (.cmpBranch kind a b tmp t)) (notA : tmp ≠ a)
    (notB : tmp ≠ b) : (RegLiveness.new.readBeforeWrite insns [pc] tmp).1 = false := by
  simp [readBeforeWrite, new, advance, search, here, Insn.insnReadsReg, Insn.insnReadRegs, Insn.destReg, notA, notB]

/-- The metadata of a stream is right exactly where no instruction has an unreported write and no fused branch keeps
its scratch register alive. -/
theorem metadata_exact_iff (insns : List (Insn Stmt Expr)) :
    MetadataExact insns ↔ (∀ insn ∈ insns, ∀ r, ¬ insn.UnreportedWrite r) ∧ ScratchDead insns := by
  constructor
  · rintro ⟨described, sound⟩
    refine ⟨fun insn member => (Insn.described_iff insn).mp (described insn member), ?_⟩
    intro pc kind a b tmp t here notA notB
    -- The search takes the branch for a definition, so its verdict is no more than that the register is dead.
    exact sound .new [pc] tmp (RegLiveness.readBeforeWrite_cmpBranch here notA notB) pc (by simp)
  · rintro ⟨reported, scratch⟩
    exact ⟨fun insn member => (Insn.described_iff insn).mpr (reported insn member),
      fun L starts r none => L.readBeforeWrite_sound scratch none⟩

/-- A load of a class member writes a register that is neither its destination, nor modified in place, nor that of an
opaque instruction. -/
theorem loadClassMember_unreported :
    ¬ MetadataExact [(Insn.loadClassMember 1 0 "f" : Insn Unit Unit)] := by
  rintro ⟨described, -⟩
  exact (Insn.described_iff _).mp (described (.loadClassMember 1 0 "f") (by simp)) 1 rfl

end Exact

end Xezim.Bytecode
