import Xezim.Bytecode.Exec

/-! Which compiled bodies may be kept for another design: what an instruction without a signal id accesses, by name. -/

namespace Xezim.Bytecode

open Arrays (ArrayOperand ArraySpan ArrayDesign elemName resolveBytecodeArrayElem bytecodeArrayFirstId)

variable {Stmt Expr W : Type}

/-- The signals and arrays of a design, by name, with the index bounds of each array. -/
structure Decls where
  signals : String → Bool
  arrays : String → Option (Int × Int)

/-- A numbering of declared signals: its tables hold the declared names, and an id they lead to stands for the name
it was found under. -/
structure Numbering.Numbers (D : Numbering (Option String)) (decls : Decls) : Prop where
  signals : ∀ name, (D.signalNameToId name).isSome = decls.signals name
  named : ∀ name id, D.signalNameToId name = some id → D.ref id = some name
  arrays : ∀ name, (D.arrayFirstId name).map (fun span => (span.lo, span.hi)) = decls.arrays name
  nonempty : ∀ name span, D.arrayFirstId name = some span → span.lo ≤ span.hi
  elems : ∀ name span idx id, D.arrayFirstId name = some span → span.elem idx = some id →
    D.ref id = some (elemName name idx)

/-- Executing a body makes the same accesses by name, with the same results, under every numbering of the same
declarations. -/
def SameByName (body : List (Insn Stmt Expr)) : Prop :=
  ∀ (W : Type) (H : Host Stmt Expr (Option String) W) (decls : Decls) (D D' : Numbering (Option String)),
    D.Numbers decls → D'.Numbers decls → ∀ n pc, execInsns H D body n pc = execInsns H D' body n pc

section Names

variable {decls : Decls} {D D' : Numbering (Option String)}

/-- An array's bounds decide which of its indices has an element, whatever the numbering. -/
theorem elem_isSome (span : ArraySpan) (idx : Int) :
    (span.elem idx).isSome = (decide (span.lo ≤ idx) && decide (idx ≤ span.hi)) := by
  unfold ArraySpan.elem
  split
  · rename_i inside
    simp [inside.1, inside.2]
  · rename_i outside
    simpa using outside

/-- Some declared array, or some declared signal, holds an element of a name. -/
def Decls.hasElem (decls : Decls) (name : String) (idx : Int) : Bool :=
  (decls.arrays name).any (fun b => decide (b.1 ≤ idx) && decide (idx ≤ b.2)) || decls.signals (elemName name idx)

/-- An array element found by name stands for its own name. -/
theorem Numbering.Numbers.resolve_named (numbers : D.Numbers decls) (name : String) (idx : Int) :
    (resolveBytecodeArrayElem D.toArrayDesign (.named name) idx).map D.ref =
      if decls.hasElem name idx then some (some (elemName name idx)) else none := by
  have bounds := numbers.arrays name
  have stored := numbers.signals (elemName name idx)
  unfold Decls.hasElem
  rw [← bounds, ← stored]
  simp only [resolveBytecodeArrayElem]
  cases found : D.arrayFirstId name with
  | none =>
    -- Without a declared span the element is looked up under its own name.
    cases named : D.signalNameToId (elemName name idx) with
    | none => simp
    | some id => simp [numbers.named _ _ named]
  | some span =>
    have inside := elem_isSome span idx
    cases elem : span.elem idx with
    | some id =>
      rw [elem] at inside
      have inBounds : span.lo ≤ idx ∧ idx ≤ span.hi := by simpa using inside.symm
      simp [elem, numbers.elems _ _ _ _ found elem, inBounds.1, inBounds.2]
    | none =>
      rw [elem] at inside
      have outside : (decide (span.lo ≤ idx) && decide (idx ≤ span.hi)) = false := inside.symm
      cases named : D.signalNameToId (elemName name idx) with
      | none => simpa [elem] using outside
      | some id => simp [elem, numbers.named _ _ named]

/-- The first element of an array found by name stands for its own name. -/
theorem Numbering.Numbers.first_named (numbers : D.Numbers decls) (name : String) :
    (bytecodeArrayFirstId D.toArrayDesign (.named name)).map D.ref =
      (decls.arrays name).map fun b => some (elemName name b.1) := by
  rw [← numbers.arrays name]
  simp only [bytecodeArrayFirstId]
  cases found : D.arrayFirstId name with
  | none => rfl
  | some span =>
    have first : span.elem span.lo = some span.first := by
      simp [ArraySpan.elem, numbers.nonempty _ _ found]
    simp [numbers.elems _ _ _ _ found first]

end Names

section Alike

variable {ι α : Type} {D D' : Numbering ι}

/-- Ids that stand for the same signal are read alike. -/
theorem readSig_alike {id id' : SigId} (same : D.ref id = D'.ref id') (f : W → ι → α) :
    (readSig D id f : Exec ι W α) = readSig D' id' f := by
  simp only [readSig, same]

/-- Ids that stand for the same signal are written alike. -/
theorem writeSig_alike {id id' : SigId} (same : D.ref id = D'.ref id') (f : W → ι → W) :
    (writeSig D id f : Exec ι W Unit) = writeSig D' id' f := by
  simp only [writeSig, same]

/-- Optional ids that stand for the same signal are both there, or neither. -/
theorem alike_cases {o o' : Option SigId} (same : o.map D.ref = o'.map D'.ref) :
    (o = none ∧ o' = none) ∨ ∃ id id', o = some id ∧ o' = some id' ∧ D.ref id = D'.ref id' := by
  cases o with
  | none =>
    cases o' with
    | none => exact Or.inl ⟨rfl, rfl⟩
    | some id' => simp at same
  | some id =>
    cases o' with
    | none => simp at same
    | some id' => exact Or.inr ⟨id, id', rfl, rfl, by simpa using same⟩

variable (H : Host Stmt Expr ι W)

/-- A register stored through ids that stand for the same signal. -/
theorem storeSigArm_alike {id id' : SigId} (same : D.ref id = D'.ref id') (f : W → ι → Value → W) (v : RegId) :
    (storeSigArm D f id v : Exec ι W Unit) = storeSigArm D' f id' v := by
  simp only [storeSigArm, writeSig_alike same]

/-- A range of an element stored through ids that stand for the same signal. -/
theorem elemRangeArm_alike {id id' : SigId} (same : D.ref id = D'.ref id')
    (f : W → ι → Value → Value → Value → W) (hi lo v : RegId) :
    (elemRangeArm D f hi lo v id : Exec ι W Unit) = elemRangeArm D' f hi lo v id' := by
  simp only [elemRangeArm, writeSig_alike same]

/-- A store to an element whose ids stand for the same signal. -/
theorem storeElemArm_alike {array : ArrayOperand} {store store' : SigId → Exec ι W Unit}
    (resolved : ∀ idx, (resolveBytecodeArrayElem D.toArrayDesign array idx).map D.ref =
      (resolveBytecodeArrayElem D'.toArrayDesign array idx).map D'.ref)
    (stored : ∀ id id', D.ref id = D'.ref id' → store id = store' id') (idx : RegId) :
    storeElemArm H D array idx store = storeElemArm H D' array idx store' := by
  -- The index reads the same register, and resolves to the same signal or to none under both numberings.
  unfold storeElemArm
  congr 1
  funext iv
  cases H.toIndex iv with
  | none => rfl
  | some i =>
    simp only [Option.bind_some]
    rcases alike_cases (resolved i) with ⟨missed, missed'⟩ | ⟨id, id', hit, hit', same⟩
    · rw [missed, missed']
    · rw [hit, hit']
      exact stored id id' same

/-- A load of an element whose ids stand for the same signal. -/
theorem loadArrayElemArm_alike {array : ArrayOperand}
    (resolved : ∀ idx, (resolveBytecodeArrayElem D.toArrayDesign array idx).map D.ref =
      (resolveBytecodeArrayElem D'.toArrayDesign array idx).map D'.ref)
    (firsts : (bytecodeArrayFirstId D.toArrayDesign array).map D.ref =
      (bytecodeArrayFirstId D'.toArrayDesign array).map D'.ref) (d idx : RegId) :
    loadArrayElemArm H D d array idx = loadArrayElemArm H D' d array idx := by
  unfold loadArrayElemArm
  congr 1
  funext ir
  rcases alike_cases (resolved (elemIndex H ir)) with ⟨missed, missed'⟩ | ⟨id, id', hit, hit', same⟩
  · -- A miss reads the width of the first element.
    simp only [missed, missed']
    rcases alike_cases firsts with ⟨absent, absent'⟩ | ⟨id, id', there, there', same⟩
    · rw [absent, absent']
    · simp only [there, there', readSig_alike same]
  · simp only [hit, hit', readSig_alike same]

end Alike

section Free

variable {decls : Decls} {D D' : Numbering (Option String)} (H : Host Stmt Expr (Option String) W)

/-- An instruction that holds no signal id runs alike under two numberings of the same declarations. -/
theorem execInsn_free (numbers : D.Numbers decls) (numbers' : D'.Numbers decls) {insn : Insn Stmt Expr}
    (free : insn.sigIds = []) (pc : Nat) : execInsn H D pc insn = execInsn H D' pc insn := by
  have resolved (name : String) (idx : Int) :
      (resolveBytecodeArrayElem D.toArrayDesign (.named name) idx).map D.ref =
        (resolveBytecodeArrayElem D'.toArrayDesign (.named name) idx).map D'.ref := by
    rw [numbers.resolve_named, numbers'.resolve_named]
  have firsts (name : String) :
      (bytecodeArrayFirstId D.toArrayDesign (.named name)).map D.ref =
        (bytecodeArrayFirstId D'.toArrayDesign (.named name)).map D'.ref := by
    rw [numbers.first_named, numbers'.first_named]
  cases insn with
  | loadArrayElem d array idx =>
    cases array with
    | dense name span => simp [Insn.sigIds, operandIds] at free
    | named name =>
      simp only [execInsn]
      rw [loadArrayElemArm_alike H (resolved name) (firsts name)]
  | nbaAssignArray array idx v w | blockingAssignArray array idx v w =>
    cases array with
    | dense name span => simp [Insn.sigIds, operandIds] at free
    | named name =>
      simp only [execInsn]
      rw [storeElemArm_alike H (resolved name) fun _ _ same => storeSigArm_alike same _ v]
  | nbaAssignArrayRange array idx hi lo v | blockingAssignArrayRange array idx hi lo v =>
    cases array with
    | dense name span => simp [Insn.sigIds, operandIds] at free
    | named name =>
      simp only [execInsn]
      rw [storeElemArm_alike H (resolved name) fun _ _ same => elemRangeArm_alike same _ hi lo v]
  -- Every other instruction either holds an id or leaves the numbering alone.
  | _ => first | rfl | simp [Insn.sigIds] at free

/-- A body none of whose instructions holds a signal id runs alike under every numbering. -/
theorem sameByName_of_free {body : List (Insn Stmt Expr)} (free : ∀ i ∈ body, i.sigIds = []) : SameByName body := by
  intro W H decls D D' numbers numbers' n
  -- The run takes the same step in both designs, and so goes on from the same position.
  induction n with
  | zero => intro pc; rfl
  | succ n ih =>
    intro pc
    simp only [execInsns]
    cases at_pc : body[pc]? with
    | none => rfl
    | some insn =>
      have member : insn ∈ body := List.mem_of_getElem? at_pc
      simp only [execInsn_free H numbers numbers' (free insn member) pc]
      congr 1
      funext next
      cases next with
      | goto pc' => exact ih pc'
      | suspend pc' => rfl
      | stop => rfl

end Free

section Listed

/-- The array operand of the five accesses to an element at an index from a register. -/
def Insn.elemOperand : Insn Stmt Expr → Option ArrayOperand
  | loadArrayElem _ array _ | nbaAssignArray array _ _ _ | blockingAssignArray array _ _ _
  | nbaAssignArrayRange array _ _ _ _ | blockingAssignArrayRange array _ _ _ _ => some array
  | _ => none

/-- An instruction holds an id that the list leaves out exactly when it accesses an element of a numbered array. -/
theorem Insn.unlisted_iff (insn : Insn Stmt Expr) :
    (insn.sigIds ≠ [] ∧ insn.carriesSigId = false) ↔ ∃ name span, insn.elemOperand = some (.dense name span) := by
  cases insn with
  | loadArrayElem _ array _ | nbaAssignArray array _ _ _ | blockingAssignArray array _ _ _
  | nbaAssignArrayRange array _ _ _ _ | blockingAssignArrayRange array _ _ _ _ =>
    cases array <;> simp [sigIds, carriesSigId, elemOperand, operandIds]
  | _ => simp [sigIds, carriesSigId, elemOperand]

/-- Exactly the bodies without an access to an element of a numbered array meet both parts: every id they hold is
listed, and a body that carries none makes the same accesses by name in every design. -/
theorem carriesSigId_exact_iff (body : List (Insn Stmt Expr)) :
    ((∀ i ∈ body, i.sigIds ≠ [] → i.carriesSigId = true) ∧ (carriesSigId body = false → SameByName body)) ↔
      ∀ i ∈ body, ∀ name span, i.elemOperand ≠ some (.dense name span) := by
  constructor
  · rintro ⟨listed, -⟩ i member name span dense
    have unlisted := (Insn.unlisted_iff i).mpr ⟨name, span, dense⟩
    have isListed := listed i member unlisted.1
    simp [isListed] at unlisted
  · intro numbered
    have listed (i : Insn Stmt Expr) (member : i ∈ body) (holds : i.sigIds ≠ []) : i.carriesSigId = true := by
      by_contra unlisted
      obtain ⟨name, span, dense⟩ := (Insn.unlisted_iff i).mp ⟨holds, by simpa using unlisted⟩
      exact numbered i member name span dense
    refine ⟨listed, fun carries => ?_⟩
    -- A body that carries no listed id holds none at all.
    apply sameByName_of_free
    intro i member
    by_contra holds
    have isListed := listed i member holds
    have notListed : i.carriesSigId = false := by
      simp only [carriesSigId, List.any_eq_false] at carries
      simpa using carries i member
    simp [isListed] at notListed

end Listed

section Numbered

/-- Two signals of consecutive ids, under the first id the one named `a`. -/
def twoSignals (first : SigId) (a b : String) : Numbering (Option String) where
  signalWidths := fun _ => 1
  signalSigned := fun _ => false
  signalTwoState := fun _ => false
  signalNameToId := fun name => if name = a then some first else if name = b then some (first + 1) else none
  ref := fun id => if id = first then some a else if id = first + 1 then some b else none

/-- The design that declares the two signals. -/
def twoDecls : Decls where
  signals := fun name => name == "a" || name == "b"
  arrays := fun _ => none

/-- Either order of the two names numbers the same declarations. -/
theorem twoSignals_numbers (first : SigId) {a b : String} (names : (a = "a" ∧ b = "b") ∨ (a = "b" ∧ b = "a")) :
    (twoSignals first a b).Numbers twoDecls := by
  -- The two signals are numbered one after the other, in either order.
  constructor
  · intro name
    rcases names with ⟨rfl, rfl⟩ | ⟨rfl, rfl⟩ <;> by_cases isA : name = "a" <;> by_cases isB : name = "b" <;>
      simp [twoSignals, twoDecls, isA, isB]
  · intro name id found
    simp only [twoSignals] at found ⊢
    split at found
    · rename_i same
      simp_all
    · split at found
      · rename_i _ same
        obtain rfl : first + 1 = id := by simpa using found
        simp [same]
      · simp at found
  · exact fun _ => rfl
  · intro name span found
    simp [twoSignals] at found
  · intro name span idx id found
    simp [twoSignals] at found

/-- A host in which every register reads as one known index. -/
def indexHost (i : Int) : Host Unit Unit (Option String) Unit :=
  { (default : Host Unit Unit (Option String) Unit) with
    hasXz := fun _ => false
    toU64 := fun _ => some (i % 2 ^ 64).toNat }

/-- The accesses of a load from a numbered array at its lowest index: the index register, what the array's first id
stands for, and the destination. -/
theorem loadArrayElem_dense_log (D : Numbering (Option String)) (name : String) (span : ArraySpan)
    (nonempty : span.lo ≤ span.hi) (d idx : RegId) (vm : Vm Unit) :
    (execInsns (indexHost span.lo) D [Insn.loadArrayElem d (.dense name span) idx] 1 0 vm).log =
      [.readReg idx, .readSig (D.ref span.first), .writeReg d] := by
  have index : (BitVec.ofNat 64 (span.lo % 18446744073709551616).toNat).toInt = span.lo := by
    have low := span.lo_min
    have high := span.hi_max
    rw [BitVec.toInt_ofNat', Int.toNat_of_nonneg (by omega), Int.bmod_def]
    omega
  have first : resolveBytecodeArrayElem D.toArrayDesign (.dense name span) span.lo = some span.first := by
    simp [resolveBytecodeArrayElem, ArraySpan.elem, nonempty]
  simp [execInsns, execInsn, fall, loadArrayElemArm, elemIndex, indexHost, index, first, readReg, writeReg, readSig,
    world]

/-- A body that is accepted although it loads from a numbered array reads another signal in a design that numbers its
signals differently. -/
theorem loadArrayElem_dense_differs (name : String) (span : ArraySpan) (nonempty : span.lo ≤ span.hi)
    (d idx : RegId) : ¬ SameByName [(Insn.loadArrayElem d (.dense name span) idx : Insn Unit Unit)] := by
  intro same
  have runs := same Unit (indexHost span.lo) twoDecls (twoSignals span.first "a" "b") (twoSignals span.first "b" "a")
    (twoSignals_numbers span.first (Or.inl ⟨rfl, rfl⟩)) (twoSignals_numbers span.first (Or.inr ⟨rfl, rfl⟩)) 1 0
  have logs := congrArg (fun m => (m ⟨fun _ => default, 0, by decide, ()⟩).log) runs
  simp [loadArrayElem_dense_log, nonempty, twoSignals] at logs

/-- Four cells whose lowest has id 5. -/
def fourCells : ArraySpan where
  first := 5
  lo := 0
  hi := 3
  lo_min := by decide
  hi_max := Arrays.hi_max_three

/-- A load from a numbered array holds id 5, is not listed, and reads another signal in another design. -/
theorem denseLoad_unlisted :
    (Insn.loadArrayElem 1 (.dense "m" fourCells) 0 : Insn Unit Unit).sigIds = [5] ∧
      carriesSigId [(Insn.loadArrayElem 1 (.dense "m" fourCells) 0 : Insn Unit Unit)] = false ∧
      ¬ SameByName [(Insn.loadArrayElem 1 (.dense "m" fourCells) 0 : Insn Unit Unit)] :=
  ⟨rfl, rfl, loadArrayElem_dense_differs "m" fourCells (by decide) 1 0⟩

end Numbered

end Xezim.Bytecode
