import Xezim.Lib.Traced

/-! Computations whose log tells the whole of what they do with the cells of the state. -/

namespace Xezim.Traced

variable {σ ι κ υ ω α β : Type}

/-- A state of cells and a rest, with the cells that an access reads and writes. -/
structure Cells (σ ι κ υ ω : Type) where
  cell : σ → κ → υ
  rest : σ → ω
  reads : ι → κ → Prop
  writes : ι → κ → Prop

namespace Cells

variable (C : Cells σ ι κ υ ω)

/-- A cell is read, or written, somewhere in a log. -/
def ReadIn (log : List ι) (k : κ) : Prop := ∃ a ∈ log, C.reads a k

def WrittenIn (log : List ι) (k : κ) : Prop := ∃ a ∈ log, C.writes a k

/-- Two states with the same rest hold the same in every cell that a log reads. -/
def AgreeOn (log : List ι) (s t : σ) : Prop := C.rest s = C.rest t ∧ ∀ k, C.ReadIn log k → C.cell s k = C.cell t k

/-- Two outcomes answer alike, log alike, leave the same rest and wrote the same to the cells the log writes. -/
structure Same (o o' : Outcome σ ι α) : Prop where
  value : o'.value = o.value
  log : o'.log = o.log
  rest : C.rest o'.state = C.rest o.state
  written : ∀ k, C.WrittenIn o.log k → C.cell o'.state k = C.cell o.state k

/-- What a computation does follows from the cells its log reads and the rest of the state, and a cell its log does
not write keeps its value. -/
structure Honest (m : Traced σ ι α) : Prop where
  follows : ∀ s t, C.AgreeOn (m s).log s t → C.Same (m s) (m t)
  frame : ∀ s k, ¬ C.WrittenIn (m s).log k → C.cell (m s).state k = C.cell s k

end Cells

section Rules

variable {C : Cells σ ι κ υ ω} {m : Traced σ ι α} {f : α → Traced σ ι β}

@[simp] theorem Cells.readIn_append {log log' : List ι} {k : κ} :
    C.ReadIn (log ++ log') k ↔ C.ReadIn log k ∨ C.ReadIn log' k := by
  simp only [Cells.ReadIn, List.mem_append, or_and_right, exists_or]

@[simp] theorem Cells.writtenIn_append {log log' : List ι} {k : κ} :
    C.WrittenIn (log ++ log') k ↔ C.WrittenIn log k ∨ C.WrittenIn log' k := by
  simp only [Cells.WrittenIn, List.mem_append, or_and_right, exists_or]

@[simp] theorem Cells.not_readIn_nil {k : κ} : ¬ C.ReadIn [] k := by simp [Cells.ReadIn]

@[simp] theorem Cells.not_writtenIn_nil {k : κ} : ¬ C.WrittenIn [] k := by simp [Cells.WrittenIn]

/-- An answer alone touches no cell. -/
theorem Cells.Honest.pure (a : α) : C.Honest (Pure.pure a : Traced σ ι α) where
  follows _ _ agree := ⟨rfl, rfl, agree.1.symm, fun k written => absurd written (by simp)⟩
  frame _ _ _ := rfl

/-- Two honest parts make an honest sequence. -/
theorem Cells.Honest.bind (first : C.Honest m) (rest : ∀ a, C.Honest (f a)) : C.Honest (m >>= f) where
  follows s t agree := by
    -- The first part sees the reads of its own share of the log.
    have same := first.follows s t ⟨agree.1, fun k read => agree.2 k (Cells.readIn_append.mpr (.inl read))⟩
    -- A cell the second part reads was written by the first part in both, or by neither.
    have between : C.AgreeOn (f (m s).value (m s).state).log (m s).state (m t).state := by
      refine ⟨same.rest.symm, fun k read => ?_⟩
      by_cases written : C.WrittenIn (m s).log k
      · exact (same.written k written).symm
      · have left := first.frame s k written
        have right := first.frame t k (by rwa [same.log])
        rw [left, right]
        exact agree.2 k (Cells.readIn_append.mpr (.inr read))
    have again := (rest (m s).value).follows _ _ between
    refine ⟨?_, ?_, ?_, fun k written => ?_⟩
    · simpa only [bind_run, same.value] using again.value
    · simp only [bind_run, same.value, same.log, again.log]
    · simpa only [bind_run, same.value] using again.rest
    · simp only [bind_run, same.value]
      by_cases late : C.WrittenIn (f (m s).value (m s).state).log k
      · exact again.written k late
      · -- A cell written by the first part only is framed by the second.
        have early : C.WrittenIn (m s).log k := (Cells.writtenIn_append.mp written).resolve_right late
        rw [(rest _).frame _ k late, (rest _).frame _ k (by rwa [again.log])]
        exact same.written k early
  frame s k unwritten := by
    have parts := not_or.mp fun either => unwritten (Cells.writtenIn_append.mpr either)
    exact ((rest _).frame _ k parts.2).trans (first.frame s k parts.1)

/-- Looking at the rest of the state, and going on from what is there. -/
theorem Cells.Honest.get {g : σ → Traced σ ι α} (looks : ∀ s t, C.rest s = C.rest t → g s = g t)
    (each : ∀ s, C.Honest (g s)) : C.Honest (Traced.get >>= g) where
  follows s t agree := by
    have rest : C.rest s = C.rest t := agree.1
    have same := (each s).follows s t ⟨rest, fun k read => agree.2 k (by simpa using read)⟩
    simpa only [bind_run, get_run, List.nil_append, looks s t rest] using same
  frame s k unwritten := (each s).frame s k (by simpa using unwritten)

/-- A computation run once for each element of a list. -/
theorem Cells.Honest.forM {xs : List α} {g : α → Traced σ ι PUnit} (each : ∀ x, C.Honest (g x)) :
    C.Honest (xs.forM g) := by
  -- By induction on the list, one element at a time.
  induction xs with
  | nil => exact Cells.Honest.pure _
  | cons x xs ih => exact (each x).bind fun _ => ih

/-- The answers of a computation run once for each element of a list. -/
theorem Cells.Honest.mapM {xs : List α} {g : α → Traced σ ι β} (each : ∀ x, C.Honest (g x)) :
    C.Honest (xs.mapM g) := by
  induction xs with
  | nil =>
    rw [List.mapM_nil]
    exact Cells.Honest.pure _
  | cons x xs ih =>
    rw [List.mapM_cons]
    exact (each x).bind fun _ => ih.bind fun _ => Cells.Honest.pure _

end Rules

end Xezim.Traced
