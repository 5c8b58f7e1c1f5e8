import Xezim.Comb.Gate
import Xezim.Vm.Reference

/-! Reference bit accessors, on which runs of the gates can be computed. -/

namespace Xezim.Comb

/-- The bit accessors written directly on the planes. -/
@[reducible] def referenceGateOps : GateOps where
  toVmOps := referenceVmOps
  getBitCode := planeCode
  setBitCode v i c := (v.write i 1 (c % 2) (c / 2), decide (v.write i 1 (c % 2) (c / 2) ≠ v))
  setScalarCode v c := (v.write 0 1 (c % 2) (c / 2), decide (v.write 0 1 (c % 2) (c / 2) ≠ v))

section Samples

attribute [local instance] referenceGateOps

/-- The reference accessors behave as documented. -/
theorem referenceGateOps_lawful : LawfulGateOps where
  toLawfulVmOps := referenceVmOps_lawful
  getBitCode_eq _ _ _ := rfl
  setBitCode_eq _ _ _ _ _ := rfl
  setBitCode_changed _ _ _ := rfl
  setScalarCode_eq _ _ _ := rfl

end Samples

end Xezim.Comb
