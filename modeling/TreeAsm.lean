import TreeAsm.Main
import TreeAsm.Wire
import TreeAsm.Proofs.Meaning.File
import TreeAsm.Proofs.Emit.Lowered
import TreeAsm.Proofs.Liveness.Exact
import TreeAsm.Proofs.Liveness.Solution
import TreeAsm.Proofs.Emit.Branches
import TreeAsm.Proofs.Lowering.Leaves
import TreeAsm.Proofs.Emit.TwoRuns
import TreeAsm.Proofs.Emit.Symbols
import TreeAsm.Proofs.BitSet
import TreeAsm.Proofs.Program.KeyOrder
import TreeAsm.Proofs.Emit.Folding
import TreeAsm.Proofs.Lowering.Stores
import TreeAsm.Proofs.Lowering.Returns
import TreeAsm.Proofs.Asm.Syscalls
