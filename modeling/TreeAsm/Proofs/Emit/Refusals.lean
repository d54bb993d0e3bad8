import TreeAsm.Proofs.Emit.Body
import TreeAsm.Proofs.Ir.WellFormed

/-!
# What is refused

Emission checks a lot on the way: that registers have names for the widths at hand, that operands are
of the right kind, that variables, symbols and labels are there. For the code that comes out of
lowering (`Env.Sound`) all of these checks pass. What is left are two reasons (`Refusal`): a value of
a type that no register can hold, and a system call with more arguments than there are registers for
them.
-/

namespace TreeAsm

namespace Ir

end Ir

namespace Emit

open Asm (Reg Text widths)
open Ir

/-- What emission relies on: pointers fit a register, instructions have the forms of lowering and
refer to what is there, and no value is needed by another block. -/
structure Env.Sound (env : Env) : Prop where
  pointers : env.types.ptrBits = 32 ∨ env.types.ptrBits = 64
  forms : ∀ i ∈ env.func.code, i.Form
  known : ∀ i ∈ env.func.code, i.Known env.module env.func.locals env.func.temps
  jumps : ∀ i ∈ env.func.code, i.JumpsInto (env.func.blocks.map (·.label))
  ret : env.func.ret.Proper
  locals : ∀ v ∈ env.func.locals, v.type.Proper ∧ v.index < env.func.locals.length
  frame : env.frame.locals.length = env.func.locals.length
  align : env.frame.align = Asm.SysV.stackAlign
  saved : ∀ r ∈ env.frame.saved, r.Whole
  live : ∀ b ∈ env.live, b.liveOut = ∅

section

variable {env : Env} (henv : env.Sound) {i : Instr} (hi : i ∈ env.func.code)

include henv

include hi

end

section

variable {E : Option Cause → Prop}

end

end Emit

end TreeAsm
