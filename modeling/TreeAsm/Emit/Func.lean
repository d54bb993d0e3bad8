import TreeAsm.Emit.Instr
import TreeAsm.Liveness.Func

/-!
# Emitting functions

A function is emitted twice. The first run shows which registers the function has to save; the
second one knows how much room they take.
-/

namespace TreeAsm.Emit

open Asm (Line Reg Text)
open Ir

/-- Emits an instruction of block `bi` that `rest` comes after, and gives back the registers that are
not needed any more. -/
def emitNext (env : Env) (bi : Nat) (i : Instr) (rest : List Instr) : Emitter Unit := do
  emitInstr env bi (bi + 1 == env.func.blocks.length && rest.isEmpty) i
  releaseTemps env bi rest (mentioned i)

/-- Emits instructions of block `bi`. -/
def emitCode (env : Env) (bi : Nat) (label : String) : List Instr → Emitter Unit
  | [] => return
  | i :: rest => do
    Emitter.within s!"block {label}: {i.render env.types}" (emitNext env bi i rest)
    emitCode env bi label rest

/-- Ends block `bi`, where control may go on to the next one. -/
def endBlock (env : Env) (bi : Nat) (b : Block) : Emitter Unit :=
  if b.isTerminated then return else Emitter.within s!"block {b.label}" (flush env bi)

/-- Emits block `bi`. -/
def emitBlock (env : Env) (bi : Nat) (b : Block) : Emitter Unit := do
  Emitter.write (Text.line (.label b.label))
  emitCode env bi b.label b.code
  endBlock env bi b

/-- Emits blocks, where the first has the number `bi`. -/
def emitBlocks (env : Env) (bi : Nat) : List Block → Emitter Unit
  | [] => return
  | b :: rest => do
    emitBlock env bi b
    emitBlocks env (bi + 1) rest

/-- Where an argument is when a function starts: in a register, or in the frame of the caller. -/
def argSource (n : Nat) : Asm.Operand :=
  match Asm.SysV.argRegs[n]? with
  | some r => r.full
  | none => .mem (slot (16 + 8 * Int64.ofNat (n - Asm.SysV.argRegs.length)) 64)

/-- Copies arguments to the slots of their parameters, where the first has the number `n`. -/
def emitParams (env : Env) (n : Nat) : List Local → Emitter Unit
  | [] => return
  | p :: rest => do
    Emitter.within s!"param {p.name}" (Emitter.lift (checkScalar env.types p.type))
    let d ← operand env (.var p)
    Emitter.within s!"param {p.name}" (Emitter.move d (argSource n) (isSigned p.type) (some .rax))
    emitParams env (n + 1) rest

/-- Emits the parameters and all blocks of a function. -/
def emitBody (env : Env) : Emitter Unit := do
  Emitter.within "params" (emitParams env 0 env.func.params)
  emitBlocks env 0 env.func.blocks

/-- The registers that a function has to save: those it touches, but for the base pointer. -/
def savedRegs (lines : List Line) : List Reg :=
  Asm.SysV.calleeSaved.filter fun r => r != .rbp && r != .rsp && Asm.touched lines r

/-- Performs a step for each register in order. -/
def eachReg (op : Asm.Mnemonic) : List Reg → Text Unit
  | [] => return
  | r :: rest => do
    Text.ins op [r.full]
    eachReg op rest

/-- The start of a function: its frame is set up. -/
def prologue (env : Env) : Text Unit := do
  Text.line (.label env.func.name)
  Text.ins .push [Reg.rbp.full]
  Text.ins .mov [Reg.rbp.full, Reg.rsp.full]
  eachReg .push env.frame.saved
  let n ← Text.lift env.frame.reserve
  Text.onlyIf (n != 0) (Text.ins .sub [Reg.rsp.full, Asm.immediate n])

/-- The end of a function: its frame is removed. The entry function ends the program. -/
def epilogue (env : Env) (isEntry : Bool) : Text Unit := do
  Text.line (.label endLabel)
  let n ← Text.lift env.frame.reserve
  Text.onlyIf (n != 0) (Text.ins .add [Reg.rsp.full, Asm.immediate n])
  eachReg .pop env.frame.saved.reverse
  Text.ins .pop [Reg.rbp.full]
  if isEntry then Asm.SysV.exit else Text.ins .ret []

/-- Runs a step of emission from the start. -/
def Emitter.fromStart {α : Type} (env : Env) (x : Emitter α) : Text Unit := do
  let _ ← x (State.start env.func)

/-- The lines of a function whose frame is complete. -/
def wholeFunc (env : Env) (isEntry : Bool) : Text Unit := do
  Text.within "prologue" (prologue env)
  Emitter.fromStart env (emitBody env)
  Text.within "epilogue" (epilogue env isEntry)

/-- The lines that a step writes, if it does not fail. -/
def linesOf (x : Text Unit) : Outcome (List Line) := do
  x.result
  return x.lines

/-- The lines of a function. -/
def emitFunc (u : Universe) (m : Module) (f : Func) (isEntry : Bool) : Outcome (List Line) := do
  let (live, _) ← (Liveness.analyze f).within "liveness"
  let env : Env := ⟨u, m, f, Frame.ofFunc u f Asm.SysV.stackAlign, live⟩
  let dry ← linesOf (Emitter.fromStart env (emitBody env))
  let frame := { env.frame with saved := savedRegs dry }
  linesOf (wholeFunc { env with frame := frame } isEntry)

end TreeAsm.Emit
