import TreeAsm.Asm.SysV
import TreeAsm.Emit.Frame
import TreeAsm.Emit.Pool
import TreeAsm.Ir.Module
import TreeAsm.Liveness.Solver

/-!
# State of emitting a function

While code is emitted a temporary is known as a constant, or held in a register, or else in its slot
of the frame.
-/

namespace TreeAsm.Emit

open Asm (Reg Text)
open Ir

/-- What stays the same while a function is emitted. -/
structure Env where
  types : Universe
  module : Module
  func : Func
  frame : Frame
  live : List Liveness.Facts

/-- The value of a temporary that is known while code is emitted. -/
structure Const where
  value : Int64
  type : Ty

/-- What changes while a function is emitted. -/
structure State where
  pool : Pool
  /-- The temporaries with a known value, the latest first. -/
  consts : List (Nat × Const)
  /-- The register of each temporary that has one. -/
  bound : List (Option Reg)
  /-- The registers taken for the instruction at hand, the latest first. -/
  scratches : List Reg

/-- The state before anything is emitted. -/
def State.start (f : Func) : State :=
  ⟨Pool.ofList Asm.SysV.scratch, [], f.temps.map fun _ => none, []⟩

/-- A step of emitting code. -/
abbrev Emitter (α : Type) := StateT State Text α

namespace Emitter

/-- Writes text without touching the state. -/
def write {α : Type} (x : Text α) : Emitter α := fun s =>
  ⟨x.lines, x.result.map fun a => (a, s)⟩

/-- A step that writes nothing and does not touch the state. -/
def lift {α : Type} (x : Outcome α) : Emitter α := write (Text.lift x)

/-- Fails with a cause. -/
def fail {α : Type} (cause : Cause) : Emitter α := lift (.fail cause)

/-- Stops without a word. -/
def crash {α : Type} : Emitter α := lift .crash

/-- Names the step that a failure happened in. -/
def within {α : Type} (step : String) (x : Emitter α) : Emitter α := fun s => Text.within step (x s)

/-- Writes an instruction. -/
def ins (op : Asm.Mnemonic) (args : List Asm.Operand) : Emitter Unit := write (Text.ins op args)

/-- Performs a step only under a condition. -/
def onlyIf (c : Bool) (x : Emitter Unit) : Emitter Unit := if c then x else pure ()

/-- Copies an operand. -/
def move (dst src : Asm.Operand) (signed : Bool) (via : Option Reg) : Emitter Unit :=
  write (Text.move dst src signed via)

end Emitter

/-- The known value of a temporary. -/
def State.const? (s : State) (id : Nat) : Option Const := s.consts.lookup id

/-- The register of a temporary. -/
def State.bound? (s : State) (id : Nat) : Option Reg := (s.bound[id]?).join

/-- Forgets the known value of a temporary. -/
def State.forget (s : State) (id : Nat) : State :=
  { s with consts := s.consts.filter fun c => c.1 != id }

/-- Remembers the value of a temporary. -/
def State.remember (s : State) (id : Nat) (c : Const) : State :=
  { s with consts := (id, c) :: (s.forget id).consts }

/-- Gives a temporary a register, or takes it away. -/
def State.bind (s : State) (id : Nat) (r : Option Reg) : State :=
  { s with bound := s.bound.set id r }

/-- The known value of a temporary. -/
def constAt (id : Nat) : Emitter (Option Const) := do return (← get).const? id

/-- The register of a temporary, which must be one of the function. -/
def boundAt (id : Nat) : Emitter (Option Reg) := do
  match (← get).bound[id]? with
  | some r => return r
  | none => Emitter.crash

/-- Takes a register for a temporary, if one can be spared. -/
def takeSpare : Emitter (Option Reg) := do
  match (← get).pool.takeSpare with
  | none => return none
  | some (r, pool) =>
    modify fun s => { s with pool := pool }
    return some r

/-- Gives a register back. -/
def release (r : Reg) : Emitter Unit := do
  let pool ← Emitter.lift ((← get).pool.release r)
  modify fun s => { s with pool := pool }

/-- Takes the register of a temporary away and gives it back. -/
def unbind (id : Nat) (r : Reg) : Emitter Unit := do
  modify fun s => s.bind id none
  release r

/-- Takes the register of a temporary away, if it has one, and gives it back. -/
def unbindAny (id : Nat) : Emitter Unit := do
  match ← boundAt id with
  | some r => unbind id r
  | none => return

/-- Takes a register for the instruction at hand. -/
def scratch (bits : Int64) : Emitter Asm.Register := do
  match (← get).pool.take with
  | none => Emitter.fail .outOfScratchRegisters
  | some (r, pool) =>
    modify fun s => { s with pool := pool, scratches := r :: s.scratches }
    return ⟨r, bits⟩

end TreeAsm.Emit
