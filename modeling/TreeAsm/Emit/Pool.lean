import TreeAsm.Asm.Register

/-!
# Pool of registers

Registers are handed out from a stack: the one released last comes first, and before any release
they come in the order of the list that the pool is made from.
-/

namespace TreeAsm.Emit

open Asm (Reg)

/-- The free registers, the next one first, and those in use in the order they were handed out. -/
structure Pool where
  free : List Reg
  used : List Reg
  deriving DecidableEq, Repr

namespace Pool

/-- A pool with all of a list of registers free. -/
def ofList (regs : List Reg) : Pool := ⟨regs, []⟩

/-- How many registers are left free by those who can do without. -/
def headroom : Nat := 2

/-- Hands out a register. -/
def take (p : Pool) : Option (Reg × Pool) :=
  match p.free with
  | [] => none
  | r :: free => some (r, ⟨free, p.used ++ [r]⟩)

/-- Hands out a register unless only the headroom is left. -/
def takeSpare (p : Pool) : Option (Reg × Pool) :=
  if p.free.length ≤ headroom then none else p.take

/-- Takes a register back, which must be in use. -/
def release (p : Pool) (r : Reg) : Outcome Pool :=
  if p.used.contains r then .ok ⟨r :: p.free, p.used.erase r⟩
  else .fail (.registerNotInUse r.render)

/-- Whether a register is in use. -/
def inUse (p : Pool) (r : Reg) : Bool := p.used.contains r

end Pool

end TreeAsm.Emit
