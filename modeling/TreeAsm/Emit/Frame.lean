import TreeAsm.Asm.Register
import TreeAsm.Ir.Func
import TreeAsm.Types.Layout

/-!
# Stack frames

Every variable and then every temporary of a function has a slot of its own below the base pointer.
The saved registers lie between the base pointer and the slots.
-/

namespace TreeAsm.Emit

open Asm (Reg)
open Ir

/-- The slots of a function: where they are without saved registers, the sum of their sizes, the
alignment of the stack and the saved registers. -/
structure Frame where
  locals : List Int64
  temps : List Int64
  size : Int64
  align : Int64
  saved : List Reg

namespace Frame

/-- The size of the slot for a value: a whole number of words of 8 bytes, at least one. -/
def slotSize (u : Universe) (t : Ty) : Int64 :=
  roundUp (if u.size t > 1 then u.size t else 1) 8

/-- The slots for values of some types below slots of a size, and the size with them. -/
def placeSlots (u : Universe) : List Ty → (size : Int64) → List Int64 × Int64
  | [], size => ([], size)
  | t :: types, size =>
    let next := size + slotSize u t
    let (slots, total) := placeSlots u types next
    (-next :: slots, total)

/-- The frame of a function, with no registers saved. -/
def ofFunc (u : Universe) (f : Func) (align : Int64) : Frame :=
  let (locals, size) := placeSlots u (f.locals.map (·.type)) 0
  let (temps, size) := placeSlots u (f.temps.map (·.type)) size
  ⟨locals, temps, size, align, []⟩

/-- How far the saved registers move the slots. -/
def bias (fr : Frame) : Int64 := -8 * Int64.ofNat fr.saved.length

/-- The size of the slots, rounded up to the alignment of the stack. -/
def total (fr : Frame) : Outcome Int64 :=
  match alignUp fr.size fr.align with
  | .ok n => .ok n
  | .error _ => .crash

/-- How much of the stack is reserved for the slots after the registers are saved, so that the
stack is aligned. -/
def reserve (fr : Frame) : Outcome Int64 :=
  if fr.align == 0 then .crash
  else
    let used := fr.size + 8 * Int64.ofNat fr.saved.length
    .ok (fr.size + (fr.align - used % fr.align) % fr.align)

/-- The slot of a variable, if the variable is one of the frame. -/
def localSlot? (fr : Frame) (v : Local) : Option Int64 :=
  fr.locals[v.index]?.map (· + fr.bias)

/-- The slot of a temporary. -/
def tempSlot (fr : Frame) (t : Temp) : Int64 := (fr.temps[t.id]?).getD 0 + fr.bias

end Frame

end TreeAsm.Emit
