import TreeAsm.Ir.Func
import TreeAsm.Liveness.Solver

/-!
# Liveness in functions

What the blocks of a function read and write, how control flows between them, and which temporaries
are live at their starts and ends.
-/

namespace TreeAsm.Liveness

open Ir

/-- Adds the temporaries of a list of operands that are read before they are written. -/
def addReads (use defs : BitSet) (xs : List Operand) : BitSet :=
  xs.foldl (fun use x => match x.temp? with
    | some t => if defs.contains t.id then use else use.insert t.id
    | none => use) use

/-- Goes through instructions and adds to the temporaries read before they are written, and to those
written. -/
def useDefFrom (use defs : BitSet) : List Instr → Outcome (BitSet × BitSet)
  | [] => .ok (use, defs)
  | i :: code => do
    let use := addReads use defs (← i.reads)
    let defs := match ← i.written with
      | some t => defs.insert t.id
      | none => defs
    useDefFrom use defs code

/-- The temporaries that a block reads before it writes them, and those that it writes. -/
def useDef (b : Block) : Outcome (BitSet × BitSet) := useDefFrom ∅ ∅ b.code

/-- The block after block `i` of a function, if there is one. -/
def nextBlock (f : Func) (i : Nat) : List Nat := if i + 1 < f.blocks.length then [i + 1] else []

/-- The blocks that control can go to from block `i`, by the block's last instruction. -/
def successors (f : Func) (i : Nat) (b : Block) : Outcome (List Nat) :=
  match b.code.getLast? with
  | none => .ok (nextBlock f i)
  | some last =>
    if last.op = .ret then .ok []
    else if last.op = .jump || last.op = .cjump then do
      let label := (← last.target).getD ""
      match f.blockIndex? label with
      | none => .fail (.noBlock b.label label)
      | some target =>
        if last.op = .cjump then return target :: (nextBlock f i).filter (· != target)
        else return [target]
    else .ok (nextBlock f i)

/-- The equations of a function, one for each block. -/
def equations (f : Func) : Outcome (List Facts) := do
  let succs ← (f.blocks.zipIdx.mapM fun (b, i) => successors f i b).within "cfg"
  (f.blocks.zip succs).mapM fun (b, succ) => do
    let (use, defs) ← useDef b
    return Facts.start use defs succ

/-- Which temporaries are live at the starts and ends of the blocks of a function, and the number of
visits that finding it out took. -/
def analyze (f : Func) : Outcome (List Facts × Nat) := do solve (← equations f)

end TreeAsm.Liveness
