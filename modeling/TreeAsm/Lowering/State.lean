import TreeAsm.Ir.Module
import TreeAsm.Program.Basic

/-!
# State of lowering a function

Code is built block by block: instructions are added to the open block, and opening another one
closes it. Names of variables are looked up in a stack of scopes.
-/

namespace TreeAsm.Lowering

open Ir

/-- A name inside a namespace. The outermost namespace has no name. -/
def qualify (ns name : String) : String := if ns == "" then name else ns ++ "__" ++ name

/-- What stays the same while a function is lowered: the types, the namespace and the type that the
function returns. -/
structure Env where
  types : Universe
  ns : String
  ret : Ty

/-- The variables declared in a scope, the latest first. -/
abbrev Scope := List (String × Local)

/-- What changes while a function is lowered. -/
structure State where
  module : Module
  locals : List Local
  temps : List Temp
  /-- The closed blocks, in order. -/
  closed : List Block
  /-- The open block. -/
  block : Block
  /-- The scopes, the innermost first. -/
  scopes : List Scope
  /-- The number of the next label. -/
  nextLabel : Nat
  /-- How many variables without a name in the source there are. -/
  hidden : Nat

/-- A step of lowering. -/
abbrev Lower (α : Type) := StateT State (Except Failure) α

namespace Lower

/-- A step that does not touch the state. -/
def lift {α : Type} (x : Outcome α) : Lower α := fun s =>
  match x with
  | .ok a => .ok (a, s)
  | .error e => .error e

/-- Fails with a cause. -/
def fail {α : Type} (cause : Cause) : Lower α := fun _ => Outcome.fail cause

/-- Names the step that a failure happened in. -/
def within {α : Type} (step : String) (x : Lower α) : Lower α := fun s =>
  Outcome.within step (x s)

end Lower

/-- A new label. -/
def freshLabel : Lower String := fun s =>
  .ok (blockLabel s.nextLabel, { s with nextLabel := s.nextLabel + 1 })

/-- Adds an instruction to the open block. -/
def emit (op : Opcode) (result : Option Temp) (args : List Operand) : Lower Unit := fun s =>
  .ok ((), { s with block := { s.block with code := s.block.code ++ [⟨op, result, args⟩] } })

/-- Whether the open block ends already. -/
def terminated : Lower Bool := fun s => .ok (s.block.isTerminated, s)

/-- Opens a block. The one that was open leads to it, unless it ends otherwise. -/
def openBlock (label : String) : Lower Unit := do
  if !(← terminated) then emit .jump none [.label label]
  modify fun s => { s with closed := s.closed ++ [s.block], block := ⟨label, []⟩ }

/-- A new temporary. -/
def newTemp (type : Ty) : Lower Temp := fun s =>
  let t : Temp := ⟨s.temps.length, type⟩
  .ok (t, { s with temps := s.temps ++ [t] })

/-- A new variable, which no name in the source stands for yet. -/
def newLocal (name : String) (type : Ty) : Lower Local := fun s =>
  let v : Local := ⟨s.locals.length, name, type, false⟩
  .ok (v, { s with locals := s.locals ++ [v] })

/-- A new variable for a value that the source has no name for. -/
def hiddenLocal (what : String) (type : Ty) : Lower Local := do
  let n := (← get).hidden + 1
  modify fun s => { s with hidden := n }
  newLocal s!".{what}{n}" type

/-- Adds a variable to the innermost of some scopes. -/
def defineIn (scopes : List Scope) (name : String) (v : Local) : List Scope :=
  match scopes with
  | [] => [[(name, v)]]
  | scope :: outer => ((name, v) :: scope) :: outer

/-- Lets a name stand for a variable in the innermost scope. -/
def define (name : String) (v : Local) : Lower Unit :=
  modify fun s => { s with scopes := defineIn s.scopes name v }

/-- The variable that a name stands for in a stack of scopes. -/
def lookupIn (scopes : List Scope) (name : String) : Option Local :=
  scopes.findSome? fun scope => scope.lookup name

/-- The variable that a name stands for. -/
def lookup (name : String) : Lower (Option Local) := fun s => .ok (lookupIn s.scopes name, s)

/-- Runs a step in a new scope. -/
def inScope {α : Type} (x : Lower α) : Lower α := do
  modify fun s => { s with scopes := [] :: s.scopes }
  let a ← x
  modify fun s => { s with scopes := s.scopes.drop 1 }
  return a

/-- The global variable that a name stands for in a namespace: the namespace's own comes first. -/
def globalIn (m : Module) (ns name : String) : Option Global :=
  match if ns == "" then none else m.global? (qualify ns name) with
  | some g => some g
  | none => m.global? name

/-- The function that a name stands for in a namespace: the namespace's own comes first. -/
def funcIn (m : Module) (ns name : String) : Option Func :=
  match if ns == "" then none else m.func? (qualify ns name) with
  | some f => some f
  | none => m.func? name

/-- The global variable that a name stands for. -/
def lookupGlobal (env : Env) (name : String) : Lower (Option Global) := fun s =>
  .ok (globalIn s.module env.ns name, s)

/-- The function that a name stands for. -/
def lookupFunc (env : Env) (name : String) : Lower (Option Func) := fun s =>
  .ok (funcIn s.module env.ns name, s)

/-- The constant for a string. -/
def intern (value : String) : Lower StringConst := fun s =>
  let (c, m) := s.module.intern value (.ptr .byte)
  .ok (c, { s with module := m })

end TreeAsm.Lowering
