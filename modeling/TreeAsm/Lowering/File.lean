import TreeAsm.Lowering.Declarations
import TreeAsm.Lowering.Stmt

/-!
# Lowering of programs

A file becomes a module: declarations and layouts first, then the bodies of the functions in the
order of their declaration. A function whose end can be reached returns there, with a warning.
-/

namespace TreeAsm.Lowering

open Ir

/-- A warning about a place in the source. -/
structure Notice where
  pos : Position
  message : String
  deriving DecidableEq, Repr

/-- What lowering a file gives: the module, the types with all structs laid out, and warnings. -/
structure Lowered where
  module : Module
  types : Universe
  notices : List Notice

/-- The state at the start of a function: its parameters are in scope, and its first block is
open. -/
def State.start (m : Module) (f : Func) : State where
  module := m
  locals := f.locals
  temps := []
  closed := []
  block := ⟨blockLabel 0, []⟩
  scopes := [(f.params.map fun p => (p.name, p)).reverse]
  nextLabel := 1
  hidden := 0

/-- Lowers the body of a function, and tells whether its end can be reached. -/
def lowerBody (env : Env) (body : Program.Block) : Lower Bool := do
  let _ ← Lower.within "body" (lowerBlock env body)
  if ← terminated then return false
  else
    emit .ret none (if env.types.isVoid env.ret then [] else [.int 0 env.ret])
    return true

/-- Lowers a pending function, and puts it in its place in the module. -/
def lowerPending (u : Universe) (m : Module) (x : Pending) : Outcome (Module × List Notice) :=
  match m.func? x.name with
  | none => .crash
  | some f => do
    let env : Env := ⟨u, x.ns, f.ret⟩
    let (open', s) ← lowerBody env x.body (State.start m f)
    let lowered := { f with locals := s.locals, temps := s.temps, blocks := s.closed ++ [s.block] }
    let notices := if open' then [⟨x.pos, s!"function {x.name} did not return"⟩] else []
    return (s.module.setFunc lowered, notices)

/-- Lowers pending functions in order. -/
def lowerAllPending (u : Universe) (m : Module) : List Pending → Outcome (Module × List Notice)
  | [] => .ok (m, [])
  | x :: rest => do
    let (m, notices) ← (lowerPending u m x).within s!"func {x.name}"
    let (m, more) ← lowerAllPending u m rest
    return (m, notices ++ more)

/-- Lowers a file. -/
def lowerFile (u : Universe) (f : Program.File) : Outcome Lowered := do
  let m ← (addAllStructs "" .empty f.stmts).within "discover structs"
  let d ← (declareAll u "" ⟨m, []⟩ f.stmts).within "discover"
  let st ← (layoutAll u d.module).within "layout"
  let (m, notices) ← lowerAllPending st.types st.module d.bodies
  return ⟨m, st.types, notices⟩

end TreeAsm.Lowering
