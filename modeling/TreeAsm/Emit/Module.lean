import TreeAsm.Emit.Func

/-!
# Emitting modules

The text of a module: read-only strings, data, declarations of symbols, then the functions.
-/

namespace TreeAsm.Emit

open Asm (DataSize Line)
open Ir

/-- The lines of a string constant: its bytes and a zero, and its length if strings carry it. -/
def stringLines (fatStrings : Bool) (s : StringConst) : List Line :=
  let data := s.value.toUTF8.toList
  .bytes s.label (data ++ [0]) :: if fatStrings then [.length s.label data.length] else []

/-- The width of a datum of some bytes. -/
def dataSize (size : Int64) : Outcome DataSize :=
  if size == 1 then .ok .byte
  else if size == 2 then .ok .word
  else if size == 4 then .ok .dword
  else if size == 8 then .ok .qword
  else .fail (.badDataSize size)

/-- The line of a global variable. -/
def globalLine (u : Universe) (g : Global) : Outcome Line :=
  let size := u.size g.type
  match g.init with
  | none => .ok (.zeros g.name (if size > 1 then size else 1))
  | some (.int value _) => do
    let d ← (dataSize size).within s!"global {g.name}"
    return .number g.name d value
  | some (.str s) => do
    let d ← (dataSize size).within s!"global {g.name}"
    return .address g.name d s.label
  | some x => .fail (.badInitializer g.name x.render)

/-- The lines of the global variables that are defined here. -/
def dataLines (u : Universe) (globals : List Global) : Outcome (List Line) := do
  let own := globals.filter fun g => !g.external
  let lines ← own.mapM (globalLine u)
  return if own.isEmpty then [] else .sectionStart ".data" :: lines

/-- The lines that declare symbols. -/
def symbolLines (m : Module) (entry : String) : List Line :=
  (m.globals.filter (·.external)).map (fun g => .outside g.name)
    ++ (m.funcs.filter (·.external)).map (fun f => .outside f.name)
    ++ (m.funcs.filter fun f => !f.external && (f.isPublic || f.name == entry)).map
      (fun f => .exported f.name)

/-- The lines of the functions that have a body. -/
def funcLines (u : Universe) (m : Module) (entry : String) : List Func → Outcome (List Line)
  | [] => .ok []
  | f :: rest =>
    if f.external then funcLines u m entry rest
    else do
      let lines ← (emitFunc u m f (f.name == entry)).within s!"func {f.name}"
      let more ← funcLines u m entry rest
      return lines ++ more

/-- The lines of a module. -/
def emitModule (u : Universe) (fatStrings : Bool) (entry : String) (m : Module) :
    Outcome (List Line) := do
  let data ← (dataLines u m.globals).within "data"
  let code ← funcLines u m entry m.funcs
  return .sectionStart ".rodata" :: m.strings.flatMap (stringLines fatStrings)
    ++ data ++ .sectionStart ".text" :: symbolLines m entry ++ code

end TreeAsm.Emit
