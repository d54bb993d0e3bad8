import TreeAsm.Ir.Module

/-!
# Printed form of modules

Structs come first, then string constants, global variables and functions, with a blank line
between them. A dump is added to a text that is already there.
-/

namespace TreeAsm.Ir

open Text (quoted)

/-- A number in a column of four places. -/
def padded (n : Int64) : String :=
  let digits := toString n.toInt
  digits ++ String.ofList (List.replicate (4 - digits.length) ' ')

/-- The lines of a struct's fields, where the first has the number `i`. -/
def Struct.dumpFields (u : Universe) (l : Layout) : Nat → List Field → Outcome String
  | _, [] => .ok ""
  | i, f :: fields =>
    match l.offsets[i]? with
    | none => .crash
    | some off => do
      let rest ← dumpFields u l (i + 1) fields
      return "\t" ++ padded off ++ " " ++ f.name ++ " " ++ u.render f.type ++ "\n" ++ rest

/-- The printed form of a struct. -/
def Struct.dump (u : Universe) (s : Struct) : Outcome String := do
  let l ← s.layout
  let fields ← Struct.dumpFields u l 0 s.fields
  let packed := if s.packed then " packed" else ""
  return s!"struct {s.name}" ++ packed ++ s!" size {l.size} align {l.align}\n" ++ fields

/-- The lines of a block's instructions. -/
def Block.dumpCode (u : Universe) (label : String) : List Instr → Outcome String
  | [] => .ok ""
  | i :: code =>
    if i.op.isValid then do
      let rest ← dumpCode u label code
      return "\t" ++ i.render u ++ "\n" ++ rest
    else .fail (.badOpcode label i.op.render)

/-- The printed form of a list of blocks. -/
def Block.dumpAll (u : Universe) : List Block → Outcome String
  | [] => .ok ""
  | b :: blocks => do
    let code ← Block.dumpCode u b.label b.code
    let rest ← dumpAll u blocks
    return b.label ++ ":\n" ++ code ++ rest

/-- The heading of a function. -/
def Func.dumpHead (u : Universe) (f : Func) : String :=
  let visibility := if f.external then "extern " else if f.isPublic then "public " else ""
  let params := f.params.map fun p => "%" ++ p.name ++ " " ++ u.render p.type
  visibility ++ s!"func {f.name}(" ++ String.intercalate ", " params ++ ") " ++ u.render f.ret ++ "\n"

/-- The printed form of a function. -/
def Func.dump (u : Universe) (f : Func) : Outcome String :=
  if f.external then .ok (f.dumpHead u)
  else do
    let locals := (f.locals.filter fun v => !v.isParam).map fun v =>
      "\tlocal %" ++ v.name ++ " " ++ u.render v.type ++ "\n"
    let blocks ← Block.dumpAll u f.blocks
    return f.dumpHead u ++ String.join locals ++ blocks

/-- The line of a global variable. -/
def Global.dump (u : Universe) (g : Global) : String :=
  let head := s!"var {g.name} " ++ u.render g.type
  if g.external then "extern " ++ head ++ "\n"
  else match g.init with
    | some x => head ++ " = " ++ x.render ++ "\n"
    | none => head ++ "\n"

/-- A text and one more part of it, with a blank line between them. -/
def appendPart (out part : String) : String :=
  if out.isEmpty then part else out ++ "\n" ++ part

namespace Module

/-- Adds the structs to a text. -/
def dumpStructs (u : Universe) (out : String) : List Struct → Outcome String
  | [] => .ok out
  | s :: structs => do
    let part ← (s.dump u).within s!"struct {s.name}"
    dumpStructs u (appendPart out part) structs

/-- Adds the functions to a text. -/
def dumpFuncs (u : Universe) (out : String) : List Func → Outcome String
  | [] => .ok out
  | f :: funcs => do
    let part ← (f.dump u).within s!"func {f.name}"
    dumpFuncs u (appendPart out part) funcs

/-- Adds the lines of string constants to a text. -/
def dumpStrings (out : String) (strings : List StringConst) : String :=
  if strings.isEmpty then out
  else appendPart out (String.join (strings.map fun s => s.label ++ " = " ++ quoted s.value ++ "\n"))

/-- Adds the lines of global variables to a text. -/
def dumpGlobals (u : Universe) (out : String) (globals : List Global) : String :=
  if globals.isEmpty then out
  else appendPart out (String.join (globals.map fun g => g.dump u))

/-- Adds the printed form of a module to a text. -/
def dump (u : Universe) (out : String) (m : Module) : Outcome String := do
  let out ← dumpStructs u out m.structs
  dumpFuncs u (dumpGlobals u (dumpStrings out m.strings) m.globals) m.funcs

end Module

end TreeAsm.Ir
