import TreeAsm.Emit.Module
import TreeAsm.Host
import TreeAsm.Ir.Dump
import TreeAsm.Session

/-!
# The compiler

From the text of a program to assembly text.
-/

namespace TreeAsm

variable {m : Type → Type} [Monad m] [Host m]

/-- The lines of a module, in a session. -/
def Session.emit (s : Session) (x : Ir.Module) : Outcome (List Asm.Line) :=
  Emit.emitModule s.types s.config.fatStrings s.config.entry x

/-- The text that lines make up. -/
def assembly (lines : List Asm.Line) : String :=
  String.intercalate "\n" (lines.map (·.render)) ++ "\n"

/-- Writes the printed form of a module to a file. -/
def dumpTo (path : String) (u : Universe) (x : Ir.Module) : Hosted m Unit := do
  let text ← Hosted.lift (x.dump u "")
  Hosted.within "write" (Hosted.writeFile path text)

/-- Compiles the text of a file to assembly text. If asked to, also writes the intermediate code to
a file. -/
def compileText (c : Config) (name text : String) : Hosted m String := do
  let s ← Hosted.lift (Session.start c)
  let (x, s) ← Hosted.lift (s.lowerText name text)
  if c.debug then Hosted.within "dump ir" (dumpTo (c.irPath name) s.types x)
  let lines ← Hosted.lift ((s.emit x).within "back")
  return assembly lines

/-- Compiles a file to assembly text. -/
def compileFile (c : Config) (name : String) : Hosted m String := do
  let text ← Hosted.within "read file" (Hosted.readFile name)
  compileText c name text

end TreeAsm
