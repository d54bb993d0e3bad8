import TreeAsm.Config.Basic
import TreeAsm.Lowering.File
import TreeAsm.Program.OfNode

/-!
# Sessions

A session is one run of the compiler: its configuration, its types, the file at hand and the
warnings so far.
-/

namespace TreeAsm

/-- A warning about a place in a file. -/
structure Warning where
  file : String
  pos : Position
  message : String
  deriving DecidableEq, Repr

/-- How a warning is written. -/
def Warning.render (w : Warning) : String :=
  w.file ++ ":" ++ w.pos.render ++ ": warning: " ++ w.message

/-- The state of one run of the compiler. -/
structure Session where
  config : Config
  types : Universe
  file : String
  warnings : List Warning

namespace Session

/-- Starts a session with a valid configuration. -/
def start (c : Config) : Outcome Session := do
  c.validate.within "config"
  return ⟨c, Universe.make c.bits c.fatStrings, "", []⟩

/-- Adds a warning about the file at hand. -/
def warn (s : Session) (pos : Position) (message : String) : Session :=
  { s with warnings := s.warnings ++ [⟨s.file, pos, message⟩] }

/-- Lowers a program, and keeps the types and warnings that come out of it. -/
def lowerFile (s : Session) (f : Program.File) : Outcome (Ir.Module × Session) := do
  let r ← Lowering.lowerFile s.types f
  let s := { s with types := r.types }
  return (r.module, r.notices.foldl (fun s n => s.warn n.pos n.message) s)

/-- Reads a program and lowers it. -/
def lowerText (s : Session) (name text : String) : Outcome (Ir.Module × Session) := do
  let f ← (Program.File.ofText name text).within "decode"
  ({ s with file := name }.lowerFile f).within "lower"

end Session

end TreeAsm
