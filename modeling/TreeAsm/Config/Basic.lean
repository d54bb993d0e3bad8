import TreeAsm.Failure

/-!
# Configuration

What a compilation can be told: the target, and what is written beside the assembly text.
-/

namespace TreeAsm

/-- The configuration of a compilation. -/
structure Config where
  /-- The width of pointers of the target. -/
  bits : Int64
  convention : String
  backend : String
  /-- Whether strings carry their length. -/
  fatStrings : Bool
  /-- Whether the intermediate code is written to a file. -/
  debug : Bool
  /-- The function that the program starts with. -/
  entry : String
  /-- The file for the intermediate code; empty for one beside the source. -/
  irFile : String
  deriving DecidableEq, Repr

namespace Config

/-- The configuration if nothing is said. -/
def default : Config where
  bits := 64
  convention := "sysv"
  backend := "asm"
  fatStrings := false
  debug := false
  entry := "main"
  irFile := ""

instance : Inhabited Config := ⟨Config.default⟩

/-- Refuses configurations that there is no compiler for. -/
def validate (c : Config) : Outcome Unit :=
  if c.bits ≠ 32 && c.bits ≠ 64 then .fail (.unsupportedBits c.bits)
  else if c.convention ≠ "sysv" then .fail (.unsupportedConvention c.convention)
  else if c.backend ≠ "asm" then .fail (.unsupportedBackend c.backend)
  else if c.entry == "" then .fail .emptyEntry
  else .ok ()

/-- The file for the intermediate code of a source file. -/
def irPath (c : Config) (src : String) : String :=
  if c.irFile ≠ "" then c.irFile else src ++ ".ir"

end Config

end TreeAsm
