import TreeAsm.Config.OfNode
import TreeAsm.Host

/-!
# Where configurations come from

A configuration starts with what holds if nothing is said; a file and then the environment may
change it. A variable of the environment that is empty counts as missing.
-/

namespace TreeAsm.Config

/-- What the names of all variables start with. -/
def variableStart : String := "LOWC_"

/-- The words that stand for true in a variable. -/
def trueWords : List String :=
  ["1", "t", "T", "true", "True", "TRUE", "y", "Y", "yes", "Yes", "YES",
    "enable", "Enable", "ENABLE", "enabled", "Enabled", "ENABLED",
    "positive", "Positive", "POSITIVE", "affirmative", "Affirmative", "AFFIRMATIVE",
    "absolutely", "Absolutely", "ABSOLUTELY"]

/-- The variables that can change a configuration. -/
structure Overrides where
  bits : Option String
  convention : Option String
  backend : Option String
  entry : Option String
  fatStrings : Option String
  debug : Option String

/-- A variable with something in it. -/
def given (v : Option String) : Option String := v.filter (· != "")

/-- The number in a variable; one that is no decimal number counts as missing. -/
def givenInt (v : Option String) : Option Int64 :=
  match given v with
  | none => none
  | some text => match Text.Integer.read (some 10) text with
    | .ok n => some (Int64.ofInt n)
    | .error _ => none

/-- The truth value in a variable. -/
def givenBool (v : Option String) : Option Bool := (given v).map trueWords.contains

/-- Changes a configuration by variables. -/
def applyOverrides (c : Config) (o : Overrides) : Config where
  bits := (givenInt o.bits).getD c.bits
  convention := (given o.convention).getD c.convention
  backend := (given o.backend).getD c.backend
  fatStrings := (givenBool o.fatStrings).getD c.fatStrings
  debug := (givenBool o.debug).getD c.debug
  entry := (given o.entry).getD c.entry
  irFile := c.irFile

variable {m : Type → Type} [Monad m] [Host m]

/-- Changes a configuration by the environment. -/
def applyEnvironment (c : Config) : m Config := do
  let read (name : String) : m (Option String) := Host.getVariable (variableStart ++ name)
  return c.applyOverrides {
    bits := ← read "BITS"
    convention := ← read "CONVENTION"
    backend := ← read "BACKEND"
    entry := ← read "ENTRY"
    fatStrings := ← read "FAT_STRINGS"
    debug := ← read "DEBUG" }

/-- Loads a configuration: from a file, if one is named, and from the environment. -/
def load (file : String) : Hosted m Config := do
  let c ← if file == "" then pure Config.default else do
    let text ← Hosted.within "read config" (Hosted.readFile file)
    Hosted.lift ((Config.default.readDocument text).within s!"config {file}")
  ExceptT.lift c.applyEnvironment

end TreeAsm.Config
