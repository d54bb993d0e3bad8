import TreeAsm.Yaml.Mark

/-!
# Tokens of a document

The scanner cuts a text into these. Block structure, which the text shows by indentation, is
explicit here: a start token opens a block and `blockEnd` closes it.
-/

namespace TreeAsm.Yaml

/-- What a token says. -/
inductive Token.Kind where
  | streamStart
  | streamEnd
  | versionDirective (major minor : Nat)
  | tagDirective (handle uri : String)
  | documentStart
  | documentEnd
  | blockSequenceStart
  | blockMappingStart
  | blockEnd
  | flowSequenceStart
  | flowSequenceEnd
  | flowMappingStart
  | flowMappingEnd
  | blockEntry
  | flowEntry
  | key
  | value
  | link (name : String)
  | anchor (name : String)
  | tag (handle suffix : String)
  | scalar (text : String) (plain : Bool)
  deriving DecidableEq, Repr

/-- A token and the stretch of text that it covers. -/
structure Token where
  kind : Token.Kind
  start : Mark
  stop : Mark
  deriving Repr

end TreeAsm.Yaml
