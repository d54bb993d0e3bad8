import TreeAsm.Position

/-!
# Marks, character classes and syntax errors

The vocabulary of the document scanner: where it stands, which characters separate, and how it
says that a text is no document.
-/

namespace TreeAsm.Yaml

/-- A place in a text: how many characters lie before it, and its line and column from zero. -/
structure Mark where
  index : Nat
  line : Nat
  column : Nat
  deriving DecidableEq, Repr, Inhabited

namespace Mark

/-- The start of a text. -/
def zero : Mark := ⟨0, 0, 0⟩

/-- The place one character further on the same line. -/
def next (m : Mark) : Mark := ⟨m.index + 1, m.line, m.column + 1⟩

/-- The place `n` characters further on the same line. -/
def skip (m : Mark) (n : Nat) : Mark := ⟨m.index + n, m.line, m.column + n⟩

/-- The start of the next line, after a line break of `width` characters. -/
def newline (m : Mark) (width : Nat) : Mark := ⟨m.index + width, m.line + 1, 0⟩

/-- The mark as a source position. -/
def position (m : Mark) : Position := ⟨m.line + 1, m.column + 1⟩

end Mark

/-- Why a text is no document: what was wrong, and the line near which it was noticed. -/
structure SyntaxError where
  line : Nat
  problem : String
  deriving DecidableEq, Repr

/-- The wording of a syntax error. The first line is not named. -/
def SyntaxError.message (e : SyntaxError) : String :=
  if e.line = 0 then s!"yaml: {e.problem}" else s!"yaml: line {e.line + 1}: {e.problem}"

/-- A space or a tab. -/
def isBlank (c : Char) : Bool := c == ' ' || c == '\t'

/-- A line feed, carriage return, next line, line separator or paragraph separator. -/
def isBreak (c : Char) : Bool :=
  c == '\n' || c == '\r' || c == '\u0085' || c == '\u2028' || c == '\u2029'

/-- What a one-character line break counts as: the two Unicode separators stay, the others are a
line feed. -/
def breakText (c : Char) : Char := if c == '\u2028' || c == '\u2029' then c else '\n'

/-- What stands behind the end of a text. No document holds this character. -/
def textEnd : Char := '\x00'

/-- A line ends here: at a line break or at the end of the text. -/
def endsLine (c : Char) : Bool := isBreak c || c == textEnd

/-- A word ends here: at a blank or at the end of a line. -/
def endsWord (c : Char) : Bool := isBlank c || endsLine c

/-- A character of an anchor, a tag handle or a directive name. -/
def isNameChar (c : Char) : Bool :=
  ('0' ≤ c && c ≤ '9') || ('A' ≤ c && c ≤ 'Z') || ('a' ≤ c && c ≤ 'z') || c == '_' || c == '-'

/-- A character that a document text may hold. -/
def isDocumentChar (c : Char) : Bool :=
  let n := c.toNat
  n == 0x09 || n == 0x0a || n == 0x0d || (0x20 ≤ n && n ≤ 0x7e) || n == 0x85 ||
    (0xa0 ≤ n && n ≤ 0xd7ff) || (0xe000 ≤ n && n ≤ 0xfffd) || 0x10000 ≤ n

end TreeAsm.Yaml
