/-!
# Source positions

Line and column in a source text, both counted from one, columns in characters.
-/

namespace TreeAsm

/-- Where something stands in a source text. -/
structure Position where
  line : Int
  column : Int
  deriving DecidableEq, Repr, Inhabited

/-- A position as messages show it. -/
def Position.render (p : Position) : String := s!"{p.line}:{p.column}"

end TreeAsm
