import TreeAsm.Yaml.Token.Property

/-!
# Scalars

The four ways to write a text: plain, between single or double quotes, and as an indented block.
Each scanner starts at the scalar's indicator and gives the text.

A scalar that runs over several lines is folded: a single line break becomes a space, and of more
breaks in a row all but the first stay. `Gap` holds the white space that waits for this decision.
-/

namespace TreeAsm.Yaml

open Read

/-- White space inside a scalar that goes on. While `broken` is false it is a run of blanks; then
it is a line break, held in `lead` unless that was escaped, and the further line breaks of `trail`.
The lists are reversed. -/
structure Gap where
  blanks : List Char
  broken : Bool
  lead : List Char
  trail : List Char

namespace Gap

/-- No white space. -/
def empty : Gap := ⟨[], false, [], []⟩

/-- A line break that an escape took away. -/
def escapedBreak : Gap := ⟨[], true, [], []⟩

/-- Adds a blank. After a line break blanks are indentation and count for nothing. -/
def addBlank (g : Gap) (c : Char) : Gap :=
  if g.broken then g else { g with blanks := c :: g.blanks }

/-- Adds a line break. -/
def addBreak (g : Gap) (text : List Char) : Gap :=
  if g.broken then { g with trail := text ++ g.trail }
  else { g with blanks := [], broken := true, lead := text }

/-- The text that the white space stands for, reversed. -/
def folded (g : Gap) : List Char :=
  if !g.broken then g.blanks
  else if g.lead == ['\n'] then (if g.trail.isEmpty then [' '] else g.trail)
  else g.trail ++ g.lead

end Gap

/-- Where a scanner of a folded scalar stands: at the start of a line or a word, inside a word, or
inside white space. -/
inductive Phase where
  | start
  | word
  | gap

/-- Passes over a blank or a line break inside a scalar. -/
def passGap (c : Char) (gap : Gap) : Read Gap := do
  if isBlank c then
    skip
    need 1
    return gap.addBlank c
  else
    need 2
    let text ← lineBreak
    need 1
    return gap.addBreak text

/-! ## Plain scalars -/

/-- What a plain scalar leaves behind: the text, its end, and whether a line break was passed
behind it. -/
structure PlainScan where
  text : String
  stop : Mark
  broke : Bool

/-- The scan of a plain scalar that ends here. `text` is reversed, and `gap` is the white space behind
`stop`. -/
def PlainScan.ofParts (text : List Char) (stop : Mark) (gap : Gap) : PlainScan :=
  ⟨String.ofList text.reverse, stop, gap.broken⟩

/-- A plain scalar ends at a colon that ends a word and, inside flow collections, at an indicator. -/
def plainEnds (flow : Bool) (c next : Char) : Bool :=
  (c == ':' && endsWord next) ||
    (flow && (c == ',' || c == '?' || c == '[' || c == ']' || c == '\x7b' || c == '\x7d'))

/-- Scans a plain scalar. `text` is what was read so far, reversed, up to `stop`; `gap` is the white
space since then. After white space the scalar also ends at a comment, at a document mark, and
outside flow collections at less than its own indentation. -/
def scanPlainFrom (flow : Bool) (indent : Int) :
    (bound : Nat) → Phase → List Char → Mark → Gap → Read PlainScan
  | 0, _, text, stop, gap => return .ofParts text stop gap
  | bound + 1, phase, text, stop, gap => do
    match phase with
    | .start =>
      need 4
      if ← atDocumentMark then return .ofParts text stop gap
      if (← look 0) == '#' then return .ofParts text stop gap
      scanPlainFrom flow indent bound .word text stop gap
    | .word =>
      let c ← look 0
      if c == textEnd then return .ofParts text stop gap
      if isBlank c || isBreak c then
        need 1
        scanPlainFrom flow indent bound .gap text stop gap
      else if plainEnds flow c (← look 1) then return .ofParts text stop gap
      else
        skip
        let stop ← Read.mark
        need 2
        scanPlainFrom flow indent bound .word (c :: (gap.folded ++ text)) stop Gap.empty
    | .gap =>
      let c ← look 0
      let m ← Read.mark
      if isBlank c || isBreak c then
        if gap.broken && m.column < indent && c == '\t' then
          refuse "found a tab character that violates indentation"
        scanPlainFrom flow indent bound .gap text stop (← passGap c gap)
      else if !flow && m.column < indent then return .ofParts text stop gap
      else scanPlainFrom flow indent bound .start text stop gap

/-- Scans a plain scalar in a block at `indent`. -/
def scanPlain (flow : Bool) (indent : Int) : Read PlainScan := do
  scanPlainFrom flow (indent + 1) (← bound) .start [] (← Read.mark) Gap.empty

/-! ## Quoted scalars -/

/-- What an escape after a backslash means: a character, or a code of so many hexadecimal digits. -/
inductive Escape where
  | char (c : Char)
  | code (digits : Nat)

/-- The escapes of double quoted scalars. -/
def escape? : Char → Option Escape
  | '0' => some (.char '\x00')
  | 'a' => some (.char '\x07')
  | 'b' => some (.char '\x08')
  | 't' => some (.char '\t')
  | '\t' => some (.char '\t')
  | 'n' => some (.char '\n')
  | 'v' => some (.char '\x0b')
  | 'f' => some (.char '\x0c')
  | 'r' => some (.char '\r')
  | 'e' => some (.char '\x1b')
  | ' ' => some (.char ' ')
  | '"' => some (.char '"')
  | '\'' => some (.char '\'')
  | '\\' => some (.char '\\')
  | 'N' => some (.char '\u0085')
  | '_' => some (.char '\u00a0')
  | 'L' => some (.char '\u2028')
  | 'P' => some (.char '\u2029')
  | 'x' => some (.code 2)
  | 'u' => some (.code 4)
  | 'U' => some (.code 8)
  | _ => none

/-- The character with a given code, if there is one. -/
def charOfCode? (n : Nat) : Option Char :=
  if (0xd800 ≤ n ∧ n ≤ 0xdfff) ∨ 0x10ffff < n then none else some (Char.ofNat n)

/-- The number that hexadecimal digits spell. -/
def hexNumber? (digits : List Char) : Option Nat :=
  digits.foldlM (fun n c => (hexValue? c).map fun d => n * 16 + d) 0

/-- An escape code of `n` hexadecimal digits. -/
def scanCode (n : Nat) : Read Char := do
  need n
  match hexNumber? ((← get).ahead.take n) with
  | none => refuse "did not find expected hexdecimal number"
  | some code =>
    match charOfCode? code with
    | none => refuse "found invalid Unicode character escape code"
    | some c =>
      skips n
      return c

/-- An escape, from the backslash on. -/
def scanEscape : Read Char := do
  match escape? (← look 1) with
  | none => refuse "found unknown escape character"
  | some (.char c) =>
    skips 2
    return c
  | some (.code n) =>
    skips 2
    scanCode n

/-- Scans up to the closing quote. Between single quotes a doubled quote is a quote; between double
quotes there are escapes, also of a line break. -/
def scanQuotedFrom (single : Bool) :
    (bound : Nat) → Phase → List Char → Gap → Read String
  | 0, _, _, _ => refuse "found unexpected end of stream"
  | bound + 1, phase, text, gap => do
    match phase with
    | .start =>
      need 4
      if ← atDocumentMark then refuse "found unexpected document indicator"
      if (← look 0) == textEnd then refuse "found unexpected end of stream"
      scanQuotedFrom single bound .word text gap
    | .word =>
      let c ← look 0
      let next ← look 1
      if endsWord c then
        need 1
        scanQuotedFrom single bound .gap text Gap.empty
      else if single && c == '\'' && next == '\'' then
        skips 2
        need 2
        scanQuotedFrom single bound .word ('\'' :: (gap.folded ++ text)) Gap.empty
      else if c == (if single then '\'' else '"') then
        need 1
        skip
        return String.ofList (gap.folded ++ text).reverse
      else if !single && c == '\\' && isBreak next then
        need 3
        skip
        let _ ← lineBreak
        need 1
        scanQuotedFrom single bound .gap (gap.folded ++ text) Gap.escapedBreak
      else
        let c ← if !single && c == '\\' then scanEscape else do
          skip
          pure c
        need 2
        scanQuotedFrom single bound .word (c :: (gap.folded ++ text)) Gap.empty
    | .gap =>
      let c ← look 0
      if isBlank c || isBreak c then scanQuotedFrom single bound .gap text (← passGap c gap)
      else scanQuotedFrom single bound .start text gap

/-- Scans a quoted scalar. -/
def scanQuoted (single : Bool) : Read String := do
  skip
  scanQuotedFrom single (← bound) .start [] Gap.empty

/-! ## Block scalars -/

/-- What becomes of the line breaks at the end of a block scalar. -/
inductive Chomp where
  /-- None stays. -/
  | strip
  /-- One stays. -/
  | clip
  /-- All stay. -/
  | keep
  deriving DecidableEq

private def chomp? (c : Char) : Option Chomp :=
  if c == '+' then some .keep else if c == '-' then some .strip else none

/-- The indentation that a block scalar gives itself, if a digit follows. -/
def blockIndent : Read (Option Nat) := do
  let c ← look 0
  if !c.isDigit then return none
  if c == '0' then refuse "found an indentation indicator equal to 0"
  skip
  return some (c.toNat - '0'.toNat)

/-- The indicators after `|` or `>`, in either order: how to chomp, and the indentation relative to
the surrounding block if it is given. -/
def blockIndicators : Read (Chomp × Option Nat) := do
  need 1
  match chomp? (← look 0) with
  | some chomp =>
    skip
    need 1
    return (chomp, ← blockIndent)
  | none =>
    match ← blockIndent with
    | none => return (.clip, none)
    | some n =>
      need 1
      match chomp? (← look 0) with
      | some chomp =>
        skip
        return (chomp, some n)
      | none => return (.clip, some n)

/-- Indentation and empty lines in front of a line of a block scalar. `indent` is zero while the
indentation is still to be found; `widest` is the widest one seen. Gives that and the line breaks,
reversed. -/
def blockBreaks (indent : Nat) :
    (bound : Nat) → (widest : Nat) → (breaks : List Char) → Read (Nat × List Char)
  | 0, widest, breaks => return (widest, breaks)
  | bound + 1, widest, breaks => do
    need 1
    let c ← look 0
    let m ← Read.mark
    let inside := indent == 0 || m.column < indent
    let widest := if isBreak c || c != ' ' || !inside then max widest m.column else widest
    if c == ' ' && inside then
      skip
      blockBreaks indent bound widest breaks
    else if c == '\t' && inside then
      refuse "found a tab character where an indentation space is expected"
    else if isBreak c then
      need 2
      blockBreaks indent bound widest ((← lineBreak) ++ breaks)
    else return (widest, breaks)

/-- The lines of a block scalar at `indent`. `lead` is the line break of the line before and `trail`
the empty lines after it; `blank` tells that the line before began with a blank. -/
def blockLines (literal : Bool) (chomp : Chomp) (indent : Nat) :
    (bound : Nat) → (text lead trail : List Char) → (blank : Bool) → Read String
  | 0, text, _, _, _ => return String.ofList text.reverse
  | bound + 1, text, lead, trail, blank => do
    let c ← look 0
    if (← Read.mark).column == indent && c != textEnd then
      let startsBlank := isBlank c
      let joined := !literal && !blank && !startsBlank && lead == ['\n']
      let text := if joined then (if trail.isEmpty then ' ' :: text else text) else lead ++ text
      let line ← takeOn (fun c => !endsLine c) (← Read.bound) []
      need 2
      let lead ← lineBreak
      let (_, breaks) ← blockBreaks indent (← Read.bound) 0 []
      blockLines literal chomp indent bound (line ++ (trail ++ text)) lead breaks startsBlank
    else
      let text := match chomp with
        | .strip => text
        | .clip => lead ++ text
        | .keep => trail ++ (lead ++ text)
      return String.ofList text.reverse

/-- Scans a block scalar. `outer` is the indentation of the surrounding block, `-1` if there is
none. -/
def scanBlock (literal : Bool) (outer : Int) : Read String := do
  skip
  let (chomp, increment) ← blockIndicators
  restOfLine
  let given := match increment with
    | none => 0
    | some n => (max outer 0).toNat + n
  let (widest, trail) ← blockBreaks given (← bound) 0 []
  let indent := if given == 0 then max (max widest (outer + 1).toNat) 1 else given
  need 1
  blockLines literal chomp indent (← bound) [] [] trail false

end TreeAsm.Yaml
