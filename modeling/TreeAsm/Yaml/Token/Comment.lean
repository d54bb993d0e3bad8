import TreeAsm.Yaml.Token.Scanner

/-!
# Comments

Comments say nothing, but it matters where they stand: a block ends in front of the comments that
are indented like it. So white space and comments are passed over with a note of each comment and of
what it belongs to. A comment may run over several lines; an empty line or another column divides
it from the next one.
-/

namespace TreeAsm.Yaml

namespace Scan

open Read

/-- How many bytes the scanner looks ahead for a comment. -/
def commentReach : Nat := 512

/-- Stands for a byte of a character other than its first. -/
def innerByte : Char := '\x01'

/-- The character that starts at byte `n`. -/
def byteAt : List Char → (n : Nat) → Char
  | [], _ => textEnd
  | c :: cs, n =>
    if n == 0 then c
    else if n < c.utf8Size then innerByte
    else byteAt cs (n - c.utf8Size)

/-- The character at byte `n` ahead, which counts as the `n`-th character. -/
def lookByte (n : Nat) : Scan Char := do
  read (need (n + 1))
  return byteAt (← get).input.ahead n

/-- Notes a comment. -/
def note (c : Comment) : Scan Unit := modify fun s => { s with comments := s.comments ++ [c] }

/-- Passes over everything up to the end of the line that the character at `seen` stands on. -/
def passLine (seen : Nat) : (bound : Nat) → Scan Unit
  | 0 => return
  | bound + 1 => do
    read (need 1)
    if endsLine (← read (look 0)) then
      if seen ≤ (← here).index then return
      read (need 2)
      let _ ← read lineBreak
      passLine seen bound
    else
      read skip
      passLine seen bound

/-- The search for comments. `open_` tells that lines of a comment have been passed over that is not
noted yet, from `start` on; `scanned` and `token` are for its note. The search has come `ahead`
bytes past the current place, to `line` and `column`, counted from one. -/
structure CommentSearch where
  open_ : Bool
  start : Mark
  scanned : Nat
  token : Nat
  indent : Int
  line : Nat
  column : Nat
  ahead : Nat
  /-- The last line was empty. -/
  afterEmpty : Bool
  /-- No empty line has been seen. -/
  unbroken : Bool

/-- The column from which on a comment is inside the current block. -/
def commentIndent : Scan Int := return max (← get).indent 0

/-- The comment so far belongs to what came before it; another one may follow. -/
def closeFoot (c : CommentSearch) : Scan CommentSearch := do
  let stop := (← here).index + c.ahead
  if c.open_ then
    let token := if (c.start.column : Int) - 1 < c.indent then c.start.index else c.token
    note ⟨.foot, c.scanned, token, c.start, stop⟩
    return { c with open_ := false, scanned := stop, token := stop }
  else return c

/-- Searches on for comments. `footLine` is the line on which a comment must start to belong to the
token before it, unless that is a `value`. -/
def searchComments (footLine : Int) (value : Bool) : (bound : Nat) → CommentSearch → Scan Unit
  | 0, _ => return
  | bound + 1, c => do
    let finish (c : CommentSearch) : Scan Unit := do
      if c.open_ then
        note ⟨.head, c.scanned, c.start.index, c.start, (← here).index + c.ahead - 1⟩
    if commentReach ≤ c.ahead then finish c
    else
      let char ← lookByte c.ahead
      let c := { c with column := c.column + 1 }
      let closing := (← get).flow != 0 && (char == ']' || char == '\x7d')
      if isBlank char then
        searchComments footLine value bound { c with ahead := c.ahead + 1 }
      else if closing || endsLine char then
        let foot := closing || (c.unbroken &&
          (((c.start.line : Int) == footLine && !value) || (c.start.column : Int) - 1 < c.indent))
        let c ← if (closing || !c.afterEmpty) && foot then closeFoot c else pure c
        if isBreak char then
          searchComments footLine value bound
            { c with
              unbroken := false, afterEmpty := true, column := 0, line := c.line + 1
              ahead := c.ahead + 1 }
        else finish c
      else
        let c ← if (c.column : Int) - 1 < c.indent && c.column != c.start.column then
            closeFoot c
          else pure c
        if char == '#' then
          let seen := (← here).index + c.ahead
          let start := if c.open_ then c.start else ⟨seen, c.line, c.column⟩
          passLine seen (← Scan.bound)
          searchComments footLine value bound
            { c with
              open_ := true, start := start, afterEmpty := false, ahead := 1, column := 0
              line := (← here).line, indent := ← commentIndent }
        else finish c

/-- Passes over the comments from here on. The search for them began at `scanned`. -/
def passComments (scanned : Mark) : Scan Unit := do
  let s ← get
  let last := s.queue.fromLast? 0
  let token := match last.map Token.kind, s.queue.fromLast? 1 with
    | some .flowEntry, some t => some t
    | _, _ => last
  let m := s.input.mark
  let breaks := s.input.breaks
  let footLine : Int := (m.line : Int) - breaks + 1 + (if breaks == 0 && 1 < m.column then 1 else 0)
  searchComments footLine (token.map Token.kind == some .value) s.input.bound
    { open_ := false, start := .zero, scanned := scanned.index
      token := (token.map fun t => t.start.index).getD 0
      indent := ← commentIndent, line := m.line, column := m.column, ahead := 0
      afterEmpty := false, unbroken := breaks ≤ 1 }

/-- How many blanks follow, as far as the scanner looks. -/
def blanksAhead : (bound ahead : Nat) → Scan Nat
  | 0, ahead => return ahead
  | bound + 1, ahead => do
    if isBlank (← lookByte ahead) then blanksAhead bound (ahead + 1) else return ahead

/-- Passes over a comment that follows a token on its line. `token` is what it belongs to. -/
def passLineComment (token : Mark) : Scan Unit := do
  if (← get).input.breaks == 0 then
    let ahead ← blanksAhead commentReach 0
    if ahead < commentReach && (← lookByte ahead) == '#' then
      let m ← here
      passLine (m.index + ahead) (← Scan.bound)
      note ⟨.line, 0, token.index, m.skip ahead, 0⟩

/-- Passes over blanks. A tab is none where a key may start outside flow collections. -/
def passBlanks : (bound : Nat) → Scan Unit
  | 0 => return
  | bound + 1 => do
    let s ← get
    let c ← read (look 0)
    if c == ' ' || (c == '\t' && (s.flow != 0 || !s.keyAllowed)) then
      read skip
      read (need 1)
      passBlanks bound

/-- A comment behind the dash that opens a block sequence belongs to what follows if that stands on a
later line. -/
def leadEntry : Scan Unit := do
  let s ← get
  let kinds := ((s.queue.fromLast? 1).map Token.kind, (s.queue.fromLast? 0).map Token.kind)
  match s.comments.getLast? with
  | some c =>
    if kinds == (some .blockSequenceStart, some .blockEntry) && c.place == .line &&
        !isBreak (← read (look 0)) then
      let m := s.input.mark
      let token := if c.start.line + 1 == m.line then m.index else c.token
      set { s with comments := s.comments.dropLast ++ [{ c with place := .head, token := token }] }
  | none => return

/-- Passes over white space and comments up to the next token. A byte order mark at the front of what
was taken in last hides the first character of a line. Outside flow collections a key may start on a
new line. -/
def passToToken (scanned : Mark) : (bound : Nat) → Scan Unit
  | 0 => return
  | bound + 1 => do
    read (need 1)
    let i := (← get).input
    if i.mark.column == 0 && i.marked then read skip
    read (need 1)
    passBlanks (← Scan.bound)
    leadEntry
    if (← read (look 0)) == '#' then passComments scanned
    if isBreak (← read (look 0)) then
      read (need 2)
      let _ ← read lineBreak
      if (← get).flow == 0 then allowKey true
      passToToken scanned bound

end Scan

end TreeAsm.Yaml
