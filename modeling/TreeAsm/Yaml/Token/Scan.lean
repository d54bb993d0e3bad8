import TreeAsm.Yaml.Token.Scalar
import TreeAsm.Yaml.Token.Comment

/-!
# Scanning a text into tokens

Tokens are scanned on demand. `Scan.supply` makes sure that the next token is final: three tokens
must wait, and while the first of them may still become a key the scanner goes on. So a document is
harmed by an error behind its end only if the scanner gets that far.
-/

namespace TreeAsm.Yaml

namespace Scan

open Read

/-! ## Tokens -/

/-- The start of the text. -/
def streamStart : Scan Unit := do
  let m ← here
  modify fun s => { s with started := true, keyAllowed := true, keys := #[⟨false, false, 0, .zero⟩] }
  emit .streamStart m m

/-- Closes all blocks. -/
def closeBlocks : Scan Unit := do
  unroll (-1) (← here)
  dropKey
  allowKey false

/-- The end of the text closes all blocks, on a line of its own. -/
def streamEnd : Scan Unit := do
  modify fun s =>
    let m := s.input.mark
    if m.column == 0 then s
    else { s with input := { s.input with mark := ⟨m.index, m.line + 1, 0⟩ } }
  closeBlocks
  let m ← here
  emit .streamEnd m m

/-- A directive closes all blocks. -/
def directive : Scan Unit := do
  closeBlocks
  let start ← here
  let (kind, stop) ← read scanDirective
  emit kind start stop

/-- A document mark closes all blocks. -/
def documentMark (kind : Token.Kind) : Scan Unit := do
  closeBlocks
  indicator kind 3

/-- An opening bracket may start a key, and a key may follow it. -/
def flowStart (kind : Token.Kind) : Scan Unit := do
  noteKey
  enterFlow
  allowKey true
  indicator kind 1

/-- A closing bracket ends a level of nesting. -/
def flowEnd (kind : Token.Kind) : Scan Unit := do
  dropKey
  leaveFlow
  allowKey false
  indicator kind 1

/-- A comma. -/
def flowEntry : Scan Unit := do
  dropKey
  allowKey true
  indicator .flowEntry 1

/-- A dash opens a block sequence unless one is open at its column. -/
def blockEntry : Scan Unit := do
  let s ← get
  let m := s.input.mark
  if s.flow == 0 && !s.keyAllowed then
    refuse m "block sequence entries are not allowed in this context"
  roll m.column none .blockSequenceStart m
  dropKey
  allowKey true
  indicator .blockEntry 1

/-- A question mark opens a block mapping unless one is open at its column. -/
def keyMark : Scan Unit := do
  let s ← get
  let m := s.input.mark
  if s.flow == 0 && !s.keyAllowed then refuse m "mapping keys are not allowed in this context"
  roll m.column none .blockMappingStart m
  dropKey
  allowKey (s.flow == 0)
  indicator .key 1

/-- A colon makes the possible key of its level a key. Without one it follows a key that was marked,
or an empty one. -/
def valueMark : Scan Unit := do
  let s ← get
  match ← validKey (s.keys.size - 1) with
  | some k =>
    modify fun s => { s with queue := s.queue.insertAt k.token ⟨.key, k.mark, k.mark⟩ }
    roll k.mark.column (some k.token) .blockMappingStart k.mark
    modify fun s => { s with
      keys := s.keys.setIfInBounds (s.keys.size - 1) { k with possible := false }
      waiting := s.waiting.filter fun w => w.1 != k.token }
    allowKey false
  | none =>
    let m := s.input.mark
    if s.flow == 0 && !s.keyAllowed then
      refuse m "mapping values are not allowed in this context"
    roll m.column none .blockMappingStart m
    allowKey (s.flow == 0)
  indicator .value 1

/-- A token that may start a key, which `x` scans. -/
def node (x : Read Token.Kind) : Scan Unit := do
  noteKey
  allowKey false
  let start ← here
  let kind ← read x
  emit kind start (← here)

/-- A block scalar is no key, and a key may follow it. -/
def blockScalar (literal : Bool) : Scan Unit := do
  dropKey
  allowKey true
  let start ← here
  let text ← read (scanBlock literal (← get).indent)
  emit (.scalar text false) start (← here)

/-- A plain scalar. A key may start after it if a line break follows it. -/
def plainScalar : Scan Unit := do
  noteKey
  let s ← get
  let r ← read (scanPlain (s.flow != 0) s.indent)
  allowKey r.broke
  emit (.scalar r.text true) s.input.mark r.stop

/-- Whether a plain scalar may start with `c` when `next` follows. -/
def startsPlain (flow : Bool) (c next : Char) : Bool :=
  if c == '-' then !isBlank next
  else if c == '?' || c == ':' then !flow && !endsWord next
  else !(endsWord c || ",[]\x7b\x7d#&*!|>'\"%@\x60".toList.contains c)

/-- The token that starts with `c`, other than a document mark or a directive. -/
def token (flow : Bool) (c next : Char) : Scan Unit := do
  if c == '[' then flowStart .flowSequenceStart
  else if c == '\x7b' then flowStart .flowMappingStart
  else if c == ']' then flowEnd .flowSequenceEnd
  else if c == '\x7d' then flowEnd .flowMappingEnd
  else if c == ',' then flowEntry
  else if c == '-' && endsWord next then blockEntry
  else if c == '?' && (flow || endsWord next) then keyMark
  else if c == ':' && (flow || endsWord next) then valueMark
  else if c == '*' then node (Token.Kind.link <$> scanAnchorName)
  else if c == '&' then node (Token.Kind.anchor <$> scanAnchorName)
  else if c == '!' then node scanTag
  else if c == '|' && !flow then blockScalar true
  else if c == '>' && !flow then blockScalar false
  else if c == '\'' then node ((Token.Kind.scalar · false) <$> scanQuoted true)
  else if c == '"' then node ((Token.Kind.scalar · false) <$> scanQuoted false)
  else if startsPlain flow c next then plainScalar
  else refuse (← here) "found character that cannot start any token"

/-- A token and the comment behind it on its line. The comment belongs to the token before if this
one only divides; a dash has none. -/
def commentedToken (c next : Char) : Scan Unit := do
  let s ← get
  let divides := if s.flow == 0 then c == ':' else c == ','
  let owner := match divides, s.queue.fromLast? 0 with
    | true, some t => t.start
    | _, _ => s.input.mark
  token (s.flow != 0) c next
  if ((← get).queue.fromLast? 0).map Token.kind != some .blockEntry then passLineComment owner

/-- Scans one more token, with the ends of the blocks that end before it. -/
def step : Scan Unit := do
  read (need 1)
  if !(← get).started then streamStart
  else
    let before ← here
    passToToken before (← Scan.bound)
    unroll (← here).column before
    read (need 4)
    let c ← read (look 0)
    if c == textEnd then streamEnd
    else if (← here).column == 0 && c == '%' then directive
    else if ← read atDocumentMark then
      documentMark (if c == '-' then .documentStart else .documentEnd)
    else commentedToken c (← read (look 1))

/-- Whether the first waiting token is final. -/
def ready : Scan Bool := do
  let s ← get
  if s.queue.size < 3 then return false
  match s.waiting.lookup s.queue.passed with
  | none => return true
  | some level => return (← validKey level).isNone

/-- Scans on until the first waiting token is final. Each step but those at the end takes a character
at least, so the length of the text bounds their number. -/
def supplyWithin : (bound : Nat) → Scan Unit
  | 0 => return
  | bound + 1 => do
    if !(← ready) then
      step
      supplyWithin bound

/-- Scans on until the first waiting token is final. -/
def supply : Scan Unit := do supplyWithin (← Scan.bound)

/-- Forgets the comments that belong to tokens up to `t`. Those at the end of a block that lead what
follows are kept. -/
def settleComments (t : Token) : List Comment → List Comment
  | [] => []
  | c :: cs =>
    if c.token ≤ t.start.index && !(c.place == .head && t.kind == .blockEnd) then
      settleComments t cs
    else c :: cs

end Scan

end TreeAsm.Yaml
