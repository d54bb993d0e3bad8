import TreeAsm.Yaml.Input
import TreeAsm.Yaml.Token.Queue

/-!
# The state of the scanner

The scanner keeps a stack of indentation columns for block structure, and for each level of nesting
of flow collections the place of a node that may turn out to be a mapping key. Such a node is known
to be a key only when a colon follows it on the same line; the tokens that say so are then inserted
in front of it.
-/

namespace TreeAsm.Yaml

/-- A node that may be a mapping key, as long as it is `possible`: the number of its first token,
where it stands, and whether it must be one, because it stands at the indentation of a block
mapping. -/
structure PendingKey where
  possible : Bool
  required : Bool
  token : Nat
  mark : Mark

/-- Which part of a document a comment belongs to: to what follows, to the line it stands on, or to
what came before. -/
inductive Comment.Place where
  | head
  | line
  | foot
  deriving DecidableEq

/-- A comment that has been passed over. Indices count characters: `scanned` is where the search for
it began, `token` that of the token it belongs to and `stop` its end. -/
structure Comment where
  place : Comment.Place
  scanned : Nat
  token : Nat
  start : Mark
  stop : Nat

/-- The state of the scanner. `keys` has one entry for each level of flow nesting, outermost first,
and `waiting` finds the level of a possible key by its token. `indents` holds the columns of the
surrounding blocks and `indent` that of the current one; `comments` are those whose token has not
been looked at, oldest first. -/
structure Scanner where
  input : Input
  queue : Queue
  started : Bool
  indent : Int
  indents : List Int
  flow : Nat
  keyAllowed : Bool
  keys : Array PendingKey
  waiting : List (Nat × Nat)
  comments : List Comment

/-- The scanner at the start of a text. -/
def Scanner.ofText (text : String) : Scanner :=
  { input := .ofText text, queue := .empty, started := false, indent := -1, indents := [],
    flow := 0, keyAllowed := false, keys := #[], waiting := [], comments := [] }

/-- A step of scanning. -/
abbrev Scan (α : Type) := StateT Scanner (Except SyntaxError) α

namespace Scan

/-- How deep blocks and flow collections may nest. -/
def maxDepth : Nat := 10000

/-- How far behind a possible key its colon may stand. -/
def maxKeyLength : Nat := 1024

/-- Says why the text is no document. -/
def refuse {α : Type} (m : Mark) (problem : String) : Scan α := fun _ => .error ⟨m.line, problem⟩

/-- Reads on in the text. -/
def read {α : Type} (x : Read α) : Scan α := fun s =>
  match x s.input with
  | .ok (a, i) => .ok (a, { s with input := i })
  | .error e => .error e

/-- The current place. -/
def here : Scan Mark := return (← get).input.mark

/-- The bound on the number of steps. -/
def bound : Scan Nat := return (← get).input.bound

/-- Appends a token. -/
def emit (kind : Token.Kind) (start stop : Mark) : Scan Unit :=
  modify fun s => { s with queue := s.queue.push ⟨kind, start, stop⟩ }

/-- Takes the indicator at the current place, of `width` characters, as a token. -/
def indicator (kind : Token.Kind) (width : Nat) : Scan Unit := do
  let start ← here
  read (Read.skips width)
  emit kind start (← here)

/-- Says whether a key may start at the next token. -/
def allowKey (allowed : Bool) : Scan Unit := modify fun s => { s with keyAllowed := allowed }

/-! ## Possible keys -/

private def noColon {α : Type} (k : PendingKey) : Scan α :=
  refuse k.mark "could not find expected ':'"

/-- Gives up the possible key of the current level. It is an error if it had to be one. -/
def dropKey : Scan Unit := do
  let s ← get
  match s.keys.back? with
  | none => return
  | some k =>
    if k.possible then
      if k.required then noColon k
      set { s with
        keys := s.keys.setIfInBounds (s.keys.size - 1) { k with possible := false }
        waiting := s.waiting.filter fun w => w.1 != k.token }

/-- Notes that a node starts here, which may be a key. -/
def noteKey : Scan Unit := do
  let s ← get
  if s.keyAllowed then
    let m := s.input.mark
    let key : PendingKey := ⟨true, s.flow == 0 && s.indent == m.column, s.queue.nextNumber, m⟩
    dropKey
    modify fun s => { s with
      keys := s.keys.setIfInBounds (s.keys.size - 1) key
      waiting := (key.token, s.keys.size - 1) :: s.waiting.filter fun w => w.1 != key.token }

/-- The possible key of a level, if it stands on this line and not too far back. Otherwise it is
given up. -/
def validKey (level : Nat) : Scan (Option PendingKey) := do
  let s ← get
  match s.keys[level]? with
  | none => return none
  | some k =>
    let m := s.input.mark
    if !k.possible then return none
    else if k.mark.line < m.line || k.mark.index + maxKeyLength < m.index then
      if k.required then noColon k
      set { s with keys := s.keys.setIfInBounds level { k with possible := false } }
      return none
    else return some k

/-- A level of flow nesting more, without a possible key so far. -/
def enterFlow : Scan Unit := do
  let s ← get
  if maxDepth < s.flow + 1 then refuse s.input.mark "exceeded max depth of 10000"
  set { s with
    flow := s.flow + 1
    keys := s.keys.push ⟨false, false, s.queue.nextNumber, s.input.mark⟩ }

/-- A level of flow nesting less. -/
def leaveFlow : Scan Unit := modify fun s =>
  if s.flow == 0 then s
  else
    let waiting := match s.keys.back? with
      | some k => s.waiting.filter fun w => w.1 != k.token
      | none => s.waiting
    { s with flow := s.flow - 1, keys := s.keys.pop, waiting := waiting }

/-! ## Indentation -/

/-- Opens a block at `column` if that is deeper than the current one. The start token goes in front
of token number `before`, or to the end. -/
def roll (column : Nat) (before : Option Nat) (kind : Token.Kind) (m : Mark) : Scan Unit := do
  let s ← get
  if s.flow == 0 && s.indent < column then
    if maxDepth < s.indents.length + 1 then refuse m "exceeded max depth of 10000"
    let token : Token := ⟨kind, m, m⟩
    let queue := match before with
      | some n => s.queue.insertAt n token
      | none => s.queue.push token
    set { s with indents := s.indent :: s.indents, indent := column, queue := queue }

/-- Where a block at `indent` ends that would end at `m`: in front of the comments behind it that
stand at its column. `comments` are the latest first, of which only those that end at `stop` or
later are looked at. -/
def blockStop (indent : Int) : List Comment → (stop : Nat) → (m : Mark) → Mark
  | [], _, m => m
  | c :: cs, stop, m =>
    if c.stop < stop then m
    else blockStop indent cs c.scanned (if c.start.column == indent + 1 then c.start else m)

/-- Closes the blocks that are deeper than `column`; `levels` are the columns around them. -/
def unrollLevels (column : Int) (comments : List Comment) :
    Mark → Int → List Int → Queue → Int × List Int × Queue
  | _, indent, [], queue => (indent, [], queue)
  | m, indent, outer :: levels, queue =>
    if column < indent then
      let m := blockStop indent comments m.index m
      unrollLevels column comments m outer levels (queue.push ⟨.blockEnd, m, m⟩)
    else (indent, outer :: levels, queue)

/-- Closes the blocks that are deeper than `column`, in front of `m`. Flow collections do not mind
indentation. -/
def unroll (column : Int) (m : Mark) : Scan Unit := modify fun s =>
  if s.flow == 0 then
    let (indent, indents, queue) := unrollLevels column s.comments.reverse
      { m with index := m.index - 1 } s.indent s.indents s.queue
    { s with indent := indent, indents := indents, queue := queue }
  else s

end Scan

end TreeAsm.Yaml
