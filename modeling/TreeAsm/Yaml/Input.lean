import TreeAsm.Yaml.Mark

/-!
# The text of a document, read ahead

A text is taken in by pieces of a fixed size. Only what has been taken in is looked at, so a
character that no document may hold does no harm behind the end of a document, as long as its piece
is never asked for. `Input.need` asks for characters ahead; all other steps work on those.
-/

namespace TreeAsm.Yaml

/-- How many bytes are taken in at a time. -/
def pieceSize : Nat := 512

/-- The character that may stand in front of a text to show its encoding. -/
def byteOrderMark : Char := '\ufeff'

/-- Cuts a text into pieces. The first has room for `room` bytes and starts with `piece`, reversed;
no character is divided. -/
def cutPieces : List Char → (room : Nat) → (piece : List Char) → List (List Char)
  | [], _, piece => if piece.isEmpty then [] else [piece.reverse]
  | c :: cs, room, piece =>
    if c.utf8Size ≤ room then cutPieces cs (room - c.utf8Size) (c :: piece)
    else piece.reverse :: cutPieces cs (pieceSize - c.utf8Size) [c]

/-- A text that is being read. -/
structure Input where
  /-- What has not been taken in. A piece with a character that no document may hold is `none`. -/
  pieces : List (Option (List Char))
  /-- What has been taken in and not been read. -/
  ahead : List Char
  /-- The length of `ahead`. -/
  unread : Nat
  /-- Whether the characters that were held when something was last taken in start with a byte order
  mark. -/
  marked : Bool
  mark : Mark
  /-- How many line breaks have been read since the last character that is no blank. -/
  breaks : Nat
  /-- A bound on the number of steps that reading takes. -/
  bound : Nat

/-- The start of a text. A byte order mark in front of it is skipped, and an empty text counts as an
empty line. -/
def Input.ofText (text : String) : Input :=
  let (cs, room) := match text.toList with
    | [] => (['\n'], pieceSize)
    | c :: cs =>
      if c == byteOrderMark then (cs, pieceSize - c.utf8Size) else (c :: cs, pieceSize)
  { pieces := (cutPieces cs room []).map fun piece =>
      if piece.all isDocumentChar then some piece else none
    ahead := [], unread := 0, marked := false, mark := .zero, breaks := 0
    bound := 4 * cs.length + 16 }

/-- A step of reading. -/
abbrev Read (α : Type) := StateT Input (Except SyntaxError) α

namespace Read

/-- Says why the text is no document. -/
def refuse {α : Type} (problem : String) : Read α := fun i => .error ⟨i.mark.line, problem⟩

/-- Takes in pieces until there are `n` characters. The end of the text is taken in as well. -/
def takeIn (n : Nat) : List (Option (List Char)) → (ahead : List Char) → (unread : Nat) →
    Except SyntaxError (List (Option (List Char)) × List Char × Nat)
  | [], ahead, unread => .ok ([], ahead ++ [textEnd], unread + 1)
  | none :: _, _, _ => .error ⟨0, "control characters are not allowed"⟩
  | some piece :: pieces, ahead, unread =>
    let ahead := ahead ++ piece
    let unread := unread + piece.length
    if n ≤ unread then .ok (pieces, ahead, unread) else takeIn n pieces ahead unread

/-- Asks for `n` characters ahead. -/
def need (n : Nat) : Read Unit := fun i =>
  if n ≤ i.unread then .ok ((), i)
  else match takeIn n i.pieces i.ahead i.unread with
    | .error e => .error e
    | .ok (pieces, ahead, unread) =>
      .ok ((), { i with
        pieces := pieces, ahead := ahead, unread := unread
        marked := ahead.head? == some byteOrderMark })

/-- The character `n` places ahead. -/
def look (n : Nat) : Read Char := fun i => .ok (i.ahead.getD n textEnd, i)

/-- The current place. -/
def mark : Read Mark := fun i => .ok (i.mark, i)

/-- The bound on the number of steps. -/
def bound : Read Nat := fun i => .ok (i.bound, i)

/-- Passes over a character that is no line break. -/
def skip : Read Unit := fun i =>
  .ok ((), { i with
    ahead := i.ahead.drop 1
    unread := i.unread - 1
    mark := i.mark.next
    breaks := if isBlank (i.ahead.getD 0 textEnd) then i.breaks else 0 })

/-- Passes over `n` characters that are no line breaks. -/
def skips : (n : Nat) → Read Unit
  | 0 => return
  | n + 1 => do skip; skips n

/-- Passes over a line break and gives what it counts as; nothing where there is none. -/
def lineBreak : Read (List Char) := fun i =>
  let passed (width : Nat) : Input :=
    { i with
      ahead := i.ahead.drop width
      unread := i.unread - width
      mark := i.mark.newline width
      breaks := i.breaks + 1 }
  match i.ahead with
  | '\r' :: '\n' :: _ => .ok (['\n'], passed 2)
  | c :: _ => if isBreak c then .ok ([breakText c], passed 1) else .ok ([], i)
  | [] => .ok ([], i)

/-- Passes over characters while `p` holds, and gives them, reversed, in front of `taken`. -/
def takeOn (p : Char → Bool) : (bound : Nat) → (taken : List Char) → Read (List Char)
  | 0, taken => return taken
  | bound + 1, taken => do
    let c ← look 0
    if p c then
      skip
      need 1
      takeOn p bound (c :: taken)
    else return taken

/-- Passes over characters while `p` holds, and gives them. -/
def takeWhile (p : Char → Bool) : Read String := do
  need 1
  return String.ofList (← takeOn p (← bound) []).reverse

/-- Passes over characters while `p` holds. -/
def skipWhile (p : Char → Bool) : Read Unit := do
  let _ ← takeWhile p

/-- Whether `---` or `...` stands alone at the start of a line here, which separates documents. The
characters must have been asked for. -/
def atDocumentMark : Read Bool := fun i =>
  let alone (c : Char) : Bool :=
    i.ahead.take 3 == [c, c, c] && endsWord (i.ahead.getD 3 textEnd)
  .ok (i.mark.column == 0 && (alone '-' || alone '.'), i)

/-- The rest of a line that holds nothing but blanks and a comment, and its line break. -/
def restOfLine : Read Unit := do
  skipWhile isBlank
  if (← look 0) == '#' then skipWhile fun c => !endsLine c
  if !endsLine (← look 0) then refuse "did not find expected comment or line break"
  if isBreak (← look 0) then
    need 2
    let _ ← lineBreak

end Read

end TreeAsm.Yaml
