import TreeAsm.Yaml.Node
import TreeAsm.Yaml.Resolve
import TreeAsm.Yaml.Token.Scan

/-!
# The document of a text

`Node.ofText` reads the first document of a text: it asks the scanner for tokens and builds the tree
that they spell. What follows the first document is not looked at, except that the scanner runs
ahead of the builder.
-/

namespace TreeAsm.Yaml

/-- What the builder of a document holds: the scanner, whether its next token has been asked for, the
tag handles of the document, and the nodes that bear an anchor, latest first, each with the mark
whether it is still being built. -/
structure Builder where
  scanner : Scanner
  asked : Bool
  handles : List (String × String)
  anchors : List (String × Node × Bool)

/-- Building steps either go on with what is left or say why the text is no document. -/
abbrev Build (α : Type) := StateT Builder (Except SyntaxError) α

namespace Build

/-- Refuses the text. -/
def refuse {α : Type} (m : Mark) (problem : String) : Build α :=
  throw ⟨m.line, problem⟩

/-- Lets the scanner make the next token final. -/
def ask : Build Unit := fun b =>
  if b.asked then .ok ((), b)
  else match Scan.supply b.scanner with
    | .ok (_, scanner) => .ok ((), { b with scanner := scanner, asked := true })
    | .error e => .error e

/-- The next token. The comments that belong to it or to earlier ones are of no more interest. -/
def peek : Build Token := do
  ask
  let s := (← get).scanner
  let t := s.queue.first?.getD ⟨.streamEnd, .zero, .zero⟩
  modify fun b => { b with scanner := { s with comments := Scan.settleComments t s.comments } }
  return t

/-- Passes over the next token. -/
def skip : Build Unit := modify fun b =>
  { b with asked := false, scanner := { b.scanner with queue := b.scanner.queue.pop } }

/-- The slot of the next token. -/
def slot : Build Queue.Slot := return (← get).scanner.queue.firstSlot

/-- Where the token starts that a slot holds now. -/
def slotStart (slot : Queue.Slot) : Build Mark :=
  return (((← get).scanner.queue.inSlot slot).map Token.start).getD .zero

/-- A scalar that is not there. -/
def emptyScalar (m : Mark) : Node := .scalar m.position "!!null" ""

/-- The short form of a tag. -/
def shortTag (tag : String) : String :=
  let long := "tag:yaml.org,2002:"
  if tag.startsWith long then "!!" ++ (tag.drop long.length).toString else tag

/-- Anchor and tag of a node, either of which may come first, and where the first of them stands. -/
structure Properties where
  start : Mark
  anchor : Option String
  tag : Option String

/-- The tag that a tag token means: its handle is replaced by what it stands for. -/
def resolveTag (m : Mark) (handle suffix : String) : Build String := do
  if handle.isEmpty then return suffix
  match (← get).handles.find? fun h => h.1 == handle with
  | some h =>
    if (h.2 ++ suffix).isEmpty then refuse m "found undefined tag handle" else return h.2 ++ suffix
  | none => refuse m "found undefined tag handle"

/-- Reads the anchor and the tag in front of a node. -/
def properties : Build Properties := do
  let t ← peek
  match t.kind with
  | .anchor name =>
    skip
    let u ← peek
    match u.kind with
    | .tag handle suffix =>
      skip
      let _ ← peek
      return ⟨t.start, some name, some (← resolveTag t.start handle suffix)⟩
    | _ => return ⟨t.start, some name, none⟩
  | .tag handle suffix =>
    skip
    let u ← peek
    match u.kind with
    | .anchor name =>
      skip
      let _ ← peek
      return ⟨t.start, some name, some (← resolveTag t.start handle suffix)⟩
    | _ => return ⟨t.start, none, some (← resolveTag t.start handle suffix)⟩
  | _ => return ⟨t.start, none, none⟩

/-- The tag that stands in the text, or else `default`. An empty tag and `!` ask for the default. -/
def tagOr (tag : Option String) (default : String) : String :=
  match tag with
  | none => default
  | some t => if t == "" || t == "!" then default else shortTag t

/-- The tag of a scalar without one in the text. -/
def scalarTag (text : String) (plain : Bool) : String :=
  if !plain then "!!str"
  else if text == "<<" then "!!merge"
  else (Resolved.ofText true text).tag

/-- Lets an anchor name a node from here on. -/
def remember (anchor : Option String) (n : Node) (open_ : Bool) : Build Unit :=
  match anchor with
  | none => pure ()
  | some name => modify fun b => { b with anchors := (name, n, open_) :: b.anchors }

/-- Puts a finished collection in the place of its outline. -/
def finish (anchor : Option String) (n : Node) : Build Unit :=
  match anchor with
  | none => pure ()
  | some name => modify fun b => { b with anchors := b.anchors.map fun a =>
      if a.1 == name && a.2.2 && a.2.1.pos == n.pos then (name, n, false) else a }

/-- The node that an alias stands for. -/
def linkNode (m : Mark) (name : String) : Build Node := do
  match (← get).anchors.find? fun a => a.1 == name with
  | some (_, n, inside) => return .link m.position name n inside
  | none => refuse m s!"unknown anchor '{name}' referenced"

mutual

/-- Builds one node. `block` allows block collections, and `indentless` a block sequence at the
indentation of the mapping around it. Every second step takes a token at least, which bounds
`budget`. -/
def node (budget : Nat) (block indentless : Bool) : Build Node := do
  match budget with
  | 0 => refuse .zero "document too deep"
  | budget + 1 =>
    let t ← peek
    if let .link name := t.kind then
      skip
      return ← linkNode t.start name
    let p ← properties
    let t ← peek
    let sequence (items : Build (List Node)) : Build Node := do
      let tag := tagOr p.tag "!!seq"
      remember p.anchor (.sequence p.start.position tag []) true
      let n := Node.sequence p.start.position tag (← items)
      finish p.anchor n
      return n
    let mapping (entries : Build (List (Node × Node))) : Build Node := do
      let tag := tagOr p.tag "!!map"
      remember p.anchor (.mapping p.start.position tag []) true
      let n := Node.mapping p.start.position tag (← entries)
      finish p.anchor n
      return n
    let scalar (text : String) (plain : Bool) : Build Node := do
      let n := Node.scalar p.start.position (tagOr p.tag (scalarTag text plain)) text
      remember p.anchor n false
      return n
    match t.kind, block, indentless with
    | .blockEntry, _, true => sequence (indentlessItems budget)
    | .scalar text plain, _, _ => skip; scalar text plain
    | .flowSequenceStart, _, _ => skip; sequence (flowItems budget true)
    | .flowMappingStart, _, _ => skip; mapping (flowEntries budget true)
    | .blockSequenceStart, true, _ => skip; sequence (blockItems budget)
    | .blockMappingStart, true, _ => skip; mapping (blockEntries budget)
    | _, _, _ =>
      if p.anchor.isSome || p.tag.isSome then scalar "" true
      else refuse t.start "did not find expected node content"

/-- The items of a block sequence, to the end of the block. -/
def blockItems (budget : Nat) : Build (List Node) := do
  match budget with
  | 0 => refuse .zero "document too deep"
  | budget + 1 =>
    let t ← peek
    match t.kind with
    | .blockEntry =>
      skip
      let u ← peek
      let n ← match u.kind with
        | .blockEntry | .blockEnd => pure (emptyScalar t.stop)
        | _ => node budget true false
      return n :: (← blockItems budget)
    | .blockEnd => skip; return []
    | _ => refuse t.start "did not find expected '-' indicator"

/-- The items of a block sequence at the indentation of the mapping around it. -/
def indentlessItems (budget : Nat) : Build (List Node) := do
  match budget with
  | 0 => refuse .zero "document too deep"
  | budget + 1 =>
    let t ← peek
    match t.kind with
    | .blockEntry =>
      skip
      let u ← peek
      let n ← match u.kind with
        | .blockEntry | .key | .value | .blockEnd => pure (emptyScalar t.stop)
        | _ => node budget true false
      return n :: (← indentlessItems budget)
    | _ => return []

/-- The entries of a block mapping, to the end of the block. -/
def blockEntries (budget : Nat) : Build (List (Node × Node)) := do
  match budget with
  | 0 => refuse .zero "document too deep"
  | budget + 1 =>
    let t ← peek
    match t.kind with
    | .key =>
      skip
      let u ← peek
      let k ← match u.kind with
        | .key | .value | .blockEnd => pure (emptyScalar t.stop)
        | _ => node budget true true
      let v ← blockValue budget
      return (k, v) :: (← blockEntries budget)
    | .blockEnd => skip; return []
    | _ => refuse t.start "did not find expected key"

/-- The value after a key of a block mapping. -/
def blockValue (budget : Nat) : Build Node := do
  match budget with
  | 0 => refuse .zero "document too deep"
  | budget + 1 =>
    let t ← peek
    match t.kind with
    | .value =>
      skip
      let u ← peek
      match u.kind with
      | .key | .value | .blockEnd => return emptyScalar t.stop
      | _ => node budget true true
    | _ => return emptyScalar t.start

/-- The items of a flow sequence, to the closing bracket. A key among them is a mapping of one
entry. -/
def flowItems (budget : Nat) (first : Bool) : Build (List Node) := do
  match budget with
  | 0 => refuse .zero "document too deep"
  | budget + 1 =>
    let t ← peek
    if t.kind == .flowSequenceEnd then
      skip
      return []
    if !first then
      if t.kind != .flowEntry then refuse t.start "did not find expected ',' or ']'"
      skip
    let t ← peek
    match t.kind with
    | .key =>
      skip
      let n ← flowPair budget t.start
      return n :: (← flowItems budget false)
    | .flowSequenceEnd => skip; return []
    | _ =>
      let n ← node budget false false
      return n :: (← flowItems budget false)

/-- A mapping of one entry inside a flow sequence, after its key mark. A value that is not there
stands where the slot of its value mark says after the next token has been looked at. -/
def flowPair (budget : Nat) (start : Mark) : Build Node := do
  match budget with
  | 0 => refuse .zero "document too deep"
  | budget + 1 =>
    let t ← peek
    let k ← match t.kind with
      | .value | .flowEntry | .flowSequenceEnd => skip; pure (emptyScalar t.stop)
      | _ => node budget false false
    let t ← peek
    let v ← match t.kind with
      | .value =>
        let place ← slot
        skip
        let u ← peek
        match u.kind with
        | .flowEntry | .flowSequenceEnd => pure (emptyScalar (← slotStart place))
        | _ => node budget false false
      | _ => pure (emptyScalar t.start)
    return .mapping start.position "!!map" [(k, v)]

/-- The entries of a flow mapping, to the closing brace. An entry without a key mark has no value. -/
def flowEntries (budget : Nat) (first : Bool) : Build (List (Node × Node)) := do
  match budget with
  | 0 => refuse .zero "document too deep"
  | budget + 1 =>
    let t ← peek
    if t.kind == .flowMappingEnd then
      skip
      return []
    if !first then
      if t.kind != .flowEntry then refuse t.start "did not find expected ',' or a closing brace"
      skip
    let t ← peek
    match t.kind with
    | .key =>
      skip
      let u ← peek
      let k ← match u.kind with
        | .value | .flowEntry | .flowMappingEnd => pure (emptyScalar u.start)
        | _ => node budget false false
      let v ← flowValue budget
      return (k, v) :: (← flowEntries budget false)
    | .flowMappingEnd => skip; return []
    | _ =>
      let k ← node budget false false
      let u ← peek
      return (k, emptyScalar u.start) :: (← flowEntries budget false)

/-- The value after a key of a flow mapping. -/
def flowValue (budget : Nat) : Build Node := do
  match budget with
  | 0 => refuse .zero "document too deep"
  | budget + 1 =>
    let t ← peek
    match t.kind with
    | .value =>
      skip
      let u ← peek
      match u.kind with
      | .flowEntry | .flowMappingEnd => return emptyScalar u.start
      | _ => node budget false false
    | _ => return emptyScalar t.start

end

/-- Adds a tag handle of a directive. -/
def addHandle (m : Mark) (handle uri : String) : Build Unit := do
  if (← get).handles.any fun h => h.1 == handle then refuse m "found duplicate %TAG directive"
  modify fun b => { b with handles := b.handles ++ [(handle, uri)] }

/-- The directives in front of a document. -/
def directives : (bound : Nat) → (versioned : Bool) → Build Unit
  | 0, _ => pure ()
  | bound + 1, versioned => do
    let t ← peek
    match t.kind with
    | .versionDirective major minor =>
      if versioned then refuse t.start "found duplicate %YAML directive"
      if major != 1 || minor != 1 then refuse t.start "found incompatible YAML document"
      skip
      directives bound true
    | .tagDirective handle uri =>
      addHandle t.start handle uri
      skip
      directives bound versioned
    | _ => pure ()

/-- The handles that every document has, unless its directives say otherwise. -/
def defaultHandles : Build Unit := modify fun b =>
  { b with handles := b.handles ++ [("!", "!"), ("!!", "tag:yaml.org,2002:")].filter fun h =>
      !(b.handles.any fun g => g.1 == h.1) }

/-- The root of the first document, if there is a document at all. -/
def document : Build (Option Node) := do
  let bound := (← get).scanner.input.bound
  let budget := 4 * bound
  let _ ← peek
  skip
  let t ← peek
  match t.kind with
  | .streamEnd => return none
  | .versionDirective _ _ | .tagDirective _ _ | .documentStart =>
    directives bound false
    defaultHandles
    let t ← peek
    if t.kind != .documentStart then refuse t.start "did not find expected <document start>"
    skip
    let t ← peek
    let n ← match t.kind with
      | .versionDirective _ _ | .tagDirective _ _ | .documentStart | .documentEnd | .streamEnd =>
        pure (emptyScalar t.start)
      | _ => node budget true false
    let _ ← peek
    return some n
  | _ =>
    defaultHandles
    let n ← node budget true false
    let _ ← peek
    return some n

end Build

/-- The root of the first document of a text, or nothing if the text has no document. -/
def Node.ofText (text : String) : Except SyntaxError (Option Node) :=
  match Build.document { scanner := .ofText text, asked := false, handles := [], anchors := [] } with
  | .ok (n, _) => .ok n
  | .error e => .error e

end TreeAsm.Yaml
