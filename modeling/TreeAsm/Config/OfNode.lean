import TreeAsm.Config.Basic
import TreeAsm.Yaml.Document

/-!
# Configuration documents

A configuration is a mapping from the names of its fields to values. Missing and null values leave a
field as it is, unknown names are ignored, and values of the wrong type are collected and reported
together. The key `<<` brings in the entries of other mappings behind the mapping's own.
-/

namespace TreeAsm.Config

open Text (quoted)
open Yaml (Fractional Node Resolved)

/-- What has been read so far: the configuration, the faults, and, inside of mappings that are
brought in, the keys that are taken already. `visits` counts the nodes that were read and
`linkVisits` those of them that were read for an alias; `linked` tells that this is so now. -/
structure Reading where
  config : Config
  faults : List String
  taken : Option (List String)
  visits : Nat
  linkVisits : Nat
  linked : Bool

/-- Adds a fault. -/
def Reading.fault (r : Reading) (text : String) : Reading := { r with faults := r.faults ++ [text] }

/-- A failure that ends the reading. -/
def refuse {α : Type} (problem : String) : Outcome α := .fail (.notADocument ⟨0, problem⟩)

/-- Whether too much of what was read was read for aliases: 99 parts in a hundred, and less and less
from 400000 nodes on, down to ten parts at 4000000. A small document may be read as it likes. -/
def Reading.isExcessive (r : Reading) : Bool :=
  let least :=
    if r.visits ≤ 400000 then 356400000
    else if 4000000 ≤ r.visits then 36000000
    else 356400000 - 89 * (r.visits - 400000)
  100 < r.linkVisits && 1000 < r.visits && least * r.visits < 360000000 * r.linkVisits

/-- Counts a node. -/
def Reading.count (r : Reading) (linked : Bool) : Outcome Reading :=
  let r := { r with
    visits := r.visits + 1
    linkVisits := if linked then r.linkVisits + 1 else r.linkVisits }
  if r.isExcessive then refuse "document contains excessive aliasing" else .ok r

/-- Counts a node that is read, and with an alias the node that it stands for. -/
def Reading.visit (r : Reading) : Node → Outcome Reading
  | .link .. => do (← r.count r.linked).count true
  | _ => r.count r.linked

/-- The wording of a value of the wrong type. Long values are cut. -/
def wrongType (n : Node) (tag into : String) : String :=
  let text := n.text
  let value :=
    if tag == "!!seq" || tag == "!!map" then text
    else if text.utf8ByteSize > 10 then " \x60" ++ Text.takeBytes 7 text ++ "...\x60"
    else " \x60" ++ text ++ "\x60"
  s!"line {n.pos.line}: cannot unmarshal {tag}{value} into {into}"

/-- Whether two keys are the same key: both scalars, both aliases, or collections of one kind, with
the same text. -/
def sameKey : Node → Node → Bool
  | .scalar _ _ a, .scalar _ _ b => a == b
  | .link _ a _ _, .link _ b _ _ => a == b
  | .sequence _ _ _, .sequence _ _ _ => true
  | .mapping _ _ _, .mapping _ _ _ => true
  | _, _ => false

/-- The faults of keys that occur more than once. -/
def repeatedKeys : List (Node × Node) → List String
  | [] => []
  | (k, _) :: rest =>
    ((rest.filter fun e => sameKey k e.1).map fun e =>
      s!"line {e.1.pos.line}: mapping key " ++ quoted e.1.text
        ++ s!" already defined at line {k.pos.line}") ++ repeatedKeys rest

/-- What a scalar with a tag stands for. Numbers and the like must look like what their tag says,
but a whole number may stand for one with a fraction. -/
def resolve (tag text : String) : Outcome Resolved :=
  if ["!!bool", "!!int", "!!float", "!!null", "!!timestamp"].contains tag then
    let r := Resolved.ofText (tag == "!!timestamp") text
    match r with
    | .int n =>
      if tag == "!!int" then .ok r
      else if tag == "!!float" && n < Text.Integer.signedBound then
        .ok (.real (.finite ⟨n < 0, n.natAbs, 0⟩))
      else refuse s!"cannot decode {r.tag} as a {tag}"
    | _ => if r.tag == tag then .ok r else refuse s!"cannot decode {r.tag} as a {tag}"
  else .ok .str

/-- The text that a scalar stands for where a string is asked for; none for null. -/
def scalarText (tag text : String) : Outcome (Option String) := do
  match ← resolve tag text with
  | .null => return none
  | _ =>
    if tag == "!!binary" then
      match Text.ofBase64? text with
      | some s => return some s
      | none => refuse "!!binary value contains invalid base64 data"
    else return some text

/-- A value as it is asked for: nothing, what it is, or a fault of its type. -/
inductive Value (α : Type) where
  | missing
  | found (a : α)
  | faulty (faults : List String)

/-- Reads a value that must be a scalar by a function of its tag and text. An alias stands for its
target. -/
def readScalar {α : Type} (into : String) (f : (tag text : String) → Outcome (Value α)) :
    Node → Outcome (Value α)
  | .scalar pos tag text => do
    match ← f tag text with
    | .faulty _ => return .faulty [wrongType (.scalar pos tag text) tag into]
    | v => return v
  | .sequence pos tag items => .ok (.faulty [wrongType (.sequence pos tag items) tag into])
  | .mapping pos tag entries =>
    let repeated := repeatedKeys entries
    .ok (.faulty (if repeated.isEmpty then [wrongType (.mapping pos tag entries) tag into]
      else repeated))
  | .link _ _ target _ => readScalar into f target

/-- Reads a text. -/
def readText : Node → Outcome (Value String) :=
  readScalar "string" fun tag text => do
    match ← scalarText tag text with
    | none => return .missing
    | some s => return .found s

/-- A whole number from one with a fraction, cut off toward zero. What is too small for a machine
integer is the smallest one, what is too large is none. -/
def wholeNumber? : Fractional → Option Int64
  | .finite d => match d.truncated with
    | some n =>
      let bound : Int := Text.Integer.signedBound
      if n > bound then none
      else if n < -bound || n == bound then some Int64.minValue
      else some (Int64.ofInt n)
    | none => none
  | .infinite negative => if negative then some Int64.minValue else none
  | .notANumber => none

/-- Reads a machine integer. -/
def readInt : Node → Outcome (Value Int64) :=
  readScalar "int" fun tag text => do
    if tag == "!!binary" then
      let _ ← scalarText tag text
    match ← resolve tag text with
    | .null => return .missing
    | .int n => if n < Text.Integer.signedBound then return .found (Int64.ofInt n) else return .faulty []
    | .real x => match wholeNumber? x with
      | some n => return .found n
      | none => return .faulty []
    | _ => return .faulty []

/-- The truth value that a word stands for. -/
def truthWord? (word : String) : Option Bool :=
  if ["y", "Y", "yes", "Yes", "YES", "on", "On", "ON"].contains word then some true
  else if ["n", "N", "no", "No", "NO", "off", "Off", "OFF"].contains word then some false
  else none

/-- Reads a truth value. Some words stand for one as well. -/
def readBool : Node → Outcome (Value Bool) :=
  readScalar "bool" fun tag text => do
    match ← resolve tag text with
    | .null => return .missing
    | .bool b => return .found b
    | .str => do
      match ← scalarText tag text with
      | some s => match truthWord? s with
        | some b => return .found b
        | none => return .faulty []
      | none => return .missing
    | _ => return .faulty []

/-- Sets a field by a value that was read. -/
def Reading.put {α : Type} (r : Reading) (v : Value α) (set : Config → α → Config) : Reading :=
  match v with
  | .missing => r
  | .found a => { r with config := set r.config a }
  | .faulty faults => { r with faults := r.faults ++ faults }

/-- The names of the fields. -/
def fieldNames : List String :=
  ["bits", "convention", "backend", "fat_strings", "debug", "entry", "ir_file"]

/-- Sets the field of a name. -/
def readField (r : Reading) (name : String) (n : Node) : Outcome Reading := do
  match name with
  | "bits" => return r.put (← readInt n) fun c v => { c with bits := v }
  | "convention" => return r.put (← readText n) fun c v => { c with convention := v }
  | "backend" => return r.put (← readText n) fun c v => { c with backend := v }
  | "fat_strings" => return r.put (← readBool n) fun c v => { c with fatStrings := v }
  | "debug" => return r.put (← readBool n) fun c v => { c with debug := v }
  | "entry" => return r.put (← readText n) fun c v => { c with entry := v }
  | "ir_file" => return r.put (← readText n) fun c v => { c with irFile := v }
  | _ => return r

/-- Whether a key brings in the entries of other mappings. -/
def isMerge : Node → Bool
  | .scalar _ tag text => text == "<<" && tag == "!!merge"
  | _ => false

/-- Reads the entries of a mapping but for those of other mappings. `done` are the fields that the
mapping has set already. -/
def readEntries (done : List String) (r : Reading) : List (Node × Node) → Outcome Reading
  | [] => .ok r
  | (k, v) :: rest =>
    if isMerge k then readEntries done r rest
    else do
      let r ← r.visit k
      match ← readText k with
      | .missing => readEntries done r rest
      | .faulty faults => readEntries done { r with faults := r.faults ++ faults } rest
      | .found name =>
        let isTaken := match r.taken with
          | some names => names.contains name
          | none => false
        if isTaken then readEntries done r rest
        else
          let r := { r with taken := r.taken.map (name :: ·) }
          if !fieldNames.contains name then readEntries done r rest
          else if done.contains name then
            readEntries done
              (r.fault s!"line {k.pos.line}: field {name} already set in type config.Config") rest
          else do
            let r ← readField (← r.visit v) name v
            readEntries (name :: done) r rest

/-- Whether a node is a collection that can be read, or an alias of one. -/
def isReadable : Node → Bool
  | .scalar .. => false
  | .sequence .. => true
  | .mapping _ _ entries => (repeatedKeys entries).isEmpty
  | .link _ _ target _ => isReadable target

/-- The failure of something other than a mapping at `<<`. -/
def refuseMerge {α : Type} : Outcome α :=
  refuse "map merge requires map or sequence of maps as the value"

/-- The failure of a mapping that is brought into itself. -/
def refuseLoop {α : Type} (name : String) : Outcome α :=
  refuse s!"anchor '{name}' value contains itself"

mutual

/-- Reads a node whatever it is. Only scalars that do not look like what their tag says, repeated
keys and nodes inside themselves can be wrong. -/
def surveyNode (r : Reading) : Node → Outcome Reading
  | .scalar _ tag text => do
    let r ← r.count r.linked
    let _ ← scalarText tag text
    return r
  | .sequence _ _ items => do surveyItems (← r.count r.linked) items
  | .mapping _ _ entries => do
    let r ← r.count r.linked
    let repeated := repeatedKeys entries
    if repeated.isEmpty then surveyEntries r entries
    else return { r with faults := r.faults ++ repeated }
  | .link _ name target inside =>
    if inside then refuseLoop name
    else do
      let after ← surveyNode { (← r.count r.linked) with linked := true } target
      return { after with linked := r.linked }

/-- Reads the items of a sequence whatever they are. -/
def surveyItems (r : Reading) : List Node → Outcome Reading
  | [] => .ok r
  | n :: rest => do surveyItems (← surveyNode r n) rest

/-- Reads the entries of a mapping whatever they are. -/
def surveyEntries (r : Reading) : List (Node × Node) → Outcome Reading
  | [] => .ok r
  | (k, v) :: rest => do surveyEntries (← surveyNode (← surveyNode r k) v) rest

end

/-- Notes the keys of a mapping that brings in others, with `names` before them. A collection cannot
be told from other keys, which is a crash. -/
def readKeys (r : Reading) (names : List String) : List (Node × Node) →
    Outcome (Reading × List String)
  | [] => .ok (r, names)
  | (k, _) :: rest => do
    let r ← surveyNode r k
    if isReadable k then .crash
    else
      let names := match ← readText k with
        | .found name => name :: names
        | _ => names
      readKeys r names rest

mutual

/-- Reads a node into a configuration. -/
def readNode (r : Reading) : Node → Outcome Reading
  | .scalar pos tag text => do
    match ← resolve tag text with
    | .null => return r
    | _ => do
      let _ ← scalarText tag text
      return r.fault (wrongType (.scalar pos tag text) tag "config.Config")
  | .sequence pos tag items => .ok (r.fault (wrongType (.sequence pos tag items) tag "config.Config"))
  | .mapping _ _ entries =>
    let repeated := repeatedKeys entries
    if !repeated.isEmpty then .ok { r with faults := r.faults ++ repeated }
    else do
      let r ← readEntries [] r entries
      if !entries.any (isMerge ·.1) then return r
      let (r, own) ← if r.taken.isSome then pure (r, []) else readKeys r [] entries
      readMerges own r entries
  | .link _ _ target _ => readNode r target

/-- Reads the mappings that the entries of a mapping bring in. `own` are the mapping's keys. -/
def readMerges (own : List String) (r : Reading) : List (Node × Node) → Outcome Reading
  | [] => .ok r
  | (k, v) :: rest =>
    if isMerge k then do
      let inner := { r with taken := some (r.taken.getD own) }
      let after ← match v with
        | .mapping p t es => do readNode (← inner.visit v) (.mapping p t es)
        | .link _ name target inside =>
          if inside then refuseLoop name
          else match target with
            | .mapping p t es => do
              readNode { (← inner.visit v) with linked := true } (.mapping p t es)
            | _ => refuseMerge
        | .sequence _ _ items => readMergeItems inner items
        | _ => refuseMerge
      return { after with
        taken := if r.taken.isSome then after.taken else none
        linked := r.linked }
    else readMerges own r rest

/-- Reads mappings in order. -/
def readMergeItems (r : Reading) : List Node → Outcome Reading
  | [] => .ok r
  | n :: rest => do
    let after ← match n with
      | .mapping p t es => do readNode (← r.visit n) (.mapping p t es)
      | .link _ name target inside =>
        if inside then refuseLoop name
        else match target with
          | .mapping p t es => do
            readNode { (← r.visit n) with linked := true } (.mapping p t es)
          | _ => refuseMerge
      | _ => refuseMerge
    readMergeItems { after with linked := r.linked } rest

end

/-- Changes a configuration by a document. -/
def readDocument (c : Config) (text : String) : Outcome Config :=
  Outcome.within "yaml" <|
    match Node.ofText text with
    | .error e => .fail (.notADocument e)
    | .ok none => .ok c
    | .ok (some n) => do
      let start : Reading := ⟨c, [], none, 1, 0, false⟩
      let r ← readNode (← start.visit n) n
      if r.faults.isEmpty then return r.config else .fail (.wrongTypes r.faults)

end TreeAsm.Config
