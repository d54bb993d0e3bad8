import TreeAsm.Yaml.Mark

/-!
# Document nodes

A document is a tree of scalars, sequences and mappings, each with its tag and where it starts. An
alias stands for the node that bears its name as an anchor.
-/

namespace TreeAsm.Yaml

/-- A node of a document. Tags are in their short form, and a scalar without one in the text has
the tag that its value resolves to. An alias holds the node that it stands for; if it stands
`inside` that very node, it holds only the node's outline, without content. -/
inductive Node where
  | scalar (pos : Position) (tag value : String)
  | sequence (pos : Position) (tag : String) (items : List Node)
  | mapping (pos : Position) (tag : String) (entries : List (Node × Node))
  | link (pos : Position) (name : String) (target : Node) (inside : Bool)
  deriving Inhabited

namespace Node

/-- Where a node starts. -/
def pos : Node → Position
  | scalar p _ _ => p
  | sequence p _ _ => p
  | mapping p _ _ => p
  | link p _ _ _ => p

/-- The text of a scalar, the name of an alias, and nothing for a collection. -/
def text : Node → String
  | scalar _ _ v => v
  | link _ name _ _ => name
  | _ => ""

/-- Whether a node is a scalar that stands for nothing. -/
def isNull : Node → Bool
  | scalar _ tag _ => tag == "!!null"
  | _ => false

/-- A collection without its content; any other node as it is. -/
def outline : Node → Node
  | sequence p tag _ => sequence p tag []
  | mapping p tag _ => mapping p tag []
  | n => n

/-- The value of the first entry of a mapping whose key reads `key`. -/
def get? (n : Node) (key : String) : Option Node :=
  match n with
  | mapping _ _ entries => (entries.find? fun e => e.1.text == key).map (·.2)
  | _ => none

end Node

end TreeAsm.Yaml
