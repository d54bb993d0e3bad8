import TreeAsm.Failure

/-!
# Hosts

What the compiler needs from where it runs: files, variables of the environment and a place to print
to. One host is kept in memory.
-/

namespace TreeAsm

/-- A monad in which the compiler can run. A refused operation on a file gives its reason. -/
class Host (m : Type → Type) where
  readFile : (path : String) → m (Outcome String)
  writeFile : (path content : String) → m (Outcome Unit)
  print : (text : String) → m Unit
  getVariable : (name : String) → m (Option String)

/-- A step in a host that may fail. -/
abbrev Hosted (m : Type → Type) (α : Type) := ExceptT Failure m α

namespace Hosted

variable {m : Type → Type} [Monad m]

/-- A step that needs no host. -/
def lift {α : Type} (x : Outcome α) : Hosted m α := ExceptT.mk (pure x)

/-- Names the step that a failure happened in. -/
def within {α : Type} (step : String) (x : Hosted m α) : Hosted m α :=
  ExceptT.mk do return Outcome.within step (← x.run)

/-- Reads a file. -/
def readFile [Host m] (path : String) : Hosted m String := ExceptT.mk (Host.readFile path)

/-- Writes a file. -/
def writeFile [Host m] (path content : String) : Hosted m Unit :=
  ExceptT.mk (Host.writeFile path content)

/-- Prints a text. -/
def print [Host m] (text : String) : Hosted m Unit := ExceptT.lift (Host.print text)

end Hosted

/-- The names along a path. -/
abbrev Path := List String

/-- The names along a written path; names that do not lead anywhere are left out. -/
def Path.ofText (text : String) : Path :=
  (text.splitOn "/").foldl (fun path name =>
    if name == "" || name == "." then path
    else if name == ".." then path.dropLast
    else path ++ [name]) []

/-- How a path is written. -/
def Path.render (p : Path) : String := String.intercalate "/" p

/-- A host in memory: its files, its environment and what has been printed. -/
structure Machine where
  files : List (Path × String)
  environment : List (String × String)
  printed : String

namespace Machine

/-- Whether there is a directory at a path: the one that all paths start from, or one with a file
in it. -/
def isDirectory (w : Machine) (p : Path) : Bool :=
  p.isEmpty || w.files.any fun f => p.length < f.1.length && f.1.take p.length == p

/-- The content of the file at a path. -/
def file? (w : Machine) (p : Path) : Option String := w.files.lookup p

/-- Whether a file stands where a path needs a directory. -/
def isBlocked (w : Machine) (p : Path) : Bool :=
  w.files.any fun f => f.1.length < p.length && p.take f.1.length == f.1

/-- The machine without the file at a path. -/
def remove (w : Machine) (p : Path) : Machine :=
  { w with files := w.files.filter fun f => f.1 != p }

/-- The machine with a file. -/
def put (w : Machine) (p : Path) (content : String) : Machine :=
  { w with files := (p, content) :: (w.remove p).files }

/-- The path that a text stands for, unless it leads out of the machine. -/
def locate? (text : String) : Option Path :=
  if text == "" || text.toList.head? == some '/' then none else some (Path.ofText text)

/-- Reads a file. -/
def read (w : Machine) (text : String) : Outcome String :=
  let refuse (reason : String) : Outcome String := .fail (.fileRefused reason)
  match locate? text with
  | none => refuse s!"open {text}: no such file or directory"
  | some p =>
    match w.file? p with
    | some content => .ok content
    | none =>
      if w.isDirectory p then refuse s!"read {text}: is a directory"
      else if w.isBlocked p then refuse s!"open {text}: not a directory"
      else refuse s!"open {text}: no such file or directory"

/-- Writes a file. Its directory must be there. -/
def write (w : Machine) (text content : String) : Outcome Machine :=
  let refuse (reason : String) : Outcome Machine := .fail (.fileRefused reason)
  match locate? text with
  | none => refuse s!"open {text}: no such file or directory"
  | some p =>
    if w.isDirectory p then refuse s!"open {text}: is a directory"
    else if w.isBlocked p then refuse s!"open {text}: not a directory"
    else if w.isDirectory p.dropLast then .ok (w.put p content)
    else refuse s!"open {text}: no such file or directory"

end Machine

instance : Host (StateM Machine) where
  readFile path := do return (← get).read path
  writeFile path content := do
    match (← get).write path content with
    | .ok w => set w; return .ok ()
    | .error e => return .error e
  print text := modify fun w => { w with printed := w.printed ++ text }
  getVariable name := do return (← get).environment.lookup name

end TreeAsm
