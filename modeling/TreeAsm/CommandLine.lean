import TreeAsm.Config.Load
import TreeAsm.Pipeline

/-!
# The command line

Three commands work on files: `compile` gives assembly text, `ir` prints the intermediate code and
`layout` prints the layouts of records. Flags change the configuration; they may stand before,
between and behind the files.
-/

namespace TreeAsm.CommandLine

open Text (quoted)

/-- What can be asked for. -/
inductive Command where
  | compile
  | ir
  | layout
  deriving DecidableEq, Repr

/-- The word for a command. -/
def Command.name : Command → String
  | .compile => "compile"
  | .ir => "ir"
  | .layout => "layout"

/-- The command that a word stands for. -/
def Command.ofName? (word : String) : Option Command :=
  [Command.compile, .ir, .layout].find? (·.name == word)

/-- What can be said beside the files. -/
inductive Flag where
  | config
  | bits
  | fatStrings
  | entry
  | output
  | debug
  | irFile
  | verbosity
  deriving DecidableEq, Repr

/-- The words for a flag. -/
def Flag.names : Flag → List String
  | .config => ["config", "c"]
  | .bits => ["bits"]
  | .fatStrings => ["fat-strings"]
  | .entry => ["entry"]
  | .output => ["output", "o"]
  | .debug => ["debug"]
  | .irFile => ["ir-file"]
  | .verbosity => ["verbosity", "v"]

/-- Whether a flag stands alone, without a value. -/
def Flag.isSwitch : Flag → Bool
  | .fatStrings | .debug => true
  | _ => false

/-- The flags that hold for every command. -/
def generalFlags : List Flag := [.verbosity]

/-- The flags of a command. -/
def Command.flags : Command → List Flag
  | .compile => [.config, .bits, .fatStrings, .entry, .output, .debug, .irFile]
  | .ir | .layout => [.config, .bits, .fatStrings, .entry]

/-- What the flags say. -/
structure Options where
  config : String
  bits : Int64
  fatStrings : Bool
  entry : String
  output : String
  debug : Bool
  irFile : String
  deriving DecidableEq, Repr

/-- Nothing said. -/
def Options.none : Options := ⟨"", 0, false, "", "", false, ""⟩

/-- The value of a switch. -/
def readSwitch (text : String) : Outcome Bool :=
  if ["1", "t", "T", "true", "TRUE", "True"].contains text then .ok true
  else if ["0", "f", "F", "false", "FALSE", "False"].contains text then .ok false
  else .fail (.usage ("strconv.ParseBool: parsing " ++ quoted text ++ ": invalid syntax"))

/-- The value of a number. -/
def readNumber (text : String) : Outcome Int64 :=
  match Text.Integer.read (some 10) text with
  | .ok n => .ok (Int64.ofInt n)
  | .error e =>
    .fail (.usage ("strconv.ParseInt: parsing " ++ quoted text ++ ": " ++ e.message))

/-- Sets what a flag says. -/
def Options.set (o : Options) (flag : Flag) (value : String) : Outcome Options := do
  match flag with
  | .config => return { o with config := value }
  | .bits => return { o with bits := ← readNumber value }
  | .fatStrings => return { o with fatStrings := ← readSwitch value }
  | .entry => return { o with entry := value }
  | .output => return { o with output := value }
  | .debug => return { o with debug := ← readSwitch value }
  | .irFile => return { o with irFile := value }
  | .verbosity => return o

/-- A written flag: its dashes and name, its name alone, and a value that follows an equals sign. -/
structure WrittenFlag where
  shown : String
  name : String
  value : Option String

/-- Splits an argument that starts with a dash. One dash alone is none. -/
def WrittenFlag.ofArgument? (arg : String) : Option WrittenFlag :=
  let (shown, value) := arg.toList.span (· != '=')
  let value := match value with
    | '=' :: v => some (String.ofList v)
    | _ => Option.none
  let written (name : List Char) : Option WrittenFlag :=
    some ⟨String.ofList shown, String.ofList name, value⟩
  match shown with
  | '-' :: '-' :: name => written name
  | ['-'] => Option.none
  | '-' :: name => written name
  | _ => Option.none

/-- Finds a flag by its name. -/
def findFlag (flags : List Flag) (w : WrittenFlag) : Outcome Flag :=
  match flags.find? (·.names.contains w.name) with
  | some flag => .ok flag
  | none => Outcome.within w.shown (.fail (.usage "no such flag"))

/-- Reads the arguments of a command: its flags and its files. -/
def readArguments (flags : List Flag) (o : Options) (files : List String) :
    List String → Outcome (Options × List String)
  | [] => .ok (o, files)
  | arg :: rest =>
    if arg == "--" then .ok (o, files ++ rest)
    else match WrittenFlag.ofArgument? arg with
      | none => readArguments flags o (files ++ [arg]) rest
      | some w =>
        match findFlag flags w with
        | .error e => Outcome.within "parse flag" (.error e)
        | .ok flag =>
          let set (value : String) : Outcome Options :=
            Outcome.within "parse flag" (Outcome.within w.shown (o.set flag value))
          match w.value with
          | some value => do readArguments flags (← set value) files rest
          | none =>
            if flag.isSwitch then do readArguments flags (← set "true") files rest
            else match rest with
              | value :: rest => do readArguments flags (← set value) files rest
              | [] => Outcome.within "parse flag"
                  (Outcome.within w.shown (.fail (.usage "value expected")))

/-- A command with what was said. -/
structure Invocation where
  command : Command
  options : Options
  files : List String

/-- Reads the arguments of a program: general flags, then a command with its own. No argument at
all asks for nothing. -/
def readInvocation : List String → Outcome (Option Invocation)
  | [] => .ok none
  | arg :: rest =>
    match WrittenFlag.ofArgument? arg with
    | some w =>
      match findFlag generalFlags w with
      | .error e => Outcome.within "parse flag" (.error e)
      | .ok _ =>
        match w.value, rest with
        | some _, rest => readInvocation rest
        | none, _ :: rest => readInvocation rest
        | none, [] => Outcome.within "parse flag"
            (Outcome.within w.shown (.fail (.usage "value expected")))
    | none =>
      match Command.ofName? arg with
      | none => .fail (.usage s!"no args expected, got {arg}")
      | some command => do
        let (options, files) ← Outcome.within command.name
          (readArguments (command.flags ++ generalFlags) Options.none [] rest)
        return some ⟨command, options, files⟩

variable {m : Type → Type} [Monad m] [Host m]

/-- The configuration that options ask for. -/
def Options.loadConfig (o : Options) : Hosted m Config := do
  let c ← Config.load o.config
  let c := if o.bits ≠ 0 then { c with bits := o.bits } else c
  let c := if o.fatStrings then { c with fatStrings := true } else c
  let c := if o.entry ≠ "" then { c with entry := o.entry } else c
  Hosted.lift c.validate
  return c

/-- Puts assembly text where it belongs: where the flags say, for a single file to what is printed,
otherwise beside the file. -/
def putAssembly (output : String) (alone : Bool) (file text : String) : Hosted m Unit :=
  if output ≠ "" then Hosted.writeFile output text
  else if alone then Hosted.print text
  else Hosted.writeFile (file ++ ".asm") text

/-- Compiles files. -/
def compile (o : Options) (files : List String) : Hosted m Unit := do
  let c ← Hosted.within "config" o.loadConfig
  let c := if o.debug then { c with debug := true } else c
  let c := if o.irFile ≠ "" then { c with irFile := o.irFile } else c
  files.forM fun file => do
    let text ← Hosted.within s!"compile {file}" (compileFile c file)
    Hosted.within s!"write {file}" (putAssembly o.output (files.length == 1) file text)

/-- The layouts of records, one after the other. -/
def dumpLayouts (u : Universe) : List Ir.Struct → Outcome String
  | [] => .ok ""
  | s :: rest => do
    let text ← (s.dump u).within s!"struct {s.name}"
    return text ++ (← dumpLayouts u rest)

/-- Lowers files and prints what a function makes of each. -/
def printEach (view : Universe → Ir.Module → Outcome String) (o : Options)
    (files : List String) : Hosted m Unit := do
  let c ← Hosted.within "config" o.loadConfig
  files.forM fun file => do
    let text ← Hosted.within s!"read {file}" (Hosted.readFile file)
    let s ← Hosted.lift (Session.start c)
    let shown ← Hosted.lift <| Outcome.within file do
      let (x, s) ← s.lowerText file text
      view s.types x
    Hosted.print shown

/-- Does what an invocation asks for. -/
def Invocation.run (i : Invocation) : Hosted m Unit :=
  Hosted.within i.command.name <|
    match i.command with
    | .compile => compile i.options i.files
    | .ir => printEach (fun u x => x.dump u "") i.options i.files
    | .layout => printEach (fun u x => dumpLayouts u x.structs) i.options i.files

/-- Runs the program on its arguments. -/
def run (args : List String) : Hosted m Unit := do
  match ← Hosted.lift (readInvocation args) with
  | some i => i.run
  | none => return ()

/-- The status that a program ends with. -/
def status : Outcome Unit → UInt32
  | .ok _ => 0
  | .error (.report _ _) => 1
  | .error .crash => 2

end TreeAsm.CommandLine
