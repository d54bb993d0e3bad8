import TreeAsm.Yaml.Mark
import TreeAsm.Text.Integer

/-!
# Failures

Every way in which a compilation can fail, and its wording. A failure is a report with a cause and
the steps that it happened in, or a crash: an ill-formed request on which the program stops without
a word.
-/

namespace TreeAsm

open Text (quoted)

/-- What is wrong with a node of a program's document. -/
inductive SourceFault where
  | statementListExpected
  | statementNotMapping
  | unknownStatement
  | parameterNotMapping
  | expressionExpected
  | unknownExpression
  | unexpectedScalar (text : String)
  | badInteger (text : String) (fault : Text.Integer.Fault)
  deriving DecidableEq, Repr

/-- The wording of a fault of a document node. -/
def SourceFault.message : SourceFault → String
  | statementListExpected => "statement list expected"
  | statementNotMapping => "statement must be a mapping"
  | unknownStatement => "unknown statement"
  | parameterNotMapping => "param must be a mapping"
  | expressionExpected => "expression expected"
  | unknownExpression => "unknown expression"
  | unexpectedScalar text => "unexpected scalar " ++ quoted text
  | badInteger text fault =>
    "int literal: strconv.ParseInt: parsing " ++ quoted text ++ ": " ++ fault.message

/-- Why a compilation fails. -/
inductive Cause where
  /-- The text is no document. -/
  | notADocument (e : Yaml.SyntaxError)
  /-- Values of a configuration document have the wrong type. -/
  | wrongTypes (faults : List String)
  | source (file : String) (pos : Position) (fault : SourceFault)
  | missingExpression (file : String)
  | fieldWithoutType (field : String)
  | badAlignment (align : Int64)
  | structRedefined (name : String)
  | funcRedefined (name : String)
  | globalRedefined (name : String)
  | layoutPending (struct : String)
  | noField (struct field : String)
  | badOpcode (block op : String)
  | notPrintable (kind : String)
  | notAtTopLevel (pos : Position) (node : String)
  | notInBody (node : String)
  | pointerToNothing
  | unknownType (name : String)
  | fatStringValue
  | voidValue
  | voidValueUsed
  | initializerNotConstant
  | recursiveLayout (struct : String)
  | unknownFieldStruct (struct field name : String)
  | undefined (name : String)
  | badOperator (op : String)
  | badSetOperator (name op : String)
  | badUnaryOperator (op : String)
  | noAddress (what : String)
  | notAStruct (field type : String)
  | unknownStruct (field name : String)
  | indexOfNonPointer (type : String)
  | argumentCount (callee : String) (given wanted : Nat)
  | notAssignable (node : String)
  | missingReturnValue
  | returnValueInVoid
  | noBlock (block label : String)
  | registerSize (reg : String) (bits : Int64)
  | badMoveDestination (operand : String)
  | badMoveSource (operand : String)
  | moveNeedsRegister (src dst : String)
  | pushNeedsRegister (operand : String)
  | unsupportedRole (convention role : String)
  | tooManySyscallArguments (given registers : Nat)
  | unsupportedConvention (name : String)
  | registerNotInUse (reg : String)
  | notInRegisters (type : String)
  | notInFrame (name : String)
  | unknownSymbol (name : String)
  | outOfScratchRegisters
  | badLabelOperand (operand : String)
  | unsupportedOpcode (op : String)
  | badMoveTarget (operand : String)
  | badAddressOperand (operand : String)
  | noLabel (label : String)
  | badSentinel (operand : String)
  | badDataSize (size : Int64)
  | badInitializer (global operand : String)
  | unsupportedBits (bits : Int64)
  | unsupportedBackend (name : String)
  | emptyEntry
  /-- An operation on a file is refused. -/
  | fileRefused (reason : String)
  /-- The command line cannot be understood. -/
  | usage (problem : String)
  deriving DecidableEq, Repr

/-- The wording of a cause. -/
def Cause.message : Cause → String
  | notADocument e => e.message
  | wrongTypes faults => "yaml: unmarshal errors:\n  " ++ String.intercalate "\n  " faults
  | source file pos fault => file ++ ":" ++ pos.render ++ ": " ++ fault.message
  | missingExpression file => file ++ ": missing expression"
  | fieldWithoutType field => s!"field {field}: no type"
  | badAlignment align => s!"align {align}: non-positive alignment"
  | structRedefined name => s!"struct {name} redefined"
  | funcRedefined name => s!"func {name} redefined"
  | globalRedefined name => s!"global {name} redefined"
  | layoutPending struct => s!"struct {struct}: struct layout is not computed yet"
  | noField struct field => s!"struct {struct} has no field {field}"
  | badOpcode block op => s!"block {block}: bad opcode {op}"
  | notPrintable kind => s!"unsupported type: {kind}"
  | notAtTopLevel pos node => pos.render ++ s!": unexpected {node} at top level"
  | notInBody node => s!"unexpected {node} in function body"
  | pointerToNothing => "pointer to nothing"
  | unknownType name => s!"unknown type: {name}"
  | fatStringValue => "fat string values are not supported"
  | voidValue => "void value"
  | voidValueUsed => "void value used"
  | initializerNotConstant => "initializer must be constant"
  | recursiveLayout struct => s!"struct {struct}: recursive layout"
  | unknownFieldStruct struct field name => s!"struct {struct}: field {field}: unknown struct {name}"
  | undefined name => s!"undefined: {name}"
  | badOperator op => "unsupported operator " ++ quoted op
  | badSetOperator name op => s!"set {name}: unsupported operator " ++ quoted op
  | badUnaryOperator op => "unsupported unary operator " ++ quoted op
  | noAddress what => s!"can't take address of {what}"
  | notAStruct field type => s!"field {field}: {type} is not a struct"
  | unknownStruct field name => s!"field {field}: unknown struct {name}"
  | indexOfNonPointer type => s!"index of non pointer {type}"
  | argumentCount callee given wanted => s!"call {callee}: {given} args, want {wanted}"
  | notAssignable node => s!"can't assign to {node}"
  | missingReturnValue => "missing return value"
  | returnValueInVoid => "return value in void function"
  | noBlock block label => s!"block {block}: no such label: {label}"
  | registerSize reg bits => s!"{reg}: {bits} bits: unsupported register size"
  | badMoveDestination operand => s!"move: bad destination {operand}"
  | badMoveSource operand => s!"move: bad source {operand}"
  | moveNeedsRegister src dst => s!"move: {src} to {dst} needs a register"
  | pushNeedsRegister operand => s!"push: {operand} needs a register"
  | unsupportedRole convention role => s!"{convention}: {role}: unsupported register role"
  | tooManySyscallArguments given registers =>
    s!"{given} args, {registers} registers: too many syscall arguments"
  | unsupportedConvention name => "unsupported calling convention: " ++ quoted name
  | registerNotInUse reg => s!"release {reg}: register is not in use"
  | notInRegisters type => s!"{type} values are not supported in registers"
  | notInFrame name => s!"local {name}: not in frame"
  | unknownSymbol name => s!"unknown symbol: {name}"
  | outOfScratchRegisters => "out of scratch registers"
  | badLabelOperand operand => s!"label operand {operand}"
  | unsupportedOpcode op => s!"unsupported opcode {op}"
  | badMoveTarget operand => s!"move to {operand}"
  | badAddressOperand operand => s!"address of {operand}"
  | noLabel label => s!"no such label: {label}"
  | badSentinel operand => s!"cjump sentinel {operand}"
  | badDataSize size => s!"unsupported data size {size}"
  | badInitializer global operand => s!"global {global}: unsupported initializer {operand}"
  | unsupportedBits bits => s!"unsupported target bits: {bits}"
  | unsupportedBackend name => "unsupported backend: " ++ quoted name
  | emptyEntry => "empty entry function name"
  | fileRefused reason => reason
  | usage problem => problem

/-- How a step fails: with a report, which names its cause and the steps around it from the
outermost on, or with a crash. -/
inductive Failure where
  | crash
  | report (trail : List String) (cause : Cause)
  deriving DecidableEq, Repr

namespace Failure

/-- The failure seen from one step further out. -/
def within (step : String) : Failure → Failure
  | crash => crash
  | report trail cause => report (step :: trail) cause

/-- The whole text of a report: its steps and its cause. Steps without a name are left out. -/
def message : Failure → String
  | crash => ""
  | report trail cause =>
    String.intercalate ": " (trail.filter (fun step => !step.isEmpty) ++ [cause.message])

end Failure

/-- The result of a step that may fail. -/
abbrev Outcome (α : Type) := Except Failure α

namespace Outcome

/-- Fails with a cause. -/
def fail {α : Type} (cause : Cause) : Outcome α := .error (.report [] cause)

/-- Stops without a word. -/
def crash {α : Type} : Outcome α := .error .crash

/-- Names the step that a failure happened in. -/
def within {α : Type} (step : String) (x : Outcome α) : Outcome α :=
  match x with
  | .ok a => .ok a
  | .error e => .error (e.within step)

@[simp] theorem within_ok {α : Type} (step : String) (a : α) :
    within step (.ok a : Outcome α) = .ok a := rfl

@[simp] theorem within_error {α : Type} (step : String) (e : Failure) :
    within step (.error e : Outcome α) = .error (e.within step) := rfl

end Outcome

end TreeAsm
