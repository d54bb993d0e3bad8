import TreeAsm.Asm.Line

/-!
# Writing assembly text

A step writes lines and gives a result or fails; the lines written before a failure stay written.
The basic steps are instructions, moves of values between places of any width, and pushes.
-/

namespace TreeAsm.Asm

/-- A step that writes lines. -/
structure Text (α : Type) where
  lines : List Line
  result : Outcome α

namespace Text

/-- One step after the other, unless the first fails. -/
def andThen {α β : Type} (x : Text α) (f : α → Text β) : Text β :=
  match x.result with
  | .ok a =>
    let y := f a
    ⟨x.lines ++ y.lines, y.result⟩
  | .error e => ⟨x.lines, .error e⟩

instance : Monad Text where
  pure a := ⟨[], .ok a⟩
  bind := andThen

/-- A step that writes nothing. -/
def lift {α : Type} (x : Outcome α) : Text α := ⟨[], x⟩

/-- Fails with a cause. -/
def fail {α : Type} (cause : Cause) : Text α := lift (.fail cause)

/-- Writes a line. -/
def line (l : Line) : Text Unit := ⟨[l], .ok ()⟩

/-- Names the step that a failure happened in. -/
def within {α : Type} (step : String) (x : Text α) : Text α :=
  ⟨x.lines, Outcome.within step x.result⟩

/-- Performs a step only under a condition. -/
def onlyIf (c : Bool) (x : Text Unit) : Text Unit := if c then x else pure ()

/-- Writes an instruction; all its operands must be ones that can be written. -/
def ins (op : Mnemonic) (args : List Operand) : Text Unit :=
  if args.all fun x => x.render?.isSome then line (.ins op args) else lift .crash

/-- Copies a narrower operand into a register and fills the upper bits with its sign or with zeros.
Writing 32 bits of a register clears its upper half. -/
def extend (d : Register) (s : Operand) (signed : Bool) : Text Unit :=
  if s.size == 32 && d.bits == 64 then
    if signed then ins .movsxd [.reg d, s]
    else do
      let low ← lift (d.sized 32)
      ins .mov [.reg low, s]
  else if signed then ins .movsx [.reg d, s]
  else ins .movzx [.reg d, s]

/-- The part of a register that a number is put into: the lower half if that is enough. -/
def immediateTarget (d : Register) (value : Int64) : Outcome Register :=
  if d.bits == 64 && value ≥ 0 && value < 4294967296 then d.sized 32 else .ok d

/-- Puts a number into a register, with the shortest instruction for zero and small numbers. -/
def moveImmediate (d : Register) (value : Int64) : Text Unit := do
  let d ← lift (immediateTarget d value)
  if value == 0 && d.bits ≥ 32 then ins .xor [.reg d, .reg d]
  else ins .mov [.reg d, .imm ⟨value, d.bits, false⟩]

/-- Copies an operand into a register, extended or cut to its width. -/
def moveToReg (d : Register) (src : Operand) (signed : Bool) : Text Unit :=
  match src with
  | .reg s =>
    if s.bits == d.bits then
      if s.reg = d.reg then pure () else ins .mov [.reg d, .reg s]
    else if s.bits > d.bits then do
      let s ← lift (s.sized d.bits)
      if s.reg = d.reg then pure () else ins .mov [.reg d, .reg s]
    else extend d src signed
  | .mem m =>
    if m.bits == 0 || m.bits ≥ d.bits then ins .mov [.reg d, .mem (m.resize d.bits)]
    else extend d src signed
  | .imm i => moveImmediate d i.value
  | .ptr label pic => do
    let d ← lift (d.sized 64)
    ins (if pic then .lea else .mov) [.reg d, .ptr label pic]
  | .label name => do
    let d ← lift (d.sized 64)
    ins .lea [.reg d, .mem ⟨none, none, 0, 0, name, true⟩]
  | .absent => fail (.badMoveSource src.describe)

/-- Extends a register in place if it is narrower than a width. -/
def widen (s : Register) (bits : Int64) (signed : Bool) : Text Register :=
  if s.bits < bits then do
    let wide ← lift (s.sized bits)
    extend wide (.reg s) signed
    return wide
  else return s

/-- Copies a register into memory. A narrower one is extended in place first. -/
def moveRegToMem (d : Mem) (s : Register) (signed : Bool) : Text Unit := do
  let s ← widen s d.bits signed
  let s ← lift (s.sized d.bits)
  ins .mov [.mem d, .reg s]

/-- Copies an operand into memory through a register. -/
def moveToMemVia (d : Mem) (src : Operand) (signed : Bool) (via : Option Reg) : Text Unit :=
  match via with
  | none => fail (.moveNeedsRegister src.describe d.render)
  | some via => do
    let r ← lift (via.at (if d.bits < 32 then 32 else d.bits))
    moveToReg r src signed
    moveRegToMem d r signed

/-- Copies an operand into memory. -/
def moveToMem (d : Mem) (src : Operand) (signed : Bool) (via : Option Reg) : Text Unit :=
  match src with
  | .reg s => moveRegToMem d s signed
  | .imm i =>
    if d.bits < 64 || i.fits32 then ins .mov [.mem d, .imm ⟨i.value, d.bits, false⟩]
    else moveToMemVia d src signed via
  | _ => moveToMemVia d src signed via

/-- Copies an operand to a register or to memory, extended or cut to the width of the destination.
What cannot be copied directly to memory goes through `via`. -/
def move (dst src : Operand) (signed : Bool) (via : Option Reg) : Text Unit :=
  match dst with
  | .reg d => moveToReg d src signed
  | .mem d => moveToMem d src signed via
  | _ => fail (.badMoveDestination dst.describe)

/-- Pushes an operand through a register. -/
def pushVia (x : Operand) (signed : Bool) (via : Option Reg) : Text Unit :=
  match via with
  | none => fail (.pushNeedsRegister x.describe)
  | some via => do
    let r ← lift (via.at 64)
    moveToReg r x signed
    ins .push [.reg r]

/-- Pushes a copy of an operand that has 64 bits. -/
def push (x : Operand) (signed : Bool) (via : Option Reg) : Text Unit :=
  match x with
  | .reg s => do
    let r ← lift (s.sized 64)
    onlyIf (s.bits == 32 && signed) (ins .movsxd [.reg r, .reg s])
    ins .push [.reg r]
  | .mem m => if m.bits == 64 then ins .push [x] else pushVia x signed via
  | .imm i =>
    if i.fits32 then ins .push [.imm ⟨i.value, 64, true⟩] else pushVia x signed via
  | _ => pushVia x signed via

end Text

end TreeAsm.Asm
