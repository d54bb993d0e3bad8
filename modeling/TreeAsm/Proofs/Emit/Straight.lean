import TreeAsm.Proofs.Emit.Logic

/-!
# Lines of moves and calls

Control goes straight through the lines of moves and calls: they are machine instructions after
which the next line follows. `Only` says of a step that each line it writes has a property, and
`Sparing` adds that it does not fail for the pool of registers. The rules follow the way steps are
put together.
-/

namespace TreeAsm.Asm

/-- An instruction that the next line follows; a call and a system call come back. -/
def Line.isStraight : Line → Bool
  | .ins op _ => op ∉ [Mnemonic.jmp, .je, .jne, .ret]
  | _ => false

/-- An instruction that copies an operand, filled up or as it is. Flags stay as they are. -/
def Mnemonic.isCopy (op : Mnemonic) : Bool := op ∈ [Mnemonic.mov, .movsx, .movsxd, .movzx]

/-- An instruction that moves operands: a copy, an address, or a register that is cleared. -/
def Mnemonic.isMove (op : Mnemonic) : Bool := op.isCopy || op ∈ [Mnemonic.lea, .xor]

theorem Mnemonic.isMove_of_isCopy {op : Mnemonic} (h : op.isCopy) : op.isMove := by
  rw [isMove, h, Bool.true_or]

theorem Line.isStraight_of_isMove {op : Mnemonic} {args : List Operand} (h : op.isMove) :
    (Line.ins op args).isStraight := by
  cases op with
  | mov | movsx | movsxd | movzx | lea | xor => rfl
  | _ => cases h

theorem Text.mem_bind_lines {α β : Type} {x : Text α} {f : α → Text β} {l : Line}
    (h : l ∈ (x >>= f).lines) : l ∈ x.lines ∨ ∃ a, l ∈ (f a).lines := by
  change l ∈ (x.andThen f).lines at h
  unfold andThen at h
  cases hr : x.result with
  | error e =>
    rw [hr] at h
    exact .inl h
  | ok a =>
    rw [hr] at h
    exact (List.mem_append.mp h).imp_right fun h => ⟨a, h⟩

end TreeAsm.Asm

namespace TreeAsm.Emit

open Asm (Line Mem Mnemonic Reg Register Text)

/-! ## Failures that have nothing to do with registers -/

/-- Whether a cause is a fault of the pool of registers. -/
def isPoolFault : Cause → Bool
  | .outOfScratchRegisters => true
  | .registerNotInUse _ => true
  | _ => false

/-- A failure is not due to the pool of registers. -/
def Spares : Option Cause → Prop
  | none => True
  | some cause => isPoolFault cause = false

theorem sized_gives (x : Register) (bits : Int64) : (x.sized bits).Gives Spares fun _ => True := by
  show Outcome.Gives Spares (x.reg.at bits) _
  unfold Reg.at Reg.name
  cases x.reg.name? bits with
  | some name => trivial
  | none => rfl

/-- Every line that a step writes has a property, also if the step fails later on, and it never
fails for the pool of registers. -/
structure Sparing {α : Type} (P : Line → Prop) (x : Text α) : Prop where
  holds : ∀ l ∈ x.lines, P l
  spares : Text.Gives Spares x fun _ => True

theorem copies_of_moves {P : Line → Prop} (hP : ∀ op args, op.isMove → P (.ins op args)) :
    ∀ op args, op.isCopy → P (.ins op args) :=
  fun op args hop => hP op args (Mnemonic.isMove_of_isCopy hop)

theorem moves_of_straight {P : Line → Prop} (hP : ∀ l : Line, l.isStraight → P l) :
    ∀ op args, op.isMove → P (.ins op args) :=
  fun _ _ hop => hP _ (Line.isStraight_of_isMove hop)

namespace Sparing

variable {α β : Type} {P : Line → Prop}

theorem lift {x : Outcome α} (h : x.Gives Spares fun _ => True) : Sparing P (Text.lift x) :=
  ⟨fun _ hl => absurd hl List.not_mem_nil, h⟩

theorem pure (a : α) : Sparing P (pure a : Text α) := lift (x := .ok a) trivial

theorem fail {cause : Cause} (h : isPoolFault cause = false) :
    Sparing P (Text.fail cause : Text α) := lift h

theorem bind {x : Text α} {f : α → Text β} (hx : Sparing P x) (hf : ∀ a, Sparing P (f a)) :
    Sparing P (x >>= f) := by
  refine ⟨fun l hl => ?_, Text.Gives.bind hx.spares fun a _ => (hf a).spares⟩
  rcases Text.mem_bind_lines hl with hl | ⟨a, hl⟩
  · exact hx.holds l hl
  · exact (hf a).holds l hl

theorem ite {c : Prop} [Decidable c] {x y : Text α} (hx : Sparing P x) (hy : Sparing P y) :
    Sparing P (if c then x else y) := by
  by_cases h : c
  · rw [if_pos h]
    exact hx
  · rw [if_neg h]
    exact hy

theorem onlyIf {c : Bool} {x : Text Unit} (hx : Sparing P x) : Sparing P (Text.onlyIf c x) :=
  ite hx (pure ())

theorem within {x : Text α} (hx : Sparing P x) (step : String) : Sparing P (Text.within step x) :=
  ⟨hx.holds, hx.spares.within step⟩

theorem forAll {f : α → Text Unit} (hf : ∀ a, Sparing P (f a)) (xs : List α) :
    Sparing P (Asm.SysV.forAll f xs) := by
  induction xs with
  | nil => exact pure ()
  | cons a xs ih => exact bind (hf a) fun _ => ih

theorem line {l : Line} (h : P l) : Sparing P (Text.line l) :=
  ⟨fun _ hl => List.mem_singleton.mp hl ▸ h, trivial⟩

theorem ins {op : Mnemonic} {args : List Asm.Operand} (h : P (.ins op args)) :
    Sparing P (Text.ins op args) :=
  ite (line h) (lift trivial)

theorem sized (x : Register) (bits : Int64) : Sparing P (Text.lift (x.sized bits)) :=
  lift (sized_gives x bits)

/-! ## Moves -/

section

variable (hP : ∀ op args, op.isCopy = true → P (.ins op args))

include hP

theorem extend (d : Register) (x : Asm.Operand) (signed : Bool) : Sparing P (Text.extend d x signed) := by
  refine ite (ite (ins (hP _ _ rfl)) ?_) (ite (ins (hP _ _ rfl)) (ins (hP _ _ rfl)))
  exact bind (sized _ _) fun _ => ins (hP _ _ rfl)

/-- A register is stored with copies only. -/
theorem moveRegToMem (d : Mem) (r : Register) (signed : Bool) :
    Sparing P (Text.moveRegToMem d r signed) := by
  refine bind (ite ?_ (pure r)) fun _ => bind (sized _ _) fun _ => ins (hP _ _ rfl)
  exact bind (sized _ _) fun _ => bind (extend hP _ _ _) fun _ => pure _

end

section

variable (hP : ∀ op args, op.isMove = true → P (.ins op args))

include hP

theorem moveImmediate (d : Register) (value : Int64) : Sparing P (Text.moveImmediate d value) := by
  refine bind (lift ?_) fun _ => ite (ins (hP _ _ rfl)) (ins (hP _ _ rfl))
  unfold Text.immediateTarget
  split
  · exact sized_gives _ _
  · trivial

theorem moveToReg (d : Register) (x : Asm.Operand) (signed : Bool) :
    Sparing P (Text.moveToReg d x signed) := by
  have hextend := extend (copies_of_moves hP) d
  cases x with
  | reg r =>
    refine ite (ite (pure _) (ins (hP _ _ rfl))) (ite ?_ (hextend _ _))
    exact bind (sized _ _) fun _ => ite (pure _) (ins (hP _ _ rfl))
  | mem m => exact ite (ins (hP _ _ rfl)) (hextend _ _)
  | imm i => exact moveImmediate hP _ _
  | ptr label pic => exact bind (sized _ _) fun _ => ins (hP _ _ (by cases pic <;> rfl))
  | label name => exact bind (sized _ _) fun _ => ins (hP _ _ rfl)
  | absent => exact fail rfl

theorem moveToMem (d : Mem) (x : Asm.Operand) (signed : Bool) (via : Option Reg) :
    Sparing P (Text.moveToMem d x signed via) := by
  have hstore := moveRegToMem (copies_of_moves hP) d
  have hvia : ∀ x, Sparing P (Text.moveToMemVia d x signed via) := by
    intro x
    cases via with
    | none => exact fail rfl
    | some r => exact bind (sized ⟨r, 0⟩ _) fun _ => bind (moveToReg hP _ _ _) fun _ => hstore _ _
  cases x with
  | reg r => exact hstore r _
  | imm i => exact ite (ins (hP _ _ rfl)) (hvia _)
  | mem _ | label _ | ptr _ _ | absent => exact hvia _

/-- Operands are moved with copies, addresses and cleared registers. -/
theorem move (d x : Asm.Operand) (signed : Bool) (via : Option Reg) :
    Sparing P (Text.move d x signed via) := by
  cases d with
  | reg d => exact moveToReg hP _ _ _
  | mem d => exact moveToMem hP _ _ _ _
  | imm _ | label _ | ptr _ _ | absent => exact fail rfl

end

/-! ## Calls -/

section

variable (hP : ∀ l : Line, l.isStraight = true → P l)

include hP

theorem push (x : Asm.Operand) (signed : Bool) (via : Option Reg) : Sparing P (Text.push x signed via) := by
  have hvia : ∀ x, Sparing P (Text.pushVia x signed via) := by
    intro x
    cases via with
    | none => exact fail rfl
    | some r =>
      exact bind (sized ⟨r, 0⟩ _) fun _ =>
        bind (moveToReg (moves_of_straight hP) _ _ _) fun _ => ins (hP _ rfl)
  cases x with
  | reg r =>
    exact bind (sized _ _) fun _ => bind (onlyIf (ins (hP _ rfl))) fun _ => ins (hP _ rfl)
  | mem m => exact ite (ins (hP _ rfl)) (hvia _)
  | imm i => exact ite (ins (hP _ rfl)) (hvia _)
  | label _ | ptr _ _ | absent => exact hvia _

theorem moveArg (r : Reg) (x : Asm.Operand) (signed : Bool) : Sparing P (Asm.SysV.moveArg r x signed) :=
  bind (sized ⟨r, 0⟩ _) fun _ => move (moves_of_straight hP) _ _ _ _

theorem call (target : Asm.Operand) (args : List Asm.Operand) (signed : List Bool) :
    Sparing P (Asm.SysV.call target args signed) := by
  have hpass : ∀ a, Sparing P (Asm.SysV.passArg a) := by
    intro a
    refine within ?_ _
    cases Asm.SysV.argRegs[a.index]? with
    | some r => exact moveArg hP _ _ _
    | none => exact push hP _ _ _
  exact bind (onlyIf (ins (hP _ rfl))) fun _ => bind (forAll hpass _) fun _ =>
    bind (ins (hP _ rfl)) fun _ => bind (ins (hP _ rfl)) fun _ =>
    bind (onlyIf (ins (hP _ rfl))) fun _ => onlyIf (ins (hP _ rfl))

theorem syscall (number : Asm.Operand) (args : List Asm.Operand) (signed : List Bool)
    (inUse : Reg → Bool) : Sparing P (Asm.SysV.syscall number args signed inUse) := by
  have hpass : ∀ a, Sparing P (Asm.SysV.passSyscallArg a) := by
    intro a
    refine within ?_ _
    cases Asm.SysV.syscallRegs[a.index]? with
    | some r => exact moveArg hP _ _ _
    | none => exact lift trivial
  refine ite (fail rfl) ?_
  exact bind (forAll (fun _ => ins (hP _ rfl)) _) fun _ => bind (forAll hpass _) fun _ =>
    bind (within (move (moves_of_straight hP) _ _ _ _) _) fun _ =>
    bind (ins (hP _ rfl)) fun _ => forAll (fun _ => ins (hP _ rfl)) _

end

end Sparing

/-! ## Steps of emission -/

/-- A step that writes no lines. -/
def Quiet {α : Type} (x : Emitter α) : Prop := ∀ s, (x s).lines = []

namespace Quiet

variable {α β : Type}

theorem pure (a : α) : Quiet (pure a : Emitter α) := fun _ => rfl

theorem get : Quiet (get : Emitter State) := fun _ => rfl

theorem modify (f : State → State) : Quiet (modify f : Emitter PUnit) := fun _ => rfl

theorem lift (x : Outcome α) : Quiet (Emitter.lift x) := fun _ => rfl

theorem bind {x : Emitter α} {f : α → Emitter β} (hx : Quiet x) (hf : ∀ a, Quiet (f a)) :
    Quiet (x >>= f) := by
  intro s
  show ((x s).andThen fun p => f p.1 p.2).lines = []
  unfold Text.andThen
  cases (x s).result with
  | error e => exact hx s
  | ok p =>
    show (x s).lines ++ (f p.1 p.2).lines = []
    rw [hx s, hf p.1 p.2]
    rfl

theorem within {x : Emitter α} (hx : Quiet x) (step : String) : Quiet (Emitter.within step x) := hx

theorem ite {c : Prop} [Decidable c] {x y : Emitter α} (hx : Quiet x) (hy : Quiet y) :
    Quiet (if c then x else y) := by
  by_cases h : c
  · rw [if_pos h]
    exact hx
  · rw [if_neg h]
    exact hy

end Quiet

theorem constAt_quiet (id : Nat) : Quiet (constAt id) := Quiet.get.bind fun _ => Quiet.pure _

theorem boundAt_quiet (id : Nat) : Quiet (boundAt id) := by
  refine Quiet.get.bind fun s => ?_
  cases s.bound[id]? with
  | some r => exact Quiet.pure _
  | none => exact Quiet.lift _

theorem takeSpare_quiet : Quiet takeSpare := by
  refine Quiet.get.bind fun s => ?_
  cases s.pool.takeSpare with
  | none => exact Quiet.pure _
  | some rp => exact (Quiet.modify _).bind fun _ => Quiet.pure _

theorem scratch_quiet (bits : Int64) : Quiet (scratch bits) := by
  refine Quiet.get.bind fun s => ?_
  cases s.pool.take with
  | none => exact Quiet.lift _
  | some rp => exact (Quiet.modify _).bind fun _ => Quiet.pure _

theorem release_quiet (r : Reg) : Quiet (release r) :=
  Quiet.get.bind fun _ => (Quiet.lift _).bind fun _ => Quiet.modify _

theorem unbind_quiet (id : Nat) (r : Reg) : Quiet (unbind id r) :=
  (Quiet.modify _).bind fun _ => release_quiet r

end TreeAsm.Emit
