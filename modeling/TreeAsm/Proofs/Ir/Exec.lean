import TreeAsm.Ir.Func
import TreeAsm.Proofs.Words

/-!
# What the intermediate code does

Every value is an integer in the range of its type: a result is computed exactly and then brought
back into range by its lowest bits. A division works at the width at which the machine divides values
of its type, and it faults where the machine does; a comparison works at the wider of the widths of
its operands. Only operations on temporaries and variables are given a meaning here; one that has none
is stuck.

A function runs instruction by instruction from the start of its first block. A conditional jump that
is not taken goes on with the block that follows.
-/

namespace TreeAsm

/-- Whether the values of a type have a sign; addresses have none. -/
def Ty.isInteger (t : Ty) : Bool := t.signed && !t.isPtr

namespace Universe

/-- The width of a type's values in bits. -/
def width (u : Universe) (t : Ty) : Nat := (u.bits t).toInt.toNat

/-- The width at which values of a type are computed. -/
def workWidth (u : Universe) (t : Ty) : Nat := if u.width t > 32 then 64 else 32

/-- The value of a type that a number is, by its lowest bits. -/
def wrap (u : Universe) (t : Ty) (v : Int) : Int := wrapTo (u.width t) t.isInteger v

end Universe

namespace Ir

/-- The values of the temporaries that have one, and of the variables. -/
structure Store where
  temps : Nat → Option Int
  locals : Nat → Int

namespace Store

/-- Gives a temporary a value. -/
def setTemp (σ : Store) (id : Nat) (v : Int) : Store :=
  { σ with temps := fun i => if i = id then some v else σ.temps i }

/-- Gives a variable a value. -/
def setLocal (σ : Store) (index : Nat) (v : Int) : Store :=
  { σ with locals := fun i => if i = index then v else σ.locals i }

variable (σ : Store)

@[simp] theorem setTemp_temps (id : Nat) (v : Int) (i : Nat) :
    (σ.setTemp id v).temps i = if i = id then some v else σ.temps i := rfl

@[simp] theorem setTemp_locals (id : Nat) (v : Int) : (σ.setTemp id v).locals = σ.locals := rfl

@[simp] theorem setLocal_temps (index : Nat) (v : Int) : (σ.setLocal index v).temps = σ.temps := rfl

@[simp] theorem setLocal_locals (index : Nat) (v : Int) (i : Nat) :
    (σ.setLocal index v).locals i = if i = index then v else σ.locals i := rfl

end Store

/-- The value of an operand, if it has one. -/
def Operand.value (u : Universe) (σ : Store) : Operand → Option Int
  | .temp t => σ.temps t.id
  | .var v => some (σ.locals v.index)
  | .int v t => some (u.wrap t v.toInt)
  | _ => none

/-- The quotient of two numbers at a width, rounded towards zero. There is none if the divisor is zero
or if the quotient does not fit. -/
def quotient (w : Nat) (signed : Bool) (a b : Int) : Option Int :=
  let x := wrapTo w signed a
  let y := wrapTo w signed b
  if y = 0 ∨ (signed = true ∧ x = -2 ^ (w - 1) ∧ y = -1) then none else some (x.tdiv y)

/-- Whether a comparison of two numbers holds. -/
def compares (op : Opcode) (x y : Int) : Bool :=
  match op with
  | .eq => x = y
  | .ne => x ≠ y
  | .lt => x < y
  | .le => x ≤ y
  | .gt => x > y
  | .ge => x ≥ y
  | _ => false

/-- What an operation on two values does. -/
inductive Computed where
  | value (v : Int)
  | fault
  | undefined

/-- The result of an operation on values `a` and `b` of types `l` and `r`, as a value of type `t`. -/
def compute (u : Universe) (op : Opcode) (l r t : Ty) (a b : Int) : Computed :=
  match op with
  | .add => .value (u.wrap t (a + b))
  | .sub => .value (u.wrap t (a - b))
  | .mul => .value (u.wrap t (a * b))
  | .and => .value (u.wrap t (BitVec.ofInt 64 a &&& BitVec.ofInt 64 b).toInt)
  | .div =>
    match quotient (u.workWidth t) t.isInteger a b with
    | some q => .value (u.wrap t q)
    | none => .fault
  | .eq | .ne | .lt | .le | .gt | .ge =>
    let w := max (u.workWidth l) (u.workWidth r)
    let signed := l.isInteger || r.isInteger
    .value (if compares op (wrapTo w signed a) (wrapTo w signed b) then 1 else 0)
  | _ => .undefined

theorem compute_compare (u : Universe) {op : Opcode} (h : op.isCompare) (l r t : Ty) (a b : Int) :
    compute u op l r t a b = .value
      (if compares op (wrapTo (max (u.workWidth l) (u.workWidth r)) (l.isInteger || r.isInteger) a)
        (wrapTo (max (u.workWidth l) (u.workWidth r)) (l.isInteger || r.isInteger) b)
      then 1 else 0) := by
  cases op <;> first
    | rfl
    | cases h

/-- What an instruction leads to. -/
inductive Effect where
  /-- The next instruction follows. -/
  | next (σ : Store)
  /-- The block with a label follows. -/
  | goto (l : String) (σ : Store)
  /-- The next block follows. -/
  | fall (σ : Store)
  /-- The function returns. -/
  | ret (v : Option Int)
  | fault
  | stuck

/-- Goes on with a value, if there is one. -/
def Effect.withValue (v : Option Int) (k : Int → Effect) : Effect :=
  match v with
  | some a => k a
  | none => .stuck

/-- What an instruction does. -/
def Instr.exec (u : Universe) (i : Instr) (σ : Store) : Effect :=
  match i.op, i.result, i.args with
  | .move, none, [.temp t, x] =>
    .withValue (x.value u σ) fun a => .next (σ.setTemp t.id (u.wrap t.type a))
  | .move, none, [.var v, x] =>
    .withValue (x.value u σ) fun a => .next (σ.setLocal v.index (u.wrap v.type a))
  | .ret, none, [] => .ret none
  | .ret, none, [x] => .withValue (x.value u σ) fun a => .ret (some a)
  | .jump, none, [.label l] => .goto l σ
  | .cjump, none, [c, .label l, .int sentinel _] =>
    .withValue (c.value u σ) fun a =>
      if (a != 0) == (sentinel == 1) then .goto l σ else .fall σ
  | op, some t, [x, y] =>
    .withValue (x.value u σ) fun a => .withValue (y.value u σ) fun b =>
      match compute u op x.type y.type t.type a b with
      | .value v => .next (σ.setTemp t.id v)
      | .fault => .fault
      | .undefined => .stuck
  | _, _, _ => .stuck

variable {u : Universe} {blocks : List Block} {m n : Nat} {code more : List Instr} {c : ExecState}

theorem Instr.exec_ret {σ : Store} {x : Operand} {a : Int} (h : x.value u σ = some a) :
    Instr.exec u ⟨.ret, none, [x]⟩ σ = .ret (some a) := by
  have hexec : Instr.exec u ⟨.ret, none, [x]⟩ σ = .withValue (x.value u σ) fun a => .ret (some a) := rfl
  rw [hexec, h]
  rfl

theorem Instr.exec_binary (u : Universe) (op : Opcode) (t : Temp) (x y : Operand) (σ : Store) :
    Instr.exec u ⟨op, some t, [x, y]⟩ σ
      = .withValue (x.value u σ) fun a => .withValue (y.value u σ) fun b =>
        match compute u op x.type y.type t.type a b with
        | .value v => .next (σ.setTemp t.id v)
        | .fault => .fault
        | .undefined => .stuck := by
  cases op <;> rfl

/-- What instructions do one after the other, until one leads elsewhere. -/
def runCode (u : Universe) : List Instr → Store → Effect
  | [], σ => .next σ
  | i :: rest, σ =>
    match i.exec u σ with
    | .next σ' => runCode u rest σ'
    | e => e

theorem runCode_singleton {i : Instr} {σ σ' : Store} (h : i.exec u σ = .next σ') :
    runCode u [i] σ = .next σ' := by
  rw [runCode, h]
  rfl

/-- Instructions after others that lead on to them. -/
theorem runCode_append : ∀ {σ σ' : Store},
    runCode u code σ = .next σ' → runCode u (code ++ more) σ = runCode u more σ' := by
  induction code with
  | nil =>
    intro σ σ' h
    cases h
    rfl
  | cons i rest ih =>
    intro σ σ' h
    rw [runCode] at h
    rw [List.cons_append, runCode]
    split at h
    next σ1 h1 => exact ih h
    next hne => exact absurd h (hne σ')

/-- Instructions after one that faults are not run. -/
theorem runCode_append_fault : ∀ {σ : Store},
    runCode u code σ = .fault → runCode u (code ++ more) σ = .fault := by
  induction code with
  | nil => intro σ h; cases h
  | cons i rest ih =>
    intro σ h
    rw [runCode] at h
    rw [List.cons_append, runCode]
    split at h
    next σ1 h1 => exact ih h
    next hne =>
      rw [h]

/-! ## Functions -/

/-- Where a function is: a block, how many of its instructions are done, and the values. -/
structure ExecState where
  block : Nat
  pc : Nat
  store : Store

/-- How far a run has come. -/
inductive Progress where
  | running (c : ExecState)
  | returned (v : Option Int)
  | faulted
  | stuck

/-- Where an instruction leads that is number `pc` of block number `b`. -/
def Effect.progress (blocks : List Block) (b pc : Nat) : Effect → Progress
  | .next σ => .running ⟨b, pc + 1, σ⟩
  | .goto l σ =>
    match blocks.findIdx? (·.label == l) with
    | some k => .running ⟨k, 0, σ⟩
    | none => .stuck
  | .fall σ => .running ⟨b + 1, 0, σ⟩
  | .ret v => .returned v
  | .fault => .faulted
  | .stuck => .stuck

/-- One step of a function with some blocks. -/
def step (u : Universe) (blocks : List Block) (c : ExecState) : Progress :=
  match blocks[c.block]?.bind (·.code[c.pc]?) with
  | none => .stuck
  | some i => (i.exec u c.store).progress blocks c.block c.pc

/-- At most `n` steps of a function. -/
def run (u : Universe) (blocks : List Block) : (n : Nat) → ExecState → Progress
  | 0, c => .running c
  | n + 1, c =>
    match step u blocks c with
    | .running c' => run u blocks n c'
    | p => p

/-- A run after a run. -/
theorem run_add : ∀ {c c' : ExecState},
    run u blocks m c = .running c' → run u blocks (m + n) c = run u blocks n c' := by
  induction m with
  | zero =>
    intro c c' h
    cases h
    rw [Nat.zero_add]
  | succ m ih =>
    intro c c' h
    rw [run] at h
    rw [Nat.succ_add, run]
    split at h
    next c1 h1 => exact ih h
    next hne => exact absurd h (hne c')

/-- A run that has come to an end stays there. -/
theorem run_mono : ∀ {n : Nat} {c : ExecState},
    (∀ c', run u blocks m c ≠ .running c') → m ≤ n → run u blocks n c = run u blocks m c := by
  induction m with
  | zero => intro n c h _; exact absurd rfl (h c)
  | succ m ih =>
    intro n c h hn
    obtain ⟨n, rfl⟩ : ∃ k, n = k + 1 := ⟨n - 1, by omega⟩
    rw [run] at h
    rw [run, run]
    split
    next c1 h1 =>
      rw [h1] at h
      exact ih h (by omega)
    next => rfl

/-- Two runs that have come to an end have come to the same one. -/
theorem run_unique (hm : ∀ c', run u blocks m c ≠ .running c')
    (hn : ∀ c', run u blocks n c ≠ .running c') : run u blocks m c = run u blocks n c := by
  rcases Nat.le_total m n with h | h
  · exact (run_mono hm h).symm
  · exact run_mono hn h

/-- A run that is still going on has been going on all the time. -/
theorem running_of_le {c' : ExecState} (h : run u blocks n c = .running c') (hm : m ≤ n) :
    ∃ c'', run u blocks m c = .running c'' := by
  cases hr : run u blocks m c with
  | running c'' => exact ⟨c'', rfl⟩
  | _ =>
    have hstop : run u blocks n c = run u blocks m c := run_mono (by rw [hr]; simp) hm
    rw [h, hr] at hstop
    cases hstop

end Ir

end TreeAsm
