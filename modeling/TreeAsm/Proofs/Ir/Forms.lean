import TreeAsm.Ir.Module
import TreeAsm.Proofs.Ir.Arranged

/-!
# The forms of lowered instructions

Lowering uses few of the instructions that can be written down. Each has its operands at fixed
places, the values among them are temporaries, numbers and strings, and every type is one that a
program can name (`Ty.Proper`). The forms say nothing about a module, so code keeps them whatever is
added to the module later.
-/

namespace TreeAsm

/-- A type that a program can name: a built-in one, a struct, or a pointer to such a type. -/
def Ty.Proper : Ty → Prop
  | .untyped => False
  | .custom _ _ _ => False
  | .record name => name ≠ "" ∧ name ≠ "void" ∧ name ≠ "bool" ∧ name ≠ "string"
  | .ptr elem => elem.Proper
  | _ => True

theorem Ty.Proper.ne_untyped {t : Ty} (h : t.Proper) : t ≠ .untyped := by
  rintro rfl
  exact h

/-- What a pointer points to is a type, too. -/
theorem Ty.Proper.elem {t : Ty} (h : t.Proper) (hptr : t.isPtr) : t.elem.Proper := by
  cases t with
  | ptr e => exact h
  | custom _ _ _ => exact absurd h id
  | _ => cases hptr

theorem Ty.Proper.ptrs {t : Ty} (h : t.Proper) (n : Nat) : (Ty.ptrs n t).Proper := by
  induction n generalizing t with
  | zero => exact h
  | succ n ih => exact ih (t := .ptr t) h

namespace Ir

/-- A value: a temporary, a number or a string, of a type that a program can name. -/
def Operand.Fit : Operand → Prop
  | .temp t => t.type.Proper
  | .int _ type => type.Proper
  | .str s => s.type.Proper
  | _ => False

theorem Operand.Fit.type {x : Operand} (h : x.Fit) : x.type.Proper := by
  cases x with
  | temp _ | int _ _ | str _ => exact h
  | var _ | outer _ _ | symbol _ | label _ => exact absurd h id

/-- Whether an operation takes two values and gives one. -/
def Opcode.isBinary : Opcode → Bool
  | .add | .sub | .mul | .div | .and | .eq | .ne | .lt | .le | .gt | .ge => true
  | _ => false

/-- The instructions that lowering uses. The size of an element is a number without a type, and
it is only multiplied with. -/
inductive Instr.Form : Instr → Prop
  | moveTemp {t : Temp} {x : Operand} (ht : t.type.Proper) (hx : x.Fit) : Form ⟨.move, none, [.temp t, x]⟩
  | loadVar {t : Temp} {v : Local} (ht : t.type.Proper) (hv : v.type.Proper) :
      Form ⟨.move, none, [.temp t, .var v]⟩
  | moveVar {v : Local} {x : Operand} (hv : v.type.Proper) (hx : x.Fit) : Form ⟨.move, none, [.var v, x]⟩
  | binary {op : Opcode} {t : Temp} {x y : Operand} (hop : op.isBinary = true)
      (ht : t.type.Proper) (hx : x.Fit) (hy : y.Fit ∨ op = .mul ∧ ∃ n, y = .int n .untyped) :
      Form ⟨op, some t, [x, y]⟩
  | load {t : Temp} {base offset : Operand} (ht : t.type.Proper) (hbase : base.Fit)
      (hoffset : offset.Fit) : Form ⟨.load, some t, [base, offset]⟩
  | store {base offset value : Operand} (hbase : base.Fit) (hoffset : offset.Fit)
      (hvalue : value.Fit) : Form ⟨.store, none, [base, offset, value]⟩
  | addrVar {t : Temp} {v : Local} (ht : t.type.Proper) : Form ⟨.addrOf, some t, [.var v]⟩
  | addrSymbol {t : Temp} {name : String} (ht : t.type.Proper) : Form ⟨.addrOf, some t, [.symbol name]⟩
  | call {r : Option Temp} {name : String} {args : List Operand}
      (hr : ∀ t, r = some t → t.type.Proper) (hargs : ∀ x ∈ args, x.Fit) :
      Form ⟨.call, r, .symbol name :: args⟩
  | syscall {t : Temp} {number : Operand} {args : List Operand} (ht : t.type.Proper)
      (hnumber : number.Fit) (hargs : ∀ x ∈ args, x.Fit) :
      Form ⟨.syscall, some t, number :: args⟩
  | retNothing : Form ⟨.ret, none, []⟩
  | ret {x : Operand} (hx : x.Fit) : Form ⟨.ret, none, [x]⟩
  | jump {label : String} : Form ⟨.jump, none, [.label label]⟩
  | cjump {x : Operand} {label : String} (hx : x.Fit) : Form ⟨.cjump, none, [x, .label label, .int 0 .bool]⟩

/-- A temporary that an instruction reads is one of its operands, and if the instruction moves a
value it is not the first one. -/
theorem Instr.mem_of_readsTemp {i : Instr} {id : Nat} (h : i.readsTemp id) : ∃ t : Temp, t.id = id ∧
      .temp t ∈ (if i.op = .move then i.args.drop 1 else i.args) := by
  unfold readsTemp at h
  cases hreads : i.reads with
  | error e =>
    rw [hreads] at h
    cases h
  | ok xs =>
    rw [hreads] at h
    obtain ⟨x, hx, hid⟩ := List.any_eq_true.mp h
    have hxs : xs = if i.op = .move then i.args.drop 1 else i.args := by
      unfold reads at hreads
      split at hreads
      next hop =>
        rw [if_pos hop]
        split at hreads
        · cases hreads
        next hargs =>
          rw [hargs]
          exact (Except.ok.inj hreads).symm
      next hop =>
        rw [if_neg hop]
        exact (Except.ok.inj hreads).symm
    cases x with
    | temp t => exact ⟨t, by simpa [Operand.temp?] using hid, hxs ▸ hx⟩
    | var _ | outer _ _ | int _ _ | str _ | symbol _ | label _ =>
      cases hid

/-- An instruction of some form can be printed and read. -/
theorem Instr.Form.valid {i : Instr} (h : i.Form) :
    i.op.isValid ∧ (i.op = .move → ∃ dst src, i.args = [dst, src]) := by
  cases h with
  | @binary op t x y hop ht hx hy => cases op <;> first | (cases hop; done) | exact ⟨rfl, nofun⟩
  | moveTemp _ _ | loadVar _ _ | moveVar _ _ => exact ⟨rfl, fun _ => ⟨_, _, rfl⟩⟩
  | _ => exact ⟨rfl, nofun⟩

/-- An instruction with a result goes on after it, and neither moves nor stores. -/
theorem Instr.Form.of_result {op : Opcode} {t : Temp} {args : List Operand}
    (h : Instr.Form ⟨op, some t, args⟩) : op.isTerminator = false ∧ op ≠ .move ∧ op ≠ .store := by
  cases h with
  | binary hop ht hx hy => cases op <;> first | (cases hop; done) | exact ⟨rfl, nofun, nofun⟩
  | _ => exact ⟨rfl, nofun, nofun⟩

/-- What an instruction with a result, or one that moves to a temporary, writes. -/
theorem Instr.target?_result (op : Opcode) (t : Temp) (args : List Operand) :
    Instr.target? ⟨op, some t, args⟩ = some t.id := rfl

theorem Instr.target?_moveTemp (t : Temp) (x : Operand) :
    Instr.target? ⟨.move, none, [.temp t, x]⟩ = some t.id := rfl

end Ir

end TreeAsm
