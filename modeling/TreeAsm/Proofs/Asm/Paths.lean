import Mathlib.Logic.Function.Basic
import Mathlib.Logic.Relation
import TreeAsm.Asm.SysV
import TreeAsm.Proofs.Asm.Machine

/-!
# Paths through lines

How control and the stack go through lines of assembly, whatever values are computed on the way. An
instruction has an effect: it pushes or pops, moves the stack pointer, copies a register, or writes
anything to its targets. Jumps go to any line with their label, and a conditional jump may go either
way. A call comes back with the registers that a callee has to keep. Some bytes of memory are
shielded: callees, the system and writes through pointers leave them alone.

An `Outline` annotates lines with what holds before each of them, and with what holds at each label.
`Outline.reaches` is the run lemma: on every path the annotations hold.
-/

namespace TreeAsm.Asm

/-- What an instruction does, apart from the values that it computes. -/
inductive Effect where
  | push (x : Operand)
  | pop (r : Reg)
  | adjust (n : BitVec 64)
  | copy (dst src : Reg)
  | call
  | syscall
  | jump (l : String)
  | branch (l : String)
  | leave
  | writes (targets : List Operand)
  | unknown
  deriving DecidableEq

/-- The effect of an instruction. One that the machine does not have may do anything, and so may one
that moves the stack pointer in parts of words. -/
def effect (op : Mnemonic) (args : List Operand) : Effect :=
  match op, args with
  | .push, [x] => if x.size = 64 then .push x else .unknown
  | .pop, [.reg r] => if r.bits = 64 then .pop r.reg else .unknown
  | .add, [.reg ⟨.rsp, bits⟩, .imm i] => if bits = 64 then .adjust i.value.toBitVec else .unknown
  | .sub, [.reg ⟨.rsp, bits⟩, .imm i] =>
    if bits = 64 then .adjust (-i.value.toBitVec) else .unknown
  | .mov, [.reg d, .reg s] =>
    if d.bits = 64 ∧ s.bits = 64 then .copy d.reg s.reg else .writes [.reg d]
  | .mov, [d, _] | .movsx, [d, _] | .movsxd, [d, _] | .movzx, [d, _] | .lea, [d, _]
  | .add, [d, _] | .sub, [d, _] | .and, [d, _] | .xor, [d, _] | .imul, [d, _] => .writes [d]
  | .sete, [d] | .setne, [d] | .setl, [d] | .setle, [d] | .setg, [d] | .setge, [d] | .setb, [d]
  | .setbe, [d] | .seta, [d] | .setae, [d] => .writes [d]
  | .mul, [_] | .div, [_] | .idiv, [_] => .writes [Reg.rax.full, Reg.rdx.full]
  | .cdq, [] | .cqo, [] => .writes [Reg.rdx.full]
  | .cmp, [_, _] => .writes []
  | .call, [_] => .call
  | .syscall, [] => .syscall
  | .jmp, [.label l] => .jump l
  | .je, [.label l] | .jne, [.label l] => .branch l
  | .ret, [] => .leave
  | _, _ => .unknown

theorem effect_push {x : Operand} (h : x.size = 64) : effect .push [x] = .push x := if_pos h

/-- The next line follows in any case. -/
def Effect.isStraight : Effect → Bool
  | jump _ | branch _ | leave | unknown => false
  | _ => true

/-- Whether a byte is one of those that an access to memory may touch. The address of a symbol is
not known, so such an access may touch any byte. -/
def Mem.Touches (x : Mem) (m : Machine) (a : BitVec 64) : Prop :=
  ∀ start, x.address m = some start → (a - start).toNat < 8

/-- A place at a fixed distance from the base pointer. -/
structure Mem.Framed (x : Mem) : Prop where
  base : x.base = some .rbp
  index : x.index = none
  symbol : x.symbol = ""

/-- Nothing changes but the targets of an instruction, and shielded bytes change only through places
in the frame. -/
structure Writes (shield : BitVec 64 → Prop) (targets : List Operand) (m m' : Machine) : Prop where
  regs : ∀ r, (∀ x : Register, .reg x ∈ targets → x.reg ≠ r) → m'.regs r = m.regs r
  mem : ∀ a, m'.mem a ≠ m.mem a → ∃ x : Mem, .mem x ∈ targets ∧ x.Touches m a ∧ (x.Framed ∨ ¬ shield a)

/-- What the machine may look like after an instruction, if the next line follows. -/
def Effect.Does (shield : BitVec 64 → Prop) (e : Effect) (m m' : Machine) : Prop :=
  match e with
  | push x => ∃ v : BitVec 64, (∀ r : Reg, x = r.full → v = m.regs r) ∧
      m'.regs = Function.update m.regs .rsp (m.regs .rsp - 8) ∧
      m'.mem = m.mem.store (m.regs .rsp - 8) v
  | pop r =>
      m'.regs = Function.update (Function.update m.regs .rsp (m.regs .rsp + 8)) r
        (m.mem.load 64 (m.regs .rsp)) ∧ m'.mem = m.mem
  | adjust n => m'.regs = Function.update m.regs .rsp (m.regs .rsp + n) ∧ m'.mem = m.mem
  | copy d s => m'.regs = Function.update m.regs d (m.regs s) ∧ m'.mem = m.mem
  | call => (∀ r ∈ Reg.rsp :: SysV.calleeSaved, m'.regs r = m.regs r) ∧ ∀ a, shield a → m'.mem a = m.mem a
  | syscall => (∀ r, r ∉ [Reg.rax, .rcx, .r11] → m'.regs r = m.regs r) ∧ ∀ a, shield a → m'.mem a = m.mem a
  | branch _ => m' = m
  | writes targets => Writes shield targets m m'
  | jump _ | leave => False
  | unknown => True

/-- The effect is that of a jump to a label. -/
def Effect.Targets (e : Effect) (l : String) : Prop := e = .jump l ∨ e = .branch l

/-- One step along lines, from a line and a machine to the next. -/
inductive Step (lines : List Line) (shield : BitVec 64 → Prop) :
    Nat × Machine → Nat × Machine → Prop
  | label {pc : Nat} {m : Machine} {l : String} :
      lines[pc]? = some (.label l) → Step lines shield (pc, m) (pc + 1, m)
  | ins {pc : Nat} {m m' : Machine} {op : Mnemonic} {args : List Operand} :
      lines[pc]? = some (.ins op args) → (effect op args).Does shield m m' →
      Step lines shield (pc, m) (pc + 1, m')
  | jump {pc pc' : Nat} {m : Machine} {op : Mnemonic} {args : List Operand} {l : String} :
      lines[pc]? = some (.ins op args) → (effect op args).Targets l →
      lines[pc']? = some (.label l) → Step lines shield (pc, m) (pc', m)
  | unknown {pc pc' : Nat} {m m' : Machine} {op : Mnemonic} {args : List Operand} :
      lines[pc]? = some (.ins op args) → effect op args = .unknown →
      Step lines shield (pc, m) (pc', m')

/-- Any number of steps. -/
abbrev Reaches (lines : List Line) (shield : BitVec 64 → Prop) :
    Nat × Machine → Nat × Machine → Prop :=
  Relation.ReflTransGen (Step lines shield)

/-! ## Outlines -/

section

variable (shield : BitVec 64 → Prop) (inv : String → Machine → Prop)
  (ok : Mnemonic → Machine → Prop)

/-- Lines annotated with what holds before each of them: `inv l` at label `l`, and `ok op` before an
instruction `op`. -/
inductive Outline : (Machine → Prop) → List Line → (Machine → Prop) → Prop
  | nil {P Q : Machine → Prop} : (∀ m, P m → Q m) → Outline P [] Q
  | label {P R Q : Machine → Prop} {l : String} {rest : List Line} :
      (∀ m, P m → R m) → (∀ m, inv l m → R m) → Outline R rest Q → Outline P (.label l :: rest) Q
  | ins {P R Q : Machine → Prop} {op : Mnemonic} {args : List Operand} {rest : List Line} :
      (∀ m, P m → ok op m) → effect op args ≠ .unknown →
      (∀ l, (effect op args).Targets l → ∀ m, P m → inv l m) →
      (∀ m m', P m → (effect op args).Does shield m m' → R m') →
      Outline R rest Q → Outline P (.ins op args :: rest) Q

variable {shield inv ok}

namespace Outline

variable {P P' Q R : Machine → Prop} {xs ys : List Line}

/-- An instruction that the next line follows. -/
theorem straight {op : Mnemonic} {args : List Operand} {e : Effect} (he : effect op args = e)
    (hstraight : e.isStraight) (hok : ∀ m, P m → ok op m)
    (hdoes : ∀ m m', P m → e.Does shield m m' → R m') (hrest : Outline shield inv ok R xs Q) :
    Outline shield inv ok P (.ins op args :: xs) Q := by
  subst he
  refine .ins hok (fun h => ?_) (fun l hl => ?_) hdoes hrest
  · rw [h] at hstraight
    cases hstraight
  · rcases hl with h | h <;> rw [h] at hstraight <;> cases hstraight

theorem weaken (h : Outline shield inv ok P' xs Q) (hP : ∀ m, P m → P' m) :
    Outline shield inv ok P xs Q := by
  cases h with
  | nil hQ => exact .nil fun m hm => hQ m (hP m hm)
  | label hR hl hrest => exact .label (fun m hm => hR m (hP m hm)) hl hrest
  | ins hok hknown hjump hdoes hrest =>
    exact .ins (fun m hm => hok m (hP m hm)) hknown (fun l hl m hm => hjump l hl m (hP m hm))
      (fun m m' hm => hdoes m m' (hP m hm)) hrest

theorem append (h : Outline shield inv ok P xs R) (h' : Outline shield inv ok R ys Q) :
    Outline shield inv ok P (xs ++ ys) Q := by
  induction h with
  | nil hR => exact h'.weaken hR
  | label hR hl _ ih => exact .label hR hl (ih h')
  | ins hok hknown hjump hdoes _ ih => exact .ins hok hknown hjump hdoes (ih h')

/-- Control that comes to a label finds what its lines rely on. -/
theorem at_label (h : Outline shield inv ok P xs Q) {pc : Nat} {l : String} {m : Machine}
    (hl : xs[pc]? = some (.label l)) (hm : inv l m) :
    ∃ P', P' m ∧ Outline shield inv ok P' (xs.drop pc) Q := by
  induction h generalizing pc with
  | nil _ => cases hl
  | @label P R Q l' rest _ hl' hrest ih =>
    cases pc with
    | zero =>
      obtain rfl : l' = l := by simpa using hl
      exact ⟨R, hl' m hm, .label (fun _ h => h) hl' hrest⟩
    | succ pc => exact ih (by simpa using hl)
  | ins hok hknown hjump hdoes hrest ih =>
    cases pc with
    | zero => cases hl
    | succ pc => exact ih (by simpa using hl)

/-- One step leads from an annotation that holds to another one. -/
theorem step (hall : Outline shield inv ok P xs Q) {c c' : Nat × Machine}
    (hc : P' c.2) (h : Outline shield inv ok P' (xs.drop c.1) Q) (hstep : Step xs shield c c') :
    ∃ P'', P'' c'.2 ∧ Outline shield inv ok P'' (xs.drop c'.1) Q := by
  have hdrop : ∀ {pc : Nat} {l : Line}, xs[pc]? = some l → xs.drop pc = l :: xs.drop (pc + 1) := by
    intro pc l hl
    obtain ⟨hlt, rfl⟩ := List.getElem?_eq_some_iff.mp hl
    exact List.drop_eq_getElem_cons hlt
  cases hstep with
  | label hl =>
    rw [hdrop hl] at h
    cases h with
    | label hR _ hrest => exact ⟨_, hR _ hc, hrest⟩
  | ins hl hdoes =>
    rw [hdrop hl] at h
    cases h with
    | ins _ _ _ hnext hrest => exact ⟨_, hnext _ _ hc hdoes, hrest⟩
  | jump hl htarget hlabel =>
    rw [hdrop hl] at h
    cases h with
    | ins _ _ hjump _ _ => exact hall.at_label hlabel (hjump _ htarget _ hc)
  | unknown hl hunknown =>
    rw [hdrop hl] at h
    cases h with
    | ins _ hknown _ _ _ => exact absurd hunknown hknown

/-- On every path the annotations hold. -/
theorem reaches (hall : Outline shield inv ok P xs Q) {m0 : Machine} (hm0 : P m0)
    {c : Nat × Machine} (hpath : Reaches xs shield (0, m0) c) :
    ∃ P', P' c.2 ∧ Outline shield inv ok P' (xs.drop c.1) Q := by
  induction hpath with
  | refl => exact ⟨P, hm0, hall⟩
  | tail _ hstep ih =>
    obtain ⟨P', hc, h⟩ := ih
    exact hall.step hc h hstep

/-- What is asked for holds before every instruction on every path. -/
theorem ok_of_reaches (hall : Outline shield inv ok P xs Q) {m0 : Machine} (hm0 : P m0) {pc : Nat}
    {m : Machine} (hpath : Reaches xs shield (0, m0) (pc, m)) {op : Mnemonic}
    {args : List Operand} (hl : xs[pc]? = some (.ins op args)) : ok op m := by
  obtain ⟨P', hm, h⟩ := hall.reaches hm0 hpath
  obtain ⟨hlt, hget⟩ := List.getElem?_eq_some_iff.mp hl
  rw [show xs.drop pc = .ins op args :: xs.drop (pc + 1) from hget ▸ List.drop_eq_getElem_cons hlt] at h
  cases h with
  | ins hok _ _ _ _ => exact hok m hm

end Outline

end

end TreeAsm.Asm
