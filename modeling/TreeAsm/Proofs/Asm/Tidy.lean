import Mathlib.Data.List.Forall2
import TreeAsm.Proofs.Asm.Paths
import TreeAsm.Proofs.Emit.Logic

/-!
# Lines that keep the stack in order

`Tidy A D d lines d'` says that lines start with `d` bytes pushed and end with `d'`, and that in
between they keep the frame in order: they write to no register that holds the frame and to no place
in it but those at a distance in `A`, control comes and goes only with nothing pushed, calls happen
at multiples of 16 bytes, and never more than `D` bytes are pushed.

A function is emitted twice, and the two runs differ in the distances of its slots only. `Paired`
compares them: where both succeed, they write the same lines up to that difference (`Line.Alike`),
and the lines of the second run are tidy.
-/

namespace TreeAsm.Asm

open SysV (adjustStack callerCleanup forAll passArg)

/-! ## Operands -/

/-- The same place further down. -/
def Mem.lower (m : Mem) (n : Int64) : Mem := { m with disp := m.disp - n }

/-- The symbols that an operand refers to. -/
def Operand.symbols : Operand → List String
  | .label name => [name]
  | .ptr target _ => [target]
  | .mem m => if m.symbol = "" then [] else [m.symbol]
  | _ => []

/-- What operands that are the same in two runs may refer to: places at some distances from the base
pointer, and some symbols. -/
structure Fixed where
  places : Int64 → Prop
  symbols : String → Prop

/-- An operand refers to such places and symbols only. -/
structure Operand.Within (K : Fixed) (x : Operand) : Prop where
  places : ∀ m : Mem, x = .mem m → m.base = some .rbp → K.places m.disp
  symbols : ∀ name ∈ x.symbols, K.symbols name

/-- How operands differ between two runs: slots are lower by a number of bytes in the second one,
and the others are the same. -/
structure Shift where
  slots : Int64 → Prop
  fixed : Fixed
  down : Int64

/-- Operands of two runs: a slot is moved, and everything else is the same. -/
inductive Operand.Alike (σ : Shift) : Operand → Operand → Prop
  | same (x : Operand) (h : x.Within σ.fixed) : Alike σ x x
  | moved (m : Mem) (hframed : m.Framed) (hslot : σ.slots m.disp) : Alike σ (.mem m) (.mem (m.lower σ.down))

namespace Operand.Alike

variable {σ : Shift} {x y : Operand}

theorem reg (r : Register) : Alike σ (.reg r) (.reg r) :=
  .same _ ⟨fun _ h => absurd h (by simp), fun _ h => absurd h List.not_mem_nil⟩

theorem imm (i : Imm) : Alike σ (.imm i) (.imm i) :=
  .same _ ⟨fun _ h => absurd h (by simp), fun _ h => absurd h List.not_mem_nil⟩

theorem outside {m : Mem} (h : m.base ≠ some .rbp)
    (hsymbol : m.symbol ≠ "" → σ.fixed.symbols m.symbol) : Alike σ (.mem m) (.mem m) := by
  refine .same _ ⟨fun _ hm hbase => absurd (Operand.mem.inj hm ▸ hbase) h, fun name hname => ?_⟩
  change name ∈ (if m.symbol = "" then [] else [m.symbol]) at hname
  by_cases hempty : m.symbol = ""
  · rw [if_pos hempty] at hname
    cases hname
  · rw [if_neg hempty] at hname
    exact List.mem_singleton.mp hname ▸ hsymbol hempty

/-- Where slots are not moved, operands are the same. -/
theorem eq (h : Alike σ x y) (hdown : σ.down = 0) : x = y := by
  cases h with
  | same => rfl
  | moved m hframed hslot =>
    rw [hdown, Mem.lower, Int64.sub_zero]

theorem size (h : Alike σ x y) : x.size = y.size := by
  cases h <;> rfl

theorem regs (h : Alike σ x y) : x.regs = y.regs := by
  cases h <;> rfl

theorem argBits (h : Alike σ x y) : SysV.argBits x = SysV.argBits y := by
  cases h <;> rfl

theorem symbols (h : Alike σ x y) {name : String} (hname : name ∈ y.symbols) : σ.fixed.symbols name := by
  cases h with
  | same _ hx => exact hx.symbols name hname
  | moved m hframed hslot =>
    have hnone : Operand.symbols (.mem (m.lower σ.down)) = [] := if_pos hframed.symbol
    exact absurd (hnone ▸ hname) List.not_mem_nil

theorem resize {m m' : Mem} (h : Alike σ (.mem m) (.mem m')) (bits : Int64) :
    Alike σ (.mem (m.resize bits)) (.mem (m'.resize bits)) := by
  cases h with
  | same _ hm =>
    refine .same _ ⟨fun m' h' hbase => ?_, hm.symbols⟩
    obtain rfl := Operand.mem.inj h'
    exact hm.places m rfl hbase
  | moved m hframed hslot =>
    exact .moved (m.resize bits) ⟨hframed.base, hframed.index, hframed.symbol⟩ hslot

end Operand.Alike

variable {σ : Shift} {A : Int64 → Prop} {l : Line} {r : Register} {xs ys : List Line}
  {name : String}

theorem eq_of_alike {xs ys : List Operand} (h : List.Forall₂ (Operand.Alike σ) xs ys)
    (hdown : σ.down = 0) : xs = ys := by
  induction h with
  | nil => rfl
  | cons hxy _ ih => rw [hxy.eq hdown, ih]

/-- Lines of two runs: the same instruction with operands that differ in slots only, or the same
label. -/
inductive Line.Alike (σ : Shift) : Line → Line → Prop
  | ins (op : Mnemonic) {xs ys : List Operand} (h : List.Forall₂ (Operand.Alike σ) xs ys) :
      Alike σ (.ins op xs) (.ins op ys)
  | label (name : String) : Alike σ (.label name) (.label name)

theorem Line.Alike.regs {l' : Line} (h : Line.Alike σ l l') : l.regs = l'.regs := by
  cases h with
  | label name => rfl
  | ins op h =>
    show List.flatMap Operand.regs _ = List.flatMap Operand.regs _
    induction h with
    | nil => rfl
    | cons hxy _ ih => rw [List.flatMap_cons, List.flatMap_cons, hxy.regs, ih]

/-- Lines that differ in slots only mention the same registers. -/
theorem flatMap_regs_of_alike (h : List.Forall₂ (Line.Alike σ) xs ys) :
    xs.flatMap Line.regs = ys.flatMap Line.regs := by
  induction h with
  | nil => rfl
  | cons hl _ ih => rw [List.flatMap_cons, List.flatMap_cons, hl.regs, ih]

/-- The symbols that a line refers to. -/
def Line.symbols : Line → List String
  | .ins _ args => args.flatMap Operand.symbols
  | .address _ _ target => [target]
  | .exported name => [name]
  | _ => []

theorem Line.Alike.symbols {l' : Line} (h : Line.Alike σ l l') (hname : name ∈ l'.symbols) :
    σ.fixed.symbols name := by
  cases h with
  | label _ => cases hname
  | ins op h =>
    change name ∈ List.flatMap Operand.symbols _ at hname
    induction h with
    | nil => cases hname
    | cons hxy _ ih =>
      rw [List.flatMap_cons] at hname
      rcases List.mem_append.mp hname with hname | hname
      · exact hxy.symbols hname
      · exact ih hname

/-- Lines that differ in slots only refer to the symbols that are the same in both runs. -/
theorem symbols_of_alike (h : List.Forall₂ (Line.Alike σ) xs ys) (hl : l ∈ ys)
    (hname : name ∈ l.symbols) : σ.fixed.symbols name := by
  induction h with
  | nil => cases hl
  | cons hxy _ ih =>
    rcases List.mem_cons.mp hl with rfl | hl
    · exact hxy.symbols hname
    · exact ih hl

/-- The registers that hold the frame. -/
def frameRegs : List Reg := [.rsp, .rbp]

/-- An operand that is no register of the frame. -/
def Operand.Spare (x : Operand) : Prop := ∀ r : Register, x = .reg r → r.reg ∉ frameRegs

/-- An operand that may be written: no register of the frame, and no place in the frame but those at
a distance in `A`. -/
structure Operand.Open (A : Int64 → Prop) (x : Operand) : Prop where
  spare : x.Spare
  slot : ∀ m : Mem, x = .mem m → m.Framed → A m.disp

theorem Operand.open_reg (h : r.reg ∉ frameRegs) : (Operand.reg r).Open A :=
  ⟨fun _ hr => Operand.reg.inj hr ▸ h, fun _ hm => nomatch hm⟩

theorem Operand.Open.reg (h : (Operand.reg r).Open A) : r.reg ∉ frameRegs :=
  h.spare r rfl

theorem Operand.Open.resize {m : Mem} (h : (Operand.mem m).Open A) (bits : Int64) :
    (Operand.mem (m.resize bits)).Open A := by
  refine ⟨fun _ hr => absurd hr (by simp), ?_⟩
  intro m' hm hframed
  obtain rfl := Operand.mem.inj hm
  exact h.slot m rfl ⟨hframed.base, hframed.index, hframed.symbol⟩

/-- An operand of the two runs that may be written. -/
structure Operand.Twins (σ : Shift) (A : Int64 → Prop) (x y : Operand) : Prop where
  alike : Alike σ x y
  isOpen : y.Open A

theorem Operand.Twins.resize {m m' : Mem} (h : (Operand.mem m).Twins σ A (.mem m')) (bits : Int64) :
    (Operand.mem (m.resize bits)).Twins σ A (.mem (m'.resize bits)) :=
  ⟨h.alike.resize bits, h.isOpen.resize bits⟩

theorem Operand.twins_reg (h : r.reg ∉ frameRegs) : (Operand.reg r).Twins σ A (.reg r) :=
  ⟨.reg r, Operand.open_reg h⟩

/-! ## Lines -/

/-- What an instruction writes that leaves the stack and control alone. -/
def Effect.targets? : Effect → Option (List Operand)
  | writes targets => some targets
  | copy d _ => some [d.full]
  | _ => none

/-- An instruction that only writes to what may be written: to operands of its own, and to `rax` and
`rdx`. -/
def Plain (A : Int64 → Prop) (op : Mnemonic) (args : List Operand) : Prop :=
  ∃ targets, (effect op args).targets? = some targets ∧
    ∀ x ∈ targets, x.Open A ∧ x.regs ⊆ args.flatMap Operand.regs ++ [.rax, .rdx]

/-- Lines that keep the frame in order, with `d` bytes pushed before them and `d'` after them. -/
inductive Tidy (A : Int64 → Prop) (D : Nat) : (d : Nat) → List Line → (d' : Nat) → Prop
  | nil {d : Nat} : Tidy A D d [] d
  | plain {d d' : Nat} {op : Mnemonic} {args : List Operand} {rest : List Line} :
      Plain A op args → Tidy A D d rest d' → Tidy A D d (.ins op args :: rest) d'
  | label {d' : Nat} {l : String} {rest : List Line} : Tidy A D 0 rest d' → Tidy A D 0 (.label l :: rest) d'
  | jump {d' : Nat} {op : Mnemonic} {l : String} {rest : List Line} :
      op ∈ [Mnemonic.jmp, .je, .jne] → Tidy A D 0 rest d' →
      Tidy A D 0 (.ins op [.label l] :: rest) d'
  | push {d d' : Nat} {x : Operand} {rest : List Line} :
      x.size = 64 → d + 8 ≤ D → Tidy A D (d + 8) rest d' → Tidy A D d (.ins .push [x] :: rest) d'
  | grow {d d' : Nat} {rest : List Line} : d + 8 ≤ D → Tidy A D (d + 8) rest d' →
      Tidy A D d (.ins .sub [Reg.rsp.full, immediate 8] :: rest) d'
  | shrink {d d' : Nat} (n : Nat) {rest : List Line} : Tidy A D d rest d' →
      Tidy A D (d + n) (.ins .add [Reg.rsp.full, immediate (Int64.ofNat n)] :: rest) d'
  | call {d d' : Nat} {x : Operand} {rest : List Line} :
      d % 16 = 0 → Tidy A D d rest d' → Tidy A D d (.ins .call [x] :: rest) d'
  | syscall {d d' : Nat} {rest : List Line} : Tidy A D d rest d' → Tidy A D d (.ins .syscall [] :: rest) d'

namespace Tidy

variable {A : Int64 → Prop} {D d d1 d' : Nat} {xs ys : List Line}

theorem append (h : Tidy A D d xs d1) (h' : Tidy A D d1 ys d') : Tidy A D d (xs ++ ys) d' := by
  induction h with
  | nil => exact h'
  | plain hp _ ih => exact .plain hp (ih h')
  | label _ ih => exact .label (ih h')
  | jump hop _ ih => exact .jump hop (ih h')
  | push hx hd _ ih => exact .push hx hd (ih h')
  | grow hd _ ih => exact .grow hd (ih h')
  | shrink n _ ih => exact .shrink n (ih h')
  | call hd _ ih => exact .call hd (ih h')
  | syscall _ ih => exact .syscall (ih h')

end Tidy

/-! ## Instructions that only write -/

section

variable {A : Int64 → Prop}

/-- The instructions that write to their first operand of two. -/
def writers : List Mnemonic :=
  [.mov, .movsx, .movsxd, .movzx, .lea, .add, .sub, .and, .xor, .imul]

/-- The instructions that write the result of a comparison. -/
def setters : List Mnemonic :=
  [.sete, .setne, .setl, .setle, .setg, .setge, .setb, .setbe, .seta, .setae]

variable {op : Mnemonic}

theorem plain_writer (hop : op ∈ writers) {d s : Operand} (hd : d.Open A) : Plain A op [d, s] := by
  have hmentions : d.regs ⊆ [d, s].flatMap Operand.regs ++ [.rax, .rdx] := by simp
  have hwrites : (effect op [d, s]).targets? = some [d] → Plain A op [d, s] := by
    refine fun h => ⟨[d], h, fun x hx => ?_⟩
    rw [List.mem_singleton.mp hx]
    exact ⟨hd, hmentions⟩
  -- only copies of whole registers and arithmetic on the stack pointer have effects of their own
  have hadd : op = .add ∨ op = .sub → Plain A op [d, s] := by
    intro h
    refine hwrites ?_
    cases d with
    | reg r =>
      obtain ⟨r, bits⟩ := r
      have hrsp : r ≠ .rsp := fun hr => hd.reg (hr ▸ List.mem_cons_self ..)
      cases r with
      | rsp => exact absurd rfl hrsp
      | _ => rcases h with rfl | rfl <;> rfl
    | mem _ | imm _ | label _ | ptr _ _ | absent => rcases h with rfl | rfl <;> rfl
  have hmov : op = .mov → Plain A op [d, s] := by
    rintro rfl
    cases d with
    | reg r =>
      cases s with
      | reg r' =>
        have heffect : effect .mov [.reg r, .reg r'] =
            if r.bits = 64 ∧ r'.bits = 64 then .copy r.reg r'.reg else .writes [.reg r] := rfl
        by_cases h64 : r.bits = 64 ∧ r'.bits = 64
        · refine ⟨[r.reg.full], by rw [heffect, if_pos h64]; rfl, fun x hx => ?_⟩
          rw [List.mem_singleton.mp hx]
          exact ⟨Operand.open_reg hd.reg, hmentions⟩
        · exact hwrites (by rw [heffect, if_neg h64]; rfl)
      | mem _ | imm _ | label _ | ptr _ _ | absent => exact hwrites rfl
    | mem _ | imm _ | label _ | ptr _ _ | absent => exact hwrites rfl
  simp only [writers, List.mem_cons, List.not_mem_nil, or_false] at hop
  rcases hop with rfl | rfl | rfl | rfl | rfl | rfl | rfl | rfl | rfl | rfl
  · exact hmov rfl
  · exact hwrites rfl
  · exact hwrites rfl
  · exact hwrites rfl
  · exact hwrites rfl
  · exact hadd (.inl rfl)
  · exact hadd (.inr rfl)
  · exact hwrites rfl
  · exact hwrites rfl
  · exact hwrites rfl

theorem plain_setter (hop : op ∈ setters) {d : Operand} (hd : d.Open A) : Plain A op [d] := by
  refine ⟨[d], ?_, fun x hx => ?_⟩
  · simp only [setters, List.mem_cons, List.not_mem_nil, or_false] at hop
    rcases hop with rfl | rfl | rfl | rfl | rfl | rfl | rfl | rfl | rfl | rfl <;> rfl
  · rw [List.mem_singleton.mp hx]
    exact ⟨hd, by simp⟩

theorem plain_cmp (x y : Operand) : Plain A .cmp [x, y] := ⟨[], rfl, by simp⟩

theorem plain_fill (hop : op ∈ [Mnemonic.cdq, .cqo]) : Plain A op [] := by
  refine ⟨[Reg.rdx.full], ?_, fun x hx => ?_⟩
  · simp only [List.mem_cons, List.not_mem_nil, or_false] at hop
    rcases hop with rfl | rfl <;> rfl
  · rw [List.mem_singleton.mp hx]
    exact ⟨Operand.open_reg (by decide), by decide⟩

theorem plain_factor (hop : op ∈ [Mnemonic.mul, .div, .idiv]) (x : Operand) : Plain A op [x] := by
  refine ⟨[Reg.rax.full, Reg.rdx.full], ?_, fun y hy => ?_⟩
  · simp only [List.mem_cons, List.not_mem_nil, or_false] at hop
    rcases hop with rfl | rfl | rfl <;> rfl
  · rcases List.mem_cons.mp hy with rfl | hy
    · exact ⟨Operand.open_reg (by decide), by simp [Reg.full, Operand.regs]⟩
    · rw [List.mem_singleton.mp hy]
      exact ⟨Operand.open_reg (by decide), by simp [Reg.full, Operand.regs]⟩

end

/-! ## Two runs of a step -/

namespace Text

variable {α β : Type}

/-- Two runs of a step that write the same lines up to slots if both succeed, and the lines of the
second one are tidy. -/
def Paired (σ : Shift) (A : Int64 → Prop) (D d d' : Nat) (x y : Text α) (R : α → α → Prop) : Prop :=
  ∀ a b, x.result = .ok a → y.result = .ok b →
    R a b ∧ List.Forall₂ (Line.Alike σ) x.lines y.lines ∧ Tidy A D d y.lines d'

namespace Paired

variable {σ : Shift} {A : Int64 → Prop} {D d d1 d' : Nat} {x y : Text α} {R S : α → α → Prop}

theorem pure {a b : α} (h : R a b) : Paired σ A D d d (pure a : Text α) (pure b) R := by
  rintro _ _ ⟨⟩ ⟨⟩
  exact ⟨h, .nil, .nil⟩

theorem bind {f g : α → Text β} {T : β → β → Prop} (hx : Paired σ A D d d1 x y R)
    (hf : ∀ a b, R a b → Paired σ A D d1 d' (f a) (g b) T) :
    Paired σ A D d d' (x >>= f) (y >>= g) T := by
  intro b b' hb hb'
  obtain ⟨a, ha, hfa, hlines⟩ := bind_ok hb
  obtain ⟨a', ha', hga, hlines'⟩ := bind_ok hb'
  obtain ⟨hR, halike, htidy⟩ := hx a a' ha ha'
  obtain ⟨hT, halike', htidy'⟩ := hf a a' hR b b' hfa hga
  rw [hlines, hlines']
  exact ⟨hT, List.rel_append halike halike', htidy.append htidy'⟩

theorem mono (h : Paired σ A D d d' x y R) (hRS : ∀ a b, R a b → S a b) : Paired σ A D d d' x y S := by
  intro a b ha hb
  obtain ⟨hR, hrest⟩ := h a b ha hb
  exact ⟨hRS a b hR, hrest⟩

/-- Steps that write nothing. -/
theorem lift {x y : Outcome α} (h : ∀ a b, x = .ok a → y = .ok b → R a b) :
    Paired σ A D d d (Text.lift x) (Text.lift y) R :=
  fun a b ha hb => ⟨h a b ha hb, .nil, .nil⟩

/-- A step that fails in the second run. -/
theorem of_error {e : Failure} (h : y.result = .error e) : Paired σ A D d d' x y R := by
  intro a b _ hb
  rw [h] at hb
  cases hb

theorem within (h : Paired σ A D d d' x y R) (step step' : String) :
    Paired σ A D d d' (Text.within step x) (Text.within step' y) R :=
  fun a b ha hb => h a b (within_ok ha) (within_ok hb)

theorem ite {c : Prop} [Decidable c] {x' y' : Text α} (hx : c → Paired σ A D d d' x y R)
    (hy : ¬ c → Paired σ A D d d' x' y' R) :
    Paired σ A D d d' (if c then x else x') (if c then y else y') R := by
  by_cases h : c
  · rw [if_pos h, if_pos h]
    exact hx h
  · rw [if_neg h, if_neg h]
    exact hy h

theorem onlyIf {c : Bool} {x y : Text Unit} (h : c → Paired σ A D d d x y fun _ _ => True) :
    Paired σ A D d d (Text.onlyIf c x) (Text.onlyIf c y) fun _ _ => True :=
  ite h fun _ => pure trivial

/-- A line of its own. -/
theorem line {l l' : Line} (halike : Line.Alike σ l l') (h : Tidy A D d [l'] d') :
    Paired σ A D d d' (Text.line l) (Text.line l') fun _ _ => True :=
  fun _ _ _ _ => ⟨trivial, .cons halike .nil, h⟩

variable {op : Mnemonic}

theorem ins {xs ys : List Operand} (halike : List.Forall₂ (Operand.Alike σ) xs ys)
    (h : Tidy A D d [.ins op ys] d') :
    Paired σ A D d d' (Text.ins op xs) (Text.ins op ys) fun _ _ => True := by
  intro _ _ hx hy
  rw [ins_lines hx, ins_lines hy]
  exact ⟨trivial, .cons (.ins op halike) .nil, h⟩

/-- An instruction that writes to the first of two operands. -/
theorem writer (hop : op ∈ writers) {d0 d0' s s' : Operand} (hd : d0.Twins σ A d0') (hs : s.Alike σ s') :
    Paired σ A D d d (Text.ins op [d0, s]) (Text.ins op [d0', s']) fun _ _ => True :=
  ins (.cons hd.alike (.cons hs .nil)) (.plain (plain_writer hop hd.isOpen) .nil)

/-- A register at another width. -/
theorem sized_eq (r : Register) (bits : Int64) :
    Paired σ A D d d (Text.lift (r.sized bits)) (Text.lift (r.sized bits)) fun a b =>
      a = b ∧ b = ⟨r.reg, bits⟩ := by
  refine lift fun a b ha hb => ?_
  obtain rfl : a = b := Except.ok.inj (ha.symm.trans hb)
  refine ⟨rfl, ?_⟩
  unfold Register.sized Reg.at at ha
  cases hname : r.reg.name bits with
  | ok _ =>
    rw [hname] at ha
    exact (Except.ok.inj ha).symm
  | error _ =>
    rw [hname] at ha
    cases ha

theorem sized (r : Register) (bits : Int64) :
    Paired σ A D d d (Text.lift (r.sized bits)) (Text.lift (r.sized bits)) fun a b =>
      a = b ∧ b.reg = r.reg :=
  (sized_eq r bits).mono fun _ _ h => ⟨h.1, h.2 ▸ rfl⟩

end Paired

section

variable {σ : Shift} {A : Int64 → Prop} {D d : Nat} {r : Register} {x y : Operand}

/-! ## Moves -/

theorem extend_paired (signed : Bool) (hr : r.reg ∉ frameRegs) (h : x.Alike σ y) :
    Paired σ A D d d (extend r x signed) (extend r y signed) fun _ _ => True := by
  have hfull : ∀ {op : Mnemonic}, op ∈ writers →
      Paired σ A D d d (ins op [.reg r, x]) (ins op [.reg r, y]) fun _ _ => True :=
    fun hop => .writer hop (Operand.twins_reg hr) h
  unfold extend
  rw [h.size]
  refine .ite (fun _ => .ite (fun _ => hfull (by decide)) fun _ => ?_)
    fun _ => .ite (fun _ => hfull (by decide)) fun _ => hfull (by decide)
  refine (Paired.sized r 32).bind ?_
  rintro low _ ⟨rfl, hlow⟩
  exact .writer (by decide) (Operand.twins_reg (hlow ▸ hr)) h

theorem moveImmediate_paired (value : Int64) (hr : r.reg ∉ frameRegs) :
    Paired σ A D d d (moveImmediate r value) (moveImmediate r value) fun _ _ => True := by
  have htarget : Paired σ A D d d (lift (immediateTarget r value)) (lift (immediateTarget r value))
      fun a b => a = b ∧ b.reg = r.reg := by
    unfold immediateTarget
    split
    · exact .sized r 32
    · exact .lift fun a b ha hb => ⟨Except.ok.inj (ha.symm.trans hb), by cases hb; rfl⟩
  refine htarget.bind ?_
  rintro a _ ⟨rfl, ha⟩
  have htwins : (Operand.reg a).Twins σ A (.reg a) := Operand.twins_reg (ha ▸ hr)
  exact .ite (fun _ => .writer (by decide) htwins (.reg _)) fun _ =>
    .writer (by decide) htwins (.imm _)

theorem moveToReg_paired (signed : Bool) (hr : r.reg ∉ frameRegs) (h : x.Alike σ y) :
    Paired σ A D d d (moveToReg r x signed) (moveToReg r y signed) fun _ _ => True := by
  have hmem : ∀ {m m' : Mem}, Operand.Alike σ (.mem m) (.mem m') →
      Paired σ A D d d (moveToReg r (.mem m) signed) (moveToReg r (.mem m') signed) fun _ _ => True := by
    intro m m' h
    have hbits : m.bits = m'.bits := h.size
    simp only [moveToReg, hbits]
    exact .ite (fun _ => .writer (by decide) (Operand.twins_reg hr) (h.resize r.bits)) fun _ =>
      extend_paired signed hr h
  have hwhole : ∀ {op : Mnemonic} {z : Operand}, z.Alike σ z → op ∈ writers →
      Paired σ A D d d (do let r ← lift (r.sized 64); ins op [.reg r, z])
        (do let r ← lift (r.sized 64); ins op [.reg r, z]) fun _ _ => True := by
    intro op z hz hop
    refine (Paired.sized r 64).bind ?_
    rintro a _ ⟨rfl, ha⟩
    exact .writer hop (Operand.twins_reg (ha ▸ hr)) hz
  cases h with
  | moved m hframed hslot => exact hmem (.moved m hframed hslot)
  | same x hx =>
    cases x with
    | mem m => exact hmem (.same _ hx)
    | reg s =>
      have hcopy : ∀ s' : Register,
          Paired σ A D d d (if s'.reg = r.reg then Pure.pure () else ins .mov [.reg r, .reg s'])
            (if s'.reg = r.reg then Pure.pure () else ins .mov [.reg r, .reg s'])
            fun _ _ => True :=
        fun s' => .ite (fun _ => .pure trivial) fun _ =>
          .writer (by decide) (Operand.twins_reg hr) (.reg _)
      simp only [moveToReg]
      refine .ite (fun _ => hcopy s) fun _ => .ite (fun _ => ?_) fun _ =>
        extend_paired signed hr (.reg _)
      refine (Paired.sized s r.bits).bind ?_
      rintro a _ ⟨rfl, -⟩
      exact hcopy a
    | imm i => exact moveImmediate_paired i.value hr
    | ptr l pic =>
      refine hwhole (.same _ hx) ?_
      cases pic <;> decide
    | label name =>
      have hname := hx.symbols name (List.mem_singleton_self name)
      exact hwhole (.outside (by simp) fun _ => hname) (by decide)
    | absent => exact .of_error rfl

/-- A register that is copied to memory is extended in place. -/
theorem moveRegToMem_paired {m m' : Mem} (signed : Bool) (hm : (Operand.mem m).Twins σ A (.mem m'))
    (hr : r.reg ∉ frameRegs) :
    Paired σ A D d d (moveRegToMem m r signed) (moveRegToMem m' r signed) fun _ _ => True := by
  have hbits : m.bits = m'.bits := hm.alike.size
  have hwiden : Paired σ A D d d (widen r m'.bits signed) (widen r m'.bits signed)
      fun a b => a = b ∧ b.reg = r.reg := by
    refine .ite (fun _ => ?_) fun _ => .pure ⟨rfl, rfl⟩
    refine (Paired.sized r m'.bits).bind ?_
    rintro a _ ⟨rfl, ha⟩
    exact (extend_paired signed (ha ▸ hr) (.reg _)).bind fun _ _ _ => .pure ⟨rfl, ha⟩
  unfold moveRegToMem
  rw [hbits]
  refine hwiden.bind ?_
  rintro a _ ⟨rfl, -⟩
  refine (Paired.sized a m'.bits).bind ?_
  rintro b _ ⟨rfl, -⟩
  exact .writer (by decide) hm (.reg _)

/-- The registers that values go through. -/
def ThroughSpare (via : Option Reg) : Prop := ∀ r, via = some r → r ∉ frameRegs

variable {via : Option Reg} {xs ys : List Operand}

theorem moveToMemVia_paired {m m' : Mem} (signed : Bool) (hm : (Operand.mem m).Twins σ A (.mem m'))
    (h : x.Alike σ y) (hvia : ThroughSpare via) :
    Paired σ A D d d (moveToMemVia m x signed via) (moveToMemVia m' y signed via) fun _ _ => True := by
  have hbits : m.bits = m'.bits := hm.alike.size
  cases via with
  | none => exact .of_error rfl
  | some v =>
    unfold moveToMemVia
    rw [hbits]
    refine (Paired.sized ⟨v, 64⟩ _).bind ?_
    rintro a _ ⟨rfl, ha⟩
    have hv : a.reg ∉ frameRegs := ha ▸ hvia v rfl
    exact (moveToReg_paired signed hv h).bind fun _ _ _ => moveRegToMem_paired signed hm hv

/-- A move from an operand to one that may be written. -/
theorem move_paired {dst dst' : Operand} (signed : Bool) (hdst : dst.Twins σ A dst')
    (h : x.Alike σ y) (hy : y.Spare) (hvia : ThroughSpare via) :
    Paired σ A D d d (move dst x signed via) (move dst' y signed via) fun _ _ => True := by
  have hmem : ∀ {m m' : Mem}, (Operand.mem m).Twins σ A (.mem m') →
      Paired σ A D d d (move (.mem m) x signed via) (move (.mem m') y signed via) fun _ _ => True := by
    intro m m' hm
    have hbits : m.bits = m'.bits := hm.alike.size
    have hthrough : ∀ {x' y' : Operand}, x'.Alike σ y' →
        Paired σ A D d d (moveToMemVia m x' signed via) (moveToMemVia m' y' signed via) fun _ _ => True :=
      fun h => moveToMemVia_paired signed hm h hvia
    cases h with
    | moved m hframed hslot => exact hthrough (.moved m hframed hslot)
    | same x hx =>
      cases x with
      | reg s => exact moveRegToMem_paired signed hm (hy s rfl)
      | imm i =>
        simp only [move, moveToMem, hbits]
        exact .ite (fun _ => .writer (by decide) hm (.imm _)) fun _ => hthrough (.imm _)
      | mem _ | label _ | ptr _ _ | absent => exact hthrough (.same _ hx)
  obtain ⟨halike, hopen⟩ := hdst
  cases halike with
  | moved m hframed hslot => exact hmem ⟨.moved m hframed hslot, hopen⟩
  | same dst hdst =>
    cases dst with
    | reg r => exact moveToReg_paired signed hopen.reg h
    | mem m => exact hmem ⟨.same _ hdst, hopen⟩
    | imm _ | label _ | ptr _ _ | absent => exact .of_error rfl

/-! ## Arguments -/

/-- Pushing an operand puts 8 bytes on the stack. -/
theorem push_paired (signed : Bool) (h : x.Alike σ y) (hy : y.Spare) (hvia : ThroughSpare via)
    (hd : d + 8 ≤ D) :
    Paired σ A D d (d + 8) (push x signed via) (push y signed via) fun _ _ => True := by
  have hpush : ∀ {x' y' : Operand}, x'.Alike σ y' → y'.size = 64 →
      Paired σ A D d (d + 8) (ins .push [x']) (ins .push [y']) fun _ _ => True :=
    fun h hsize => .ins (.cons h .nil) (.push hsize hd .nil)
  have hthrough : ∀ {x' y' : Operand}, x'.Alike σ y' →
      Paired σ A D d (d + 8) (pushVia x' signed via) (pushVia y' signed via) fun _ _ => True := by
    intro x' y' h
    cases via with
    | none => exact .of_error rfl
    | some v =>
      refine (Paired.sized_eq ⟨v, 64⟩ 64).bind ?_
      rintro a _ ⟨rfl, rfl⟩
      exact (moveToReg_paired signed (hvia v rfl) h).bind fun _ _ _ => hpush (.reg _) rfl
  have hmem : ∀ {m m' : Mem}, Operand.Alike σ (.mem m) (.mem m') →
      Paired σ A D d (d + 8) (push (.mem m) signed via) (push (.mem m') signed via) fun _ _ => True := by
    intro m m' h
    have hbits : m.bits = m'.bits := h.size
    simp only [push, hbits]
    exact .ite (fun h64 => hpush h (eq_of_beq h64)) fun _ => hthrough h
  cases h with
  | moved m hframed hslot => exact hmem (.moved m hframed hslot)
  | same x hx =>
    cases x with
    | reg s =>
      refine (Paired.sized_eq s 64).bind ?_
      rintro a _ ⟨rfl, rfl⟩
      have hextend : Paired σ A D d d (ins .movsxd [.reg ⟨s.reg, 64⟩, .reg s])
          (ins .movsxd [.reg ⟨s.reg, 64⟩, .reg s]) fun _ _ => True :=
        .writer (by decide) (Operand.twins_reg (hy s rfl)) (.reg _)
      exact (Paired.onlyIf fun _ => hextend).bind fun _ _ _ => hpush (.reg _) rfl
    | mem m => exact hmem (.same _ hx)
    | imm i => exact .ite (fun _ => hpush (.imm _) rfl) fun _ => hthrough (.imm _)
    | label _ | ptr _ _ | absent => exact hthrough (.same _ hx)

theorem moveArg_paired {r : Reg} (signed : Bool) (hr : r ∉ frameRegs) (h : x.Alike σ y) :
    Paired σ A D d d (SysV.moveArg r x signed) (SysV.moveArg r y signed) fun _ _ => True := by
  unfold SysV.moveArg
  rw [h.argBits]
  refine (Paired.sized ⟨r, 64⟩ _).bind ?_
  rintro a _ ⟨rfl, ha⟩
  exact moveToReg_paired signed (ha ▸ hr) h

/-- Arguments of the two runs: the same place and sign, and values that differ in slots only. -/
structure ArgTwins (σ : Shift) (a b : SysV.Arg) : Prop where
  index : a.index = b.index
  signed : a.signed = b.signed
  alike : a.value.Alike σ b.value
  spare : b.value.Spare

theorem argTwins_zipIdx (signed : List Bool) (h : List.Forall₂ (Operand.Twins σ A) xs ys) (n : Nat)
    : List.Forall₂ (ArgTwins σ) ((xs.zipIdx n).map fun (x, i) => ⟨i, x, (signed[i]?).getD false⟩)
      ((ys.zipIdx n).map fun (x, i) => ⟨i, x, (signed[i]?).getD false⟩) := by
  induction h generalizing n with
  | nil => exact .nil
  | cons hxy _ ih => exact .cons ⟨rfl, rfl, hxy.alike, hxy.isOpen.spare⟩ (ih (n + 1))

/-- Whether an argument is passed on the stack. -/
def isStacked (a : SysV.Arg) : Bool := SysV.argRegs.length ≤ a.index

theorem countP_isStacked (xs : List Operand) (signed : List Bool) (n : Nat) :
    ((xs.zipIdx n).map fun (x, i) => (⟨i, x, (signed[i]?).getD false⟩ : SysV.Arg)).countP isStacked
      = xs.length - (SysV.argRegs.length - n) := by
  induction xs generalizing n with
  | nil => simp
  | cons x xs ih =>
    rw [List.zipIdx_cons, List.map_cons, List.countP_cons, ih (n + 1), List.length_cons]
    by_cases hn : SysV.argRegs.length ≤ n
    · simp [isStacked, hn]
      omega
    · simp [isStacked, hn]
      omega

theorem passArg_paired {a b : SysV.Arg} (h : ArgTwins σ a b) (hd : d + 8 * [b].countP isStacked ≤ D) :
    Paired σ A D d (d + 8 * [b].countP isStacked) (passArg a) (passArg b) fun _ _ => True := by
  unfold passArg
  rw [h.index, h.signed]
  refine .within ?_ _ _
  rw [List.countP_singleton] at hd ⊢
  cases hr : SysV.argRegs[b.index]? with
  | some r =>
    have hlt := (List.getElem?_eq_some_iff.mp hr).1
    have hspare : ∀ r ∈ SysV.argRegs, r ∉ frameRegs := by decide
    rw [if_neg (by simp [isStacked, hlt])]
    exact moveArg_paired _ (hspare r (List.mem_of_getElem? hr)) h.alike
  | none =>
    have hle := List.getElem?_eq_none_iff.mp hr
    have hstacked : isStacked b := by simp [isStacked, hle]
    rw [if_pos hstacked] at hd ⊢
    exact push_paired _ h.alike h.spare (fun r hr => Option.some.inj hr ▸ by decide) hd

theorem passArgs_paired {as bs : List SysV.Arg} (h : List.Forall₂ (ArgTwins σ) as bs)
    (hd : d + 8 * bs.countP isStacked ≤ D) :
    Paired σ A D d (d + 8 * bs.countP isStacked) (forAll passArg as)
      (forAll passArg bs) fun _ _ => True := by
  induction h generalizing d with
  | nil => exact .pure trivial
  | @cons a b as bs hab _ ih =>
    have hcount : (b :: bs).countP isStacked = [b].countP isStacked + bs.countP isStacked := by
      rw [← List.singleton_append, List.countP_append]
    rw [hcount, Nat.mul_add, ← Nat.add_assoc] at hd ⊢
    exact (passArg_paired hab (by omega)).bind fun _ _ _ => ih hd

theorem grow_paired (hd : d + 8 ≤ D) :
    Paired σ A D d (d + 8) (adjustStack .sub 8) (adjustStack .sub 8) fun _ _ => True :=
  .ins (.cons (.reg _) (.cons (.imm _) .nil)) (.grow hd .nil)

theorem shrink_paired (n : Nat) : Paired σ A D (d + n) d (adjustStack .add (Int64.ofNat n))
      (adjustStack .add (Int64.ofNat n)) fun _ _ => True :=
  .ins (.cons (.reg _) (.cons (.imm _) .nil)) (.shrink n .nil)

/-- The bytes that a call with a number of arguments pushes, padding included. -/
def callBytes (count : Nat) : Nat := 8 * (SysV.stackArgs count % 2) + 8 * SysV.stackArgs count

/-- A call happens at a multiple of 16 bytes and leaves nothing on the stack. -/
theorem call_paired {target target' : Operand} (signed : List Bool)
    (htarget : target.Alike σ target') (h : List.Forall₂ (Operand.Twins σ A) xs ys)
    (hD : callBytes xs.length ≤ D) :
    Paired σ A D 0 0 (SysV.call target xs signed) (SysV.call target' ys signed) fun _ _ => True := by
  have hlength : xs.length = ys.length := h.length_eq
  have hcount : ((SysV.numberArgs ys signed).reverse).countP isStacked = SysV.stackArgs xs.length := by
    rw [List.countP_reverse, hlength]
    exact countP_isStacked ys signed 0
  have htwins : List.Forall₂ (ArgTwins σ) (SysV.numberArgs xs signed).reverse
      (SysV.numberArgs ys signed).reverse :=
    List.forall₂_reverse_iff.mpr (argTwins_zipIdx signed h 0)
  unfold SysV.call
  rw [← hlength]
  unfold callBytes at hD
  generalize SysV.stackArgs xs.length = e at hD hcount ⊢
  -- the padding, the arguments, the call itself, and the same way back
  have hpad : Paired σ A D 0 (8 * (e % 2)) (onlyIf (e % 2 == 1) (adjustStack .sub 8))
      (onlyIf (e % 2 == 1) (adjustStack .sub 8)) fun _ _ => True := by
    rcases Nat.mod_two_eq_zero_or_one e with he | he
    · rw [he]
      exact .pure trivial
    · rw [he]
      exact grow_paired (by omega)
  have hargs := passArgs_paired (A := A) (D := D) (d := 8 * (e % 2)) htwins (by omega)
  rw [hcount] at hargs
  have hzero : Paired σ A D (8 * (e % 2) + 8 * e) (8 * (e % 2) + 8 * e)
      (ins .xor [.reg ⟨.rax, 32⟩, .reg ⟨.rax, 32⟩]) (ins .xor [.reg ⟨.rax, 32⟩, .reg ⟨.rax, 32⟩])
      fun _ _ => True :=
    .writer (by decide) (Operand.twins_reg (by decide)) (.reg _)
  have hcall : Paired σ A D (8 * (e % 2) + 8 * e) (8 * (e % 2) + 8 * e) (ins .call [target])
      (ins .call [target']) fun _ _ => True :=
    .ins (.cons htarget .nil) (.call (by omega) .nil)
  have hdrop : Paired σ A D (8 * (e % 2) + 8 * e) (8 * (e % 2))
      (onlyIf (callerCleanup && e > 0) (adjustStack .add (Int64.ofNat (8 * e))))
      (onlyIf (callerCleanup && e > 0) (adjustStack .add (Int64.ofNat (8 * e))))
      fun _ _ => True := by
    rcases Nat.eq_zero_or_pos e with rfl | he
    · exact .pure trivial
    · rw [show (callerCleanup && decide (e > 0)) = true by simpa [callerCleanup] using he]
      exact shrink_paired (8 * e)
  have hunpad : Paired σ A D (8 * (e % 2)) 0 (onlyIf (callerCleanup && e % 2 == 1) (adjustStack .add 8))
      (onlyIf (callerCleanup && e % 2 == 1) (adjustStack .add 8)) fun _ _ => True := by
    rcases Nat.mod_two_eq_zero_or_one e with he | he
    · rw [he]
      exact .pure trivial
    · rw [he]
      exact shrink_paired (d := 0) 8
  exact hpad.bind fun _ _ _ => hargs.bind fun _ _ _ => hzero.bind fun _ _ _ =>
    hcall.bind fun _ _ _ => hdrop.bind fun _ _ _ => hunpad

/-- A system call for which no register has to be kept. -/
theorem syscall_paired {number number' : Operand} (signed : List Bool) {inUse : Reg → Bool}
    (hnumber : number.Alike σ number') (h : List.Forall₂ (Operand.Twins σ A) xs ys)
    (hfree : ∀ r ∈ SysV.syscallRegs, inUse r = false) :
    Paired σ A D d d (SysV.syscall number xs signed inUse) (SysV.syscall number' ys signed inUse)
      fun _ _ => True := by
  have hkept : ∀ n, (SysV.syscallRegs.take n).filter inUse = [] := by
    intro n
    refine List.filter_eq_nil_iff.mpr fun r hr => ?_
    rw [hfree r (List.mem_of_mem_take hr)]
    exact Bool.false_ne_true
  have hpass : ∀ {as bs : List SysV.Arg}, List.Forall₂ (ArgTwins σ) as bs →
      Paired σ A D d d (forAll SysV.passSyscallArg as) (forAll SysV.passSyscallArg bs) fun _ _ => True := by
    intro as bs htwins
    induction htwins with
    | nil => exact .pure trivial
    | @cons a b as bs hab _ ih =>
      have hone : Paired σ A D d d (SysV.passSyscallArg a) (SysV.passSyscallArg b) fun _ _ => True := by
        unfold SysV.passSyscallArg
        rw [hab.index, hab.signed]
        refine .within ?_ _ _
        cases hr : SysV.syscallRegs[b.index]? with
        | some r =>
          have hspare : ∀ r ∈ SysV.syscallRegs, r ∉ frameRegs := by decide
          exact moveArg_paired _ (hspare r (List.mem_of_getElem? hr)) hab.alike
        | none => exact .of_error rfl
      exact hone.bind fun _ _ _ => ih
  have hargs := hpass (List.forall₂_reverse_iff.mpr (argTwins_zipIdx signed h 0))
  have hmove : Paired σ A D d d (move Reg.rax.full number true none)
      (move Reg.rax.full number' true none) fun _ _ => True :=
    moveToReg_paired true (by decide) hnumber
  unfold SysV.syscall
  rw [h.length_eq, hkept]
  refine .ite (fun _ => .of_error rfl) fun _ => ?_
  refine Paired.bind (R := fun _ _ => True) (.pure trivial) fun _ _ _ => hargs.bind fun _ _ _ => ?_
  refine (hmove.within _ _).bind fun _ _ _ => ?_
  exact Paired.bind (R := fun _ _ => True) (.ins .nil (.syscall .nil)) fun _ _ _ => .pure trivial

end

end Text

end TreeAsm.Asm
