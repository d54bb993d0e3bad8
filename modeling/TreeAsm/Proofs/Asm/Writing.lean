import TreeAsm.Proofs.Emit.Logic

/-!
# Operands that can be written

The sixteen general registers have a name for each of the four widths (`Reg.Whole`). As long as
operands are such registers at such widths, memory, numbers or addresses, every basic step of writing
text succeeds: moves into registers, moves into memory of one of the four widths from a register or
through one, pushes and calls. The statements below leave the causes of failure open, because there
is no failure.
-/

namespace TreeAsm.Asm

/-- The widths that registers are accessed at. -/
def widths : List Int64 := [8, 16, 32, 64]

theorem mem_widths {n : Int64} : n ∈ widths ↔ n = 8 ∨ n = 16 ∨ n = 32 ∨ n = 64 := by
  simp only [widths, List.mem_cons, List.not_mem_nil, or_false]

theorem forall_mem_widths {P : Int64 → Prop} : (∀ n ∈ widths, P n) ↔ P 8 ∧ P 16 ∧ P 32 ∧ P 64 := by
  simp only [mem_widths, forall_eq_or_imp, forall_eq]

/-- A register with a name for every width. -/
def Reg.Whole (r : Reg) : Prop := ∀ bits ∈ widths, (r.name? bits).isSome = true

instance (r : Reg) : Decidable r.Whole :=
  List.decidableBAll (fun bits => (r.name? bits).isSome = true) widths

theorem SysV.scratch_whole : ∀ r ∈ SysV.scratch, r.Whole := by decide

/-- A register at a width that it has a name for. -/
def Register.Nameable (r : Register) : Prop := r.reg.Whole ∧ r.bits ∈ widths

/-- An operand that can be written. -/
def Operand.Nameable : Operand → Prop
  | .reg r => r.Nameable
  | .absent => False
  | _ => True

/-- A place that a value can be moved to: a register, or memory whose width is that of a register. -/
def Operand.Target : Operand → Prop
  | .reg r => r.Nameable
  | .mem m => m.bits ∈ widths
  | _ => False

theorem Operand.Target.nameable {x : Operand} (h : x.Target) : x.Nameable := by
  cases x with
  | reg r => exact h
  | mem m => trivial
  | imm _ | label _ | ptr _ _ | absent => exact absurd h id

theorem Operand.Nameable.render? {x : Operand} (h : x.Nameable) : x.render?.isSome := by
  cases x with
  | reg r => exact h.1 r.bits h.2
  | absent => exact absurd h id
  | mem _ | imm _ | label _ | ptr _ _ => rfl

theorem Reg.rax_whole : Reg.rax.Whole := by decide

variable {r : Reg} {bits : Int64}

theorem Reg.Whole.full (h : r.Whole) : r.full.Nameable :=
  ⟨h, (by decide : (64 : Int64) ∈ widths)⟩

variable {E : Option Cause → Prop}

/-- A register with a name for a width can be had at that width. -/
theorem Reg.Whole.at_eq (hr : r.Whole) (hbits : bits ∈ widths) : r.at bits = .ok ⟨r, bits⟩ := by
  obtain ⟨name, hname⟩ := Option.isSome_iff_exists.mp (hr bits hbits)
  rw [Reg.at, Reg.name, hname]
  rfl

theorem Reg.at_gives (hr : r.Whole) (hbits : bits ∈ widths) :
    (r.at bits).Gives E fun d => d = ⟨r, bits⟩ := by
  rw [hr.at_eq hbits]
  exact rfl

theorem Register.Nameable.sized {r : Register} (hr : r.Nameable) (hbits : bits ∈ widths) :
    (r.sized bits).Gives E fun d => d = ⟨r.reg, bits⟩ :=
  Reg.at_gives hr.1 hbits

namespace Text

variable {x : Operand} {args : List Operand} {d r : Register} {via : Reg}

theorem ins_gives (op : Mnemonic) (h : ∀ x ∈ args, x.Nameable) : Gives E (ins op args) fun _ => True := by
  unfold ins
  rw [if_pos (List.all_eq_true.mpr fun x hx => (h x hx).render?)]
  exact trivial

/-- An instruction with two operands. -/
theorem ins₂_gives (op : Mnemonic) {y : Operand} (hx : x.Nameable) (hy : y.Nameable) :
    Gives E (ins op [x, y]) fun _ => True := by
  refine ins_gives op ?_
  intro z hz
  rcases List.mem_cons.mp hz with rfl | hz
  · exact hx
  · exact List.mem_singleton.mp hz ▸ hy

theorem onlyIf_gives {c : Bool} {x : Text Unit} (hx : Gives E x fun _ => True) :
    Gives E (onlyIf c x) fun _ => True :=
  Gives.ite (fun _ => hx) fun _ => Gives.pure trivial

theorem forAll_gives {α : Type} {f : α → Text Unit} {xs : List α}
    (hf : ∀ a ∈ xs, Gives E (f a) fun _ => True) : Gives E (SysV.forAll f xs) fun _ => True := by
  induction xs with
  | nil => exact Gives.pure trivial
  | cons a xs ih =>
    exact Gives.bind (hf a (List.mem_cons_self ..)) fun _ _ =>
      ih fun b hb => hf b (List.mem_cons_of_mem _ hb)

/-! ## Moves -/

theorem extend_gives (signed : Bool) (hd : d.Nameable) (hx : x.Nameable) :
    Gives E (extend d x signed) fun _ => True := by
  have hfull : ∀ op, Gives E (ins op [.reg d, x]) fun _ => True := fun op => ins₂_gives op hd hx
  refine Gives.ite (fun _ => Gives.ite (fun _ => hfull _) fun _ => ?_)
    fun _ => Gives.ite (fun _ => hfull _) fun _ => hfull _
  have h32 : (32 : Int64) ∈ widths := by decide
  refine Gives.bind (Gives.lift (hd.sized h32)) ?_
  rintro _ rfl
  exact ins₂_gives _ ⟨hd.1, h32⟩ hx

theorem moveImmediate_gives (value : Int64) (hd : d.Nameable) :
    Gives E (moveImmediate d value) fun _ => True := by
  have htarget : (immediateTarget d value).Gives E fun d' => d'.Nameable := by
    unfold immediateTarget
    split
    · have h32 : (32 : Int64) ∈ widths := by decide
      refine (hd.sized h32).mono (fun _ h => h) ?_
      rintro _ rfl
      exact ⟨hd.1, h32⟩
    · exact hd
  refine Gives.bind (Gives.lift htarget) fun d' hd' => ?_
  exact Gives.ite (fun _ => ins₂_gives _ hd' hd') fun _ => ins₂_gives _ hd' trivial

/-- Whatever can be written can be moved into a register. -/
theorem moveToReg_gives (signed : Bool) (hd : d.Nameable) (hx : x.Nameable) :
    Gives E (moveToReg d x signed) fun _ => True := by
  have h64 : (64 : Int64) ∈ widths := by decide
  have hwhole : ∀ {y : Operand} (op : Mnemonic), y.Nameable →
      Gives E (do let d ← lift (d.sized 64); ins op [.reg d, y]) fun _ => True := by
    intro y op hy
    refine Gives.bind (Gives.lift (hd.sized h64)) ?_
    rintro _ rfl
    exact ins₂_gives _ ⟨hd.1, h64⟩ hy
  cases x with
  | reg r =>
    have hcopy : ∀ {s : Register}, s.Nameable →
        Gives E (if s.reg = d.reg then pure () else ins .mov [.reg d, .reg s]) fun _ => True :=
      fun hs => Gives.ite (fun _ => Gives.pure trivial) fun _ => ins₂_gives _ hd hs
    refine Gives.ite (fun _ => hcopy hx) fun _ => Gives.ite (fun _ => ?_) fun _ => ?_
    · refine Gives.bind (Gives.lift (Register.Nameable.sized hx hd.2)) ?_
      rintro _ rfl
      exact hcopy ⟨hx.1, hd.2⟩
    · exact extend_gives signed hd hx
  | mem m =>
    exact Gives.ite (fun _ => ins₂_gives _ hd trivial) fun _ => extend_gives signed hd trivial
  | imm i => exact moveImmediate_gives i.value hd
  | ptr label pic => exact hwhole _ trivial
  | label name => exact hwhole _ trivial
  | absent => exact absurd hx id

theorem moveRegToMem_gives {d : Mem} (signed : Bool) (hd : d.bits ∈ widths) (hr : r.Nameable) :
    Gives E (moveRegToMem d r signed) fun _ => True := by
  have hwiden : Gives E (widen r d.bits signed) fun s => s.Nameable := by
    refine Gives.ite (fun _ => ?_) fun _ => Gives.pure hr
    refine Gives.bind (Gives.lift (hr.sized hd)) ?_
    rintro _ rfl
    exact Gives.bind (extend_gives signed ⟨hr.1, hd⟩ hr) fun _ _ => Gives.pure ⟨hr.1, hd⟩
  refine Gives.bind hwiden fun s hs => Gives.bind (Gives.lift (hs.sized hd)) ?_
  rintro _ rfl
  exact ins₂_gives _ trivial ⟨hs.1, hd⟩

theorem moveToMemVia_gives {d : Mem} (signed : Bool) (hd : d.bits ∈ widths) (hx : x.Nameable)
    (hvia : via.Whole) : Gives E (moveToMemVia d x signed (some via)) fun _ => True := by
  have hwidth : (if d.bits < 32 then 32 else d.bits) ∈ widths := by
    split
    · decide
    · exact hd
  refine Gives.bind (Gives.lift (Reg.at_gives hvia hwidth)) ?_
  rintro _ rfl
  exact Gives.bind (moveToReg_gives signed ⟨hvia, hwidth⟩ hx) fun _ _ =>
    moveRegToMem_gives signed hd ⟨hvia, hwidth⟩

/-- A register can be moved anywhere. -/
theorem moveReg_gives {d : Operand} (signed : Bool) (via : Option Reg) (hd : d.Target)
    (hr : r.Nameable) : Gives E (move d (.reg r) signed via) fun _ => True := by
  cases d with
  | reg d => exact moveToReg_gives signed hd hr
  | mem d => exact moveRegToMem_gives signed hd hr
  | imm _ | label _ | ptr _ _ | absent => exact absurd hd id

/-- Anything can be moved anywhere through another register. -/
theorem moveVia_gives {d : Operand} (signed : Bool) (hd : d.Target) (hx : x.Nameable)
    (hvia : via.Whole) : Gives E (move d x signed (some via)) fun _ => True := by
  cases d with
  | reg d => exact moveToReg_gives signed hd hx
  | mem d =>
    show Gives E (moveToMem d x signed (some via)) _
    have hthrough : ∀ y : Operand, y.Nameable →
        Gives E (moveToMemVia d y signed (some via)) fun _ => True := fun y hy =>
      moveToMemVia_gives signed hd hy hvia
    cases x with
    | reg r => exact moveRegToMem_gives signed hd hx
    | imm i => exact Gives.ite (fun _ => ins₂_gives _ trivial trivial) fun _ => hthrough _ hx
    | mem _ | label _ | ptr _ _ => exact hthrough _ hx
    | absent => exact absurd hx id
  | imm _ | label _ | ptr _ _ | absent => exact absurd hd id

/-! ## Arguments -/

theorem push_gives (signed : Bool) (hx : x.Nameable) (hvia : via.Whole) :
    Gives E (push x signed (some via)) fun _ => True := by
  have h64 : (64 : Int64) ∈ widths := by decide
  have hpush : ∀ {y : Operand}, y.Nameable → Gives E (ins .push [y]) fun _ => True := fun hy =>
    ins_gives _ fun z hz => List.mem_singleton.mp hz ▸ hy
  have hthrough : ∀ {y : Operand}, y.Nameable → Gives E (pushVia y signed (some via)) fun _ => True := by
    intro y hy
    refine Gives.bind (Gives.lift (Reg.at_gives hvia h64)) ?_
    rintro _ rfl
    exact Gives.bind (moveToReg_gives signed ⟨hvia, h64⟩ hy) fun _ _ => hpush ⟨hvia, h64⟩
  cases x with
  | reg r =>
    refine Gives.bind (Gives.lift (Register.Nameable.sized hx h64)) ?_
    rintro _ rfl
    exact Gives.bind (onlyIf_gives (ins₂_gives _ ⟨hx.1, h64⟩ hx)) fun _ _ => hpush ⟨hx.1, h64⟩
  | mem m => exact Gives.ite (fun _ => hpush trivial) fun _ => hthrough hx
  | imm i => exact Gives.ite (fun _ => hpush trivial) fun _ => hthrough hx
  | label _ | ptr _ _ => exact hthrough hx
  | absent => exact absurd hx id

theorem argBits_mem (x : Operand) : SysV.argBits x ∈ widths := by
  have hsplit : ∀ c : Bool, (if c then 32 else 64 : Int64) ∈ widths := by decide
  cases x with
  | reg r => exact hsplit _
  | mem m => exact hsplit _
  | imm i => exact hsplit _
  | label _ | ptr _ _ | absent => exact (by decide : (64 : Int64) ∈ widths)

theorem moveArg_gives {r : Reg} (signed : Bool) (hr : r.Whole) (hx : x.Nameable) :
    Gives E (SysV.moveArg r x signed) fun _ => True := by
  refine Gives.bind (Gives.lift (Reg.at_gives hr (argBits_mem x))) ?_
  rintro _ rfl
  exact moveToReg_gives signed ⟨hr, argBits_mem x⟩ hx

/-- A numbered argument is one of the arguments. -/
theorem mem_numberArgs {signed : List Bool} {a : SysV.Arg} (h : a ∈ SysV.numberArgs args signed) :
    a.value ∈ args ∧ a.index < args.length := by
  obtain ⟨⟨x, i⟩, hx, rfl⟩ := List.mem_map.mp h
  have hget : args[i]? = some x := List.mem_zipIdx_iff_getElem?.mp hx
  exact ⟨List.mem_of_getElem? hget, (List.getElem?_eq_some_iff.mp hget).1⟩

/-- A call of whatever can be written succeeds. -/
theorem call_gives {target : Operand} (signed : List Bool) (htarget : target.Nameable)
    (hargs : ∀ x ∈ args, x.Nameable) : Gives E (SysV.call target args signed) fun _ => True := by
  have hrax := Reg.rax_whole
  have hrsp : Reg.rsp.full.Nameable := (by decide : Reg.rsp.Whole).full
  have hadjust : ∀ op n, Gives E (SysV.adjustStack op n) fun _ => True := fun op n =>
    ins₂_gives op hrsp trivial
  have hpass : ∀ a ∈ (SysV.numberArgs args signed).reverse, Gives E (SysV.passArg a) fun _ => True := by
    intro a ha
    have hvalue := hargs a.value (mem_numberArgs (List.mem_reverse.mp ha)).1
    refine Gives.within ?_ _
    cases hr : SysV.argRegs[a.index]? with
    | some r =>
      have hwhole : ∀ r ∈ SysV.argRegs, r.Whole := by decide
      exact moveArg_gives a.signed (hwhole r (List.mem_of_getElem? hr)) hvalue
    | none => exact push_gives a.signed hvalue hrax
  refine Gives.bind (onlyIf_gives (hadjust _ _)) fun _ _ => ?_
  refine Gives.bind (forAll_gives hpass) fun _ _ => ?_
  refine Gives.bind (ins₂_gives _ ⟨hrax, by decide⟩ ⟨hrax, by decide⟩) fun _ _ => ?_
  refine Gives.bind (ins_gives _ fun z hz => List.mem_singleton.mp hz ▸ htarget) fun _ _ => ?_
  exact Gives.bind (onlyIf_gives (hadjust _ _)) fun _ _ => onlyIf_gives (hadjust _ _)

/-- A system call of what can be written succeeds, unless there are too many arguments. -/
theorem syscall_gives {number : Operand} (signed : List Bool) (inUse : Reg → Bool)
    (hnumber : number.Nameable) (hargs : ∀ x ∈ args, x.Nameable)
    (hE : SysV.syscallRegs.length < args.length →
      E (some (.tooManySyscallArguments args.length SysV.syscallRegs.length))) :
    Gives E (SysV.syscall number args signed inUse) fun _ => True := by
  have hwhole : ∀ r ∈ SysV.syscallRegs, r.Whole := by decide
  have hrax : Reg.rax.full.Nameable := Reg.rax_whole.full
  refine Gives.ite (fun hmany => hE hmany) fun hfew => ?_
  have hsave : ∀ op, ∀ r ∈ (SysV.syscallRegs.take args.length).filter inUse,
      Gives E (ins op [r.full]) fun _ => True := by
    intro op r hr
    have hmem := List.mem_of_mem_take (List.mem_filter.mp hr).1
    exact ins_gives _ fun z hz => List.mem_singleton.mp hz ▸ (hwhole r hmem).full
  have hpass : ∀ a ∈ (SysV.numberArgs args signed).reverse,
      Gives E (SysV.passSyscallArg a) fun _ => True := by
    intro a ha
    obtain ⟨hvalue, hindex⟩ := mem_numberArgs (List.mem_reverse.mp ha)
    refine Gives.within ?_ _
    cases hr : SysV.syscallRegs[a.index]? with
    | some r => exact moveArg_gives a.signed (hwhole r (List.mem_of_getElem? hr)) (hargs _ hvalue)
    | none =>
      have hlen := List.getElem?_eq_none_iff.mp hr
      omega
  refine Gives.bind (forAll_gives (hsave _)) fun _ _ => ?_
  refine Gives.bind (forAll_gives hpass) fun _ _ => ?_
  refine Gives.bind (Gives.within (moveToReg_gives true hrax hnumber) _) fun _ _ => ?_
  refine Gives.bind (ins_gives _ (by simp)) fun _ _ => forAll_gives fun r hr => ?_
  exact hsave _ r (List.mem_reverse.mp hr)

end Text

end TreeAsm.Asm
