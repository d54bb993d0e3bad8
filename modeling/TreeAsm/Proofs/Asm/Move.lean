import TreeAsm.Proofs.Asm.Machine
import TreeAsm.Proofs.Asm.Writing

/-!
# What copying an operand does

An operand is worth a word of every width: a register or memory is cut to it or filled up to it, a
number is kept in 64 bits, and a symbol stands for the address that it has once the program is in memory
(`Operand.worth`). A copy puts that word into a register or into memory (`moveToReg_fills`,
`moveToMem_puts`). A copy to memory may go through another register, and it fills up the register that it
copies from if that is narrower, so the address must not depend on this register (`Text.move_moves`).
-/

namespace TreeAsm.Asm

/-! ## Registers at a width -/

/-- The registers that values are kept in: all but those of the stack. -/
def Reg.general : List Reg :=
  [.rax, .rcx, .rdx, .rbx, .rsi, .rdi, .r8, .r9, .r10, .r11, .r12, .r13, .r14, .r15]

theorem Reg.whole_of_general : ∀ r ∈ Reg.general, r.Whole := by decide

/-- The widths of accesses. -/
def IsWidth (bits : Int64) : Prop := bits = 8 ∨ bits = 16 ∨ bits = 32 ∨ bits = 64

/-- The widths at which values are computed. -/
def IsWork (bits : Int64) : Prop := bits = 32 ∨ bits = 64

variable {x s : Operand} {m : Machine} {w v : Nat} {L : Linking} {b : Int64} {signed : Bool}
  {d : Register}

theorem IsWork.isWidth (h : IsWork b) : IsWidth b := .inr (.inr h)

theorem IsWidth.mem (h : IsWidth b) : b ∈ widths := mem_widths.mpr h

/-- The widths of accesses are whole numbers of bytes, at most eight. -/
theorem width_bytes_of_mem : ∀ b ∈ widths, 8 ∣ width b ∧ width b ≤ 64 :=
  forall_mem_widths.mpr (by decide)

theorem IsWidth.bytes (h : IsWidth b) : 8 ∣ width b ∧ width b ≤ 64 :=
  width_bytes_of_mem b h.mem

theorem IsWork.bounds (h : IsWork b) : 32 ≤ width b ∧ width b ≤ 64 := by
  rcases h with rfl | rfl <;> decide

/-- Widths are ordered like the numbers of bits. -/
theorem width_le_iff : ∀ b ∈ widths, ∀ c ∈ widths, b ≤ c ↔ width b ≤ width c := by
  refine forall_mem_widths.mpr ⟨?_, ?_, ?_, ?_⟩ <;> exact forall_mem_widths.mpr (by decide)

theorem Reg.at_eq {r : Reg} (hr : r ∈ Reg.general) (hb : IsWidth b) : r.at b = .ok ⟨r, b⟩ :=
  (Reg.whole_of_general r hr).at_eq hb.mem

theorem Text.lift_bind {α β : Type} {x : Outcome α} {f : α → Text β} {a : α} (hx : x = .ok a) :
    (Text.lift x >>= f) = f a := by
  subst hx
  rfl

/-- A write to a register can be read back. -/
theorem setWidth_merge (hw : w ≤ 64) (old : BitVec 64) (v : BitVec w) : (merge old v).setWidth w = v := by
  unfold merge
  split
  · ext i hi
    simp [hi, show i < 64 by omega]
  · rw [BitVec.setWidth_setWidth_of_le _ hw, BitVec.setWidth_eq]

/-! ## Symbols -/

/-- The addresses of symbols once the program is in memory. No symbol adds nothing to an address. -/
structure Linking where
  address : String → Int64
  none : address "" = 0

instance : Inhabited Linking := ⟨⟨fun _ => 0, rfl⟩⟩

/-- A place in memory whose symbol is replaced by its address. -/
def Mem.link (L : Linking) (x : Mem) : Mem :=
  { x with disp := x.disp + L.address x.symbol, symbol := "" }

/-- An operand whose symbol is replaced by its address. Labels in the code are not. -/
def Operand.link (L : Linking) : Operand → Operand
  | .mem x => .mem (x.link L)
  | .ptr l _ => immediate (L.address l)
  | x => x

/-- A line whose symbols are replaced by their addresses. To compute such an address is to copy it. -/
def Line.link (L : Linking) : Line → Line
  | .ins .lea [d, .ptr l _] => .ins .mov [d, immediate (L.address l)]
  | .ins .lea [d, .mem ⟨none, none, n, _, l, _⟩] => .ins .mov [d, immediate (n + L.address l)]
  | .ins op args => .ins op (args.map (·.link L))
  | l => l

/-- An operand without a symbol. -/
def Operand.Plain : Operand → Prop
  | .mem x => x.symbol = ""
  | .label _ | .ptr _ _ => False
  | _ => True

theorem Mem.link_eq {x : Mem} (h : x.symbol = "") : x.link L = x := by
  obtain ⟨base, index, disp, bits, symbol, pic⟩ := x
  obtain rfl : symbol = "" := h
  rw [Mem.link, L.none, Int64.add_zero]

theorem Operand.Plain.link (h : x.Plain) : x.link L = x := by
  cases x with
  | mem x => exact congrArg Operand.mem (Mem.link_eq h)
  | reg _ | imm _ | absent => rfl
  | label _ | ptr _ _ => exact h.elim

/-- The address of a place in memory. -/
def Mem.place (L : Linking) (x : Mem) (m : Machine) : BitVec 64 :=
  (x.base.map m.regs).getD 0 + (x.index.map m.regs).getD 0 + (x.link L).disp.toBitVec

theorem Mem.address_link (L : Linking) (x : Mem) (m : Machine) :
    (x.link L).address m = some (x.place L m) := if_neg (by simp [Mem.link])

/-- The address depends on the registers that it is made of only. -/
theorem Mem.place_congr {x : Mem} {m' : Machine}
    (h : ∀ r ∈ (Operand.mem x).regs, m'.regs r = m.regs r) : x.place L m' = x.place L m := by
  have hpart : ∀ y : Option Reg, (∀ r ∈ y.toList, m'.regs r = m.regs r) → y.map m'.regs = y.map m.regs := by
    intro y hy
    cases y with
    | none => rfl
    | some r => exact congrArg some (hy r (List.mem_singleton_self r))
  unfold Mem.place
  rw [hpart x.base fun r hr => h r (List.mem_append_left _ hr),
    hpart x.index fun r hr => h r (List.mem_append_right _ hr)]

/-! ## What an operand is worth -/

/-- The word of `w` bits that an operand is worth. Memory of no width is read at the width that is asked
for. -/
def Operand.worth (L : Linking) (m : Machine) (signed : Bool) (w : Nat) : Operand → BitVec w
  | .reg r => resize signed w ((m.regs r.reg).setWidth (width r.bits))
  | .mem x =>
    if x.bits = 0 then m.mem.load w (x.place L m)
    else resize signed w (m.mem.load (width x.bits) (x.place L m))
  | .imm i => BitVec.ofInt w i.value.toInt
  | .label l | .ptr l _ => BitVec.ofInt w (L.address l).toInt
  | .absent => 0

/-- An operand that can be copied: a register or memory of one of the four widths, memory of no width, a
number or an address. -/
def Operand.Source : Operand → Prop
  | .mem x => x.bits = 0 ∨ x.bits ∈ widths
  | x => x.Nameable

theorem Operand.Source.nameable (h : x.Source) : x.Nameable := by
  cases x with
  | mem _ => trivial
  | _ => exact h

/-- A register, or memory of some width. -/
def Operand.IsPlace (x : Operand) : Prop := (∃ r, x = .reg r) ∨ ∃ y, x = .mem y ∧ y.bits ≠ 0

/-- What a place is read as at its own width. -/
theorem Operand.IsPlace.read (hx : x.IsPlace) {b : Nat} (hb : x.bits = b) (m : Machine) :
    ∃ v : BitVec b, (x.link L).read m b = some v ∧
      ∀ signed w, x.worth L m signed w = resize signed w v := by
  subst hb
  rcases hx with ⟨r, rfl⟩ | ⟨y, rfl, hbits⟩
  · exact ⟨_, if_pos rfl, fun _ _ => rfl⟩
  · refine ⟨m.mem.load (width y.bits) (y.place L m), (if_pos rfl).trans ?_, fun _ _ => if_neg hbits⟩
    rw [Mem.address_link]
    rfl

theorem resize_of_le (h : w ≤ v) (signed : Bool) (x : BitVec v) : resize signed w x = x.setWidth w := by
  cases signed with
  | true => exact BitVec.signExtend_eq_setWidth_of_le _ h
  | false => rfl

theorem setWidth_resize {u : Nat} (h : w ≤ v) (signed : Bool) (x : BitVec u) :
    (resize signed v x).setWidth w = resize signed w x := by
  rw [← BitVec.ofInt_toInt (x := x), resize_ofInt, resize_ofInt, setWidth_ofInt h]

/-- The lowest bits of what an operand is worth. -/
theorem setWidth_worth (hv : 8 ∣ v) (hw : 8 ∣ w) (h : w ≤ v) (x : Operand) :
    (x.worth L m signed v).setWidth w = x.worth L m signed w := by
  cases x with
  | reg r => exact setWidth_resize h signed _
  | mem y =>
    simp only [Operand.worth]
    split
    · exact Memory.setWidth_load _ hw hv h _
    · exact setWidth_resize h signed _
  | imm _ | label _ | ptr _ _ => exact setWidth_ofInt h _
  | absent => exact BitVec.setWidth_zero _ _

/-! ## Integers in operands -/

/-- The operands that values are copied from. -/
def Operand.Usable : Operand → Prop
  | .reg r => r.reg ∈ Reg.general ∧ IsWork r.bits
  | .mem y => IsWidth y.bits ∧ y.symbol = ""
  | .imm _ => True
  | _ => False

theorem Operand.Usable.source (h : x.Usable) : x.Source ∧ x.Plain := by
  cases x with
  | reg r => exact ⟨⟨Reg.whole_of_general _ h.1, h.2.isWidth.mem⟩, trivial⟩
  | mem y => exact ⟨.inr h.1.mem, h.2⟩
  | imm i => exact ⟨trivial, trivial⟩
  | _ => exact h.elim

/-- An operand has the bits of an integer that is in the range of its width. -/
def Carries (m : Machine) (x : Operand) (signed : Bool) (a : Int) : Prop :=
  match x with
  | .reg r => (m.regs r.reg).setWidth (width r.bits) = BitVec.ofInt (width r.bits) a ∧
      wrapTo (width r.bits) signed a = a
  | .mem y => (∃ p, y.address m = some p ∧ m.mem.load (width y.bits) p = BitVec.ofInt (width y.bits) a) ∧
      wrapTo (width y.bits) signed a = a
  | .imm i => i.value = Int64.ofInt a
  | _ => False

/-- What an operand that carries an integer is read as, at its own width. -/
theorem Carries.read {a : Int} (h : Carries m x signed a) (hx : x.isImm = false) :
    x.read m x.bits = some (BitVec.ofInt x.bits a) ∧ wrapTo x.bits signed a = a := by
  cases x with
  | reg r =>
    exact ⟨(if_pos rfl).trans (congrArg some h.1), h.2⟩
  | mem y =>
    obtain ⟨⟨p, hp, hload⟩, hrange⟩ := h
    refine ⟨(if_pos rfl).trans ?_, hrange⟩
    rw [hp]
    exact congrArg some hload
  | imm i => cases hx
  | _ => exact h.elim

/-- An operand that carries an integer is worth the word of this integer. -/
theorem Carries.worth {a : Int} (h : Carries m x signed a) (hx : x.Usable ∨ ∃ r, x = .reg r)
    (hw : w ≤ 64) : x.worth L m signed w = BitVec.ofInt w a := by
  cases x with
  | reg r => rw [Operand.worth, h.1, resize_ofInt, h.2]
  | mem y =>
    obtain ⟨⟨p, hp, hload⟩, hrange⟩ := h
    obtain ⟨hbits, hsymbol⟩ : IsWidth y.bits ∧ y.symbol = "" := hx.resolve_right nofun
    have hplace : y.place L m = p := by
      have haddress := y.address_link L m
      rw [Mem.link_eq hsymbol, hp] at haddress
      exact (Option.some.inj haddress).symm
    have hne : y.bits ≠ 0 := by
      rcases hbits with h | h | h | h <;> rw [h] <;> decide
    rw [Operand.worth, if_neg hne, hplace, hload, resize_ofInt, hrange]
  | imm i =>
    have hvalue : i.value = Int64.ofInt a := h
    rw [Operand.worth, hvalue, ofInt_toInt_ofInt hw]
  | _ => exact h.elim

/-! ## What the lines of a text do -/

/-- Everything but some registers and the flags is the same. -/
structure Machine.SameBut (X : Reg → Prop) (m m' : Machine) : Prop where
  mem : m'.mem = m.mem
  regs : ∀ r, ¬ X r → m'.regs r = m.regs r

namespace Machine.SameBut

variable {X Y : Reg → Prop} {m m1 m2 : Machine}

theorem refl (X : Reg → Prop) (m : Machine) : m.SameBut X m := ⟨rfl, fun _ _ => rfl⟩

theorem mono (h : m.SameBut X m1) (hXY : ∀ r, X r → Y r) : m.SameBut Y m1 :=
  ⟨h.mem, fun r hr => h.regs r fun hX => hr (hXY r hX)⟩

theorem trans (h : m.SameBut X m1) (h' : m1.SameBut X m2) : m.SameBut X m2 :=
  ⟨h'.mem.trans h.mem, fun r hr => (h'.regs r hr).trans (h.regs r hr)⟩

end Machine.SameBut

theorem Machine.setReg_sameBut (m : Machine) (r : Reg) (v : BitVec w) :
    m.SameBut (· = r) (m.setReg r v) := ⟨rfl, fun _ h => m.setReg_of_ne r v h⟩

/-- If a text is written to its end, its lines lead from every state to one that is related to it. If
`c`, no line has a symbol. -/
def Text.Leads {α : Type} (L : Linking) (c : Prop) (x : Text α) (R : Machine → Machine → Prop) : Prop :=
  ∀ a, x.result = .ok a → (c → x.lines.map (Line.link L) = x.lines) ∧
    ∀ m, ∃ m', runLines (x.lines.map (Line.link L)) m = .next m' ∧ R m m'

namespace Text.Leads

variable {α β : Type} {L : Linking} {c : Prop} {x : Text α} {R S : Machine → Machine → Prop}

theorem pure {a : α} (h : ∀ m, R m m) : Leads L c (pure a : Text α) R :=
  fun _ _ => ⟨fun _ => rfl, fun m => ⟨m, rfl, h m⟩⟩

theorem mono (h : Leads L c x R) {c' : Prop} (hc : c' → c) (hRS : ∀ m m', R m m' → S m m') :
    Leads L c' x S := by
  intro a ha
  obtain ⟨hplain, hrun⟩ := h a ha
  refine ⟨fun hc' => hplain (hc hc'), fun m => ?_⟩
  obtain ⟨m', hm', hR⟩ := hrun m
  exact ⟨m', hm', hRS m m' hR⟩

theorem bind {f : α → Text β} (hx : Leads L c x R) (hf : ∀ a, x.result = .ok a → Leads L c (f a) S) :
    Leads L c (x >>= f) fun m m2 => ∃ m1, R m m1 ∧ S m1 m2 := by
  intro b hb
  obtain ⟨a, ha, hb, hlines⟩ := Text.bind_ok hb
  obtain ⟨hplain, hrun⟩ := hx a ha
  obtain ⟨hplain', hrun'⟩ := hf a ha b hb
  rw [hlines, List.map_append]
  refine ⟨fun hc => by rw [hplain hc, hplain' hc], fun m => ?_⟩
  obtain ⟨m1, hm1, hR⟩ := hrun m
  obtain ⟨m2, hm2, hS⟩ := hrun' m1
  exact ⟨m2, (runLines_append hm1 _).trans hm2, m1, hR, hS⟩

/-- One instruction, which is the line `l` once symbols have addresses. -/
theorem ins {op : Mnemonic} {args : List Operand} (l : Line) (hl : (Line.ins op args).link L = l)
    (hplain : c → l = .ins op args) (hrun : ∀ m, ∃ m', runLines [l] m = .next m' ∧ R m m') :
    Leads L c (Text.ins op args) R := by
  intro a ha
  rw [Text.ins_lines ha]
  show (c → [(Line.ins op args).link L] = [.ins op args]) ∧
    ∀ m, ∃ m', runLines [(Line.ins op args).link L] m = .next m' ∧ R m m'
  rw [hl]
  exact ⟨fun hc => by rw [hplain hc], hrun⟩

/-- What the lines do if no line has a symbol. -/
theorem plain (h : Leads L c x R) (hc : c) {a : α} (ha : x.result = .ok a) (m : Machine) :
    ∃ m', runLines x.lines m = .next m' ∧ R m m' := by
  obtain ⟨hplain, hrun⟩ := h a ha
  rw [hplain hc] at hrun
  exact hrun m

end Text.Leads

theorem runLines_mov {v : BitVec (width d.bits)} (h : s.read m (width d.bits) = some v) :
    runLines [.ins .mov [.reg d, s]] m = .next (m.setReg d.reg v) := by
  have hcopy : m.copy (.reg d) s = some (m.setReg d.reg v) := by
    show (s.read m (width d.bits)).bind _ = _
    rw [h]
    exact if_pos rfl
  have hexec : (Line.ins .mov [.reg d, s]).exec m = Exit.ofOption (m.copy (.reg d) s) := rfl
  rw [runLines, hexec, hcopy]
  rfl

/-- A register is cleared. -/
theorem clear_runs (m : Machine) (hw : IsWork d.bits) :
    ∃ m', runLines [.ins .xor [.reg d, .reg d]] m = .next m' ∧ m.SameBut (· = d.reg) m' ∧
      m'.regs d.reg = 0 := by
  have hcompute : m.compute .xor (.reg d) (.reg d)
      = some (m.clearFlags.setReg d.reg (0 : BitVec (width d.bits))) := by
    have hread : (Operand.reg d).read m (width d.bits)
        = some ((m.regs d.reg).setWidth (width d.bits)) := if_pos rfl
    show ((Operand.reg d).read m (width d.bits)).bind _ = _
    rw [hread]
    show ((Operand.reg d).read m (width d.bits)).bind _ = _
    rw [hread]
    show (Operand.reg d).write m.clearFlags ((m.regs d.reg).setWidth (width d.bits)
      ^^^ (m.regs d.reg).setWidth (width d.bits)) = _
    rw [BitVec.xor_self]
    exact if_pos rfl
  refine ⟨m.clearFlags.setReg d.reg (0 : BitVec (width d.bits)), ?_,
    ⟨rfl, fun r' h => Machine.setReg_of_ne _ _ _ h⟩, ?_⟩
  · have hexec : (Line.ins .xor [.reg d, .reg d]).exec m
        = Exit.ofOption (m.compute .xor (.reg d) (.reg d)) := rfl
    rw [runLines, hexec, hcompute]
    rfl
  · have hbounds := hw.bounds
    rw [Machine.setReg_self, merge, if_neg (by omega)]
    exact BitVec.setWidth_zero _ _

/-- A place is copied to a register that is wider. -/
theorem runLines_extension {op : Mnemonic} {b : Nat} {v : BitVec b} (hs : s.isImm = false)
    (hb : s.bits = b) (hop : extension op b (width d.bits) = some signed) (h : s.read m b = some v)
    :
    runLines [.ins op [.reg d, s]] m = .next (m.setReg d.reg (resize signed (width d.bits) v)) := by
  subst hb
  have hextend : m.extend op (.reg d) s = some (m.setReg d.reg (resize signed (width d.bits) v)) := by
    show (extension op s.bits (width d.bits)).bind _ = _
    rw [hop]
    rw [h]
    exact if_pos rfl
  have hexec : m.exec op [.reg d, s] = Exit.ofOption (m.extend op (.reg d) s) := by
    cases op <;> first
      | exact if_neg (by simp [hs])
      | cases hop
  rw [runLines, Line.exec, hexec, hextend]
  rfl

/-! ## Copies to registers -/

/-- A register has the word that an operand was worth. -/
structure Fills (L : Linking) (d : Register) (x : Operand) (signed : Bool) (m m' : Machine) : Prop where
  same : m.SameBut (· = d.reg) m'
  value : (m'.regs d.reg).setWidth (width d.bits) = x.worth L m signed (width d.bits)

section

variable {L : Linking} {d : Register} {x : Operand} {signed : Bool}

variable {op : Mnemonic} {q : Register}

/-- A plain copy of a word to a register, perhaps at another width. -/
theorem Fills.mov {args : List Operand} {b : Int64} (s : Operand)
    (hl : (Line.ins op args).link L = .ins .mov [.reg ⟨d.reg, b⟩, s])
    (hplain : x.Plain → .ins .mov [.reg ⟨d.reg, b⟩, s] = Line.ins op args)
    (h : ∀ m, ∃ v : BitVec (width b), s.read m (width b) = some v ∧
      (merge (m.regs d.reg) v).setWidth (width d.bits) = x.worth L m signed (width d.bits)) :
    Text.Leads L x.Plain (Text.ins op args) (Fills L d x signed) := by
  refine .ins _ hl hplain fun m => ?_
  obtain ⟨v, hread, hv⟩ := h m
  refine ⟨_, runLines_mov (d := ⟨d.reg, b⟩) hread, m.setReg_sameBut _ _, ?_⟩
  rw [Machine.setReg_self, hv]

/-- A copy that fills up a narrower place. -/
theorem Fills.extension (hd : d.Nameable) (hx : x.IsPlace)
    (hop : extension op x.bits (width d.bits) = some signed) :
    Text.Leads L x.Plain (Text.ins op [.reg d, x]) (Fills L d x signed) := by
  have hkind : (x.link L).isImm = false ∧ (x.link L).bits = x.bits := by
    rcases hx with ⟨r, rfl⟩ | ⟨y, rfl, -⟩ <;> exact ⟨rfl, rfl⟩
  refine .ins (.ins op [.reg d, x.link L]) ?_ (fun h => by rw [h.link]) fun m => ?_
  · cases op <;> first
      | rfl
      | cases hop
  · obtain ⟨v, hread, hv⟩ := hx.read (L := L) rfl m
    refine ⟨_, runLines_extension hkind.1 hkind.2 hop hread, m.setReg_sameBut _ _, ?_⟩
    rw [Machine.setReg_self, setWidth_merge (width_bytes_of_mem _ hd.2).2, hv]

/-- Filling up a narrower place. Writing 32 bits of a register clears its upper half. -/
theorem extend_fills (hd : d.Nameable) (hx : x.IsPlace) (hbits : x.size ∈ widths)
    (hlt : width x.size < width d.bits) :
    Text.Leads L x.Plain (Text.extend d x signed) (Fills L d x signed) := by
  have hwidth : ∀ b ∈ widths, ∀ c ∈ widths, width b < width c →
      (b = 32 ∧ c = 64) ∨ ((b == 32 && c == 64) = false ∧ (width b = 8 ∨ width b = 16)) := by
    refine forall_mem_widths.mpr ⟨?_, ?_, ?_, ?_⟩ <;> exact forall_mem_widths.mpr (by decide)
  unfold Text.extend
  rcases hwidth _ hbits _ hd.2 hlt with ⟨h32, h64⟩ | ⟨hne, hsmall⟩
  · rw [if_pos (by rw [h32, h64]; rfl)]
    have hx32 : x.bits = 32 := by rw [Operand.bits, h32]; rfl
    cases signed with
    | true => exact Fills.extension hd hx (by rw [hx32, h64]; rfl)
    | false =>
      rw [if_neg Bool.false_ne_true, Register.sized, Text.lift_bind (hd.1.at_eq (by decide))]
      refine Fills.mov (x.link L) rfl (fun h => by rw [h.link]) fun m => ?_
      obtain ⟨v, hread, hv⟩ := hx.read (L := L) hx32 m
      refine ⟨v, hread, ?_⟩
      rw [hv, h64]
      exact BitVec.setWidth_eq _
  · rw [hne, if_neg Bool.false_ne_true]
    cases signed with
    | true => exact Fills.extension hd hx (if_pos ⟨hsmall, hlt⟩)
    | false => exact Fills.extension hd hx (if_pos ⟨hsmall, hlt⟩)

/-- A copy of the same width or of the lower part reads the bits of a register. -/
theorem reg_worth {w : Nat} (h : w ≤ width q.bits) (m : Machine) :
    (m.regs q.reg).setWidth w = (Operand.reg q).worth L m signed w :=
  (BitVec.setWidth_setWidth_of_le _ h).symm.trans (resize_of_le h signed _).symm

theorem moveToReg_reg (hd : d.Nameable) (hq : q.Nameable) :
    Text.Leads L (Operand.reg q).Plain (Text.moveToReg d (.reg q) signed) (Fills L d (.reg q) signed) := by
  have hle := width_le_iff d.bits hd.2 q.bits hq.2
  have hcopy : d.bits ≤ q.bits → Text.Leads L (Operand.reg q).Plain
      (if q.reg = d.reg then pure () else Text.ins .mov [.reg d, .reg ⟨q.reg, d.bits⟩])
      (Fills L d (.reg q) signed) := by
    intro h
    by_cases hsame : q.reg = d.reg
    · rw [if_pos hsame]
      exact .pure fun m => ⟨.refl _ m, hsame ▸ reg_worth (hle.mp h) m⟩
    · rw [if_neg hsame]
      refine Fills.mov (b := d.bits) _ rfl (fun _ => rfl) fun m => ⟨_, if_pos rfl, ?_⟩
      rw [setWidth_merge (width_bytes_of_mem _ hd.2).2, reg_worth (hle.mp h) m]
  rw [Text.moveToReg]
  by_cases heq : q.bits = d.bits
  · have h := hcopy (heq ▸ Int64.le_refl _)
    rw [← heq] at h
    rwa [if_pos (beq_iff_eq.mpr heq)]
  · rw [if_neg (by simpa using heq)]
    by_cases hgt : q.bits > d.bits
    · rw [if_pos hgt, Register.sized, Text.lift_bind (hq.1.at_eq hd.2)]
      exact hcopy (Int64.le_of_lt hgt)
    · rw [if_neg hgt]
      have hlt : ¬ width d.bits ≤ width q.bits := fun h => heq
        (Int64.le_antisymm (Int64.not_lt.mp hgt) (hle.mpr h))
      exact extend_fills hd (.inl ⟨q, rfl⟩) hq.2 (Nat.lt_of_not_le hlt)

theorem moveToReg_mem {y : Mem} (hd : d.Nameable) (hy : (Operand.mem y).Source) :
    Text.Leads L (Operand.mem y).Plain (Text.moveToReg d (.mem y) signed) (Fills L d (.mem y) signed) := by
  have hbytes := width_bytes_of_mem _ hd.2
  rw [Text.moveToReg]
  by_cases hwide : (y.bits == 0 || y.bits ≥ d.bits)
  · rw [if_pos hwide]
    refine Fills.mov (b := d.bits) (.mem ((y.resize d.bits).link L)) rfl
      (fun h => by rw [Mem.link_eq (x := y.resize d.bits) h]) fun m => ?_
    refine ⟨m.mem.load (width d.bits) (y.place L m), (if_pos rfl).trans ?_, ?_⟩
    · rw [Mem.address_link]
      rfl
    · rw [setWidth_merge hbytes.2, Operand.worth]
      split
      · rfl
      next hne =>
        have hmem := hy.resolve_left hne
        have hle : width d.bits ≤ width y.bits :=
          (width_le_iff _ hd.2 _ hmem).mp (by simpa [hne] using hwide)
        rw [resize_of_le hle, Memory.setWidth_load _ hbytes.1 (width_bytes_of_mem _ hmem).1 hle]
  · rw [if_neg hwide]
    have hparts : y.bits ≠ 0 ∧ ¬ d.bits ≤ y.bits := by simpa using hwide
    have hmem := hy.resolve_left hparts.1
    refine extend_fills hd (.inr ⟨y, rfl, hparts.1⟩) hmem ?_
    exact Nat.lt_of_not_le fun h => hparts.2 ((width_le_iff _ hd.2 _ hmem).mpr h)

/-- A number is put into a register at a width that is enough for it. -/
theorem moveImmediate_fills {i : Imm} (hd : d.Nameable) :
    Text.Leads L True (Text.moveImmediate d i.value) (Fills L d (.imm i) signed) := by
  have hput : ∀ b ∈ widths, (∀ old, (merge old (BitVec.ofInt (width b) i.value.toInt)).setWidth
        (width d.bits) = BitVec.ofInt (width d.bits) i.value.toInt) →
      Text.Leads L True (if i.value == 0 && b ≥ 32 then Text.ins .xor [.reg ⟨d.reg, b⟩, .reg ⟨d.reg, b⟩]
        else Text.ins .mov [.reg ⟨d.reg, b⟩, .imm ⟨i.value, b, false⟩]) (Fills L d (.imm i) signed) := by
    intro b hb hvalue
    by_cases hzero : (i.value == 0 && b ≥ 32)
    · rw [if_pos hzero]
      obtain ⟨hi, hwide⟩ : i.value = 0 ∧ b ≥ 32 := by simpa using hzero
      have hwork : ∀ b ∈ widths, b ≥ 32 → IsWork b :=
        forall_mem_widths.mpr (by unfold IsWork; decide)
      refine .ins _ rfl (fun _ => rfl) fun m => ?_
      obtain ⟨m', hrun, hsame, hreg⟩ := clear_runs m (d := ⟨d.reg, b⟩) (hwork b hb hwide)
      refine ⟨m', hrun, hsame, ?_⟩
      rw [hreg, Operand.worth, hi]
      exact BitVec.setWidth_zero _ _
    · rw [if_neg hzero]
      refine (Fills.mov (x := .imm i) (b := b) _ rfl (fun _ => rfl) fun m => ?_).mono
        (fun _ => trivial) fun _ _ h => h
      exact ⟨_, rfl, hvalue _⟩
  unfold Text.moveImmediate Text.immediateTarget
  by_cases hsmall : (d.bits == 64 && i.value ≥ 0 && i.value < 4294967296)
  · obtain ⟨⟨hbits, hlow⟩, hhigh⟩ : (d.bits = 64 ∧ 0 ≤ i.value) ∧ i.value < 4294967296 := by
      simpa [Bool.and_eq_true] using hsmall
    rw [if_pos hsmall, Register.sized, Text.lift_bind (hd.1.at_eq (by decide))]
    refine hput 32 (by decide) fun old => ?_
    have hrange : wrapTo 32 false i.value.toInt = i.value.toInt := by
      rw [Int64.le_iff_toInt_le] at hlow
      rw [Int64.lt_iff_toInt_lt] at hhigh
      exact Int.emod_eq_of_lt hlow hhigh
    rw [hbits]
    refine (BitVec.setWidth_eq _).trans ?_
    have hresize := resize_ofInt false 32 64 i.value.toInt
    rwa [hrange] at hresize
  · rw [if_neg hsmall]
    exact hput d.bits hd.2 fun old => setWidth_merge (width_bytes_of_mem _ hd.2).2 old _

/-- Every operand that can be copied is copied to a register. -/
theorem moveToReg_fills (hd : d.Nameable) (hx : x.Source) :
    Text.Leads L x.Plain (Text.moveToReg d x signed) (Fills L d x signed) := by
  -- an address is put into the whole register
  have haddress : ∀ {op : Mnemonic} {y : Operand} {a : Int64}, ¬ x.Plain →
      (Line.ins op [.reg ⟨d.reg, 64⟩, y]).link L = .ins .mov [.reg ⟨d.reg, 64⟩, immediate a] →
      (∀ m w, x.worth L m signed w = BitVec.ofInt w a.toInt) →
      Text.Leads L x.Plain (do let d ← Text.lift (d.sized 64); Text.ins op [.reg d, y])
        (Fills L d x signed) := by
    intro op y a hplain hl hworth
    rw [Register.sized, Text.lift_bind (hd.1.at_eq (by decide))]
    refine Fills.mov (b := 64) _ hl (fun h => absurd h hplain) fun m => ⟨_, rfl, ?_⟩
    rw [hworth, ← setWidth_ofInt (width_bytes_of_mem _ hd.2).2]
    exact congrArg _ (BitVec.setWidth_eq _)
  cases x with
  | reg q => exact moveToReg_reg hd hx
  | mem y => exact moveToReg_mem hd hx
  | imm i => exact moveImmediate_fills hd
  | ptr l pic =>
    cases pic with
    | true => exact haddress id rfl fun _ _ => rfl
    | false => exact haddress id rfl fun _ _ => rfl
  | label l =>
    refine haddress id (a := L.address l) ?_ fun _ _ => rfl
    show Line.ins .mov [_, immediate (0 + L.address l)] = _
    rw [Int64.zero_add]
  | absent => exact hx.elim

end

/-! ## Copies to memory -/

/-- Register `r` is the operand and narrower than a place of `bits` bits. -/
def Operand.Narrow (x : Operand) (bits : Int64) (r : Reg) : Prop := ∃ b, x = .reg ⟨r, b⟩ ∧ b < bits

theorem Operand.Usable.narrow (h : x.Usable) {bits : Int64} (hbits : IsWidth bits) {r : Reg}
    (hr : x.Narrow bits r) : x = .reg ⟨r, 32⟩ ∧ r ∈ Reg.general := by
  obtain ⟨b, rfl, hlt⟩ := hr
  obtain ⟨hreg, rfl | rfl⟩ : r ∈ Reg.general ∧ IsWork b := h
  · exact ⟨rfl, hreg⟩
  · have hmax : ∀ b ∈ widths, ¬ 64 < b := forall_mem_widths.mpr (by decide)
    exact absurd hlt (hmax bits hbits.mem)

/-- Memory has the word that an operand was worth. The register that is copied from may get other upper
bits, and the one that is copied through may get anything. -/
structure Puts (L : Linking) (d : Mem) (x : Operand) (signed : Bool) (via : Option Reg)
    (m m' : Machine) : Prop where
  mem : m'.mem = m.mem.store (d.place L m) (x.worth L m signed (width d.bits))
  regs : ∀ r, via ≠ some r → ¬ x.Narrow d.bits r → m'.regs r = m.regs r
  low : ∀ s, x = .reg s → via ≠ some s.reg →
    (m'.regs s.reg).setWidth (width s.bits) = (m.regs s.reg).setWidth (width s.bits)

/-- A word is written to memory by one plain copy. -/
theorem runLines_store {y : Mem} {v : BitVec (width y.bits)} {p : BitVec 64} (hs : s.isMem = false)
    (hv : s.source m (width y.bits) = some v) (hp : y.address m = some p) :
    runLines [.ins .mov [.mem y, s]] m = .next (m.setMem p v) := by
  have hcopy : m.copy (.mem y) s = some (m.setMem p v) := by
    show (s.source m (width y.bits)).bind _ = _
    rw [hv]
    refine (if_pos rfl).trans ?_
    rw [hp]
    rfl
  have hexec : (Line.ins .mov [.mem y, s]).exec m = Exit.ofOption (m.copy (.mem y) s) :=
    if_neg (by simp [hs])
  rw [runLines, hexec, hcopy]
  rfl

section

variable {L : Linking} {d : Mem} {x : Operand} {signed : Bool} {via : Option Reg}

variable {s : Register}

/-- A register that is narrower than a place is filled up before it is copied there. -/
theorem moveRegToMem_eq (hd : d.bits ∈ widths) (hs : s.reg.Whole) :
    Text.moveRegToMem d s signed = if s.bits < d.bits then
      (do Text.extend ⟨s.reg, d.bits⟩ (.reg s) signed; Text.ins .mov [.mem d, .reg ⟨s.reg, d.bits⟩])
      else Text.ins .mov [.mem d, .reg ⟨s.reg, d.bits⟩] := by
  have hat := hs.at_eq hd
  rw [Text.moveRegToMem, Text.widen]
  by_cases hlt : s.bits < d.bits
  · simp only [if_pos hlt, Register.sized, Text.lift_bind hat, Text.bind_assoc]
    exact congrArg (Text.extend ⟨s.reg, d.bits⟩ (.reg s) signed >>= ·) (funext fun _ => Text.lift_bind hat)
  · simp only [if_neg hlt]
    exact Text.lift_bind hat

theorem store_leads (d : Mem) (r : Reg) : Text.Leads L (d.symbol = "")
    (Text.ins .mov [.mem d, .reg ⟨r, d.bits⟩]) fun m m' =>
      m' = m.setMem (d.place L m) ((m.regs r).setWidth (width d.bits)) := by
  refine .ins (.ins .mov [.mem (d.link L), .reg ⟨r, d.bits⟩]) rfl (fun h => by rw [Mem.link_eq h]) fun m => ?_
  exact ⟨_, runLines_store rfl ((if_pos rfl).trans (if_pos rfl)) (d.address_link L m), rfl⟩

theorem moveRegToMem_puts (hd : d.bits ∈ widths) (hs : s.Nameable)
    (hapart : ∀ r ∈ (Operand.mem d).regs, ¬ (Operand.reg s).Narrow d.bits r) :
    Text.Leads L (d.symbol = "") (Text.moveRegToMem d s signed) (Puts L d (.reg s) signed via) := by
  have hle := width_le_iff _ hd _ hs.2
  rw [moveRegToMem_eq hd hs.1]
  by_cases hlt : s.bits < d.bits
  · have hwidth : width s.bits < width d.bits :=
      Nat.lt_of_not_le fun h => Int64.not_le.mpr hlt (hle.mpr h)
    have hbytes := width_bytes_of_mem _ hd
    rw [if_pos hlt]
    have hextend : Text.Leads L _ (Text.extend ⟨s.reg, d.bits⟩ (.reg s) signed) _ :=
      extend_fills ⟨hs.1, hd⟩ (.inl ⟨s, rfl⟩) hs.2 hwidth
    refine ((hextend.mono (fun _ => trivial) fun _ _ h => h).bind fun _ _ => store_leads d s.reg).mono id ?_
    rintro m m2 ⟨m1, hfills, rfl⟩
    have hkept : ∀ r ∈ (Operand.mem d).regs, m1.regs r = m.regs r := fun r hr =>
      hfills.same.regs r fun h => hapart r hr ⟨s.bits, by rw [h], hlt⟩
    refine ⟨?_, fun r _ hr => hfills.same.regs r fun h => hr ⟨s.bits, by rw [h], hlt⟩, ?_⟩
    · show m1.mem.store (d.place L m1) ((m1.regs s.reg).setWidth (width d.bits)) = _
      rw [Mem.place_congr hkept, hfills.same.mem, hfills.value]
    · rintro s' ⟨⟩ -
      have hvalue := congrArg (BitVec.setWidth (width s.bits)) hfills.value
      rw [BitVec.setWidth_setWidth_of_le _ (Nat.le_of_lt hwidth),
        setWidth_worth hbytes.1 (width_bytes_of_mem _ hs.2).1 (Nat.le_of_lt hwidth)] at hvalue
      exact hvalue.trans (reg_worth (Nat.le_refl _) m).symm
  · rw [if_neg hlt]
    refine (store_leads d s.reg).mono id ?_
    rintro m m' rfl
    refine ⟨?_, fun _ _ _ => rfl, fun _ _ _ => rfl⟩
    show m.mem.store _ ((m.regs s.reg).setWidth (width d.bits)) = _
    rw [reg_worth (hle.mp (Int64.not_lt.mp hlt)) m]

/-- A copy through a register. -/
theorem moveToMemVia_puts (hd : d.bits ∈ widths) (hx : x.Source)
    (hvia : ∀ r, via = some r → r.Whole ∧ r ∉ (Operand.mem d).regs) :
    Text.Leads L (x.Plain ∧ d.symbol = "") (Text.moveToMemVia d x signed via) (Puts L d x signed via) := by
  cases via with
  | none => exact fun _ h => by cases h
  | some r =>
    obtain ⟨hr, hfree⟩ := hvia r rfl
    have hwide : ∀ b ∈ widths, (if b < 32 then 32 else b) ∈ widths ∧
        ¬ (if b < 32 then 32 else b) < b ∧ width b ≤ width (if b < 32 then 32 else b) :=
      forall_mem_widths.mpr (by decide)
    obtain ⟨hb, hlt, hle⟩ := hwide d.bits hd
    rw [Text.moveToMemVia, Text.lift_bind (hr.at_eq hb)]
    have hfill : Text.Leads L _ (Text.moveToReg ⟨r, if d.bits < 32 then 32 else d.bits⟩ x signed) _ :=
      moveToReg_fills ⟨hr, hb⟩ hx
    rw [moveRegToMem_eq hd hr, if_neg hlt]
    refine ((hfill.mono And.left fun _ _ h => h).bind fun _ _ =>
      (store_leads d r).mono And.right fun _ _ h => h).mono id ?_
    rintro m m2 ⟨m1, hfills, rfl⟩
    have hkept : ∀ q, q ≠ r → m1.regs q = m.regs q := hfills.same.regs
    refine ⟨?_, fun q hq _ => hkept q fun h => hq (by rw [h]), fun s _ hs => ?_⟩
    · show m1.mem.store (d.place L m1) ((m1.regs r).setWidth (width d.bits)) = _
      rw [Mem.place_congr fun q hq => hkept q fun h => hfree (h ▸ hq), hfills.same.mem,
        ← BitVec.setWidth_setWidth_of_le _ hle, hfills.value,
        setWidth_worth (width_bytes_of_mem _ hb).1 (width_bytes_of_mem _ hd).1 hle]
    · show (m1.regs s.reg).setWidth _ = _
      rw [hkept s.reg fun h => hs (by rw [h])]

/-- Every operand that can be copied is copied to memory, through a register if need be. -/
theorem moveToMem_puts (hd : d.bits ∈ widths) (hx : x.Source)
    (hvia : ∀ r, via = some r → r.Whole ∧ r ∉ (Operand.mem d).regs)
    (hapart : ∀ r ∈ (Operand.mem d).regs, ¬ x.Narrow d.bits r) :
    Text.Leads L (x.Plain ∧ d.symbol = "") (Text.moveToMem d x signed via) (Puts L d x signed via) := by
  cases x with
  | reg q => exact (moveRegToMem_puts hd hx hapart).mono And.right fun _ _ h => h
  | imm i =>
    rw [Text.moveToMem]
    by_cases hi : (d.bits < 64 || i.fits32)
    · have hsmall : ∀ b ∈ widths, decide (b < 64) = decide (width b < 64) :=
        forall_mem_widths.mpr (by decide)
      rw [if_pos hi]
      rw [hsmall _ hd] at hi
      refine .ins (.ins .mov [.mem (d.link L), .imm ⟨i.value, d.bits, false⟩]) rfl
        (fun h => by rw [Mem.link_eq h.2]) fun m => ?_
      exact ⟨_, runLines_store rfl (if_pos hi) (d.address_link L m), rfl, fun _ _ _ => rfl, nofun⟩
    · rw [if_neg hi]
      exact moveToMemVia_puts hd hx hvia
  | mem _ | label _ | ptr _ _ | absent => exact moveToMemVia_puts hd hx hvia

end

/-! ## Copies to either -/

/-- A copy to memory that no single instruction makes. -/
def NeedsRegister (dst src : Operand) : Prop :=
  match dst, src with
  | .mem _, .reg _ => False
  | .mem d, .imm i => ¬ (d.bits < 64 ∨ i.fits32 = true)
  | .mem _, _ => True
  | _, _ => False

/-- What a copy leaves behind. -/
def Moved (L : Linking) (dst src : Operand) (signed : Bool) (via : Option Reg) (m m' : Machine) : Prop :=
  match dst with
  | .reg d => Fills L d src signed m m'
  | .mem d => Puts L d src signed via m m'
  | _ => False

section

variable {L : Linking} {dst src : Operand} {signed : Bool} {via : Option Reg}

theorem move_leads (hdst : dst.Target) (hsrc : src.Source)
    (hvia : ∀ r, via = some r → r.Whole ∧ (dst.isMem → r ∉ dst.regs))
    (hapart : ∀ r ∈ dst.regs, dst.isMem → ¬ src.Narrow dst.size r) :
    Text.Leads L (src.Plain ∧ dst.Plain) (Text.move dst src signed via) (Moved L dst src signed via) := by
  cases dst with
  | reg d => exact (moveToReg_fills hdst hsrc).mono And.left fun _ _ h => h
  | mem d =>
    exact moveToMem_puts hdst hsrc (fun r hr => (hvia r hr).imp_right fun h => h rfl) fun r hr =>
      hapart r hr rfl
  | _ => exact hdst.elim

theorem move_of_needsRegister (h : NeedsRegister dst src) :
    Text.move dst src signed none = Text.fail (.moveNeedsRegister src.describe dst.describe) := by
  cases dst with
  | mem d =>
    cases src with
    | imm i =>
      rw [Text.move, Text.moveToMem, if_neg (by simpa [NeedsRegister] using h)]
      rfl
    | reg _ => exact h.elim
    | _ => rfl
  | _ => exact h.elim

theorem move_ok (hdst : dst.Target) (hsrc : src.Nameable) (hvia : ∀ r, via = some r → r.Whole)
    (h : ¬ (NeedsRegister dst src ∧ via = none)) : (Text.move dst src signed via).result = .ok () := by
  have hgives : Text.Gives (fun _ => False) (Text.move dst src signed via) fun _ => True := by
    cases via with
    | some r => exact Text.moveVia_gives signed hdst hsrc (hvia r rfl)
    | none =>
      cases dst with
      | reg d => exact Text.moveToReg_gives signed hdst hsrc
      | mem d =>
        cases src with
        | reg r => exact Text.moveReg_gives signed none hdst hsrc
        | imm i =>
          have hdirect : d.bits < 64 ∨ i.fits32 := Decidable.of_not_not fun hn => h ⟨hn, rfl⟩
          rw [Text.move, Text.moveToMem, if_pos (by simpa using hdirect)]
          exact Text.ins₂_gives _ trivial trivial
        | _ => exact absurd ⟨trivial, rfl⟩ h
      | _ => exact hdst.elim
  cases hresult : (Text.move dst src signed via).result with
  | ok a => rfl
  | error e => exact (hgives.of_error hresult).elim

end

/-- A copy to a register or to memory of one of the four widths fails if and only if it would have to go
through another register and is given none. Otherwise the destination gets the word that the source was
worth, unless the source is a register narrower than the memory whose address it is part of, which is
filled up before the address is used. -/
theorem Text.move_moves (L : Linking) {dst src : Operand} (signed : Bool) {via : Option Reg}
    (hdst : dst.Target) (hsrc : src.Source)
    (hvia : ∀ r, via = some r → r.Whole ∧ (dst.isMem = true → r ∉ dst.regs)) :
    (Text.move dst src signed via = Text.fail (.moveNeedsRegister src.describe dst.describe) ↔
      NeedsRegister dst src ∧ via = none) ∧
    (¬ (NeedsRegister dst src ∧ via = none) → ∃ lines, Text.move dst src signed via = ⟨lines, .ok ()⟩ ∧
      ((∀ r ∈ dst.regs, dst.isMem = true → ¬ src.Narrow dst.size r) → ∀ m, ∃ m',
        runLines (lines.map (Line.link L)) m = .next m' ∧ Moved L dst src signed via m m')) := by
  have hok : ¬ (NeedsRegister dst src ∧ via = none) → (Text.move dst src signed via).result = .ok () :=
    move_ok hdst hsrc.nameable fun r hr => (hvia r hr).1
  refine ⟨⟨fun hfail => ?_, ?_⟩, fun h => ⟨(Text.move dst src signed via).lines, ?_, fun hapart => ?_⟩⟩
  · refine Classical.byContradiction fun h => ?_
    have hresult := hok h
    rw [hfail] at hresult
    cases hresult
  · rintro ⟨h, rfl⟩
    exact move_of_needsRegister h
  · exact Text.eq_of_ok (hok h)
  · exact (move_leads hdst hsrc hvia hapart () (hok h)).2

/-- A word in memory. -/
def wordPlace : Operand := .mem ⟨some .rbx, some .r12, -8, 16, "", false⟩

/-- A byte under a symbol. -/
def bytePlace : Operand := .mem ⟨none, none, 0, 8, "x", true⟩

/-- A byte under a symbol is copied to a word in memory through `rax`, with its sign. -/
theorem Text.move_moves_symbol :
    ∃ lines, Text.move wordPlace bytePlace true (some .rax) = ⟨lines, .ok ()⟩ ∧ ∀ m, ∃ m',
      runLines (lines.map (Line.link ⟨fun l => if l = "x" then 4096 else 0, rfl⟩)) m = .next m' ∧
      Moved ⟨fun l => if l = "x" then 4096 else 0, rfl⟩ wordPlace bytePlace true (some .rax) m m' := by
  have hdst : wordPlace.Target := show (16 : Int64) ∈ widths from by decide
  have hsrc : bytePlace.Source := .inr (by decide)
  have hvia : ∀ r, some Reg.rax = some r → r.Whole ∧ (wordPlace.isMem = true → r ∉ wordPlace.regs) := by
    rintro r ⟨⟩
    decide
  obtain ⟨lines, hlines, hrun⟩ := (Text.move_moves _ true hdst hsrc hvia).2 fun h => nomatch h.2
  exact ⟨lines, hlines, hrun fun r _ _ h => by obtain ⟨b, hb, -⟩ := h; cases hb⟩

/-- The lowest byte of `rax` is copied to where `rax` points: it is filled up first, so the address is
another one. -/
theorem Text.move_moves_elsewhere :
    ∃ lines, Text.move (.mem ⟨some .rax, none, 0, 32, "", false⟩) (.reg ⟨.rax, 8⟩) false none
        = ⟨lines, .ok ()⟩ ∧ ∃ m m', runLines (lines.map (Line.link default)) m = .next m' ∧
      ¬ Moved default (.mem ⟨some .rax, none, 0, 32, "", false⟩) (.reg ⟨.rax, 8⟩) false none m m' := by
  refine ⟨_, rfl, ⟨fun _ => 256, fun _ => 255, none⟩, _, rfl, fun h => ?_⟩
  have hbyte := congrFun h.mem 256
  revert hbyte
  decide

end TreeAsm.Asm
