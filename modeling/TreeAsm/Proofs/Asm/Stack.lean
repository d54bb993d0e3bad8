import Mathlib.Data.List.Induction
import TreeAsm.Proofs.Asm.Tidy

/-!
# The stack of a function

A function pushes the registers that it has to keep, makes room below them, and at its end gives the
room back and pops the registers. In between its lines are tidy. `Inside` is what holds then: the base
pointer and the stack pointer are at known distances from where the stack pointer was at the start,
the bytes from the return address down to the last saved register are as the pushes left them, and
registers to keep that were not pushed are unchanged.
-/

namespace TreeAsm.Asm

open BitVec (ofNat)
open Function (update update_of_ne update_self)

/-! ## Words on the stack -/

namespace Memory

/-- The memory after words are pushed from an address on. -/
def pushes (mem : Memory) (sp : BitVec 64) : List (BitVec 64) → Memory
  | [] => mem
  | v :: vs => pushes (mem.store (sp - 8) v) (sp - 8) vs

theorem pushes_concat (mem : Memory) (sp : BitVec 64) (vs : List (BitVec 64)) (v : BitVec 64) :
    mem.pushes sp (vs ++ [v]) = (mem.pushes sp vs).store (sp - ofNat 64 (8 * (vs.length + 1))) v := by
  induction vs generalizing mem sp with
  | nil => rfl
  | cons w vs ih =>
    have haddr : sp - 8 - ofNat 64 (8 * (vs.length + 1)) = sp - ofNat 64 (8 * ((w :: vs).length + 1)) := by
      rw [List.length_cons]
      bv_omega
    rw [List.cons_append, pushes, ih, haddr, pushes]

/-- Bytes above and below the words that are pushed keep their values. -/
theorem pushes_of_outside (mem : Memory) (sp a : BitVec 64) (vs : List (BitVec 64))
    (hlen : 8 * vs.length ≤ 2 ^ 64)
    (h : 8 * vs.length ≤ (a - (sp - ofNat 64 (8 * vs.length))).toNat) :
    mem.pushes sp vs a = mem a := by
  induction vs generalizing mem sp with
  | nil => rfl
  | cons v vs ih =>
    rw [List.length_cons] at h hlen
    have houtside : ¬ (a - (sp - 8)).toNat < 64 / 8 := by bv_omega
    have hrest : 8 * vs.length ≤ (a - (sp - 8 - ofNat 64 (8 * vs.length))).toNat := by
      bv_omega
    rw [pushes, ih _ _ (by omega) hrest, store, if_neg houtside]

theorem load_congr {mem mem' : Memory} {w : Nat} (hw : 8 ∣ w) (hle : w ≤ 64) {a : BitVec 64}
    (h : ∀ b, (b - a).toNat < w / 8 → mem b = mem' b) : mem.load w a = mem'.load w a := by
  apply BitVec.eq_of_getLsbD_eq
  intro j hj
  have hbyte : (a + ofNat 64 (j / 8) - a).toNat < w / 8 := by
    have hindex : j / 8 < w / 8 := by omega
    bv_omega
  rw [getLsbD_load mem hw, getLsbD_load mem' hw, h _ hbyte]

/-- A word that was pushed is read back. -/
theorem load_pushes (mem : Memory) (sp : BitVec 64) {vs : List (BitVec 64)} {i : Nat}
    {v : BitVec 64} (hlen : 8 * vs.length ≤ 2 ^ 64) (hi : vs[i]? = some v) :
    (mem.pushes sp vs).load 64 (sp - ofNat 64 (8 * (i + 1))) = v := by
  induction vs generalizing mem sp i with
  | nil => cases hi
  | cons w vs ih =>
    rw [List.length_cons] at hlen
    cases i with
    | zero =>
      obtain rfl : w = v := by simpa using hi
      -- what is pushed later lies below
      have hkept : (mem.pushes sp (w :: vs)).load 64 (sp - 8)
          = (mem.store (sp - 8) w).load 64 (sp - 8) := by
        refine load_congr (by decide) (by decide) fun b hb => ?_
        have hbelow : 8 * vs.length ≤ (b - (sp - 8 - ofNat 64 (8 * vs.length))).toNat := by bv_omega
        exact pushes_of_outside _ _ _ _ (by omega) hbelow
      exact hkept.trans (load_store mem (by decide) (by decide) _ _)
    | succ i =>
      have haddr : sp - ofNat 64 (8 * (i + 1 + 1)) = sp - 8 - ofNat 64 (8 * (i + 1)) := by bv_omega
      rw [haddr, pushes]
      exact ih _ _ (by omega) (by simpa using hi)

end Memory

/-- The bytes of the return address at `sp` and of `k` words below it. -/
def SavedBytes (k : Nat) (sp a : BitVec 64) : Prop :=
  (a - (sp - ofNat 64 (8 * k))).toNat < 8 * k + 8

/-- A word that lies below is none of them. -/
theorem not_savedBytes {k c : Nat} {sp a : BitVec 64} (hlow : 8 * k + 8 ≤ c)
    (hhigh : c + 8 ≤ 2 ^ 64) (ha : (a - (sp - ofNat 64 c)).toNat < 8) : ¬ SavedBytes k sp a := by
  unfold SavedBytes
  bv_omega

/-! ## Within a function -/

/-- What holds within a function that started with `m0` and pushed the registers `regs`, with `depth`
bytes of the stack in use below them. -/
structure Inside (m0 : Machine) (regs : List Reg) (depth : Nat) (m : Machine) : Prop where
  rbp : m.regs .rbp = m0.regs .rsp - 8
  rsp : m.regs .rsp = m0.regs .rsp - ofNat 64 (8 * regs.length + depth)
  mem : ∀ a, SavedBytes regs.length (m0.regs .rsp) a →
    m.mem a = m0.mem.pushes (m0.regs .rsp) (regs.map m0.regs) a
  others : ∀ r ∈ SysV.calleeSaved, r ∉ regs → m.regs r = m0.regs r

section

variable {m0 m m' : Machine} {regs : List Reg} {depth depth' : Nat}

theorem effect_pop (r : Reg) : effect .pop [r.full] = .pop r := rfl

theorem effect_pop_cases (args : List Operand) :
    (∃ r, effect .pop args = .pop r) ∨ effect .pop args = .unknown := by
  rcases args with _ | ⟨x, _ | ⟨y, rest⟩⟩
  · exact .inr rfl
  · cases x with
    | reg r =>
      by_cases h64 : r.bits = 64
      · exact .inl ⟨r.reg, if_pos h64⟩
      · exact .inr (if_neg h64)
    | mem _ | imm _ | label _ | ptr _ _ | absent => exact .inr rfl
  · cases x <;> exact .inr rfl

theorem effect_add_rsp (n : Nat) :
    effect .add [Reg.rsp.full, immediate (Int64.ofNat n)] = .adjust (ofNat 64 n) := rfl

theorem effect_sub_rsp (n : Nat) :
    effect .sub [Reg.rsp.full, immediate (Int64.ofNat n)] = .adjust (-ofNat 64 n) := rfl

/-- A step that leaves the base pointer, the shielded bytes and the registers to keep alone. -/
theorem Inside.step (h : Inside m0 regs depth m) (hrbp : m'.regs .rbp = m.regs .rbp)
    (hrsp : m'.regs .rsp = m0.regs .rsp - ofNat 64 (8 * regs.length + depth'))
    (hmem : ∀ a, SavedBytes regs.length (m0.regs .rsp) a → m'.mem a = m.mem a)
    (hothers : ∀ r ∈ SysV.calleeSaved, r ∉ regs → m'.regs r = m.regs r) :
    Inside m0 regs depth' m' :=
  ⟨hrbp.trans h.rbp, hrsp, fun a ha => (hmem a ha).trans (h.mem a ha),
    fun r hr hregs => (hothers r hr hregs).trans (h.others r hr hregs)⟩

/-- A step that moves the stack pointer and nothing else. -/
theorem Inside.adjust (h : Inside m0 regs depth m) {sp : BitVec 64}
    (hregs : m'.regs = update m.regs .rsp sp)
    (hsp : sp = m0.regs .rsp - ofNat 64 (8 * regs.length + depth'))
    (hmem : ∀ a, SavedBytes regs.length (m0.regs .rsp) a → m'.mem a = m.mem a) :
    Inside m0 regs depth' m' := by
  refine h.step ?_ ?_ hmem fun r hr _ => ?_
  · rw [hregs, update_of_ne (by decide)]
  · rw [hregs, update_self, hsp]
  · have hne : ∀ r ∈ SysV.calleeSaved, r ≠ .rsp := by decide
    rw [hregs, update_of_ne (hne r hr)]

variable {A : Int64 → Prop} {op : Mnemonic} {room : Nat} {args : List Operand} {lines : List Line}
  {name : String} {shield : BitVec 64 → Prop} {saved : List Reg}

/-- A plain instruction is neither a call nor a return. -/
theorem Plain.ne (h : Plain A op args) : op ≠ .call ∧ op ≠ .ret := by
  obtain ⟨targets, htargets, -⟩ := h
  constructor
  · rintro rfl
    rcases args with _ | ⟨x, _ | ⟨y, rest⟩⟩ <;> cases htargets
  · rintro rfl
    rcases args with _ | ⟨x, rest⟩ <;> cases htargets

theorem Plain.isStraight (h : Plain A op args) : (effect op args).isStraight := by
  obtain ⟨targets, htargets, -⟩ := h
  cases heffect : effect op args with
  | writes _ | copy _ _ => rfl
  | _ =>
    rw [heffect] at htargets
    cases htargets

/-- The distances in `A` are those of words in the `room` bytes below the saved registers. -/
def Below (A : Int64 → Prop) (k room : Nat) : Prop :=
  ∀ disp, A disp → ∃ c, 8 ≤ c ∧ c ≤ room ∧ disp.toBitVec = 8 - ofNat 64 (8 * k + c)

/-- A plain instruction writes to none of the shielded bytes, and to no register to keep but those
that were pushed. -/
theorem Inside.plain (h : Inside m0 regs depth m) (hplain : Plain A op args)
    (hA : Below A regs.length room) (hroom : 8 * regs.length + room + 8 ≤ 2 ^ 64)
    (hregs : ∀ r ∈ (Line.ins op args).regs, r ∈ SysV.calleeSaved → r ∈ regs)
    (hdoes : (effect op args).Does (SavedBytes regs.length (m0.regs .rsp)) m m') :
    Inside m0 regs depth m' := by
  obtain ⟨targets, htargets, hopen⟩ := hplain
  have hwrites : ∀ r, (∀ x : Register, .reg x ∈ targets → x.reg ≠ r) → m'.regs r = m.regs r := by
    cases heffect : effect op args with
    | writes ts =>
      rw [heffect] at htargets hdoes
      cases htargets
      exact hdoes.regs
    | copy d s =>
      rw [heffect] at htargets hdoes
      cases htargets
      intro r hr
      rw [hdoes.1, update_of_ne (hr ⟨d, 64⟩ (List.mem_singleton_self _)).symm]
    | _ =>
      rw [heffect] at htargets
      cases htargets
  have hmem : ∀ a, SavedBytes regs.length (m0.regs .rsp) a → m'.mem a = m.mem a := by
    intro a ha
    cases heffect : effect op args with
    | writes ts =>
      rw [heffect] at htargets hdoes
      cases htargets
      by_contra hne
      obtain ⟨x, hx, htouches, hframed | hshield⟩ := hdoes.mem a hne
      · -- a place in the frame lies below the saved registers
        obtain ⟨c, hlow, hhigh, hdisp⟩ := hA _ ((hopen _ hx).1.slot x rfl hframed)
        have haddress : x.address m = some (m0.regs .rsp - ofNat 64 (8 * regs.length + c)) := by
          unfold Mem.address
          rw [if_neg (not_not.mpr hframed.symbol), hframed.base, hframed.index]
          show some (m.regs .rbp + 0 + x.disp.toBitVec) = _
          rw [h.rbp, hdisp]
          congr 1
          bv_omega
        exact not_savedBytes (by omega) (by omega) (htouches _ haddress) ha
      · exact hshield ha
    | copy d s =>
      rw [heffect] at hdoes
      rw [hdoes.2]
    | _ =>
      rw [heffect] at htargets
      cases htargets
  have hframe : ∀ r ∈ frameRegs, m'.regs r = m.regs r := fun r hr =>
    hwrites r fun x hx hxr => (hopen _ hx).1.reg (hxr ▸ hr)
  refine h.step (hframe .rbp (by decide)) ?_ hmem fun r hr hpushed => hwrites r fun x hx hxr => ?_
  · rw [hframe .rsp (by decide), h.rsp]
  · have hmention := (hopen _ hx).2 (List.mem_singleton_self x.reg)
    rcases List.mem_append.mp hmention with hmention | hmention
    · exact hpushed (hxr ▸ hregs x.reg hmention (hxr ▸ hr))
    · have hapart : ∀ r ∈ [Reg.rax, .rdx], r ∉ SysV.calleeSaved := by decide
      exact hapart x.reg hmention (hxr ▸ hr)

/-- All is as it was at the start: the stack pointer and the registers to keep, and the return address
that the stack pointer points to. -/
structure Restored (m0 m : Machine) : Prop where
  regs : ∀ r ∈ Reg.rsp :: SysV.calleeSaved, m.regs r = m0.regs r
  address : m.mem.load 64 (m0.regs .rsp) = m0.mem.load 64 (m0.regs .rsp)

/-- What is asked for before an instruction: the stack is aligned at calls, and at a return all is as
it was at the start. -/
def Kept (m0 : Machine) (op : Mnemonic) (m : Machine) : Prop :=
  (op = .call → (m.regs .rsp).toNat % 16 = 0) ∧ (op = .ret → Restored m0 m)

/-- What holds at the labels of a function: all but its name are within it. -/
def AtLabel (m0 : Machine) (regs : List Reg) (room : Nat) (name l : String) (m : Machine) : Prop :=
  l ≠ name ∧ Inside m0 regs room m

theorem kept_of_ne (hcall : op ≠ .call) (hret : op ≠ .ret) : Kept m0 op m :=
  ⟨fun h => absurd h hcall, fun h => absurd h hret⟩

/-- A line that mentions no registers to keep but those that were pushed, and that does not jump to
the start of the function. -/
structure Line.Fits (regs : List Reg) (name : String) (l : Line) : Prop where
  regs : ∀ r ∈ l.regs, r ∈ SysV.calleeSaved → r ∈ regs
  jump : ∀ op ∈ [Mnemonic.jmp, .je, .jne], l ≠ .ins op [.label name]

/-- Tidy lines stay within the function. -/
theorem Tidy.outline {D d d' : Nat} (h : Tidy A D d lines d') (hA : Below A regs.length room)
    (hroom : 8 * regs.length + room + D + 8 ≤ 2 ^ 64) (halign : (8 * regs.length + room) % 16 = 8)
    (hsp : (m0.regs .rsp).toNat % 16 = 8) (hlines : ∀ l ∈ lines, l.Fits regs name) :
    Outline (SavedBytes regs.length (m0.regs .rsp)) (AtLabel m0 regs room name) (Kept m0)
      (Inside m0 regs (room + d)) lines (Inside m0 regs (room + d')) := by
  induction h with
  | nil => exact .nil fun _ h => h
  | @plain d d' op args rest hplain _ ih =>
    obtain ⟨hcall, hret⟩ := hplain.ne
    refine .straight rfl hplain.isStraight (fun m _ => kept_of_ne hcall hret)
      (fun m m' hm hdoes => ?_) (ih (List.forall_mem_cons.mp hlines).2)
    exact hm.plain hplain hA (by omega) (List.forall_mem_cons.mp hlines).1.regs hdoes
  | label _ ih =>
    exact .label (fun _ h => h) (fun m hm => hm.2) (ih (List.forall_mem_cons.mp hlines).2)
  | @jump d' op l rest hop _ ih =>
    have hne : l ≠ name := by
      rintro rfl
      exact (List.forall_mem_cons.mp hlines).1.jump op hop rfl
    have hbranch : effect op [.label l] = .jump l ∨ effect op [.label l] = .branch l := by
      simp only [List.mem_cons, List.not_mem_nil, or_false] at hop
      rcases hop with rfl | rfl | rfl
      · exact .inl rfl
      · exact .inr rfl
      · exact .inr rfl
    have hops : ∀ op ∈ [Mnemonic.jmp, .je, .jne], op ≠ .call ∧ op ≠ .ret := by decide
    obtain ⟨hcall, hret⟩ := hops op hop
    refine .ins (fun m _ => kept_of_ne hcall hret) ?_ ?_ ?_ (ih (List.forall_mem_cons.mp hlines).2)
    · rcases hbranch with hbranch | hbranch <;> rw [hbranch] <;> simp
    · rintro l' htarget m hm
      obtain rfl : l' = l := by
        rcases hbranch with hbranch | hbranch <;> rw [hbranch] at htarget <;>
          rcases htarget with htarget | htarget <;> cases htarget <;> rfl
      exact ⟨hne, hm⟩
    · intro m m' hm hdoes
      rcases hbranch with hbranch | hbranch <;> rw [hbranch] at hdoes
      · exact hdoes.elim
      · obtain rfl : m' = m := hdoes
        exact hm
  | @push d d' x rest hx hd _ ih =>
    refine .straight (effect_push hx) rfl (fun m _ => kept_of_ne (by decide) (by decide)) ?_
      (ih (List.forall_mem_cons.mp hlines).2)
    rintro m m' hm ⟨v, -, hregs', hmem'⟩
    have hsp' : m.regs .rsp - 8 = m0.regs .rsp - ofNat 64 (8 * regs.length + (room + (d + 8))) := by
      rw [hm.rsp]
      bv_omega
    refine hm.adjust hregs' hsp' fun a ha => ?_
    rw [hmem', Memory.store, if_neg]
    intro htouched
    rw [hsp'] at htouched
    exact not_savedBytes (by omega) (by omega) htouched ha
  | @grow d d' rest hd _ ih =>
    refine .straight (effect_sub_rsp 8) rfl (fun m _ => kept_of_ne (by decide) (by decide)) ?_
      (ih (List.forall_mem_cons.mp hlines).2)
    rintro m m' hm ⟨hregs', hmem'⟩
    refine hm.adjust hregs' ?_ fun a _ => by rw [hmem']
    rw [hm.rsp]
    bv_omega
  | @shrink d d' n rest _ ih =>
    refine .straight (effect_add_rsp n) rfl (fun m _ => kept_of_ne (by decide) (by decide)) ?_
      (ih (List.forall_mem_cons.mp hlines).2)
    rintro m m' hm ⟨hregs', hmem'⟩
    refine hm.adjust hregs' ?_ fun a _ => by rw [hmem']
    rw [hm.rsp]
    bv_omega
  | @call d d' x rest hd _ ih =>
    have haligned : ∀ m, Inside m0 regs (room + d) m → (m.regs .rsp).toNat % 16 = 0 := by
      intro m hm
      rw [hm.rsp]
      bv_omega
    refine .straight rfl rfl (fun m hm => ⟨fun _ => haligned m hm, by simp⟩) ?_
      (ih (List.forall_mem_cons.mp hlines).2)
    rintro m m' hm ⟨hkept, hmem'⟩
    refine hm.step (hkept _ (by decide)) ?_ hmem' fun r hr _ => hkept r (List.mem_cons_of_mem _ hr)
    rw [hkept .rsp (List.mem_cons_self ..), hm.rsp]
  | @syscall d d' rest _ ih =>
    refine .straight rfl rfl (fun m _ => kept_of_ne (by decide) (by decide)) ?_
      (ih (List.forall_mem_cons.mp hlines).2)
    rintro m m' hm ⟨hkept, hmem'⟩
    have hapart : ∀ r ∈ SysV.calleeSaved, r ∉ [Reg.rax, .rcx, .r11] := by decide
    refine hm.step (hkept _ (by decide)) ?_ hmem' fun r hr _ => hkept r (hapart r hr)
    rw [hkept .rsp (by decide), hm.rsp]

/-! ## Entering a function -/

/-- While registers are pushed. -/
structure Pushing (m0 : Machine) (regs : List Reg) (m : Machine) : Prop where
  rbp : m.regs .rbp = m0.regs .rsp - 8
  rsp : m.regs .rsp = m0.regs .rsp - ofNat 64 (8 * regs.length)
  mem : m.mem = m0.mem.pushes (m0.regs .rsp) (regs.map m0.regs)
  others : ∀ r, r ∉ frameRegs → m.regs r = m0.regs r

section

variable {shield : BitVec 64 → Prop} {inv : String → Machine → Prop}

theorem pushes_outline (done : List Reg) {rest : List Reg} (hrest : ∀ r ∈ rest, r ∉ frameRegs) :
    Outline shield inv (Kept m0) (Pushing m0 done) (rest.map fun r => .ins .push [r.full])
      (Pushing m0 (done ++ rest)) := by
  induction rest generalizing done with
  | nil =>
    rw [List.append_nil]
    exact .nil fun _ h => h
  | cons r rest ih =>
    obtain ⟨hr, hrest⟩ := List.forall_mem_cons.mp hrest
    have hnext := ih (done ++ [r]) hrest
    rw [List.append_assoc, List.singleton_append] at hnext
    refine .straight (effect_push rfl) rfl (fun m _ => kept_of_ne (by decide) (by decide)) ?_ hnext
    rintro m m' hm ⟨v, hv, hregs', hmem'⟩
    have haddr : m.regs .rsp - 8 = m0.regs .rsp - ofNat 64 (8 * (done.length + 1)) := by
      rw [hm.rsp]
      bv_omega
    refine ⟨?_, ?_, ?_, fun r' hr' => ?_⟩
    · rw [hregs', update_of_ne (by decide), hm.rbp]
    · rw [hregs', update_self, haddr, List.length_append]
      rfl
    · rw [hmem', hv r rfl, hm.others r hr, hm.mem, haddr, List.map_append, List.map_singleton,
        Memory.pushes_concat, List.length_map]
    · have hne : r' ≠ .rsp := fun h => hr' (h ▸ List.mem_cons_self ..)
      rw [hregs', update_of_ne hne, hm.others r' hr']

end

/-- The line that moves the stack pointer by the room for the slots, if there are any. -/
def roomLines (op : Mnemonic) (room : Nat) : List Line :=
  if Int64.ofNat room ≠ 0 then [.ins op [Reg.rsp.full, immediate (Int64.ofNat room)]] else []

/-- The lines that start a function. -/
def entryLines (name : String) (saved : List Reg) (room : Nat) : List Line :=
  .label name :: .ins .push [Reg.rbp.full] :: .ins .mov [Reg.rbp.full, Reg.rsp.full] ::
    (saved.map fun r => .ins .push [r.full]) ++ roomLines .sub room

theorem Pushing.inside (h : Pushing m0 regs m) (hrbp : .rbp ∈ regs) : Inside m0 regs 0 m := by
  refine ⟨h.rbp, h.rsp, fun a _ => by rw [h.mem], fun r hr hpushed => h.others r ?_⟩
  have hne : ∀ r ∈ SysV.calleeSaved, r ≠ .rsp := by decide
  simp only [frameRegs, List.mem_cons, List.not_mem_nil, or_false, not_or]
  exact ⟨hne r hr, fun h => hpushed (h ▸ hrbp)⟩

/-- A room whose size is zero as a machine integer does not move the stack pointer. -/
theorem sub_ofNat_of_eq_zero (h : Int64.ofNat room = 0) (sp : BitVec 64) (n : Nat) :
    sp - ofNat 64 (n + room) = sp - ofNat 64 n := by
  have hzero : ofNat 64 room = 0#64 := congrArg Int64.toBitVec h
  rw [BitVec.ofNat_add, hzero, BitVec.add_zero]

/-- The lines that start a function lead into it. -/
theorem entry_outline (name : String) (hsaved : ∀ r ∈ saved, r ∉ frameRegs) (room : Nat) :
    Outline shield (AtLabel m0 (.rbp :: saved) room name) (Kept m0) (fun m => m = m0)
      (entryLines name saved room) (Inside m0 (.rbp :: saved) room) := by
  have hroom : Outline shield (AtLabel m0 (.rbp :: saved) room name) (Kept m0)
      (Pushing m0 (.rbp :: saved)) (roomLines .sub room) (Inside m0 (.rbp :: saved) room) := by
    unfold roomLines
    split
    next =>
      refine .straight (effect_sub_rsp room) rfl
        (fun m _ => kept_of_ne (by decide) (by decide)) ?_ (.nil fun _ h => h)
      rintro m m' hm ⟨hregs', hmem'⟩
      refine (hm.inside (List.mem_cons_self ..)).adjust hregs' ?_ fun a _ => by rw [hmem']
      rw [hm.rsp]
      bv_omega
    next hzero =>
      refine .nil fun m hm => ?_
      have hinside := hm.inside (List.mem_cons_self ..)
      refine ⟨hinside.rbp, ?_, hinside.mem, hinside.others⟩
      rw [sub_ofNat_of_eq_zero (not_not.mp hzero), hm.rsp]
  have hpushes : Outline shield (AtLabel m0 (.rbp :: saved) room name) (Kept m0) _ _ _ :=
    pushes_outline [.rbp] hsaved
  refine Outline.append (.label (fun _ h => h) (fun m hm => absurd rfl hm.1) ?_) hroom
  refine .straight (R := fun m => m.regs = update m0.regs .rsp (m0.regs .rsp - 8) ∧
      m.mem = m0.mem.pushes (m0.regs .rsp) [m0.regs .rbp])
    (effect_push rfl) rfl (fun m _ => kept_of_ne (by decide) (by decide)) ?_ ?_
  · rintro m m' rfl ⟨v, hv, hregs', hmem'⟩
    refine ⟨hregs', ?_⟩
    rw [hmem', hv .rbp rfl]
    rfl
  have hcopy : effect .mov [Reg.rbp.full, Reg.rsp.full] = .copy .rbp .rsp := rfl
  refine .straight (R := Pushing m0 [.rbp]) hcopy rfl
    (fun m _ => kept_of_ne (by decide) (by decide)) ?_ hpushes
  rintro m m' ⟨hregs, hmem⟩ ⟨hregs', hmem'⟩
  have hsp : m.regs .rsp = m0.regs .rsp - 8 := by rw [hregs, update_self]
  refine ⟨?_, ?_, hmem'.trans hmem, fun r hr => ?_⟩
  · rw [hregs', update_self, hsp]
  · rw [hregs', update_of_ne (by decide), hsp]
    rfl
  · have hne : r ≠ .rsp ∧ r ≠ .rbp := by simpa [frameRegs] using hr
    rw [hregs', update_of_ne hne.2, hregs, update_of_ne hne.1]

/-! ## Leaving a function -/

/-- While registers are popped: those of `regs` are still to come. -/
structure Popping (m0 : Machine) (all regs : List Reg) (m : Machine) : Prop where
  rsp : m.regs .rsp = m0.regs .rsp - ofNat 64 (8 * regs.length)
  mem : ∀ a, SavedBytes all.length (m0.regs .rsp) a →
    m.mem a = m0.mem.pushes (m0.regs .rsp) (all.map m0.regs) a
  others : ∀ r ∈ SysV.calleeSaved, r ∉ regs → m.regs r = m0.regs r

/-- The lines that end a function, up to its last one. -/
def leaveLines (l : String) (saved : List Reg) (room : Nat) : List Line :=
  .label l :: (roomLines .add room ++ (Reg.rbp :: saved).reverse.map fun r => .ins .pop [r.full])

section

variable {shield : BitVec 64 → Prop} {inv : String → Machine → Prop} {all : List Reg}

theorem pops_outline (hsp : .rsp ∉ all) (hlen : 8 * all.length + 8 ≤ 2 ^ 64) (hregs : regs <+: all)
    : Outline shield inv (Kept m0) (Popping m0 all regs)
      (regs.reverse.map fun r => .ins .pop [r.full]) (Popping m0 all []) := by
  induction regs using List.reverseRecOn with
  | nil => exact .nil fun _ h => h
  | append_singleton regs r ih =>
    obtain ⟨popped, hall⟩ := hregs
    have hr : r ∈ all := by rw [← hall]; simp
    have hindex : all[regs.length]? = some r := by rw [← hall]; simp
    have hprefix : regs <+: all := ⟨r :: popped, by rw [← hall]; simp⟩
    have hlength : regs.length < all.length := (List.getElem?_eq_some_iff.mp hindex).1
    rw [List.reverse_append, List.reverse_singleton, List.singleton_append, List.map_cons]
    refine .straight (R := Popping m0 all regs) (effect_pop r) rfl
      (fun m _ => kept_of_ne (by decide) (by decide)) ?_ (ih hprefix)
    rintro m m' hm ⟨hregs', hmem'⟩
    have haddr : m.regs .rsp = m0.regs .rsp - ofNat 64 (8 * (regs.length + 1)) := by
      rw [hm.rsp, List.length_append]
      rfl
    have hne : r ≠ .rsp := fun h => hsp (h ▸ hr)
    -- the word on top of the stack is what the register held at the start
    have hvalue : m.mem.load 64 (m.regs .rsp) = m0.regs r := by
      rw [haddr]
      refine Eq.trans (Memory.load_congr (by decide) (by decide) fun b hb => hm.mem b ?_)
        (Memory.load_pushes _ _ (by rw [List.length_map]; omega) (by rw [List.getElem?_map, hindex]; rfl))
      unfold SavedBytes
      bv_omega
    refine ⟨?_, fun a ha => (congrFun hmem' a).trans (hm.mem a ha), fun r' hr' hkept => ?_⟩
    · rw [hregs', update_of_ne hne.symm, update_self, haddr]
      bv_omega
    · by_cases h : r' = r
      · rw [hregs', h, update_self, hvalue]
      · have hrsp : ∀ r ∈ SysV.calleeSaved, r ≠ .rsp := by decide
        rw [hregs', update_of_ne h, update_of_ne (hrsp r' hr')]
        exact hm.others r' hr' (by simp [hkept, h])

/-- When all registers are popped, all is as it was at the start. -/
theorem Popping.restored (h : Popping m0 all [] m) (hlen : 8 * all.length + 8 ≤ 2 ^ 64) :
    Restored m0 m := by
  refine ⟨fun r hr => ?_, Memory.load_congr (by decide) (by decide) fun b hb => ?_⟩
  · rcases List.mem_cons.mp hr with rfl | hr
    · rw [h.rsp]
      exact BitVec.sub_zero _
    · exact h.others r hr (by simp)
  · have hsaved : SavedBytes all.length (m0.regs .rsp) b := by
      unfold SavedBytes
      bv_omega
    rw [h.mem b hsaved]
    refine Memory.pushes_of_outside _ _ _ _ (by rw [List.length_map]; omega) ?_
    rw [List.length_map]
    bv_omega

end

/-- The lines that end a function lead out of it. -/
theorem leave_outline (l : String) (hsaved : ∀ r ∈ saved, r ∉ frameRegs)
    (hlen : 8 * (Reg.rbp :: saved).length + 8 ≤ 2 ^ 64) :
    Outline shield (AtLabel m0 (.rbp :: saved) room name) (Kept m0)
      (Inside m0 (.rbp :: saved) room) (leaveLines l saved room)
      (Popping m0 (.rbp :: saved) []) := by
  have hroom : Outline shield (AtLabel m0 (.rbp :: saved) room name) (Kept m0)
      (Inside m0 (.rbp :: saved) room) (roomLines .add room)
      (Popping m0 (.rbp :: saved) (.rbp :: saved)) := by
    unfold roomLines
    split
    next =>
      refine .straight (effect_add_rsp room) rfl
        (fun m _ => kept_of_ne (by decide) (by decide)) ?_ (.nil fun _ h => h)
      rintro m m' hm ⟨hregs', hmem'⟩
      refine ⟨?_, fun a ha => (congrFun hmem' a).trans (hm.mem a ha), fun r hr hkept => ?_⟩
      · rw [hregs', update_self, hm.rsp]
        bv_omega
      · have hrsp : ∀ r ∈ SysV.calleeSaved, r ≠ .rsp := by decide
        rw [hregs', update_of_ne (hrsp r hr), hm.others r hr hkept]
    next hzero =>
      refine .nil fun m hm => ⟨?_, hm.mem, hm.others⟩
      rw [hm.rsp, sub_ofNat_of_eq_zero (not_not.mp hzero)]
  have hsp : Reg.rsp ∉ Reg.rbp :: saved := by
    intro h
    rcases List.mem_cons.mp h with h | h
    · cases h
    · exact hsaved _ h (by decide)
  exact .label (fun _ h => h) (fun m hm => hm.2) (hroom.append (pops_outline hsp hlen List.prefix_rfl))

/-! ## Counting saved registers -/

/-- Whether a line pops a register. -/
def isPop : Line → Bool
  | .ins .pop _ => true
  | _ => false

/-- The number of registers that lines save, which they pop in the end. -/
def savedWords (lines : List Line) : Nat := lines.countP isPop

theorem Tidy.savedWords {D d d' : Nat} (h : Tidy A D d lines d') : savedWords lines = 0 := by
  refine List.countP_eq_zero.mpr ?_
  induction h with
  | nil => exact fun l hl => absurd hl (by simp)
  | @plain d d' op args rest hplain _ ih =>
    have hpop : op ≠ .pop := by
      rintro rfl
      obtain ⟨targets, htargets, -⟩ := hplain
      rcases effect_pop_cases args with ⟨r, hr⟩ | hunknown
      · rw [hr] at htargets
        cases htargets
      · rw [hunknown] at htargets
        cases htargets
    refine List.forall_mem_cons.mpr ⟨?_, ih⟩
    unfold isPop
    split
    next heq => exact absurd (Line.ins.inj heq).1 hpop
    next => exact Bool.false_ne_true
  | jump hop _ ih =>
    refine List.forall_mem_cons.mpr ⟨?_, ih⟩
    simp only [List.mem_cons, List.not_mem_nil, or_false] at hop
    rcases hop with rfl | rfl | rfl <;> exact Bool.false_ne_true
  | label _ ih | push _ _ _ ih | grow _ _ ih | shrink _ _ ih | call _ _ ih | syscall _ ih =>
    exact List.forall_mem_cons.mpr ⟨Bool.false_ne_true, ih⟩

theorem savedWords_entryLines (name : String) (saved : List Reg) (room : Nat) :
    savedWords (entryLines name saved room) = 0 := by
  refine List.countP_eq_zero.mpr fun l hl => ?_
  simp only [entryLines, roomLines, List.mem_append, List.mem_cons, List.mem_map] at hl
  rcases hl with (rfl | rfl | rfl | ⟨r, -, rfl⟩) | hl
  · exact Bool.false_ne_true
  · exact Bool.false_ne_true
  · exact Bool.false_ne_true
  · exact Bool.false_ne_true
  · split at hl
    · rw [List.mem_singleton.mp hl]
      exact Bool.false_ne_true
    · cases hl

theorem savedWords_leaveLines (l : String) (saved : List Reg) (room : Nat) :
    savedWords (leaveLines l saved room) = saved.length + 1 := by
  have hroom : (roomLines .add room).countP isPop = 0 := by
    unfold roomLines
    split <;> rfl
  have hpops : ∀ rs : List Reg, (rs.map fun r => Line.ins .pop [r.full]).countP isPop = rs.length := by
    intro rs
    rw [List.countP_map]
    exact List.countP_eq_length.mpr fun _ _ => rfl
  unfold savedWords leaveLines
  rw [List.countP_cons_of_neg (by simp [isPop]), List.countP_append, hroom, hpops]
  simp

end

end TreeAsm.Asm
