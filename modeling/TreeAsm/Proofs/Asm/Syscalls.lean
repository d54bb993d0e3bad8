import TreeAsm.Proofs.Asm.Execution
import TreeAsm.Proofs.Asm.Move
import TreeAsm.Proofs.Asm.Stack

/-!
# What a system call passes

A system call pushes the argument registers that are in use, puts the arguments and the number into their
registers, and pops what it has pushed in the opposite order after the kernel comes back. The operands use
no register that is written on the way, so each is worth at its move what it was worth before all of them
(`Operand.worth_congr`); only memory in which the registers are saved has changed, so an operand in one of
these words is not passed as it was (`syscall_passes_saved`). The kernel leaves all registers but three and
the saved words as they are, and each word goes back to the register that it came from
(`restore_reaches`).

Lines are those of `Line.exec`, and pushes and pops, which go through the stack (`Line.step`).
-/

namespace TreeAsm.Asm

/-! ## Lines that use the stack -/

/-- What a line does, where words can be pushed to the stack and popped from it. -/
def Line.step (l : Line) (m : Machine) : Exit :=
  match l with
  | .ins .push [x] => if (x.source m 64).isSome then .next (m.push x) else .stuck
  | .ins .pop [.reg r] => if r.bits = 64 then .next (m.pop r.reg) else .stuck
  | l => l.exec m

/-- Lines lead from one state to another. -/
def Steps : List Line → Machine → Machine → Prop
  | [], m, m' => m' = m
  | l :: rest, m, m' => ∃ m1, l.step m = .next m1 ∧ Steps rest m1 m'

theorem Steps.append {lines more : List Line} {m m1 m2 : Machine} (h : Steps lines m m1)
    (h' : Steps more m1 m2) : Steps (lines ++ more) m m2 := by
  induction lines generalizing m with
  | nil => exact h ▸ h'
  | cons l rest ih =>
    obtain ⟨m3, hstep, hrest⟩ := h
    exact ⟨m3, hstep, ih hrest⟩

/-- A line that leads on without the stack is no push and no pop. -/
theorem Line.step_of_exec {l : Line} {m m' : Machine} (h : l.exec m = .next m') : l.step m = .next m' := by
  have hstuck : ∀ op ∈ [Mnemonic.push, .pop], ∀ x, m.setIf op x = none := by
    intro op hop x
    simp only [List.mem_cons, List.not_mem_nil, or_false] at hop
    unfold Machine.setIf
    rcases hop with rfl | rfl <;> cases m.flags <;> rfl
  unfold Line.step
  split
  next x =>
    change Exit.ofOption (m.setIf .push x) = .next m' at h
    rw [hstuck .push (by decide)] at h
    cases h
  next r =>
    change Exit.ofOption (m.setIf .pop (.reg r)) = .next m' at h
    rw [hstuck .pop (by decide)] at h
    cases h
  next => exact h

theorem Steps.of_runLines : ∀ {lines : List Line} {m m' : Machine}, runLines lines m = .next m' →
    Steps lines m m'
  | [], _, _, h => (Exit.next.inj h).symm
  | l :: rest, m, m', h => by
    rw [runLines] at h
    split at h
    next m1 h1 => exact ⟨m1, Line.step_of_exec h1, Steps.of_runLines h⟩
    next hne => exact absurd h (hne m')

/-- If a text is written to its end, its lines lead from a state to one with a property. -/
def Text.Reaches {α : Type} (L : Linking) (x : Text α) (m : Machine) (Q : Machine → Prop) : Prop :=
  ∀ a, x.result = .ok a → ∃ m', Steps (x.lines.map (Line.link L)) m m' ∧ Q m'

namespace Text.Reaches

variable {α β : Type} {L : Linking} {x : Text α} {m : Machine} {P Q : Machine → Prop}

theorem pure {a : α} (h : Q m) : Reaches L (pure a : Text α) m Q := fun _ _ => ⟨m, rfl, h⟩

theorem bind {f : α → Text β} (hx : Reaches L x m P) (hf : ∀ a m1, P m1 → Reaches L (f a) m1 Q) :
    Reaches L (x >>= f) m Q := by
  intro b hb
  obtain ⟨a, ha, hb, hlines⟩ := Text.bind_ok hb
  obtain ⟨m1, hm1, hP⟩ := hx a ha
  obtain ⟨m2, hm2, hQ⟩ := hf a m1 hP b hb
  rw [hlines, List.map_append]
  exact ⟨m2, hm1.append hm2, hQ⟩

theorem mono (h : Reaches L x m P) (hPQ : ∀ m', P m' → Q m') : Reaches L x m Q := by
  intro a ha
  obtain ⟨m', hm', hP⟩ := h a ha
  exact ⟨m', hm', hPQ m' hP⟩

theorem of_leads {c : Prop} {R : Machine → Machine → Prop} (h : Leads L c x R) (hQ : ∀ m', R m m' → Q m') :
    Reaches L x m Q := by
  intro a ha
  obtain ⟨m', hm', hR⟩ := (h a ha).2 m
  exact ⟨m', .of_runLines hm', hQ m' hR⟩

theorem within {step : String} (h : Reaches L x m Q) : Reaches L (Text.within step x) m Q :=
  fun a ha => h a (Text.within_ok ha)

/-- One instruction that goes through the stack. -/
theorem ins {op : Mnemonic} {args : List Operand} {m' : Machine}
    (hstep : ((Line.ins op args).link L).step m = .next m') (hQ : Q m') :
    Reaches L (Text.ins op args) m Q := by
  intro a ha
  rw [Text.ins_lines ha]
  exact ⟨m', ⟨m', hstep, rfl⟩, hQ⟩

end Text.Reaches

/-! ## Operands whose worth does not change -/

/-- The number of bytes that are read of a place; 8 if it has no width. -/
def span (y : Mem) : Nat := if y.bits = 0 then 8 else width y.bits / 8

/-- What an operand is worth depends on its registers and on the bytes that are read. -/
theorem Operand.worth_congr {L : Linking} {m m' : Machine} {x : Operand} (hx : x.Source)
    (hregs : ∀ r ∈ x.regs, m'.regs r = m.regs r)
    (hmem : ∀ y, x = .mem y → ∀ b, (b - y.place L m).toNat < span y → m'.mem b = m.mem b)
    (signed : Bool) {w : Nat} (hw : 8 ∣ w) (hw64 : w ≤ 64) :
    x.worth L m' signed w = x.worth L m signed w := by
  cases x with
  | reg s =>
    rw [Operand.worth, Operand.worth, hregs s.reg (List.mem_singleton_self _)]
  | mem y =>
    have hplace : y.place L m' = y.place L m := Mem.place_congr hregs
    have hload : ∀ v, 8 ∣ v → v ≤ 64 → v / 8 ≤ span y →
        m'.mem.load v (y.place L m) = m.mem.load v (y.place L m) := fun v hv hv64 hle =>
      Memory.load_congr hv hv64 fun b hb => hmem y rfl b (Nat.lt_of_lt_of_le hb hle)
    simp only [Operand.worth, hplace]
    split
    next hzero => exact hload w hw hw64 (by rw [span, if_pos hzero]; omega)
    next hne =>
      have hwidth := width_bytes_of_mem _ (hx.resolve_left hne)
      rw [hload _ hwidth.1 hwidth.2 (Nat.le_of_eq (if_neg hne).symm)]
  | imm _ | label _ | ptr _ _ | absent => rfl

namespace SysV

/-! ## Saving and restoring registers -/

section

variable {L : Linking} {m : Machine}

/-- Registers are pushed one after the other. -/
theorem save_reaches {rs : List Reg} (hrs : ∀ r ∈ rs, r ≠ .rsp) :
    Text.Reaches L (forAll (fun r => Text.ins .push [r.full]) rs) m fun m' =>
      m'.mem = m.mem.pushes (m.regs .rsp) (rs.map m.regs) ∧
      m'.regs = Function.update m.regs .rsp (m.regs .rsp - BitVec.ofNat 64 (8 * rs.length)) := by
  induction rs generalizing m with
  | nil =>
    refine .pure ⟨rfl, ?_⟩
    rw [List.length_nil, BitVec.sub_zero, Function.update_eq_self]
  | cons r rs ih =>
    have hword : (r.full.read m 64).getD 0 = m.regs r := BitVec.setWidth_eq _
    refine .bind (.ins (Q := (· = m.push r.full)) rfl rfl) ?_
    rintro _ _ rfl
    refine (ih fun q hq => hrs q (List.mem_cons_of_mem r hq)).mono fun m' ⟨hmem, hregs⟩ => ?_
    have hpush : (m.push r.full).regs = Function.update m.regs .rsp (m.regs .rsp - 8) := rfl
    have hothers : rs.map (Function.update m.regs .rsp (m.regs .rsp - 8)) = rs.map m.regs :=
      List.map_congr_left fun q hq => Function.update_of_ne (hrs q (List.mem_cons_of_mem r hq)) _ _
    rw [hpush, Function.update_self, hothers] at hmem
    rw [hpush, Function.update_self, Function.update_idem] at hregs
    refine ⟨hmem.trans ?_, hregs.trans ?_⟩
    · show (m.mem.store _ ((r.full.read m 64).getD 0)).pushes _ _ = _
      rw [hword]
      rfl
    · rw [List.length_cons]
      congr 1
      bv_omega

/-- Words that lie on the stack as registers were pushed go back to these registers. -/
theorem restore_reaches {sp : BitVec 64} {v : Reg → BitVec 64} {rs : List Reg} (hrs : ∀ r ∈ rs, r ≠ .rsp)
    (hrsp : m.regs .rsp = sp - BitVec.ofNat 64 (8 * rs.length))
    (hwords : ∀ i r, rs[i]? = some r → m.mem.load 64 (sp - BitVec.ofNat 64 (8 * (i + 1))) = v r) :
    Text.Reaches L (forAll (fun r => Text.ins .pop [r.full]) rs.reverse) m fun m' =>
      m'.regs .rsp = sp ∧ (∀ r ∈ rs, m'.regs r = v r) ∧
      ∀ r, r ≠ .rsp → r ∉ rs → m'.regs r = m.regs r := by
  induction rs using List.reverseRecOn generalizing m with
  | nil =>
    refine .pure ⟨?_, fun _ h => absurd h List.not_mem_nil, fun _ _ _ => rfl⟩
    rw [hrsp, List.length_nil, BitVec.sub_zero]
  | append_singleton rs r ih =>
    -- the word that was pushed last is where the stack pointer points
    rw [List.length_append, List.length_singleton] at hrsp
    have hword : m.mem.load 64 (m.regs .rsp) = v r := by
      rw [hrsp]
      exact hwords rs.length r (by simp)
    have hr : r ≠ .rsp := hrs r (List.mem_append_right _ (List.mem_singleton_self _))
    rw [List.reverse_append, List.reverse_singleton, List.singleton_append]
    refine .bind (.ins (Q := (· = m.pop r)) rfl rfl) ?_
    rintro _ _ rfl
    have hpop : (m.pop r).regs = Function.update (Function.update m.regs .rsp (m.regs .rsp + 8)) r
        (m.mem.load 64 (m.regs .rsp)) := rfl
    have hkept : ∀ q, q ≠ .rsp → q ≠ r → (m.pop r).regs q = m.regs q := by
      intro q hq hqr
      rw [hpop, Function.update_of_ne hqr, Function.update_of_ne hq]
    have hsp : (m.pop r).regs .rsp = sp - BitVec.ofNat 64 (8 * rs.length) := by
      rw [hpop, Function.update_of_ne hr.symm, Function.update_self, hrsp]
      bv_omega
    refine (ih (fun q hq => hrs q (List.mem_append_left _ hq)) hsp fun i q hq => ?_).mono
      fun m' ⟨hrsp', hback, hsame⟩ => ⟨hrsp', fun q hq => ?_, fun q hq hqrs => ?_⟩
    · exact hwords i q (List.getElem?_append_left (List.getElem?_eq_some_iff.mp hq).1 ▸ hq)
    · by_cases hmem : q ∈ rs
      · exact hback q hmem
      · obtain rfl : q = r := List.mem_singleton.mp ((List.mem_append.mp hq).resolve_left hmem)
        rw [hsame q hr hmem, hpop, Function.update_self, hword]
    · rw [List.mem_append, List.mem_singleton, not_or] at hqrs
      rw [hsame q hq hqrs.1, hkept q hq hqrs.2]

end

/-! ## Arguments -/

/-- The registers that are written before the kernel is entered. -/
def syscallWrites : List Reg := .rax :: .rsp :: syscallRegs

/-- An operand that can be passed to the kernel: it uses no register that is written before. -/
structure Passable (x : Operand) : Prop where
  source : x.Source
  regs : ∀ r ∈ x.regs, r ∉ syscallWrites

/-- The register of an argument holds what the argument was worth. -/
def Arg.Held (L : Linking) (m0 m : Machine) (a : Arg) : Prop :=
  ∀ r, syscallRegs[a.index]? = some r →
    (m.regs r).setWidth (width (argBits a.value)) = a.value.worth L m0 a.signed (width (argBits a.value))

/-- The registers of some arguments. -/
def RegOf (as : List Arg) (r : Reg) : Prop := ∃ a ∈ as, syscallRegs[a.index]? = some r

section

variable {L : Linking} {m m' : Machine} {x : Operand} {as : List Arg}

theorem RegOf.mem {r : Reg} (h : RegOf as r) : r ∈ syscallRegs := by
  obtain ⟨a, -, hr⟩ := h
  exact List.mem_of_getElem? hr

/-- Moves to argument registers do not change what can be passed. -/
theorem Passable.worth (h : Passable x) {X : Reg → Prop} (hsame : m.SameBut X m')
    (hX : ∀ r, X r → r ∈ syscallWrites) (signed : Bool) {w : Nat} (hw : 8 ∣ w) (hw64 : w ≤ 64) :
    x.worth L m' signed w = x.worth L m signed w :=
  Operand.worth_congr h.source (fun r hr => hsame.regs r fun hXr => h.regs r hr (hX r hXr))
    (fun _ _ _ _ => by rw [hsame.mem]) signed hw hw64

theorem syscallReg_inj {i j : Nat} {r : Reg} (hi : syscallRegs[i]? = some r)
    (hj : syscallRegs[j]? = some r) : i = j :=
  (List.getElem?_inj (List.getElem?_eq_some_iff.mp hi).1 (by decide)).mp (hi.trans hj.symm)

/-- One argument is put into its register. -/
theorem passSyscallArg_reaches {a : Arg} (ha : Passable a.value) :
    Text.Reaches L (passSyscallArg a) m fun m' => m.SameBut (RegOf [a]) m' ∧ a.Held L m m' := by
  refine .within ?_
  cases hr : syscallRegs[a.index]? with
  | none => exact fun _ h => absurd h (by simp [Text.lift, Outcome.crash])
  | some r =>
    have hwhole : ∀ r ∈ syscallRegs, r.Whole := by decide
    have hd : Register.Nameable ⟨r, argBits a.value⟩ :=
      ⟨hwhole r (List.mem_of_getElem? hr), Text.argBits_mem a.value⟩
    show Text.Reaches L (moveArg r a.value a.signed) m _
    rw [moveArg, Text.lift_bind (hd.1.at_eq hd.2)]
    refine .of_leads (moveToReg_fills hd ha.source) fun m' hfills => ⟨hfills.same.mono ?_, ?_⟩
    · rintro q rfl
      exact ⟨a, List.mem_singleton_self a, hr⟩
    · intro q hq
      obtain rfl : r = q := Option.some.inj (hr.symm.trans hq)
      exact hfills.value

/-- Arguments are put into their registers one after the other. -/
theorem passSyscallArgs_reaches (has : ∀ a ∈ as, Passable a.value)
    (hapart : as.Pairwise fun a b => a.index ≠ b.index) :
    Text.Reaches L (forAll passSyscallArg as) m fun m' =>
      m.SameBut (RegOf as) m' ∧ ∀ a ∈ as, a.Held L m m' := by
  have hwrites : ∀ {as r}, RegOf as r → r ∈ syscallWrites := fun h =>
    List.mem_cons_of_mem _ (List.mem_cons_of_mem _ h.mem)
  induction as generalizing m with
  | nil => exact .pure ⟨.refl _ m, fun _ h => nomatch h⟩
  | cons a as ih =>
    obtain ⟨hfirst, hrest⟩ := List.pairwise_cons.mp hapart
    refine .bind (passSyscallArg_reaches (has a List.mem_cons_self)) ?_
    rintro _ m1 ⟨hsame1, hheld1⟩
    refine (ih (fun b hb => has b (List.mem_cons_of_mem a hb)) hrest).mono
      fun m' ⟨hsame, hheld⟩ => ⟨?_, fun b hb r hr => ?_⟩
    · have hone : ∀ r, RegOf [a] r → RegOf (a :: as) r := fun r ⟨b, hb, hr⟩ =>
        ⟨b, List.mem_singleton.mp hb ▸ List.mem_cons_self, hr⟩
      have hmore : ∀ r, RegOf as r → RegOf (a :: as) r := fun r ⟨b, hb, hr⟩ =>
        ⟨b, List.mem_cons_of_mem a hb, hr⟩
      exact (hsame1.mono hone).trans (hsame.mono hmore)
    · rcases List.mem_cons.mp hb with rfl | hb
      · -- the registers of the arguments after it are others
        rw [hsame.regs r fun ⟨c, hc, hcr⟩ => hfirst c hc (syscallReg_inj hr hcr)]
        exact hheld1 r hr
      · have hbytes := width_bytes_of_mem _ (Text.argBits_mem b.value)
        rw [hheld b hb r hr]
        exact (has b (List.mem_cons_of_mem a hb)).worth hsame1 (fun _ => hwrites) b.signed hbytes.1 hbytes.2

end

/-! ## The text of a system call -/

/-- The argument registers that a system call keeps. -/
def keptRegs (args : List Operand) (inUse : Reg → Bool) : List Reg :=
  (syscallRegs.take args.length).filter inUse

/-- What is written before the kernel is entered. -/
def beforeSyscall (number : Operand) (args : List Operand) (signed : List Bool) (inUse : Reg → Bool) :
    Text Unit := do
  forAll (fun r => Text.ins .push [r.full]) (keptRegs args inUse)
  forAll passSyscallArg (numberArgs args signed).reverse
  Text.within "syscall number" (Text.move Reg.rax.full number true none)

section

variable {L : Linking} {m0 : Machine} {number x : Operand} {args : List Operand} {signed : List Bool}
  {inUse : Reg → Bool}

theorem syscall_eq (h : args.length ≤ syscallRegs.length) : syscall number args signed inUse = (do
    beforeSyscall number args signed inUse
    Text.ins .syscall []
    forAll (fun r => Text.ins .pop [r.full]) (keptRegs args inUse).reverse) := by
  rw [syscall, if_neg (Nat.not_lt.mpr h)]
  simp only [beforeSyscall, keptRegs, Text.bind_assoc]

theorem index_pairwise (args : List Operand) (signed : List Bool) :
    (numberArgs args signed).Pairwise fun a b => a.index ≠ b.index := by
  have hindex : ∀ (i : Nat) (a : Arg), (numberArgs args signed)[i]? = some a → a.index = i := by
    intro i a h
    rw [numberArgs, List.getElem?_map, List.getElem?_zipIdx] at h
    obtain ⟨⟨x, j⟩, hx, rfl⟩ := Option.map_eq_some_iff.mp h
    obtain ⟨y, -, hy⟩ := Option.map_eq_some_iff.mp hx
    have hj : 0 + i = j := congrArg Prod.snd hy
    show j = i
    omega
  rw [List.pairwise_iff_getElem]
  intro i j hi hj hlt
  rw [hindex _ _ (List.getElem?_eq_getElem hi), hindex _ _ (List.getElem?_eq_getElem hj)]
  exact Nat.ne_of_lt hlt

theorem keptRegs_mem {r : Reg} (h : r ∈ keptRegs args inUse) : r ∈ syscallRegs :=
  List.mem_of_mem_take (List.mem_filter.mp h).1

theorem keptRegs_ne_rsp : ∀ r ∈ keptRegs args inUse, r ≠ .rsp := by
  have hne : ∀ r ∈ syscallRegs, r ≠ .rsp := by decide
  exact fun r hr => hne r (keptRegs_mem hr)

theorem keptRegs_length (args : List Operand) (inUse : Reg → Bool) : (keptRegs args inUse).length ≤ 6 :=
  Nat.le_trans (List.length_filter_le _ _) (Nat.le_trans (List.length_take_le' _ _) (by decide))

/-- The bytes of `n` words below an address. -/
def PushedBytes (sp : BitVec 64) (n : Nat) (a : BitVec 64) : Prop :=
  (a - (sp - BitVec.ofNat 64 (8 * n))).toNat < 8 * n

/-- An operand is not read from the words that are pushed below an address. -/
def Clear (L : Linking) (m : Machine) (n : Nat) (x : Operand) : Prop :=
  ∀ y, x = .mem y → ∀ b, (b - y.place L m).toNat < span y → ¬ PushedBytes (m.regs .rsp) n b

/-- The state in which the kernel is entered. -/
structure Entering (L : Linking) (number : Operand) (as : List Arg) (kept : List Reg) (m0 m : Machine) :
    Prop where
  /-- Registers are saved. -/
  mem : m.mem = m0.mem.pushes (m0.regs .rsp) (kept.map m0.regs)
  rsp : m.regs .rsp = m0.regs .rsp - BitVec.ofNat 64 (8 * kept.length)
  args : ∀ a ∈ as, Clear L m0 kept.length a.value → a.Held L m0 m
  number : Clear L m0 kept.length number → m.regs .rax = number.worth L m0 true 64

/-- Saving registers does not change what can be passed, unless it is where they are saved. -/
theorem Passable.worth_saved {m : Machine} {kept : List Reg} (hx : Passable x) (hlen : kept.length ≤ 6)
    (hmem : m.mem = m0.mem.pushes (m0.regs .rsp) (kept.map m0.regs))
    (hregs : ∀ r, r ≠ .rsp → m.regs r = m0.regs r) (hclear : Clear L m0 kept.length x) (signed : Bool)
    {w : Nat} (hw : 8 ∣ w) (hw64 : w ≤ 64) : x.worth L m signed w = x.worth L m0 signed w := by
  refine Operand.worth_congr hx.source (fun r hr => hregs r ?_) (fun y hy b hb => ?_) signed hw hw64
  · rintro rfl
    exact hx.regs _ hr (by decide)
  · have hout := hclear y hy b hb
    unfold PushedBytes at hout
    rw [hmem]
    apply Memory.pushes_of_outside
    · rw [List.length_map]
      omega
    · rw [List.length_map]
      omega

theorem beforeSyscall_reaches (hnumber : Passable number) (hargs : ∀ x ∈ args, Passable x) :
    Text.Reaches L (beforeSyscall number args signed inUse) m0
      (Entering L number (numberArgs args signed) (keptRegs args inUse) m0) := by
  have hpass : ∀ a ∈ (numberArgs args signed).reverse, Passable a.value := fun a ha =>
    hargs a.value (Text.mem_numberArgs (List.mem_reverse.mp ha)).1
  have hapart : (numberArgs args signed).reverse.Pairwise fun a b => a.index ≠ b.index :=
    List.pairwise_reverse.mpr ((index_pairwise args signed).imp Ne.symm)
  have hrax : Register.Nameable ⟨.rax, 64⟩ := ⟨by decide, by decide⟩
  have hne : ∀ r ∈ syscallRegs, r ≠ .rax ∧ r ≠ .rsp := by decide
  refine .bind (save_reaches keptRegs_ne_rsp) fun _ m1 ⟨hmem1, hregs1⟩ =>
    .bind (passSyscallArgs_reaches hpass hapart) fun _ m2 ⟨hsame2, hheld⟩ =>
    .within (.of_leads (moveToReg_fills hrax hnumber.source) fun m hfills => ?_)
  have hrsp2 : m2.regs .rsp = m1.regs .rsp := hsame2.regs .rsp fun h => (hne _ h.mem).2 rfl
  -- what is passed after registers are saved is worth what it was before
  have hsaved : ∀ {x}, Passable x → Clear L m0 (keptRegs args inUse).length x → ∀ signed {w}, 8 ∣ w →
      w ≤ 64 → x.worth L m1 signed w = x.worth L m0 signed w := fun hx hclear signed _ hw hw64 =>
    hx.worth_saved (keptRegs_length args inUse) hmem1
      (fun r hr => by rw [hregs1, Function.update_of_ne hr]) hclear signed hw hw64
  refine ⟨hfills.same.mem.trans (hsame2.mem.trans hmem1), ?_, fun a ha hclear r hr => ?_, fun hclear => ?_⟩
  · rw [hfills.same.regs .rsp (by decide), hrsp2, hregs1, Function.update_self]
  · have ha := List.mem_reverse.mpr ha
    have hbytes := width_bytes_of_mem _ (Text.argBits_mem a.value)
    rw [hfills.same.regs r (hne r (List.mem_of_getElem? hr)).1, hheld a ha r hr]
    exact hsaved (hpass a ha) hclear a.signed hbytes.1 hbytes.2
  · have hworth : number.worth L m2 true 64 = number.worth L m1 true 64 :=
      hnumber.worth hsame2 (fun r h => List.mem_cons_of_mem _ (List.mem_cons_of_mem _ h.mem)) true
        (by decide) (by decide)
    exact (BitVec.setWidth_eq _).symm.trans
      (hfills.value.trans (hworth.trans (hsaved hnumber hclear true (by decide) (by decide))))

/-- The kernel comes back: it leaves all registers but three as they are, and the words below an
address. -/
structure Returns (sp : BitVec 64) (n : Nat) (m m' : Machine) : Prop where
  regs : ∀ r, r ∉ [Reg.rax, .rcx, .r11] → m'.regs r = m.regs r
  mem : ∀ a, PushedBytes sp n a → m'.mem a = m.mem a

/-- After the kernel has come back, registers that were kept are restored. -/
theorem afterSyscall_reaches {as : List Arg} {m m1 : Machine}
    (h : Entering L number as (keptRegs args inUse) m0 m)
    (hreturns : Returns (m0.regs .rsp) (keptRegs args inUse).length m m1) :
    Text.Reaches L (forAll (fun r => Text.ins .pop [r.full]) (keptRegs args inUse).reverse) m1 fun m2 =>
      m2.regs .rsp = m0.regs .rsp ∧ ∀ r ∈ keptRegs args inUse, m2.regs r = m0.regs r := by
  have hlen := keptRegs_length args inUse
  have hrsp : m1.regs .rsp = m0.regs .rsp - BitVec.ofNat 64 (8 * (keptRegs args inUse).length) :=
    (hreturns.regs .rsp (by decide)).trans h.rsp
  refine (restore_reaches (v := m0.regs) keptRegs_ne_rsp hrsp fun i r hr => ?_).mono
    fun m2 ⟨hsp, hback, _⟩ => ⟨hsp, hback⟩
  have hlt := (List.getElem?_eq_some_iff.mp hr).1
  have hword : m.mem.load 64 (m0.regs .rsp - BitVec.ofNat 64 (8 * (i + 1))) = m0.regs r := by
    rw [h.mem]
    refine Memory.load_pushes _ _ (by rw [List.length_map]; omega) ?_
    rw [List.getElem?_map, hr]
    rfl
  rw [← hword]
  refine Memory.load_congr (by decide) (by decide) fun b hb => hreturns.mem b ?_
  unfold PushedBytes
  bv_omega

end

/-- A system call with more arguments than there are registers is refused, and nothing is written. Any
other one enters the kernel with the arguments and the number in their registers, as they were before
registers were saved, and when the kernel has come back the stack pointer and all argument registers that
are in use are as they were. -/
theorem syscall_passes (L : Linking) (number : Operand) (args : List Operand) (signed : List Bool)
    (inUse : Reg → Bool) :
    (syscallRegs.length < args.length → syscall number args signed inUse
      = ⟨[], .fail (.tooManySyscallArguments args.length syscallRegs.length)⟩) ∧
    (args.length ≤ syscallRegs.length → Passable number → (∀ x ∈ args, Passable x) → ∃ before after,
        syscall number args signed inUse = ⟨before ++ .ins .syscall [] :: after, .ok ()⟩ ∧
        ∀ m₀, ∃ m, Steps (before.map (Line.link L)) m₀ m ∧
          Entering L number (numberArgs args signed) (keptRegs args inUse) m₀ m ∧
          ∀ m₁, Returns (m₀.regs .rsp) (keptRegs args inUse).length m m₁ →
            ∃ m₂, Steps (after.map (Line.link L)) m₁ m₂ ∧ m₂.regs .rsp = m₀.regs .rsp ∧
              ∀ r ∈ syscallRegs.take args.length, inUse r = true → m₂.regs r = m₀.regs r) := by
  refine ⟨fun hmany => if_pos hmany, fun hfew hnumber hargs => ?_⟩
  have hok : (syscall number args signed inUse).result = .ok () := by
    have hgives := Text.syscall_gives (E := fun _ => False) signed inUse hnumber.source.nameable
      (fun x hx => (hargs x hx).source.nameable) fun hmany => absurd hfew (Nat.not_le.mpr hmany)
    cases hresult : (syscall number args signed inUse).result with
    | ok _ => rfl
    | error e => exact (hgives.of_error hresult).elim
  have htext := Text.eq_of_ok hok
  rw [syscall_eq hfew] at hok htext
  obtain ⟨_, hbefore, hok, hlines⟩ := Text.bind_ok hok
  obtain ⟨_, hcall, hafter, hrest⟩ := Text.bind_ok hok
  rw [hlines, hrest, Text.ins_lines hcall, List.singleton_append] at htext
  refine ⟨_, _, (syscall_eq hfew).trans htext, fun m₀ => ?_⟩
  have hreaches : Text.Reaches L (beforeSyscall number args signed inUse) m₀ _ :=
    beforeSyscall_reaches hnumber hargs
  obtain ⟨m, hm, hentering⟩ := hreaches _ hbefore
  refine ⟨m, hm, hentering, fun m₁ hreturns => ?_⟩
  obtain ⟨m₂, hm₂, hrsp, hback⟩ := afterSyscall_reaches hentering hreturns _ hafter
  exact ⟨m₂, hm₂, hrsp, fun r hr hused => hback r (List.mem_filter.mpr ⟨hr, hused⟩)⟩

/-- Half of a register, a byte with a sign, and a number. -/
def threeArgs : List Operand :=
  [.reg ⟨.rbx, 32⟩, .mem ⟨some .rbp, none, -8, 8, "", false⟩, immediate 5]

/-- Two of the argument registers are in use. -/
def busyRegs (r : Reg) : Bool := r == .rdi || r == .rdx

def callerState : Machine :=
  ⟨fun r => if r = .rsp then 4096 else if r = .rbp then 8192 else 7, fun _ => 255, none⟩

/-- The byte is filled up with its sign, and `rdi` is restored although the kernel has changed `rax`. -/
theorem syscall_passes_three : ∃ before after, syscall (immediate 1) threeArgs [false, true] busyRegs
      = ⟨before ++ .ins .syscall [] :: after, .ok ()⟩ ∧
    ∃ m, Steps (before.map (Line.link default)) callerState m ∧ m.regs .rax = 1 ∧
      (m.regs .rsi).setWidth 32 = (-1 : BitVec 32) ∧
      ∃ m₂, Steps (after.map (Line.link default)) (m.setReg .rax (0 : BitVec 64)) m₂ ∧
        m₂.regs .rsp = 4096 ∧ m₂.regs .rdi = 7 := by
  have hargs : ∀ x ∈ threeArgs, Passable x := by
    intro x hx
    simp only [threeArgs, List.mem_cons, List.not_mem_nil, or_false] at hx
    rcases hx with rfl | rfl | rfl
    · exact ⟨⟨by decide, by decide⟩, by decide⟩
    · exact ⟨.inr (by decide), by decide⟩
    · exact ⟨trivial, nofun⟩
  obtain ⟨before, after, htext, hruns⟩ := (syscall_passes default (immediate 1) threeArgs [false, true]
    busyRegs).2 (by decide) ⟨trivial, nofun⟩ hargs
  obtain ⟨m, hm, hentering, hreturns⟩ := hruns callerState
  have hclear : Clear default callerState (keptRegs threeArgs busyRegs).length
      (.mem ⟨some .rbp, none, -8, 8, "", false⟩) := by
    rintro _ ⟨⟩ b hb
    change (b - 8184#64).toNat < 1 at hb
    show ¬ (b - (4096#64 - BitVec.ofNat 64 (8 * 2))).toNat < 8 * 2
    bv_omega
  refine ⟨before, after, htext, m, hm, hentering.number (fun _ h => nomatch h), ?_, ?_⟩
  · exact (hentering.args ⟨1, _, true⟩ (by simp [numberArgs, threeArgs]) hclear .rsi rfl).trans rfl
  · obtain ⟨m₂, hm₂, hrsp, hback⟩ := hreturns (m.setReg .rax (0 : BitVec 64))
      ⟨fun r hr => m.setReg_of_ne _ _ fun h => hr (h ▸ List.mem_cons_self), fun _ _ => rfl⟩
    exact ⟨m₂, hm₂, hrsp, hback .rdi (by decide) rfl⟩

/-- A word below the stack pointer. -/
def savedWord : Operand := .mem ⟨some .rbx, none, 0, 64, "", false⟩

/-- `rbx` holds the address to which `rdi` is pushed. -/
def aliasingState : Machine :=
  ⟨fun r => if r = .rsp then 4096 else if r = .rbx then 4088 else 7, fun _ => 255, none⟩

/-- An argument in the word to which `rdi` is saved was all ones, but the kernel is given what `rdi` held;
and if the kernel clears memory, `rdi` is not restored. -/
theorem syscall_passes_saved : ∃ before after,
    syscall (immediate 1) [savedWord] [] busyRegs = ⟨before ++ .ins .syscall [] :: after, .ok ()⟩ ∧
    savedWord.worth default aliasingState false 64 = -1 ∧
    ∃ m, Steps (before.map (Line.link default)) aliasingState m ∧ m.regs .rdi = 7 ∧
      ∃ m₂, Steps (after.map (Line.link default)) { m with mem := fun _ => 0 } m₂ ∧ m₂.regs .rdi = 0 := by
  refine ⟨[.ins .push [Reg.rdi.full], .ins .mov [Reg.rdi.full, savedWord],
    .ins .mov [.reg ⟨.rax, 32⟩, .imm ⟨1, 32, false⟩]], [.ins .pop [Reg.rdi.full]], rfl,
    by decide +kernel, ?_⟩
  refine ⟨_, ⟨_, rfl, _, rfl, _, rfl, rfl⟩, by decide +kernel, ?_⟩
  exact ⟨_, ⟨_, rfl, rfl⟩, by decide +kernel⟩
end SysV

end TreeAsm.Asm
