import TreeAsm.Proofs.Asm.Paths

/-!
# Paths that the machine takes

What an instruction does exactly is one of the things that its effect allows (`Machine.exec_does`,
`Machine.exec_targets`), as long as a write through a pointer leaves the shielded bytes alone. So a run
of the machine is a path, and `follow` computes one.
-/

namespace TreeAsm.Asm

/-- A place that may be written: it is at most a word, and it is in the frame or none of its bytes is
shielded. -/
structure Mem.Writable (shield : BitVec 64 → Prop) (m : Machine) (x : Mem) : Prop where
  width : width x.bits ≤ 64
  apart : x.Framed ∨ ∀ a, x.Touches m a → ¬ shield a

/-- All places that an effect writes to may be written. -/
def Effect.Allowed (shield : BitVec 64 → Prop) (m : Machine) (e : Effect) : Prop :=
  ∀ x, ∀ targets, e = .writes targets → .mem x ∈ targets → x.Writable shield m

section

variable {shield : BitVec 64 → Prop} {m m' : Machine} {d : Operand}

/-- Writing to an operand changes nothing else. -/
theorem Operand.write_writes {w : Nat} {v : BitVec w} (h : d.write m v = some m')
    (hd : ∀ x, d = .mem x → x.Writable shield m) : Writes shield [d] m m' := by
  cases d with
  | reg r =>
    change (if width r.bits = w then some (m.setReg r.reg v) else none) = some m' at h
    split at h
    next =>
      cases h
      refine ⟨fun r' hr' => ?_, fun _ hne => absurd rfl hne⟩
      exact m.setReg_of_ne _ _ (hr' r (List.mem_singleton_self _)).symm
    next => cases h
  | mem x =>
    change (if width x.bits = w then (x.address m).map fun a => m.setMem a v else none) = some m' at h
    split at h
    next hw =>
      obtain ⟨a, ha, rfl⟩ := Option.map_eq_some_iff.mp h
      refine ⟨fun _ _ => rfl, fun b hb => ?_⟩
      have hwidth : w ≤ 64 := hw ▸ (hd x rfl).width
      have hbyte : (b - a).toNat < w / 8 := by
        by_contra hout
        exact hb (if_neg hout)
      have htouches : x.Touches m b := by
        intro start hstart
        obtain rfl : a = start := Option.some.inj (ha.symm.trans hstart)
        omega
      exact ⟨x, List.mem_singleton_self _, htouches, (hd x rfl).apart.imp_right fun h => h b htouches⟩
    next => cases h
  | imm _ | label _ | ptr _ _ | absent => cases h

variable {o : Option Machine}

theorem Exit.ofOption_next (h : Exit.ofOption o = .next m') : o = some m' := by
  cases o with
  | some m => exact congrArg some (Exit.next.inj h)
  | none => cases h

theorem Exit.ofOption_ne_goto {l : String} : Exit.ofOption o ≠ .goto l m' := by
  cases o <;> nofun

/-- What goes to `rax` and `rdx` changes nothing else. -/
theorem setPair_writes {w : Nat} (high low : BitVec w) :
    Writes shield [Reg.rax.full, Reg.rdx.full] m (m.setPair high low) := by
  refine ⟨fun r hr => ?_, fun _ hne => absurd rfl hne⟩
  have hrax := hr ⟨.rax, 64⟩ (List.mem_cons_self ..)
  have hrdx := hr ⟨.rdx, 64⟩ (List.mem_cons_of_mem _ (List.mem_singleton_self _))
  unfold Machine.setPair
  rw [Machine.setReg_of_ne _ _ _ hrdx.symm, Machine.setReg_of_ne _ _ _ hrax.symm, Machine.clearFlags_regs]

/-- A copy of a whole register. -/
theorem copy_regs {d s : Register} (hd : d.bits = 64) (hs : s.bits = 64)
    (h : m.copy (.reg d) (.reg s) = some m') :
    m'.regs = Function.update m.regs d.reg (m.regs s.reg) ∧ m'.mem = m.mem := by
  obtain ⟨d, dbits⟩ := d
  obtain ⟨s, sbits⟩ := s
  obtain rfl : dbits = 64 := hd
  obtain rfl : sbits = 64 := hs
  obtain rfl : m.setReg d ((m.regs s).setWidth 64) = m' := Option.some.inj h
  refine ⟨funext fun r => ?_, rfl⟩
  by_cases hr : r = d
  · subst hr
    rw [Function.update_self, Machine.setReg_self]
    simp [merge]
  · rw [Function.update_of_ne hr, Machine.setReg_of_ne _ _ _ hr]

/-- Adding a number to the stack pointer, or subtracting it. -/
theorem compute_rsp {op : Mnemonic} {i : Imm} {n : BitVec 64}
    (hop : ∀ x, arithmetic op x i.value.toBitVec = some (x + n))
    (h : m.compute op Reg.rsp.full (.imm i) = some m') :
    m'.regs = Function.update m.regs .rsp (m.regs .rsp + n) ∧ m'.mem = m.mem := by
  unfold Machine.compute at h
  obtain ⟨x, hx, h⟩ := Option.bind_eq_some_iff.mp h
  obtain ⟨y, hy, h⟩ := Option.bind_eq_some_iff.mp h
  obtain ⟨v, hv, h⟩ := Option.bind_eq_some_iff.mp h
  have hx' : (m.regs .rsp).setWidth 64 = x := Option.some.inj hx
  have hy' : i.value.toBitVec = y := by
    unfold Operand.source at hy
    split at hy
    next =>
      have hvalue : BitVec.ofInt 64 i.value.toInt = y := Option.some.inj hy
      rw [← hvalue]
      exact (BitVec.ofInt_toInt).symm
    next => cases hy
  subst hx' hy'
  obtain rfl : (m.regs .rsp).setWidth 64 + n = v := Option.some.inj ((hop _).symm.trans hv)
  obtain rfl : m.clearFlags.setReg .rsp ((m.regs .rsp).setWidth 64 + n) = m' := Option.some.inj h
  refine ⟨funext fun r => ?_, rfl⟩
  by_cases hr : r = .rsp
  · subst hr
    rw [Function.update_self, Machine.setReg_self]
    simp [merge]
  · rw [Function.update_of_ne hr, Machine.setReg_of_ne _ _ _ hr, Machine.clearFlags_regs]

end

namespace Machine

variable {shield : BitVec 64 → Prop} {m m' : Machine} {op : Mnemonic} {args : List Operand}

variable {d s : Operand} {w : Nat} {l : String}

theorem copy_writes (h : m.copy d s = some m') (hd : ∀ x, d = .mem x → x.Writable shield m) :
    Writes shield [d] m m' := by
  unfold copy at h
  split at h
  · obtain ⟨v, -, h⟩ := Option.bind_eq_some_iff.mp h
    exact Operand.write_writes h hd
  · obtain ⟨v, -, h⟩ := Option.bind_eq_some_iff.mp h
    exact Operand.write_writes h hd

theorem extend_writes (h : m.extend op d s = some m') (hd : ∀ x, d = .mem x → x.Writable shield m) :
    Writes shield [d] m m' := by
  obtain ⟨signed, -, h⟩ := Option.bind_eq_some_iff.mp h
  obtain ⟨v, -, h⟩ := Option.bind_eq_some_iff.mp h
  exact Operand.write_writes h hd

theorem compute_writes (h : m.compute op d s = some m') (hd : ∀ x, d = .mem x → x.Writable shield m) :
    Writes shield [d] m m' := by
  obtain ⟨x, -, h⟩ := Option.bind_eq_some_iff.mp h
  obtain ⟨y, -, h⟩ := Option.bind_eq_some_iff.mp h
  obtain ⟨v, -, h⟩ := Option.bind_eq_some_iff.mp h
  -- forgetting the flags changes neither registers nor memory
  have hwrites : Writes shield [d] m.clearFlags m' :=
    Operand.write_writes h fun x hx => ⟨(hd x hx).width, (hd x hx).apart⟩
  exact ⟨hwrites.regs, hwrites.mem⟩

theorem compare_writes {x y : Operand} (h : m.compare x y = some m') : Writes shield [] m m' := by
  obtain ⟨a, -, h⟩ := Option.bind_eq_some_iff.mp h
  obtain ⟨b, -, h⟩ := Option.bind_eq_some_iff.mp h
  cases h
  exact ⟨fun _ _ => rfl, fun _ hne => absurd rfl hne⟩

theorem setIf_does (h : m.setIf op d = some m') (hallowed : (effect op [d]).Allowed shield m) :
    (effect op [d]).Does shield m m' := by
  obtain ⟨f, -, h⟩ := Option.bind_eq_some_iff.mp h
  obtain ⟨c, hc, h⟩ := Option.bind_eq_some_iff.mp h
  have heffect : effect op [d] = .writes [d] := by
    cases op <;> first | rfl | cases hc
  rw [heffect]
  refine Operand.write_writes h fun x hx => hallowed x [d] heffect ?_
  rw [hx]
  exact List.mem_singleton_self _

theorem mov_does (h : m.copy d s = some m') (hallowed : (effect .mov [d, s]).Allowed shield m) :
    (effect .mov [d, s]).Does shield m m' := by
  have hwrites : effect .mov [d, s] = .writes [d] → (effect .mov [d, s]).Does shield m m' := by
    intro heffect
    rw [heffect]
    refine copy_writes h fun x hx => hallowed x [d] heffect ?_
    rw [hx]
    exact List.mem_singleton_self _
  cases d with
  | reg d =>
    cases s with
    | reg s =>
      by_cases h64 : d.bits = 64 ∧ s.bits = 64
      · have heffect : effect .mov [.reg d, .reg s] = .copy d.reg s.reg := if_pos h64
        rw [heffect]
        exact copy_regs h64.1 h64.2 h
      · exact hwrites (if_neg h64)
    | mem _ | imm _ | label _ | ptr _ _ | absent => exact hwrites rfl
  | mem _ | imm _ | label _ | ptr _ _ | absent => exact hwrites rfl

/-- Arithmetic writes to its first operand, unless it moves the stack pointer by a number. -/
theorem effect_arithmetic (hop : op ∈ [Mnemonic.add, .sub, .and, .xor]) (d s : Operand) :
    effect op [d, s] = .writes [d] ∨ effect op [d, s] = .unknown ∨ ∃ i, d = Reg.rsp.full ∧ s = .imm i := by
  simp only [List.mem_cons, List.not_mem_nil, or_false] at hop
  have hother : (∀ bits i, ¬ (d = .reg ⟨.rsp, bits⟩ ∧ s = .imm i)) → effect op [d, s] = .writes [d] := by
    intro hne
    cases d with
    | reg r =>
      obtain ⟨r, bits⟩ := r
      cases r with
      | rsp =>
        cases s with
        | imm i => exact absurd ⟨rfl, rfl⟩ (hne bits i)
        | reg _ | mem _ | label _ | ptr _ _ | absent => rcases hop with rfl | rfl | rfl | rfl <;> rfl
      | _ => rcases hop with rfl | rfl | rfl | rfl <;> rfl
    | mem _ | imm _ | label _ | ptr _ _ | absent => rcases hop with rfl | rfl | rfl | rfl <;> rfl
  by_cases hrsp : ∃ bits i, d = .reg ⟨.rsp, bits⟩ ∧ s = .imm i
  · obtain ⟨bits, i, rfl, rfl⟩ := hrsp
    by_cases h64 : bits = 64
    · exact .inr (.inr ⟨i, by rw [h64]; rfl, rfl⟩)
    · rcases hop with rfl | rfl | rfl | rfl
      · exact .inr (.inl (if_neg h64))
      · exact .inr (.inl (if_neg h64))
      · exact .inl rfl
      · exact .inl rfl
  · exact .inl (hother fun bits i h => hrsp ⟨bits, i, h⟩)

theorem arithmetic_does (hop : op ∈ [Mnemonic.add, .sub, .and, .xor])
    (h : m.compute op d s = some m') (hallowed : (effect op [d, s]).Allowed shield m) :
    (effect op [d, s]).Does shield m m' := by
  have hwrites : effect op [d, s] = .writes [d] → (effect op [d, s]).Does shield m m' := by
    intro heffect
    rw [heffect]
    refine compute_writes h fun x hx => hallowed x [d] heffect ?_
    rw [hx]
    exact List.mem_singleton_self _
  rcases effect_arithmetic hop d s with heffect | heffect | ⟨i, rfl, rfl⟩
  · exact hwrites heffect
  · rw [heffect]
    exact trivial
  · simp only [List.mem_cons, List.not_mem_nil, or_false] at hop
    rcases hop with rfl | rfl | rfl | rfl
    · exact compute_rsp (fun _ => rfl) h
    · refine compute_rsp (n := -i.value.toBitVec) (fun x => ?_) h
      rw [← BitVec.sub_eq_add_neg]
      rfl
    · exact hwrites rfl
    · exact hwrites rfl

theorem signFill_writes (w : Nat) : Writes shield [Reg.rdx.full] m (m.signFill w) := by
  refine ⟨fun r hr => ?_, fun _ hne => absurd rfl hne⟩
  exact setReg_of_ne _ _ _ (hr ⟨.rdx, 64⟩ (List.mem_singleton_self _)).symm

theorem divide_writes {y : BitVec w} (h : m.divide y = .next m') :
    Writes shield [Reg.rax.full, Reg.rdx.full] m m' := by
  unfold divide at h
  dsimp only at h
  split at h
  · cases h
  · cases h
    exact setPair_writes ..

theorem divideSigned_writes {y : BitVec w} (h : m.divideSigned y = .next m') :
    Writes shield [Reg.rax.full, Reg.rdx.full] m m' := by
  unfold divideSigned at h
  dsimp only at h
  split at h
  · cases h
  · cases h
    exact setPair_writes ..

theorem jumpIf_next (h : m.jumpIf op l = .next m') : m' = m := by
  unfold jumpIf at h
  split at h
  · cases h
  · cases h
    rfl
  · cases h

/-- Where the next line follows, an exit that is not stuck under a condition has a state. -/
theorem ofOption_of_ite {c : Bool} {o : Option Machine}
    (h : (if c then Exit.stuck else .ofOption o) = .next m') : o = some m' := by
  cases c with
  | true => cases h
  | false => exact Exit.ofOption_next h

/-- A division by an operand that can be read. -/
theorem getD_map_next {c : Bool} {f : BitVec w → Exit} {o : Option (BitVec w)}
    (h : (if c then (o.map f).getD .stuck else .stuck) = .next m') : ∃ y, f y = .next m' := by
  cases c with
  | false => cases h
  | true =>
    cases o with
    | none => cases h
    | some y => exact ⟨y, h⟩

/-- What an instruction does exactly, if the next line follows, is what its effect allows. -/
theorem exec_does (h : m.exec op args = .next m') (hallowed : (effect op args).Allowed shield m) :
    (effect op args).Does shield m m' := by
  unfold exec at h
  split at h
  case h_1 d s => exact mov_does (ofOption_of_ite h) hallowed
  case h_2 | h_3 | h_4 =>
    have hwrites : Writes shield _ m m' :=
      extend_writes (ofOption_of_ite h) fun x hx => by cases hx
    exact hwrites
  case h_5 | h_6 | h_7 | h_8 => exact arithmetic_does (by decide) (ofOption_of_ite h) hallowed
  case h_9 =>
    have hwrites : Writes shield _ m m' :=
      compute_writes (Exit.ofOption_next h) fun x hx => by cases hx
    exact hwrites
  case h_10 | h_11 =>
    cases h
    exact signFill_writes _
  case h_12 x =>
    split at h
    · obtain ⟨y, -, rfl⟩ := Option.map_eq_some_iff.mp (Exit.ofOption_next h)
      exact setPair_writes ..
    · cases h
  case h_13 =>
    obtain ⟨y, hy⟩ := getD_map_next h
    exact divide_writes hy
  case h_14 =>
    obtain ⟨y, hy⟩ := getD_map_next h
    exact divideSigned_writes hy
  case h_15 => exact compare_writes (ofOption_of_ite h)
  case h_16 => cases h
  case h_17 | h_18 => exact jumpIf_next h
  case h_19 => exact setIf_does (Exit.ofOption_next h) hallowed
  case h_20 => cases h

theorem jumpIf_goto {l' : String} (h : m.jumpIf op l = .goto l' m') : l = l' ∧ m' = m := by
  unfold jumpIf at h
  split at h
  · cases h
    exact ⟨rfl, rfl⟩
  · cases h
  · cases h

/-- An instruction that leads to a label is a jump to it, and changes nothing. -/
theorem exec_targets (h : m.exec op args = .goto l m') : (effect op args).Targets l ∧ m' = m := by
  have hite : ∀ {c : Bool} {o : Option Machine}, (if c then Exit.stuck else .ofOption o) ≠ .goto l m' := by
    intro c o
    cases c with
    | true => nofun
    | false => exact Exit.ofOption_ne_goto
  unfold exec at h
  split at h
  case h_1 | h_2 | h_3 | h_4 | h_5 | h_6 | h_7 | h_8 | h_15 => exact absurd h hite
  case h_9 | h_19 => exact absurd h Exit.ofOption_ne_goto
  case h_10 | h_11 | h_20 => cases h
  case h_12 =>
    split at h
    · exact absurd h Exit.ofOption_ne_goto
    · cases h
  case h_13 x | h_14 x =>
    split at h
    · cases hread : x.read m x.bits with
      | none =>
        rw [hread] at h
        cases h
      | some y =>
        rw [hread] at h
        simp only [Option.map_some, Option.getD_some, divide, divideSigned] at h
        split at h <;> cases h
    · cases h
  case h_16 =>
    cases h
    exact ⟨.inl rfl, rfl⟩
  case h_17 | h_18 =>
    obtain ⟨rfl, hm⟩ := jumpIf_goto h
    exact ⟨.inr rfl, hm⟩

end Machine

/-! ## Following the machine -/

instance (x : Mem) : Decidable x.Framed :=
  decidable_of_iff (x.base = some .rbp ∧ x.index = none ∧ x.symbol = "")
    ⟨fun h => ⟨h.1, h.2.1, h.2.2⟩, fun h => ⟨h.base, h.index, h.symbol⟩⟩

/-- Whether an effect writes to no places in memory but words in the frame. -/
def Effect.isLocal : Effect → Bool
  | writes targets => targets.all fun
    | .mem x => x.Framed ∧ width x.bits ≤ 64
    | _ => true
  | _ => true

theorem Effect.allowed_of_isLocal {e : Effect} (h : e.isLocal) (shield : BitVec 64 → Prop)
    (m : Machine) : e.Allowed shield m := by
  rintro x targets rfl hx
  obtain ⟨hframed, hwidth⟩ : x.Framed ∧ width x.bits ≤ 64 := by
    simpa using List.all_eq_true.mp h (.mem x) hx
  exact ⟨hwidth, .inl hframed⟩

/-- The machine after a word is pushed; one that cannot be read is zero. -/
def Machine.push (m : Machine) (x : Operand) : Machine :=
  { m with
    regs := Function.update m.regs .rsp (m.regs .rsp - 8)
    mem := m.mem.store (m.regs .rsp - 8) ((x.read m 64).getD 0) }

/-- The machine after a word is popped. -/
def Machine.pop (m : Machine) (r : Reg) : Machine :=
  { m with
    regs := Function.update (Function.update m.regs .rsp (m.regs .rsp + 8)) r
      (m.mem.load 64 (m.regs .rsp)) }

/-- One step of the machine along lines. A call comes back at once with nothing changed. -/
def advance (lines : List Line) (c : Nat × Machine) : Option (Nat × Machine) :=
  match lines[c.1]? with
  | some (.label _) => some (c.1 + 1, c.2)
  | some (.ins op args) =>
    match effect op args with
    | .push x => some (c.1 + 1, c.2.push x)
    | .pop r => some (c.1 + 1, c.2.pop r)
    | .call => some (c.1 + 1, c.2)
    | e =>
      if e.isLocal then
        match c.2.exec op args with
        | .next m => some (c.1 + 1, m)
        | .goto l m => (lines.findIdx? (· == .label l)).map fun pc => (pc, m)
        | _ => none
      else none
  | _ => none

/-- A number of steps. -/
def follow (lines : List Line) : Nat → Nat × Machine → Option (Nat × Machine)
  | 0, c => some c
  | n + 1, c => (advance lines c).bind (follow lines n)

section

variable {lines : List Line} {c c' : Nat × Machine}

theorem advance_step (h : advance lines c = some c') (shield : BitVec 64 → Prop) :
    Step lines shield c c' := by
  obtain ⟨pc, m⟩ := c
  unfold advance at h
  split at h
  next hl =>
    cases h
    exact .label hl
  next op args hl =>
    split at h
    next x hx =>
      cases h
      refine .ins hl ?_
      rw [hx]
      refine ⟨_, fun r hr => ?_, rfl, rfl⟩
      rw [hr]
      exact BitVec.setWidth_eq _
    next r hr =>
      cases h
      refine .ins hl ?_
      rw [hr]
      exact ⟨rfl, rfl⟩
    next hcall =>
      cases h
      refine .ins hl ?_
      rw [hcall]
      exact ⟨fun _ _ => rfl, fun _ _ => rfl⟩
    next =>
      split at h
      next hlocal =>
        split at h
        next m' hm' =>
          cases h
          exact .ins hl (Machine.exec_does hm' (Effect.allowed_of_isLocal hlocal shield m))
        next l m' hm' =>
          obtain ⟨htarget, rfl⟩ := Machine.exec_targets hm'
          obtain ⟨pc', hpc', rfl⟩ := Option.map_eq_some_iff.mp h
          obtain ⟨hlt, hlabel, -⟩ := List.findIdx?_eq_some_iff_getElem.mp hpc'
          refine .jump hl htarget ?_
          rw [List.getElem?_eq_getElem hlt, eq_of_beq hlabel]
        next => cases h
      next => cases h
  next => cases h

/-- What the machine does is one of the paths. -/
theorem follow_reaches {n : Nat} (h : follow lines n c = some c') (shield : BitVec 64 → Prop) :
    Reaches lines shield c c' := by
  induction n generalizing c with
  | zero =>
    cases h
    exact .refl
  | succ n ih =>
    obtain ⟨c1, hstep, hrest⟩ := Option.bind_eq_some_iff.mp h
    exact .head (advance_step hstep shield) (ih hrest)

end

end TreeAsm.Asm
