import TreeAsm.Proofs.Emit.Reading
import TreeAsm.Proofs.Ir.Forms

/-!
# Instructions

Every instruction is walked through once, in two runs side by side. It takes at most two registers of
its own, writes lines that its operation may need (`Allows`), and refers to known symbols. What it
takes for this is said by `Setting.Takes`; in code that is in order, this includes that the
instruction has the operands and the result of its operation (`Setting.Shape`).
-/

namespace TreeAsm.Emit

open Asm (Line Mem Mnemonic Reg Register Text frameRegs widths)
open Ir
open Emitter (ins lift)

/-- The lines that an instruction may need: those that control goes straight through, a jump to the
end of the function or to the target of the instruction, and a label. -/
structure Allows (P : Line → Prop) (i : Instr) : Prop where
  straight : ∀ l : Line, l.isStraight = true → P l
  ret : i.op = .ret → P (.ins .jmp [.label endLabel])
  jump : i.op = .jump ∨ i.op = .cjump → ∀ l, i.target = .ok l →
    ∀ op ∈ [Mnemonic.jmp, .je, .jne], P (.ins op [.label (l.getD "")])
  label : i.op = .label → ∀ name, P (.label name)

theorem allows_any (i : Instr) : Allows (fun _ => True) i :=
  ⟨fun _ _ => trivial, fun _ => trivial, fun _ _ _ _ _ => trivial, fun _ _ => trivial⟩

/-- The number of operands that an operation needs. -/
def needs : Opcode → Nat
  | .store | .cjump => 3
  | .addrOf | .call | .syscall | .jump | .label => 1
  | .ret | .unknown _ => 0
  | _ => 2

theorem needs_binary {op : Opcode} (h : op.isBinary) : needs op = 2 := by
  cases op with
  | add | sub | mul | div | and | eq | ne | lt | le | gt | ge => rfl
  | _ => cases h

theorem isBinary_of_isCompare {op : Opcode} (h : op.isCompare) : op.isBinary := by
  cases op with
  | eq | ne | lt | le | gt | ge => rfl
  | _ => cases h

namespace Setting

/-- An instruction with the operands and the result that its operation needs, whose types fit. -/
inductive Shape (σ : Setting) : Instr → Prop
  | moveTemp (t : Temp) (x : Operand) : Shape σ ⟨.move, none, [.temp t, x]⟩
  | moveVar {v : Local} (hv : σ.Fit v.type) (x : Operand) : Shape σ ⟨.move, none, [.var v, x]⟩
  | binary {op : Opcode} (hop : op.isBinary = true) (t : Temp) {x y : Operand}
      (htypes : op.isCompare = true → x.type ≠ .untyped ∧ y.type ≠ .untyped) :
      Shape σ ⟨op, some t, [x, y]⟩
  | load (t : Temp) (base offset : Operand) : Shape σ ⟨.load, some t, [base, offset]⟩
  | store (base offset : Operand) {x : Operand} (hx : σ.Fit x.type) :
      Shape σ ⟨.store, none, [base, offset, x]⟩
  | addrOf (t : Temp) {x : Operand} (hx : ∃ m, addressed σ.env x = .ok m) : Shape σ ⟨.addrOf, some t, [x]⟩
  | call (r : Option Temp) (x : Operand) (args : List Operand) : Shape σ ⟨.call, r, x :: args⟩
  | syscall (r : Option Temp) (x : Operand) {args : List Operand}
      (hmany : Asm.SysV.syscallRegs.length < args.length → σ.causes
        (some (.tooManySyscallArguments args.length Asm.SysV.syscallRegs.length))) :
      Shape σ ⟨.syscall, r, x :: args⟩
  | retNothing : Shape σ ⟨.ret, none, []⟩
  | ret {x : Operand}
      (hx : (if σ.env.types.isVoid σ.env.func.ret then x.type else σ.env.func.ret) ≠ .untyped) :
      Shape σ ⟨.ret, none, [x]⟩
  | jump {l : String} (hl : (σ.env.func.blockIndex? l).isSome = true) : Shape σ ⟨.jump, none, [.label l]⟩
  | cjump (x : Operand) (l : String) (sentinel : Int64) (type : Ty) :
      Shape σ ⟨.cjump, none, [x, .label l, .int sentinel type]⟩

/-- An instruction that both runs can go through. -/
structure Takes (σ : Setting) (i : Instr) : Prop where
  lines : Allows σ.lines i
  args : ∀ x ∈ i.args, σ.Reads x
  result : ∀ t, i.result = some t → σ.Has t
  target : i.op = .jump ∨ i.op = .cjump → ∀ l, i.target = .ok l → σ.shift.fixed.symbols (l.getD "")
  calls : i.op = .call → Text.callBytes (i.args.length - 1) ≤ σ.depth
  shape : σ.strict → σ.Shape i

variable {σ : Setting} {i : Instr}

theorem Shape.needs_le (h : σ.Shape i) : needs i.op ≤ i.args.length := by
  cases h with
  | binary hop => exact Nat.le_of_eq (needs_binary hop)
  | call | syscall => exact Nat.succ_le_succ (Nat.zero_le _)
  | ret => exact Nat.zero_le _
  | _ => exact Nat.le_refl _

theorem Shape.hasResult (h : σ.Shape i) (hop : i.op.isBinary ∨ i.op = .load ∨ i.op = .addrOf) :
    i.result.isSome := by
  cases h with
  | binary | load | addrOf => rfl
  | moveTemp | moveVar | store | call | syscall | retNothing | ret | jump | cjump =>
    exact absurd hop (by simp [Opcode.isBinary])

end Setting

/-! ## Parts of an instruction -/

theorem arg_gives (i : Instr) (k : Nat) : (i.arg k).Gives Spares fun x => i.args[k]? = some x := by
  unfold Instr.arg
  cases i.args[k]? with
  | none => exact trivial
  | some x => exact rfl

theorem target_gives (i : Instr) : i.target.Gives Spares fun _ => True := by
  unfold Instr.target
  split
  · exact (arg_gives i 0).bind fun _ _ => trivial
  · exact (arg_gives i 1).bind fun _ _ => trivial
  · exact trivial

theorem wider_mem {a b : Int64} (ha : a ∈ widths) (hb : b ∈ widths) : wider a b ∈ widths := by
  unfold wider
  split
  · exact ha
  · exact hb

theorem taken_le (x : Asm.Operand) : taken x ≤ 1 := by
  cases x <;> simp [taken]

section

variable {σ : Setting} (hσ : σ.Ready) {I : State → Prop} {op : Opcode} {r : Option Temp}
  {args : List Ir.Operand}

theorem twins_rax {bits : Int64} (hbits : bits ∈ widths) :
    σ.Twins (.reg ⟨.rax, bits⟩) (.reg ⟨.rax, bits⟩) :=
  σ.twins_reg (by decide : Reg.rax ∉ frameRegs) ⟨Reg.rax_whole, hbits⟩

theorem constOf_tracks (x : Ir.Operand) :
    Tracks σ I (constOf x) (constOf x) (fun _ => I) fun a b => a = b ∧ True := by
  have hpure : ∀ c, Tracks σ I (Pure.pure c : Emitter (Option Int64)) (Pure.pure c) (fun _ => I)
      fun a b => a = b ∧ True := fun _ => .pure ⟨rfl, trivial⟩ (fun _ => rfl) fun _ hs => hs
  cases x with
  | temp t => exact (constAt_tracks t.id).bindSame fun _ _ => hpure _
  | var _ | outer _ _ | int _ _ | str _ | symbol _ | label _ => exact hpure _

theorem knownSource_tracks {x : Ir.Operand} (hx : σ.Reads x) :
    Tracks σ I (knownSource x) (knownSource x) (fun _ => I) fun a b => a = b ∧ σ.Reads b := by
  have hpure : ∀ {y : Ir.Operand}, σ.Reads y → Tracks σ I (Pure.pure y : Emitter Ir.Operand)
      (Pure.pure y) (fun _ => I) fun a b => a = b ∧ σ.Reads b :=
    fun hy => .pure ⟨rfl, hy⟩ (fun _ => rfl) fun _ hs => hs
  cases x with
  | temp t =>
    refine (constAt_tracks t.id).bindSame fun c _ => ?_
    cases c with
    | some c => exact hpure trivial
    | none => exact hpure hx
  | var _ | outer _ _ | int _ _ | str _ | symbol _ | label _ => exact hpure hx

include hσ

theorem argOf_tracks (hi : σ.Takes ⟨op, r, args⟩) {k : Nat} (hk : k < needs op) :
    Tracks σ I (argOf ⟨op, r, args⟩ k) (argOf ⟨op, r, args⟩ k) (fun _ => I) fun a b =>
      a = b ∧ args[k]? = some b ∧ σ.Reads b := by
  refine .same ((hσ.known (arg_gives ⟨op, r, args⟩ k) fun hstrict => ?_).mono (fun _ hc => hc)
    fun x hx => ⟨hx, hi.args x (List.mem_of_getElem? hx)⟩)
  have hlt : k < args.length := Nat.lt_of_lt_of_le hk (hi.shape hstrict).needs_le
  exact ⟨args.get ⟨k, hlt⟩, by rw [Instr.arg, List.getElem?_eq_getElem hlt]; rfl⟩

theorem resultOf_tracks (hi : σ.Takes ⟨op, r, args⟩) (hop : op.isBinary ∨ op = .load ∨ op = .addrOf) :
    Tracks σ I (resultOf ⟨op, r, args⟩) (resultOf ⟨op, r, args⟩) (fun _ => I) fun a b =>
      a = b ∧ σ.Has b := by
  cases r with
  | some t => exact .pure ⟨rfl, hi.result t rfl⟩ (fun _ => rfl) fun _ hs => hs
  | none =>
    have hnone : (.crash : Outcome Temp).Gives σ.causes σ.Has :=
      hσ.excuse (fun hstrict => nomatch (hi.shape hstrict).hasResult hop) trivial
    exact .same hnone

/-- Where an instruction jumps to. -/
theorem target_tracks (hi : σ.Takes ⟨op, r, args⟩) (hop : op = .jump ∨ op = .cjump) :
    Tracks σ I (lift (Instr.target ⟨op, r, args⟩))
      (lift (Instr.target ⟨op, r, args⟩)) (fun _ => I) fun a b =>
        a = b ∧ Instr.target ⟨op, r, args⟩ = .ok b ∧ σ.shift.fixed.symbols (b.getD "") := by
  have hok : σ.strict → ∃ l, Instr.target ⟨op, r, args⟩ = .ok l := by
    intro hstrict
    rcases hop with rfl | rfl
    · cases hi.shape hstrict with
      | jump => exact ⟨_, rfl⟩
      | binary hbinary => cases hbinary
    · cases hi.shape hstrict with
      | cjump => exact ⟨_, rfl⟩
      | binary hbinary => cases hbinary
  have hgives := hσ.known (target_gives ⟨op, r, args⟩) hok
  exact .same (hgives.known fun l hl => ⟨hl, hi.target hop l hl⟩)

end

/-! ## Moves -/

section

variable {σ : Setting} (hσ : σ.Ready) {I : State → Prop} {op : Opcode} {r : Option Temp}
  {args : List Ir.Operand} {n : Nat} (hP : ∀ l : Line, l.isStraight = true → σ.lines l)

include hσ hP

theorem emitMoveTemp_uses {t : Temp} (ht : σ.Has t) {x : Ir.Operand} (hx : σ.Reads x) :
    σ.Spends n n (emitMoveTemp · t x) := by
  have hmoves := moves_of_straight hP
  have hcopy : σ.Spends n n (fun env => do
      let s ← Emitter.within "source" (operand env x)
      let d ← dest env t
      Emitter.move d s (isSigned x.type) (some .rax)
      if x.type ≠ .untyped && env.types.bits x.type ≤ env.types.bits t.type then return
      else narrow env t d) := by
    refine ((operand_uses hσ hmoves hx).within _).bind fun s s' hs => (dest_uses hσ ht).bind ?_
    rintro d d' ⟨hd, -, hbits⟩
    exact (Tracks.moveVia hσ hmoves _ hd hs.toKin).next
      (.ite .done (narrow_tracks hσ hmoves hbits hd.toTwins))
  cases x with
  | int value type => exact (unbindAny_keeps hσ ht.lt).uses.next (remember_uses t.id _)
  | temp _ | var _ | outer _ _ | str _ | symbol _ | label _ => exact hcopy

theorem emitMoveVar_uses {v : Local} (hv : σ.Reads (.var v)) (hfit : σ.strict → σ.Fit v.type)
    {x : Ir.Operand} (hx : σ.Reads x) : σ.Spends n n (emitMoveVar · (.var v) x) := by
  have hmoves := moves_of_straight hP
  refine (checkScalar_tracks hσ hfit _).bindSame fun _ hbits => ?_
  refine ((operand_uses hσ hmoves hx).within _).bind fun s s' hs => (var_tracks hσ hv).bind ?_
  rintro d _ ⟨hd, disp, rfl⟩
  exact .moveVia hσ hmoves _ ⟨hd, fun hstrict => (hbits hstrict).2⟩ hs.toKin

theorem emitMove_uses (hi : σ.Takes ⟨.move, r, args⟩) : σ.Spends n n (emitMove · ⟨.move, r, args⟩) := by
  have hmoves := moves_of_straight hP
  -- code in order moves to temporaries and to variables that fit a register
  have hplace : ∀ {d : Ir.Operand}, σ.strict → args[0]? = some d →
      (∃ t, d = .temp t) ∨ ∃ v : Local, d = .var v ∧ σ.Fit v.type := by
    intro d hstrict hd
    cases hi.shape hstrict with
    | moveTemp t => exact .inl ⟨t, (Option.some.inj hd).symm⟩
    | @moveVar v hv => exact .inr ⟨v, (Option.some.inj hd).symm, hv⟩
    | binary hbinary => cases hbinary
  refine (argOf_tracks hσ hi (by decide)).bindSame fun x hx => ?_
  refine (knownSource_tracks hx.2).bindSame fun x hx => ?_
  refine (argOf_tracks hσ hi (by decide)).bindSame fun d hd => ?_
  cases d with
  | temp t => exact emitMoveTemp_uses hσ hP hd.2 hx
  | var v =>
    refine emitMoveVar_uses hσ hP hd.2 (fun hstrict => ?_) hx
    obtain ⟨t, ht⟩ | ⟨v', hv, hfit⟩ := hplace hstrict hd.1
    · cases ht
    · cases hv
      exact hfit
  | outer name type =>
    have hloose : ¬ σ.strict := hd.2
    refine (checkScalar_tracks hσ (fun hstrict => absurd hstrict hloose) _).bindSame fun _ _ => ?_
    refine ((operand_uses hσ hmoves hx).within _).bind fun s s' _ => ?_
    refine Tracks.bind (J := fun _ _ => False) (R := fun _ _ => False) ?_ fun _ _ h => h.elim
    exact .fail (hσ.excuse hloose rfl)
  | int _ _ | str _ | symbol _ | label _ =>
    refine .fail (hσ.excuse (fun hstrict => ?_) rfl)
    obtain ⟨t, ht⟩ | ⟨v, hv, -⟩ := hplace hstrict hd.1
    · cases ht
    · cases hv

/-! ## Arithmetic -/

theorem emitBinary_uses (hop : op.isBinary) (hi : σ.Takes ⟨op, r, args⟩) :
    σ.Spends 0 2 (emitBinary · ⟨op, r, args⟩) := by
  have hmoves := moves_of_straight hP
  have hneeds := needs_binary hop
  refine (argOf_tracks hσ hi (by omega)).bindSame fun l hl => ?_
  refine (argOf_tracks hσ hi (by omega)).bindSame fun r hr => ?_
  refine (resultOf_tracks hσ hi (.inl hop)).bindSame fun t ht => ?_
  refine (work_tracks hσ ht.typed).bindSame fun w hw => ?_
  refine ((operand_uses hσ hmoves hl.2).within _).bind fun lop lop' hl => ?_
  refine ((operand_uses hσ hmoves hr.2).within _).bind fun rop rop' hr => ?_
  refine (resultRegister_uses hσ ht hw (by decide : 0 < Pool.headroom)).bindSame ?_
  rintro ⟨d, spilled⟩ ⟨hd, hid, hbits⟩
  refine ((Tracks.moveToReg hmoves _ hd hl.toKin none).within _).next ?_
  have hroom : 0 + 1 < Pool.headroom := by decide
  refine ((atWidth_uses hσ hmoves _ hr hw hroom).within _).bind fun rop rop' hr => ?_
  have hwriter : binaryMnemonic op ∈ Asm.writers := by
    unfold binaryMnemonic
    split <;> decide
  refine Tracks.widen (k := fun _ => 0 + 1 + taken rop') ?_ fun _ => by
    have := taken_le rop'
    omega
  refine (Tracks.writer hwriter hd hr.toKin (hP _ ?_)).next
    (.ite (spill_tracks hσ hmoves hid hbits hd.toKin) (narrow_tracks hσ hmoves hbits hd))
  cases op <;> rfl

omit hσ in
/-- A number needs a register only if it did not take one before. -/
theorem factor_uses {x y : Asm.Operand} (h : σ.Twins x y) {bits : Int64} (hbits : bits ∈ widths)
    (signed : Bool) :
    Tracks σ (σ.Working (0 + taken y)) (factor x bits signed) (factor y bits signed)
      (fun _ => σ.Working 1) σ.Twins := by
  have hkept : ∀ {x y : Asm.Operand}, σ.Twins x y → Tracks σ (σ.Working (0 + taken y))
      (Pure.pure x : Emitter Asm.Operand) (Pure.pure y) (fun _ => σ.Working 1) σ.Twins := by
    intro x y h
    refine (Tracks.twins h).widen (k := fun _ => 0 + taken y) fun _ => ?_
    have := taken_le y
    omega
  cases h.alike with
  | moved m hframed hslot => exact hkept h
  | same =>
    cases x with
    | imm i =>
      have hroom : 0 < Pool.headroom := by decide
      refine (toScratch_uses (moves_of_straight hP) signed h.toKin hbits hroom).widen fun z => ?_
      have := taken_le z
      omega
    | reg _ | mem _ | label _ | ptr _ _ | absent => exact hkept h

omit hσ in
theorem mulDivBy_tracks (op : Opcode) (signed : Bool) {bits : Int64} (hbits : bits ∈ widths)
    {x y : Asm.Operand} (h : σ.Kin x y) :
    Steady σ I (mulDivBy op signed bits x) (mulDivBy op signed bits y) := by
  have hby : ∀ {op : Mnemonic}, op ∈ [Mnemonic.mul, .div, .idiv] → σ.lines (.ins op [y]) →
      Steady σ I (ins op [x]) (ins op [y]) :=
    fun hop hline => .plain (.cons h .nil) (Asm.plain_factor hop y) hline
  have hrdx : σ.Twins (.reg ⟨.rdx, bits⟩) (.reg ⟨.rdx, bits⟩) :=
    σ.twins_reg (by decide : Reg.rdx ∉ frameRegs) ⟨(by decide : Reg.rdx.Whole), hbits⟩
  refine .ite (hby (by decide) (hP _ rfl)) (.ite ?_ ?_)
  · refine (Tracks.plain .nil (Asm.plain_fill ?_) (hP _ ?_)).next (hby (by decide) (hP _ rfl))
    · split <;> decide
    · split <;> rfl
  · exact (Tracks.writer (by decide) hrdx hrdx.toKin (hP _ rfl)).next (hby (by decide) (hP _ rfl))

theorem emitMulDiv_uses (hop : op.isBinary) (hi : σ.Takes ⟨op, r, args⟩) :
    σ.Spends 0 1 (emitMulDiv · ⟨op, r, args⟩) := by
  have hmoves := moves_of_straight hP
  have hneeds := needs_binary hop
  refine (argOf_tracks hσ hi (by omega)).bindSame fun l hl => ?_
  refine (argOf_tracks hσ hi (by omega)).bindSame fun r hr => ?_
  refine (resultOf_tracks hσ hi (.inl hop)).bindSame fun t ht => ?_
  refine (work_tracks hσ ht.typed).bindSame fun w hw => ?_
  refine ((operand_uses hσ hmoves hl.2).within _).bind fun lop lop' hl => ?_
  refine ((operand_uses hσ hmoves hr.2).within _).bind fun rop rop' hr => ?_
  have hrax := twins_rax (σ := σ) hw
  refine ((Tracks.moveToReg hmoves _ hrax hl.toKin none).within _).next ?_
  have hroom : 0 < Pool.headroom := by decide
  refine ((atWidth_uses hσ hmoves _ hr hw hroom).within _).bind fun rop rop' hr => ?_
  refine (factor_uses hP hr hw _).bind fun rop rop' hr => ?_
  refine (mulDivBy_tracks hP op _ hw hr.toKin).next ((dest_uses hσ ht).bind ?_)
  rintro d d' ⟨hd, -, hbits⟩
  exact (Tracks.moveReg hσ hmoves _ hd hrax.toKin).next (narrow_tracks hσ hmoves hbits hd.toTwins)

/-! ## Comparisons -/

omit hσ in
/-- Of two operands that are both in memory only one moves. -/
theorem besideMemory_uses {l l' x y : Asm.Operand} (hl : σ.Twins l l') (h : σ.Twins x y)
    {bits : Int64} (hbits : bits ∈ widths) (signed : Bool) :
    Tracks σ (σ.Working (0 + taken l' + taken y)) (besideMemory l x bits signed)
      (besideMemory l' y bits signed) (fun _ => σ.Working 2) σ.Twins := by
  have hkept : Tracks σ (σ.Working (0 + taken l' + taken y)) (Pure.pure x : Emitter Asm.Operand)
      (Pure.pure y) (fun _ => σ.Working 2) σ.Twins := by
    refine (Tracks.twins h).widen (k := fun _ => 0 + taken l' + taken y) fun _ => ?_
    have := taken_le l'
    have := taken_le y
    omega
  have hthrough : Tracks σ (σ.Working 0) (toScratch x bits signed) (toScratch y bits signed)
      (fun _ => σ.Working 2) σ.Twins :=
    (toScratch_uses (moves_of_straight hP) signed h.toKin hbits (by decide)).widen
      fun z => by have := taken_le z; omega
  have hmem : ∀ m m' : Mem, l' = .mem m' → Tracks σ (σ.Working (0 + taken l' + taken y))
      (besideMemory (.mem m) x bits signed) (besideMemory (.mem m') y bits signed)
      (fun _ => σ.Working 2) σ.Twins := by
    rintro m m' rfl
    cases h.alike with
    | moved _ _ _ => exact hthrough
    | same =>
      cases x with
      | mem _ => exact hthrough
      | reg _ | imm _ | label _ | ptr _ _ | absent => exact hkept
  cases hl.alike with
  | moved m hframed hslot => exact hmem m _ rfl
  | same =>
    cases l with
    | mem m => exact hmem m m rfl
    | reg _ | imm _ | label _ | ptr _ _ | absent => exact hkept

theorem compareTo_tracks (op : Opcode) (signed : Bool) {l l' x y d d' : Asm.Operand} (hl : σ.Kin l l')
    (h : σ.Kin x y) (hd : σ.Twins d d') :
    Steady σ I (compareTo (setMnemonic op signed) l x d) (compareTo (setMnemonic op signed) l' y d') := by
  have hcmp : Steady σ I (ins .cmp [l, x]) (ins .cmp [l', y]) :=
    .plain (.cons hl (.cons h .nil)) (Asm.plain_cmp _ _) (hP _ rfl)
  have hset : ∀ {x y : Asm.Operand}, σ.Twins x y →
      Steady σ I (ins (setMnemonic op signed) [x]) (ins (setMnemonic op signed) [y]) := by
    intro x y h
    refine .plain (.cons h.toKin .nil) (Asm.plain_setter ?_ h.twins.isOpen) (hP _ ?_)
    · unfold setMnemonic
      cases signed <;> split <;> decide
    · cases op <;> cases signed <;> rfl
  cases hd.alike with
  | moved m hframed hslot => exact hcmp.next (hset (hd.resize 8))
  | same =>
    cases d with
    | mem m => exact hcmp.next (hset (hd.resize 8))
    | reg r =>
      refine (sized_tracks hσ hd.toKin fun _ => by decide).bindSame ?_
      rintro _ ⟨rfl, h32⟩
      refine (sized_tracks hσ hd.toKin fun _ => by decide).bindSame ?_
      rintro _ ⟨rfl, h8⟩
      have hlow := hd.toKin.sized h32
      exact (Tracks.writer (by decide) hlow hlow.toKin (hP _ rfl)).next
        (hcmp.next (hset (hd.toKin.sized h8)))
    | imm _ | label _ | ptr _ _ | absent => exact .done

theorem emitCompareOf_uses (op' : Opcode) (hop : op.isBinary) (hi : σ.Takes ⟨op, r, args⟩)
    {x y : Ir.Operand} (hx : σ.Reads x) (hy : σ.Reads y)
    (htypes : σ.strict → x.type ≠ .untyped ∧ y.type ≠ .untyped) :
    σ.Spends 0 2 (emitCompareOf · op' x y ⟨op, r, args⟩) := by
  have hmoves := moves_of_straight hP
  refine (work_tracks hσ fun hstrict => (htypes hstrict).1).bindSame fun wx hwx => ?_
  refine (work_tracks hσ fun hstrict => (htypes hstrict).2).bindSame fun wy hwy => ?_
  have hw := wider_mem hwx hwy
  refine ((operand_uses hσ hmoves hx).within _).bind fun xop xop' hx => ?_
  refine ((operand_uses hσ hmoves hy).within _).bind fun yop yop' hy => ?_
  have hroom : 0 < Pool.headroom := by decide
  refine ((atWidth_uses hσ hmoves _ hx hw hroom).within _).bind fun xop xop' hx => ?_
  have hroom : 0 + taken xop' < Pool.headroom := by
    have := taken_le xop'
    have : Pool.headroom = 2 := rfl
    omega
  refine ((atWidth_uses hσ hmoves _ hy hw hroom).within _).bind fun yop yop' hy => ?_
  refine (besideMemory_uses hP hx hy hw _).bind fun yop yop' hy => ?_
  refine (resultOf_tracks hσ hi (.inl hop)).bindSame fun t ht => (dest_uses hσ ht).bind ?_
  rintro d d' ⟨hd, -⟩
  exact compareTo_tracks hσ hP op' _ hx.toKin hy.toKin hd.toTwins

theorem emitCompare_uses (hop : op.isCompare) (hi : σ.Takes ⟨op, r, args⟩) :
    σ.Spends 0 2 (emitCompare · ⟨op, r, args⟩) := by
  have hbinary := isBinary_of_isCompare hop
  have hneeds := needs_binary hbinary
  refine (argOf_tracks hσ hi (by omega)).bindSame fun x hx => ?_
  refine (argOf_tracks hσ hi (by omega)).bindSame fun y hy => ?_
  have htypes : σ.strict → x.type ≠ .untyped ∧ y.type ≠ .untyped := by
    intro hstrict
    obtain ⟨hx, -⟩ := hx
    obtain ⟨hy, -⟩ := hy
    cases hi.shape hstrict with
    | binary _ _ htypes =>
      cases hx
      cases hy
      exact htypes hop
    | _ => cases hop
  refine (constOf_tracks x).bindSame fun xc _ => (constOf_tracks y).bindSame fun yc _ => ?_
  cases xc with
  | none => exact emitCompareOf_uses hσ hP _ hbinary hi hx.2 hy.2 htypes
  | some xc =>
    cases yc with
    | none => exact emitCompareOf_uses hσ hP _ hbinary hi hy.2 hx.2 fun hstrict => (htypes hstrict).symm
    | some yc =>
      exact (resultOf_tracks hσ hi (.inl hbinary)).bindSame fun t _ =>
        (remember_uses t.id _).widen fun _ => by decide

/-! ## Memory -/

theorem address_uses {base offset : Ir.Operand} (hbase : σ.Reads base) (hoffset : σ.Reads offset)
    (bits : Int64) :
    Uses σ n (address σ.env base offset bits) (address σ.final base offset bits) (fun _ => n)
      fun a b => a = b ∧ σ.Twins (.mem b) (.mem b) ∧ b.bits = bits := by
  have hmoves := moves_of_straight hP
  have hfull : ∀ {r : Reg}, r ∉ frameRegs → r.Whole → σ.Twins r.full r.full := fun hspare hr =>
    σ.twins_reg hspare hr.full
  refine ((operand_uses hσ hmoves hbase).within _).bind fun b b' hb => ?_
  refine ((operand_uses hσ hmoves hoffset).within _).bind fun o o' ho => ?_
  refine ((Tracks.moveToReg hmoves _ (hfull (by decide) (by decide)) hb.toKin none).within _).next ?_
  refine ((Tracks.moveToReg hmoves _ (hfull (by decide) (by decide)) ho.toKin none).within _).next ?_
  exact .pure ⟨rfl, twins_outside (by simp) fun h => absurd rfl h, rfl⟩ (fun _ => rfl) fun _ hs => hs

theorem emitLoad_uses (hi : σ.Takes ⟨.load, r, args⟩) : σ.Spends n n (emitLoad · ⟨.load, r, args⟩) := by
  refine (resultOf_tracks hσ hi (by simp)).bindSame fun t ht => ?_
  refine (checkScalar_tracks hσ ht.fit _).bindSame fun _ _ => ?_
  refine (argOf_tracks hσ hi (by decide)).bindSame fun base hbase => ?_
  refine (argOf_tracks hσ hi (by decide)).bindSame fun offset hoffset => ?_
  refine (address_uses hσ hP hbase.2 hoffset.2 _).bindSame fun m hm => (dest_uses hσ ht).bind ?_
  rintro d d' ⟨hd, -⟩
  exact .moveVia hσ (moves_of_straight hP) _ hd hm.1.toKin

theorem emitStore_uses (hi : σ.Takes ⟨.store, r, args⟩) : σ.Spends n n (emitStore · ⟨.store, r, args⟩) := by
  have hmoves := moves_of_straight hP
  refine (argOf_tracks hσ hi (by decide)).bindSame fun x hx => ?_
  have hfit : σ.strict → σ.Fit x.type := by
    intro hstrict
    obtain ⟨hx, -⟩ := hx
    cases hi.shape hstrict with
    | store base offset hfit =>
      cases hx
      exact hfit
    | binary hbinary => cases hbinary
  refine (checkScalar_tracks hσ hfit _).bindSame fun _ hbits => ?_
  refine ((operand_uses hσ hmoves hx.2).within _).bind fun x x' hx => ?_
  refine (argOf_tracks hσ hi (by decide)).bindSame fun base hbase => ?_
  refine (argOf_tracks hσ hi (by decide)).bindSame fun offset hoffset => ?_
  refine (address_uses hσ hP hbase.2 hoffset.2 _).bindSame fun m hm => ?_
  refine .moveVia hσ hmoves _ ⟨hm.1, fun hstrict => ?_⟩ hx.toKin
  show m.bits ∈ widths
  rw [hm.2]
  exact (hbits hstrict).1

omit hP in
theorem addressed_tracks {x : Ir.Operand} (hx : σ.Reads x)
    (hok : σ.strict → ∃ m, addressed σ.env x = .ok m) :
    Tracks σ I (lift (addressed σ.env x)) (lift (addressed σ.final x)) (fun _ => I)
      fun a b => a.symbol = b.symbol ∧ a.pic = b.pic ∧ σ.Kin (.mem a) (.mem b) := by
  have hfail : ∀ {c : Cause}, (∀ m, addressed σ.env x ≠ .ok m) → isPoolFault c = false →
      σ.causes (some c) := by
    intro c hnone hc
    refine hσ.excuse (fun hstrict => ?_) hc
    obtain ⟨m, hm⟩ := hok hstrict
    exact hnone m hm
  cases x with
  | var v =>
    simp only [addressed] at hfail ⊢
    rcases hσ.locals v with ⟨hnone, hnone'⟩ | ⟨disp, disp', hdisp, hdisp', htwins⟩
    · rw [hnone] at hfail ⊢
      rw [hnone']
      exact .fail (hfail (fun _ => nofun) rfl)
    · rw [hdisp, hdisp']
      refine .pure ⟨rfl, rfl, (htwins 0).toKin⟩ (fun hstill => ?_) fun _ hs => hs
      exact Asm.Operand.mem.inj ((htwins 0).toKin.eq hstill)
  | symbol name =>
    exact .pure ⟨rfl, rfl, (twins_outside (by simp) fun _ => hx.1).toKin⟩ (fun _ => rfl) fun _ hs => hs
  | temp _ | outer _ _ | int _ _ | str _ | label _ => exact .fail (hfail (fun _ => nofun) rfl)

theorem addressTo_tracks {m m' : Mem} (hsymbol : m.symbol = m'.symbol) (hpic : m.pic = m'.pic)
    (hm : σ.Kin (.mem m) (.mem m')) {d d' : Asm.Operand} (hd : σ.Landing d d') :
    Steady σ I (addressTo m d) (addressTo m' d') := by
  have hlea : ∀ {r : Register}, σ.Twins (.reg r) (.reg r) →
      Steady σ I (ins .lea [.reg r, .mem m]) (ins .lea [.reg r, .mem m']) :=
    fun hr => .writer (by decide) hr hm (hP _ rfl)
  have hthrough : Steady σ I (addressThrough m d) (addressThrough m' d') := by
    have hr10 : σ.Twins Reg.r10.full Reg.r10.full :=
      σ.twins_reg (by decide : Reg.r10 ∉ frameRegs) (by decide : Reg.r10.Whole).full
    exact (hlea hr10).next (.moveReg hσ (moves_of_straight hP) _ hd hr10.toKin)
  cases hd.alike with
  | moved m hframed hslot => exact hthrough
  | same =>
    cases d with
    | reg r =>
      simp only [addressTo, hsymbol, hpic]
      refine .ite ((sized_tracks hσ hd.toKin fun _ => by decide).bindSame ?_) hthrough
      rintro _ ⟨rfl, h64⟩
      exact hlea (hd.toKin.sized h64)
    | mem _ | imm _ | label _ | ptr _ _ | absent => exact hthrough

theorem emitAddrOf_uses (hi : σ.Takes ⟨.addrOf, r, args⟩) :
    σ.Spends n n (emitAddrOf · ⟨.addrOf, r, args⟩) := by
  refine (argOf_tracks hσ hi (by decide)).bindSame fun x hx => ?_
  have hok : σ.strict → ∃ m, addressed σ.env x = .ok m := by
    intro hstrict
    obtain ⟨hx, -⟩ := hx
    cases hi.shape hstrict with
    | addrOf t hok =>
      cases hx
      exact hok
    | binary hbinary => cases hbinary
  refine (addressed_tracks hσ hx.2 hok).bind ?_
  rintro m m' ⟨hsymbol, hpic, hm⟩
  refine (resultOf_tracks hσ hi (by simp)).bindSame fun t ht => (dest_uses hσ ht).bind ?_
  rintro d d' ⟨hd, -⟩
  exact addressTo_tracks hσ hP hsymbol hpic hm hd

/-! ## Calls -/

theorem readArgs_uses (k : Nat) {xs : List Ir.Operand} (hxs : ∀ x ∈ xs, σ.Reads x) :
    Uses σ n (readArgs σ.env k xs) (readArgs σ.final k xs) (fun _ => n) fun a b =>
      List.Forall₂ σ.Twins a b ∧ b.length = xs.length := by
  induction xs generalizing k with
  | nil => exact .pure ⟨.nil, rfl⟩ (fun _ => rfl) fun _ hs => hs
  | cons x xs ih =>
    refine ((operand_uses hσ (moves_of_straight hP) (hxs x List.mem_cons_self)).within _).bind
      fun a b hab => ?_
    refine (ih (k + 1) fun y hy => hxs y (List.mem_cons_of_mem _ hy)).bind ?_
    rintro as bs ⟨h, hlength⟩
    refine .pure ⟨.cons hab h, congrArg (· + 1) hlength⟩ (fun hstill => ?_) fun _ hs => hs
    rw [hab.toKin.eq hstill, Asm.eq_of_alike (h.imp fun _ _ h => h.alike) hstill]

theorem emitResult_uses (hr : ∀ t, r = some t → σ.Has t) : σ.Spends n n (emitResult · r) := by
  have hmoves := moves_of_straight hP
  cases r with
  | none => exact .done
  | some t =>
    refine (dest_uses hσ (hr t rfl)).bind ?_
    rintro d d' ⟨hd, -, hbits⟩
    exact (Tracks.moveReg hσ hmoves _ hd (twins_rax (workBits_mem _ _)).toKin).next
      (narrow_tracks hσ hmoves hbits hd.toTwins)

theorem emitCall_uses (hi : σ.Takes ⟨.call, r, args⟩) : σ.Spends n n (emitCall · ⟨.call, r, args⟩) := by
  refine (argOf_tracks hσ hi (by decide)).bindSame fun x hx => ?_
  refine ((operand_uses hσ (moves_of_straight hP) hx.2).within _).bind fun f f' hf => ?_
  refine (readArgs_uses hσ hP 0 fun y hy => hi.args y (List.mem_of_mem_drop hy)).bind ?_
  rintro as bs ⟨h, hlength⟩
  have halike := h.imp fun _ _ h => h.alike
  refine (Tracks.write (R := fun _ _ => True) ⟨fun hstill => ?_, fun _ => ?_, ?_,
    fun _ _ _ _ => (Sparing.call hP _ _ _).holds⟩).next (emitResult_uses hσ hP hi.result)
  · rw [hf.toKin.eq hstill, Asm.eq_of_alike halike hstill]
  · exact Text.call_gives _ hf.nameable (σ.forall_nameable (h.imp fun _ _ h => h.toKin))
  · refine Text.call_paired _ hf.alike (h.imp fun _ _ h => h.twins) ?_
    rw [h.length_eq, hlength, List.length_drop]
    exact hi.calls rfl

theorem emitSyscall_uses (hi : σ.Takes ⟨.syscall, r, args⟩) :
    σ.Spends n n (emitSyscall · ⟨.syscall, r, args⟩) := by
  refine (argOf_tracks hσ hi (by decide)).bindSame fun x hx => ?_
  refine ((operand_uses hσ (moves_of_straight hP) hx.2).within _).bind fun f f' hf => ?_
  refine (readArgs_uses hσ hP 0 fun y hy => hi.args y (List.mem_of_mem_drop hy)).bind ?_
  rintro as bs ⟨h, hlength⟩
  refine Tracks.get.bindSame fun s hs => ?_
  -- registers for values are never registers for arguments
  have hfree : ∀ r ∈ Asm.SysV.syscallRegs, s.pool.inUse r = false := by
    have hapart : ∀ r ∈ Asm.SysV.syscallRegs, r ∉ Asm.SysV.scratch := by decide
    intro r hr
    unfold Pool.inUse
    rw [← Bool.not_eq_true, List.contains_iff_mem]
    exact fun hused => hapart r hr (hs.1.mem_scratch hused)
  have hmany : Asm.SysV.syscallRegs.length < bs.length → σ.causes
      (some (.tooManySyscallArguments bs.length Asm.SysV.syscallRegs.length)) := by
    by_cases hstrict : σ.strict
    · cases hi.shape hstrict with
      | syscall r x hmany =>
        rw [hlength]
        exact hmany
      | binary hbinary => cases hbinary
    · exact fun _ => hσ.spares hstrict _ rfl
  refine ((Tracks.write (R := fun _ _ => True) ⟨fun hstill => ?_, fun _ => ?_, ?_,
    fun _ _ _ _ => (Sparing.syscall hP _ _ _ _).holds⟩).weaken fun _ hs => hs.1).next
      (emitResult_uses hσ hP hi.result)
  · rw [hf.toKin.eq hstill, Asm.eq_of_alike (h.imp fun _ _ h => h.alike) hstill]
  · exact Text.syscall_gives _ _ hf.nameable (σ.forall_nameable (h.imp fun _ _ h => h.toKin)) hmany
  · exact Text.syscall_paired _ hf.alike (h.imp fun _ _ h => h.twins) hfree

end

/-! ## Ways out of a block -/

section

variable {σ : Setting} (hσ : σ.Ready) {I : State → Prop} {r : Option Temp} {args : List Ir.Operand}
  {n : Nat}

theorem jump_tracks {op : Mnemonic} (hop : op ∈ [Mnemonic.jmp, .je, .jne]) {l : String}
    (hl : σ.shift.fixed.symbols l) (hline : σ.lines (.ins op [.label l])) :
    Steady σ I (ins op [.label l]) (ins op [.label l]) :=
  .write (.ins (.cons (twins_label hl).alike .nil)
    (fun _ hz => List.mem_singleton.mp hz ▸ (trivial : Asm.Operand.Nameable (.label l)))
    (.jump hop .nil) hline)

theorem label_tracks {name : String} (hline : σ.lines (.label name)) :
    Steady σ I (Emitter.write (Text.line (.label name))) (Emitter.write (Text.line (.label name))) :=
  .write ⟨fun _ => rfl, fun _ => trivial, .line (.label name) (.label .nil),
    fun _ _ _ _ _ hl => List.mem_singleton.mp hl ▸ hline⟩

include hσ

/-- A value is returned at the width of the function's type, or of its own if there is none. -/
theorem returnValue_uses (hP : ∀ op args, op.isMove → σ.lines (.ins op args))
    (hargs : ∀ x ∈ args, σ.Reads x) (htyped : σ.strict → ∀ x ∈ args.head?,
      (if σ.env.types.isVoid σ.env.func.ret then x.type else σ.env.func.ret) ≠ .untyped) :
    σ.Spends n n (returnValue · args) := by
  cases args with
  | nil =>
    have hrax := twins_rax (σ := σ) (by decide : (32 : Int64) ∈ widths)
    exact .writer (by decide) hrax hrax.toKin (hP _ _ rfl)
  | cons x xs =>
    refine ((operand_uses hσ hP (hargs x List.mem_cons_self)).within _).bind fun y y' hy => ?_
    exact (work_tracks hσ fun hstrict => htyped hstrict x rfl).bindSame fun w hw =>
      .moveToReg hP _ (twins_rax hw) hy.toKin none

theorem emitRet_uses (hi : σ.Takes ⟨.ret, r, args⟩) (bi : Nat) (last : Bool) :
    σ.Spends n n (emitRet · bi last ⟨.ret, r, args⟩) := by
  have hmoves := moves_of_straight hi.lines.straight
  have htyped : σ.strict → ∀ x ∈ args.head?,
      (if σ.env.types.isVoid σ.env.func.ret then x.type else σ.env.func.ret) ≠ .untyped := by
    intro hstrict x hx
    cases hi.shape hstrict with
    | retNothing => cases hx
    | ret htype =>
      cases hx
      exact htype
    | binary hbinary => cases hbinary
  refine (returnValue_uses hσ hmoves hi.args htyped).next ?_
  refine (flush_keeps hσ (copies_of_moves hmoves) bi).uses.next (.onlyIf fun _ => ?_)
  exact jump_tracks (by decide) hσ.ends (hi.lines.ret rfl)

theorem emitJump_uses (hi : σ.Takes ⟨.jump, r, args⟩) (bi : Nat) :
    σ.Spends n n (emitJump · bi ⟨.jump, r, args⟩) := by
  have hmoves := moves_of_straight hi.lines.straight
  refine (target_tracks hσ hi (.inl rfl)).bindSame fun l hl => ?_
  refine (flush_keeps hσ (copies_of_moves hmoves) bi).uses.next ?_
  have hjump := hi.lines.jump (.inl rfl) l hl.1 .jmp (by decide)
  cases hindex : σ.env.func.blockIndex? (l.getD "") with
  | some ti => exact .onlyIf fun _ => jump_tracks (by decide) hl.2 hjump
  | none =>
    refine .fail (hσ.excuse (fun hstrict => ?_) rfl)
    obtain ⟨htarget, -⟩ := hl
    cases hi.shape hstrict with
    | jump hsome =>
      cases htarget
      exact absurd (hindex ▸ hsome : (none : Option Nat).isSome) (by simp)
    | binary hbinary => cases hbinary

theorem emitCJump_uses (hi : σ.Takes ⟨.cjump, r, args⟩) (bi : Nat) :
    σ.Spends n n (emitCJump · bi ⟨.cjump, r, args⟩) := by
  have hmoves := moves_of_straight hi.lines.straight
  have hflush : Uses σ n _ _ _ _ := (flush_keeps hσ (copies_of_moves hmoves) bi).uses
  refine (argOf_tracks hσ hi (by decide)).bindSame fun cond hcond => ?_
  refine (target_tracks hσ hi (.inr rfl)).bindSame fun l hl => ?_
  refine (argOf_tracks hσ hi (by decide)).bindSame fun sentinel hsentinel => ?_
  have hjump := hi.lines.jump (.inr rfl) l hl.1
  have hother : (∀ k t, sentinel ≠ .int k t) → ¬ σ.strict := by
    intro hne hstrict
    cases hi.shape hstrict with
    | cjump x l k t => exact hne k t (Option.some.inj hsentinel.1).symm
    | binary hbinary => cases hbinary
  cases sentinel with
  | int sentinel type =>
    refine (constOf_tracks cond).bindSame fun c _ => ?_
    cases c with
    | some c =>
      exact hflush.next (.onlyIf fun _ => jump_tracks (by decide) hl.2 (hjump _ (by decide)))
    | none =>
      refine ((operand_uses hσ hmoves hcond.2).within _).bind fun x x' hx => ?_
      rw [← hx.alike.size]
      refine (Tracks.plain (.cons hx.toKin (.cons (twins_imm _).toKin .nil)) (Asm.plain_cmp _ _)
        (hi.lines.straight _ rfl)).next (hflush.next ?_)
      have hop : (if sentinel == 1 then Mnemonic.jne else .je) ∈ [Mnemonic.jmp, .je, .jne] := by
        split <;> decide
      exact jump_tracks hop hl.2 (hjump _ hop)
  | temp _ | var _ | outer _ _ | str _ | symbol _ | label _ =>
    exact .fail (hσ.excuse (hother (by simp)) rfl)

theorem emitLabel_uses (hi : σ.Takes ⟨.label, r, args⟩) :
    Steady σ (σ.Working n) (emitLabel ⟨.label, r, args⟩) (emitLabel ⟨.label, r, args⟩) := by
  refine (argOf_tracks hσ hi (by decide)).bindSame fun x _ => ?_
  have hloose : ¬ σ.strict := by
    intro hstrict
    cases hi.shape hstrict with
    | binary hbinary => cases hbinary
  cases x with
  | label name => exact label_tracks (hi.lines.label rfl name)
  | temp _ | var _ | outer _ _ | int _ _ | str _ | symbol _ => exact .fail (hσ.excuse hloose rfl)

/-! ## Whole instructions -/

/-- No operation needs more than two registers of its own. -/
theorem emitOp_uses {i : Instr} (hi : σ.Takes i) (bi : Nat) (last : Bool) :
    σ.Spends 0 2 (emitOp · bi last i) := by
  have hplain : ∀ {x y : Emitter Unit}, Uses σ 0 x y (fun _ => 0) (fun _ _ => True) →
      Uses σ 0 x y (fun _ => 2) fun _ _ => True := fun h => h.widen fun _ => by decide
  have hP := hi.lines.straight
  obtain ⟨op, r, args⟩ := i
  cases op with
  | move => exact hplain (emitMove_uses hσ hP hi)
  | add | sub | and => exact emitBinary_uses hσ hP rfl hi
  | mul =>
    refine (resultOf_tracks hσ hi (.inl rfl)).bindSame fun t _ => ?_
    exact .ite (emitBinary_uses hσ hP rfl hi) ((emitMulDiv_uses hσ hP rfl hi).widen fun _ => by decide)
  | div => exact (emitMulDiv_uses hσ hP rfl hi).widen fun _ => by decide
  | eq | ne | lt | le | gt | ge => exact emitCompare_uses hσ hP rfl hi
  | load => exact hplain (emitLoad_uses hσ hP hi)
  | store => exact hplain (emitStore_uses hσ hP hi)
  | addrOf => exact hplain (emitAddrOf_uses hσ hP hi)
  | call => exact hplain (emitCall_uses hσ hP hi)
  | syscall => exact hplain (emitSyscall_uses hσ hP hi)
  | ret => exact hplain (emitRet_uses hσ hi bi last)
  | jump => exact hplain (emitJump_uses hσ hi bi)
  | cjump => exact hplain (emitCJump_uses hσ hi bi)
  | label => exact hplain (emitLabel_uses hσ hi)
  | unknown code =>
    refine .fail (hσ.excuse (fun hstrict => ?_) rfl)
    cases hi.shape hstrict with
    | binary hbinary => cases hbinary

omit hσ in
/-- Giving back what an instruction took leaves the registers of the temporaries. -/
theorem releaseScratches_tracks (taken scratches : List Reg) :
    Tracks σ (σ.Kept taken scratches) (releaseScratches taken) (releaseScratches taken)
      (fun _ => Owned σ.env σ.owns []) fun _ _ => True := by
  induction taken with
  | nil => exact Tracks.done.mono (fun _ _ hs => hs.1) fun _ _ h => h
  | cons r taken ih => exact ((release_tracks r).within _).next ih

theorem emitInstr_tracks {i : Instr} (hi : σ.Takes i) (bi : Nat) (last : Bool) :
    Steady σ (Owned σ.env σ.owns []) (emitInstr σ.env bi last i) (emitInstr σ.final bi last i) := by
  have hstart : ∀ s, Owned σ.env σ.owns [] s → σ.Working 0 { s with scratches := [] } :=
    fun s hs => ⟨hs.congr rfl rfl, Nat.le_refl 0⟩
  refine (Tracks.modify hstart).next ?_
  refine (emitOp_uses hσ hi bi last).next (Tracks.get.bindSame fun t _ => ?_)
  refine (releaseScratches_tracks t.scratches t.scratches).weaken ?_
  rintro s ⟨hs, rfl⟩
  exact ⟨hs.1, rfl⟩

theorem releaseTemps_keeps (bi : Nat) (rest : List Instr) {ts : List Temp} (hts : ∀ t ∈ ts, σ.Has t) :
    Keeps σ (releaseTemps σ.env bi rest ts) (releaseTemps σ.final bi rest ts) := by
  induction ts with
  | nil => exact fun _ _ => .done
  | cons t ts ih =>
    refine Keeps.next (fun taken scratches => ?_) (ih fun u hu => hts u (List.mem_cons_of_mem _ hu))
    refine (boundAt_tracks hσ (hts t List.mem_cons_self).lt fun s hs => ⟨_, hs.1⟩).bindSame fun o _ => ?_
    cases o with
    | none => exact Tracks.done.weaken fun _ hs => hs.1
    | some r => exact .ite (Tracks.done.weaken fun _ hs => hs.1) (unbind_tracks t.id r)

omit hσ in
theorem Setting.Takes.mentioned {i : Instr} (hi : σ.Takes i) {t : Temp} (ht : t ∈ mentioned i) :
    σ.Has t := by
  rcases List.mem_append.mp ht with ht | ht
  · obtain ⟨x, hx, htemp⟩ := List.mem_filterMap.mp ht
    cases x with
    | temp t' =>
      obtain rfl : t' = t := Option.some.inj htemp
      exact hi.args _ hx
    | var _ | outer _ _ | int _ _ | str _ | symbol _ | label _ => cases htemp
  · exact hi.result t (Option.mem_toList.mp ht)

/-- An instruction leaves every register in use with one owner. -/
theorem emitNext_tracks {i : Instr} (hi : σ.Takes i) (bi : Nat) (rest : List Instr) :
    Steady σ (Owned σ.env σ.owns []) (emitNext σ.env bi i rest) (emitNext σ.final bi i rest) :=
  (emitInstr_tracks hσ hi bi _).next (releaseTemps_keeps hσ bi rest fun _ ht => hi.mentioned ht).between

end

end TreeAsm.Emit
