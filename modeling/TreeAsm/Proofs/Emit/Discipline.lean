import TreeAsm.Proofs.Asm.Execution
import TreeAsm.Proofs.Asm.Stack
import TreeAsm.Proofs.Emit.Body
import TreeAsm.Proofs.Emit.Slots
import TreeAsm.Proofs.Lowering.Steps

/-!
# The stack of emitted functions

The lines of a function are those that set up its frame, the tidy lines of its body, and those that
remove the frame (`Composed`). So on every path through them the stack is aligned at calls, and at a
return the stack pointer, the registers to keep and the return address are as they were at the
start.

Two things have to be ruled out. A conditional jump in the middle of a block may go to the name of
the function itself, which is a label too, and then the frame is set up twice. And the slots of a
function, with what its calls push, may not fit the address space, and then they reach the saved
registers from above.
-/

namespace TreeAsm.Emit

open Asm (Line Reg Text Tidy frameRegs)
open Ir
open Asm.Text (bind_ok)

/-- The bytes of the stack that a function may use: its slots, the arguments of a call, the return
address, the base pointer, five more registers and a word of padding. -/
def stackBytes (u : Universe) (f : Func) : Nat := frameBytes u f + callsBytes f + 64

/-! ## Two runs -/

/-- The run that finds the registers to save beside the run that knows them. -/
def Setting.twice (env : Env) (saved : List Reg) (K : Asm.Fixed) (depth : Nat) : Setting :=
  ⟨env, saved, env.shift saved K, (env.saving saved).frame.Slot, depth, fun _ => True, Spares, False,
    fun _ => True⟩

section

variable {env : Env} {saved : List Reg} {K : Asm.Fixed} {depth : Nat}

theorem twins_slot {x : Int64} (bits : Int64) (hx : x ∈ env.frame.locals ++ env.frame.temps) :
    (Setting.twice env saved K depth).Twins (.mem (slot (x + env.frame.bias) bits))
      (.mem (slot (x + (env.saving saved).frame.bias) bits)) := by
  have hmoved : (slot (x + env.frame.bias) bits).lower (env.shift saved K).down
      = slot (x + (env.saving saved).frame.bias) bits := by
    have hdisp : x + env.frame.bias - (env.frame.bias - (env.saving saved).frame.bias)
        = x + (env.saving saved).frame.bias := by grind
    show slot (x + env.frame.bias - (env.frame.bias - (env.saving saved).frame.bias)) bits = _
    rw [hdisp]
  refine ⟨⟨hmoved ▸ .moved _ ⟨rfl, rfl, rfl⟩ ⟨x, hx, rfl⟩, fun r hr => absurd hr (by simp), trivial⟩,
    fun m hm _ => ?_⟩
  obtain rfl := Asm.Operand.mem.inj hm
  exact ⟨x, hx, rfl⟩

/-- Both runs know the same temporaries and variables, if all symbols are known. -/
theorem Setting.twice_ready (htemps : env.frame.temps.length = env.func.temps.length)
    (hstrings : ∀ c ∈ env.module.strings, K.symbols c.label)
    (hfuncs : ∀ f ∈ env.module.funcs, K.symbols f.name)
    (hglobals : ∀ g ∈ env.module.globals, K.symbols g.name) (hends : K.symbols endLabel) :
    (Setting.twice env saved K depth).Ready := by
  refine ⟨fun t ht => ?_, fun v => ?_, hstrings, hfuncs, hglobals, hends, fun _ _ hc => hc, fun h => h.elim⟩
  · have hlt : t.id < env.frame.temps.length := htemps ▸ ht
    have hslot : (env.frame.temps[t.id]?).getD 0 = env.frame.temps.get ⟨t.id, hlt⟩ := by
      rw [List.getElem?_eq_getElem hlt]
      rfl
    have htwins : (Setting.twice env saved K depth).Twins _ _ := twins_slot (env.types.bits t.type)
      (List.mem_append_right env.frame.locals (List.get_mem env.frame.temps ⟨t.id, hlt⟩))
    rw [← hslot] at htwins
    exact htwins
  · show ((env.frame.locals[v.index]?).map (· + env.frame.bias)) = none ∧
      ((env.frame.locals[v.index]?).map (· + (env.saving saved).frame.bias)) = none ∨ _
    cases hx : env.frame.locals[v.index]? with
    | none => exact .inl ⟨rfl, rfl⟩
    | some x =>
      have hslot : ∀ saved, (env.saving saved).frame.localSlot? v
          = some (x + (env.saving saved).frame.bias) := by
        intro saved
        show (env.frame.locals[v.index]?).map _ = _
        rw [hx]
        rfl
      exact .inr ⟨_, _, hslot env.frame.saved, hslot saved, fun bits =>
        twins_slot bits (List.mem_append_left _ (List.mem_of_getElem? hx))⟩

theorem Setting.twice_takes {code : List Instr} (hD : CallsWithin depth code)
    (hcode : ∀ i ∈ code, i.Refers K.symbols) :
    ∀ i ∈ code, (Setting.twice env saved K depth).Takes i := fun i hi =>
  Setting.takes_of_refers id (fun _ => trivial) (allows_any i) (hcode i hi) (hD i hi)

end

/-! ## Lines around a body -/

/-- The last lines of a function: it returns, or it ends the program. -/
def lastLines (isEntry : Bool) : List Line :=
  if isEntry then
    [.ins .mov [Reg.rdi.full, Reg.rax.full],
      .ins .mov [Reg.rax.full, Asm.immediate Asm.SysV.exitNumber], .ins .syscall []]
  else [.ins .ret []]

variable {lines dry : List Line} {f : Func} {room : Nat} {r : Reg} {u : Universe} {isEntry : Bool}
  {op : Asm.Mnemonic}

theorem eachReg_lines {rs : List Reg} (h : (eachReg op rs).result = .ok ()) :
    (eachReg op rs).lines = rs.map fun r => .ins op [r.full] := by
  induction rs with
  | nil => rfl
  | cons r rs ih =>
    obtain ⟨_, hr, hrest, hlines⟩ := bind_ok h
    rw [eachReg, hlines, Text.ins_lines hr, ih hrest]
    rfl

theorem roomLines_eq (h : (Text.onlyIf (Int64.ofNat room != 0) (Text.ins op [Reg.rsp.full,
      Asm.immediate (Int64.ofNat room)])).result = .ok ()) :
    (Text.onlyIf (Int64.ofNat room != 0) (Text.ins op [Reg.rsp.full,
      Asm.immediate (Int64.ofNat room)])).lines = Asm.roomLines op room := by
  unfold Text.onlyIf Asm.roomLines at *
  by_cases hzero : Int64.ofNat room = 0
  · rw [if_neg (by simp [hzero]), if_neg (not_not.mpr hzero)]
    rfl
  · have hne : (Int64.ofNat room != 0) := by simpa using hzero
    rw [if_pos hne] at h ⊢
    rw [if_pos hzero, Text.ins_lines h]

section

variable {env : Env} {room : Nat}

theorem prologue_lines (hroom : env.frame.reserve = .ok (Int64.ofNat room))
    (h : (prologue env).result = .ok ()) :
    (prologue env).lines = Asm.entryLines env.func.name env.frame.saved room := by
  unfold prologue at h ⊢
  obtain ⟨_, -, h, hname⟩ := bind_ok h
  obtain ⟨_, hrbp, h, hpush⟩ := bind_ok h
  obtain ⟨_, hrsp, h, hmov⟩ := bind_ok h
  obtain ⟨_, heach, h, hsaved⟩ := bind_ok h
  obtain ⟨n, hn, h, hreserve⟩ := bind_ok h
  obtain rfl : Int64.ofNat room = n := Except.ok.inj (hroom.symm.trans hn)
  rw [hname, hpush, hmov, hsaved, hreserve, roomLines_eq h, Text.ins_lines hrbp,
    Text.ins_lines hrsp, eachReg_lines heach]
  rfl

theorem epilogue_lines (hroom : env.frame.reserve = .ok (Int64.ofNat room)) {isEntry : Bool}
    (h : (epilogue env isEntry).result = .ok ()) :
    (epilogue env isEntry).lines = Asm.leaveLines endLabel env.frame.saved room ++ lastLines isEntry := by
  have hlast : ∀ {x : Text Unit}, x = (if isEntry then Asm.SysV.exit else Text.ins .ret []) →
      x.result = .ok () → x.lines = lastLines isEntry := by
    rintro _ rfl hx
    cases isEntry <;> rfl
  unfold epilogue at h ⊢
  obtain ⟨_, -, h, hname⟩ := bind_ok h
  obtain ⟨n, hn, h, hreserve⟩ := bind_ok h
  obtain rfl : Int64.ofNat room = n := Except.ok.inj (hroom.symm.trans hn)
  obtain ⟨_, hadd, h, hline⟩ := bind_ok h
  obtain ⟨_, heach, h, hpops⟩ := bind_ok h
  obtain ⟨_, hrbp, h, hpop⟩ := bind_ok h
  rw [hname, hreserve, hline, hpops, hpop, roomLines_eq hadd, eachReg_lines heach,
    Text.ins_lines hrbp, hlast rfl h]
  simp [Asm.leaveLines, Text.line, Text.lift]

end

/-! ## Whole functions -/

/-- The lines of a function: a frame with room for its slots is set up and removed around a body
whose lines are tidy. -/
structure Composed (u : Universe) (f : Func) (isEntry : Bool) (lines : List Line) (saved : List Reg)
    (room : Nat) (body : List Line) (A : Int64 → Prop) : Prop where
  parts : lines = Asm.entryLines f.name saved room ++
    (body ++ (Asm.leaveLines endLabel saved room ++ lastLines isEntry))
  spare : ∀ r ∈ saved, r ∉ frameRegs
  few : saved.length ≤ 5
  bounded : room ≤ frameBytes u f + 8
  aligned : (room + 8 * saved.length) % 16 = 0
  slots : Asm.Below A (saved.length + 1) room
  tidy : Tidy A (callsBytes f) 0 body 0
  regs : ∀ l ∈ body, ∀ r ∈ l.regs, r ∈ Asm.SysV.calleeSaved → r ∈ Reg.rbp :: saved

/-- The registers to save are registers for values. -/
theorem savedRegs_eq (lines : List Line) :
    savedRegs lines = Asm.SysV.scratch.filter (Asm.touched lines) := by
  simp [savedRegs, Asm.SysV.calleeSaved, Asm.SysV.scratch, List.filter_cons]

theorem touched_iff : Asm.touched lines r ↔ r ∈ lines.flatMap Line.regs := by
  simp [Asm.touched]

theorem slot_below {align : Int64} {saved : List Reg} (hroom : frameBytes u f ≤ room) :
    Asm.Below { Frame.ofFunc u f align with saved := saved : Frame }.Slot (saved.length + 1)
      room := by
  rintro disp ⟨x, hx, rfl⟩
  obtain ⟨c, rfl, hlow, hhigh⟩ := ofFunc_slot u f align hx
  refine ⟨c, hlow, by omega, ?_⟩
  have hbias : (Frame.bias { Frame.ofFunc u f align with saved := saved }).toBitVec
      = -BitVec.ofNat 64 (8 * saved.length) := by
    show (-8 * Int64.ofNat saved.length).toBitVec = _
    rw [Int64.neg_mul, Int64.toBitVec_neg, show (8 : Int64) = Int64.ofNat 8 from rfl, ← Int64.ofNat_mul]
    rfl
  rw [Int64.toBitVec_add, Int64.toBitVec_neg, hbias]
  show -BitVec.ofNat 64 c + -BitVec.ofNat 64 (8 * saved.length) = _
  bv_omega

theorem linesOf_ok {x : Text Unit} : linesOf x = .ok lines ↔ x.result = .ok () ∧ x.lines = lines := by
  unfold linesOf
  cases hx : x.result with
  | ok a => exact ⟨fun h => ⟨rfl, Except.ok.inj h⟩, fun h => congrArg Except.ok h.2⟩
  | error e => exact ⟨nofun, nofun⟩

theorem fromStart_ok {env : Env} {x : Emitter Unit} (h : (Emitter.fromStart env x).result = .ok ()) :
    ∃ p, (x (State.start env.func)).result = .ok p ∧
      (Emitter.fromStart env x).lines = (x (State.start env.func)).lines := by
  obtain ⟨p, hp, -, hlines⟩ := bind_ok h
  exact ⟨p, hp, hlines.trans (List.append_nil _)⟩

/-- The whole is the start of the function, its body and its end. -/
theorem wholeFunc_lines {env : Env} (hroom : env.frame.reserve = .ok (Int64.ofNat room))
    (h : (wholeFunc env isEntry).result = .ok ()) :
    linesOf (prologue env) = .ok (Asm.entryLines env.func.name env.frame.saved room) ∧
      linesOf (epilogue env isEntry)
        = .ok (Asm.leaveLines endLabel env.frame.saved room ++ lastLines isEntry) ∧
      ∃ p, (emitBody env (State.start env.func)).result = .ok p ∧
        (wholeFunc env isEntry).lines = Asm.entryLines env.func.name env.frame.saved room ++
          ((emitBody env (State.start env.func)).lines ++
            (Asm.leaveLines endLabel env.frame.saved room ++ lastLines isEntry)) := by
  unfold wholeFunc at h ⊢
  obtain ⟨_, hprologue, h, hfirst⟩ := bind_ok h
  obtain ⟨_, hbody, h, hsecond⟩ := bind_ok h
  obtain ⟨p, hp, hlines⟩ := fromStart_ok hbody
  have hentry : (Text.within "prologue" (prologue env)).lines = _ :=
    prologue_lines hroom (Text.within_ok hprologue)
  have hleave : (Text.within "epilogue" (epilogue env isEntry)).lines = _ :=
    epilogue_lines hroom (Text.within_ok h)
  exact ⟨linesOf_ok.mpr ⟨Text.within_ok hprologue, hentry⟩,
    linesOf_ok.mpr ⟨Text.within_ok h, hleave⟩, p, hp,
    by rw [hfirst, hsecond, hlines, hentry, hleave]⟩

/-- The lines of a function from the environment of its first run: both runs through the body
succeed, the first one shows which registers to save, and the frame of the second one has room for
the slots. -/
structure Rerun (env : Env) (isEntry : Bool) (lines : List Line) (saved : List Reg) (room : Nat) :
    Prop where
  dry : ∃ p, (emitBody env (State.start env.func)).result = .ok p
  saves : saved = savedRegs (emitBody env (State.start env.func)).lines
  final : ∃ q, (emitBody (env.saving saved) (State.start env.func)).result = .ok q
  opens : linesOf (prologue (env.saving saved)) = .ok (Asm.entryLines env.func.name saved room)
  closes : linesOf (epilogue (env.saving saved) isEntry)
    = .ok (Asm.leaveLines endLabel saved room ++ lastLines isEntry)
  fits : frameBytes env.types env.func ≤ room
  bounded : room ≤ frameBytes env.types env.func + 8
  aligned : (room + 8 * saved.length) % 16 = 0
  parts : lines = Asm.entryLines env.func.name saved room ++
    ((emitBody (env.saving saved) (State.start env.func)).lines ++
      (Asm.leaveLines endLabel saved room ++ lastLines isEntry))

theorem emitFunc_rerun {m : Module} (h : emitFunc u m f isEntry = .ok lines) :
    ∃ live visits saved room, Liveness.analyze f = .ok (live, visits) ∧
      Rerun ⟨u, m, f, Frame.ofFunc u f Asm.SysV.stackAlign, live⟩ isEntry lines saved room := by
  obtain ⟨⟨live, visits⟩, hlive, h⟩ := Outcome.bind_ok h
  obtain ⟨dry, hdry, h⟩ := Outcome.bind_ok h
  generalize hsaved : savedRegs dry = saved at h
  let env : Env := ⟨u, m, f, Frame.ofFunc u f Asm.SysV.stackAlign, live⟩
  obtain ⟨hdry, hdryLines⟩ := linesOf_ok.mp hdry
  obtain ⟨p, hp, hdryBody⟩ := fromStart_ok hdry
  obtain ⟨hwhole, hlines⟩ := linesOf_ok.mp h
  obtain ⟨room, hroom, hlow, hhigh, haligned⟩ : ∃ room,
      (env.saving saved).frame.reserve = .ok (Int64.ofNat room) ∧ frameBytes u f ≤ room ∧
        room ≤ frameBytes u f + 8 ∧ (room + 8 * saved.length) % 16 = 0 :=
    reserve_spec (ofFunc_slots u f Asm.SysV.stackAlign).2 (slotsBytes_mod u _) rfl
  obtain ⟨hopens, hcloses, q, hq, hparts⟩ := wholeFunc_lines hroom hwhole
  refine ⟨live, visits, saved, room, Outcome.within_eq_ok hlive, ⟨p, hp⟩, ?_, ⟨q, hq⟩, hopens,
    hcloses, hlow, hhigh, haligned, hlines.symm.trans hparts⟩
  rw [← hsaved, ← hdryLines, hdryBody]

/-- What the second run mentions the first one did, so it is saved. -/
theorem mem_savedRegs (hmem : r ∈ dry.flatMap Line.regs) (hcallee : r ∈ Asm.SysV.calleeSaved)
    (hrbp : r ≠ .rbp) : r ∈ savedRegs dry := by
  have hcases : ∀ r ∈ Asm.SysV.calleeSaved, r = .rbp ∨ r ∈ Asm.SysV.scratch := by decide
  rw [savedRegs_eq]
  exact List.mem_filter.mpr ⟨(hcases r hcallee).resolve_left hrbp, touched_iff.mpr hmem⟩

theorem savedRegs_scratch (hr : r ∈ savedRegs dry) : r ∈ Asm.SysV.scratch := by
  rw [savedRegs_eq] at hr
  exact (List.mem_filter.mp hr).1

/-- Every function that is emitted is composed like this. -/
theorem emitFunc_composed {m : Module} (h : emitFunc u m f isEntry = .ok lines) :
    ∃ saved room body A, Composed u f isEntry lines saved room body A := by
  obtain ⟨live, visits, saved, room, -, hrerun⟩ := emitFunc_rerun h
  obtain ⟨p, hp⟩ := hrerun.dry
  obtain ⟨q, hq⟩ := hrerun.final
  let env : Env := ⟨u, m, f, Frame.ofFunc u f Asm.SysV.stackAlign, live⟩
  let σ := Setting.twice env saved ⟨ArgPlace (Asm.SysV.stackArgs f.params.length), fun _ => True⟩
    (callsBytes f)
  have hready : σ.Ready := Setting.twice_ready (ofFunc_temps_length u f _) (fun _ _ => trivial)
    (fun _ _ => trivial) (fun _ _ => trivial) trivial
  have htracks := emitBody_tracks hready (fun _ _ _ => trivial) (fun _ h => h)
    (fun _ _ => ⟨fun h => h.elim, fun h => h.elim⟩) (fun _ _ => trivial)
    fun b hb => Setting.twice_takes (callsWithin_callsBytes f b hb) fun i _ => i.refers_any
  obtain ⟨-, halike, htidy⟩ := (htracks _ (owned_start env _)).pairs p q hp hq
  refine ⟨saved, room, _, _, hrerun.parts, fun r hr => ?_, ?_, hrerun.bounded, hrerun.aligned,
    slot_below hrerun.fits, htidy, ?_⟩
  · rw [hrerun.saves] at hr
    exact scratch_spare r (savedRegs_scratch hr)
  · rw [hrerun.saves, savedRegs_eq]
    exact List.length_filter_le ..
  · intro l hl r hr hcallee
    by_cases hrbp : r = .rbp
    · exact List.mem_cons.mpr (.inl hrbp)
    · refine List.mem_cons_of_mem _ ?_
      rw [hrerun.saves]
      refine mem_savedRegs ?_ hcallee hrbp
      show r ∈ (emitBody σ.env (State.start env.func)).lines.flatMap Line.regs
      rw [Asm.flatMap_regs_of_alike halike]
      exact List.mem_flatMap.mpr ⟨l, hl, hr⟩

section

variable {u : Universe} {f : Func} {isEntry : Bool} {lines : List Line} {saved : List Reg}
  {room : Nat} {body : List Line} {A : Int64 → Prop}

theorem Composed.savedWords (h : Composed u f isEntry lines saved room body A) :
    Asm.savedWords lines = saved.length + 1 := by
  have hlast : (lastLines isEntry).countP Asm.isPop = 0 := by cases isEntry <;> rfl
  have hentry : (Asm.entryLines f.name saved room).countP Asm.isPop = 0 :=
    Asm.savedWords_entryLines ..
  have hbody : body.countP Asm.isPop = 0 := h.tidy.savedWords
  have hleave : (Asm.leaveLines endLabel saved room).countP Asm.isPop = saved.length + 1 :=
    Asm.savedWords_leaveLines ..
  rw [h.parts, Asm.savedWords, List.countP_append, List.countP_append, List.countP_append, hentry,
    hbody, hleave, hlast]
  omega

/-- A function that is composed like this has a proof outline from its first line to its last. -/
theorem Composed.outline (h : Composed u f isEntry lines saved room body A) {m0 : Asm.Machine}
    (hjump : ∀ op ∈ [Asm.Mnemonic.jmp, .je, .jne], .ins op [.label f.name] ∉ lines)
    (hstack : stackBytes u f ≤ 2 ^ 64) (hsp : (m0.regs .rsp).toNat % 16 = 8) :
    Asm.Outline (Asm.SavedBytes (saved.length + 1) (m0.regs .rsp))
      (Asm.AtLabel m0 (.rbp :: saved) room f.name) (Asm.Kept m0) (fun m => m = m0) lines
      fun _ => True := by
  have hlength : (Reg.rbp :: saved).length = saved.length + 1 := rfl
  have hslots : Asm.Below A (Reg.rbp :: saved).length room := h.slots
  have hfew := h.few
  have hroom := h.bounded
  have haligned := h.aligned
  unfold stackBytes at hstack
  have hsmall : 8 * (Reg.rbp :: saved).length + 8 ≤ 2 ^ 64 := by omega
  have hfits : ∀ l ∈ body, l.Fits (.rbp :: saved) f.name := by
    intro l hl
    refine ⟨h.regs l hl, ?_⟩
    rintro op hop rfl
    refine hjump op hop ?_
    rw [h.parts]
    exact List.mem_append_right _ (List.mem_append_left _ hl)
  have hbody := h.tidy.outline hslots (by omega) (by omega) hsp hfits
  have hlast : Asm.Outline (Asm.SavedBytes (saved.length + 1) (m0.regs .rsp))
      (Asm.AtLabel m0 (.rbp :: saved) room f.name) (Asm.Kept m0)
      (Asm.Popping m0 (.rbp :: saved) []) (lastLines isEntry) fun _ => True := by
    cases isEntry with
    | false =>
      have hleave : Asm.effect .ret [] = .leave := rfl
      refine .ins (R := fun _ => True)
        (fun m hm => ⟨fun h => absurd h (by decide), fun _ => hm.restored hsmall⟩)
        (by rw [hleave]; nofun) ?_ (fun _ _ _ _ => trivial) (.nil fun _ hm => hm)
      rw [hleave]
      rintro l (htarget | htarget) <;> cases htarget
    | true =>
      have hcopy : Asm.effect .mov [Reg.rdi.full, Reg.rax.full] = .copy .rdi .rax := rfl
      refine .straight (R := fun _ => True) hcopy rfl
        (fun _ _ => Asm.kept_of_ne (by decide) (by decide)) (fun _ _ _ _ => trivial) ?_
      refine .straight (R := fun _ => True) rfl rfl
        (fun _ _ => Asm.kept_of_ne (by decide) (by decide)) (fun _ _ _ _ => trivial) ?_
      exact .straight (R := fun _ => True) rfl rfl
        (fun _ _ => Asm.kept_of_ne (by decide) (by decide)) (fun _ _ _ _ => trivial)
        (.nil fun _ hm => hm)
  rw [h.parts]
  refine (Asm.entry_outline f.name h.spare room).append (hbody.append ?_)
  exact (Asm.leave_outline endLabel h.spare hsmall).append hlast

end

/-- On every path through the lines of a function, the stack is aligned to 16 bytes at every call,
and at a return the stack pointer, the registers to keep and the return address are as they were at
the start. This is so if no line jumps to the name of the function, and if what the function may put
on the stack fits the address space. Calls, the system and writes through pointers leave the saved
registers and the return address alone. -/
theorem emitFunc_keeps_stack {u : Universe} {m : Module} {f : Func} {isEntry : Bool}
    {lines : List Line} (h : emitFunc u m f isEntry = .ok lines)
    (hjump : ∀ op ∈ [Asm.Mnemonic.jmp, .je, .jne], .ins op [.label f.name] ∉ lines)
    (hstack : stackBytes u f ≤ 2 ^ 64) {m₀ : Asm.Machine} (hsp : (m₀.regs .rsp).toNat % 16 = 8)
    {pc : Nat} {m₁ : Asm.Machine}
    (hpath : Asm.Reaches lines (Asm.SavedBytes (Asm.savedWords lines) (m₀.regs .rsp)) (0, m₀)
      (pc, m₁)) (args : List Asm.Operand) :
    (lines[pc]? = some (.ins .call args) → (m₁.regs .rsp).toNat % 16 = 0) ∧
      (lines[pc]? = some (.ins .ret args) → Asm.Restored m₀ m₁) := by
  obtain ⟨saved, room, body, A, hcomposed⟩ := emitFunc_composed h
  rw [hcomposed.savedWords] at hpath
  have houtline := hcomposed.outline hjump hstack hsp
  exact ⟨fun hcall => (houtline.ok_of_reaches rfl hpath hcall).1 rfl,
    fun hret => (houtline.ok_of_reaches rfl hpath hret).2 rfl⟩

/-! ## Three functions -/

/-- A machine at the start of a function: the stack pointer is 8 modulo 16. -/
def entryMachine : Asm.Machine := ⟨fun r => if r = .rsp then 0x10008 else 1, fun _ => 0, none⟩

/-- A module with an external function `g` and another function. -/
def withCallee (f : Func) : Module :=
  { Module.empty with funcTable := .ofList [⟨"g", .int, false, true, [], [], []⟩, f] }

/-- A path through the lines of a function leads to a line and a machine with a property. -/
def LeadsTo (f : Func) (l : Line) (ok : List Line → Asm.Machine → Prop) : Prop :=
  ∃ lines pc m1, emitFunc (Universe.make 64 false) (withCallee f) f false = .ok lines ∧
    Asm.Reaches lines (Asm.SavedBytes (Asm.savedWords lines) (entryMachine.regs .rsp))
      (0, entryMachine) (pc, m1) ∧ lines[pc]? = some l ∧ ok lines m1

/-- Whether the machine, after a number of steps through the lines of a function, is at a line and
has a property. -/
def stopsAt (f : Func) (n : Nat) (l : Line) (ok : List Line → Asm.Machine → Prop)
    [∀ lines m, Decidable (ok lines m)] : Bool :=
  match emitFunc (Universe.make 64 false) (withCallee f) f false with
  | .ok lines => (Asm.follow lines n (0, entryMachine)).any fun c =>
      lines[c.1]? = some l ∧ ok lines c.2
  | .error _ => false

theorem leadsTo_of_stopsAt {n : Nat} {l : Line} {ok : List Line → Asm.Machine → Prop}
    [∀ lines m, Decidable (ok lines m)] (h : stopsAt f n l ok) : LeadsTo f l ok := by
  unfold stopsAt at h
  split at h
  next lines hlines =>
    cases hfollow : Asm.follow lines n (0, entryMachine) with
    | none =>
      rw [hfollow] at h
      cases h
    | some c =>
      rw [hfollow] at h
      obtain ⟨hl, hok⟩ := of_decide_eq_true h
      exact ⟨lines, c.1, c.2, hlines, Asm.follow_reaches hfollow _, hl, hok⟩
  next => cases h

/-- A function that passes its parameter seven times, so that one argument goes on the stack, and
keeps the parameter in a register that it has to save. -/
def sevenTimes : Func :=
  let c : Local := ⟨0, "c", .int, true⟩
  let t0 : Temp := ⟨0, .int⟩
  let t1 : Temp := ⟨1, .int⟩
  ⟨"f", .int, true, false, [c], [t0, t1], [⟨".L0", [⟨.move, none, [.temp t0, .var c]⟩,
    ⟨.call, some t1, .symbol "g" :: List.replicate 7 (.temp t0)⟩,
    ⟨.ret, none, [.temp t1]⟩]⟩]⟩

theorem emitFunc_keeps_stack_sevenTimes :
    LeadsTo sevenTimes (.ins .call [.label "g"]) (fun _ m => (m.regs .rsp).toNat % 16 = 0) ∧
      LeadsTo sevenTimes (.ins .ret []) (fun _ m => Asm.Restored entryMachine m) := by
  have hsteps : ∀ (n : Nat) (op : Asm.Mnemonic) (args : List Asm.Operand),
      stopsAt sevenTimes n (.ins op args)
        (fun lines _ => ∀ op ∈ [Asm.Mnemonic.jmp, .je, .jne], .ins op [.label "f"] ∉ lines) = true →
      ∃ lines pc m₁, emitFunc (Universe.make 64 false) (withCallee sevenTimes) sevenTimes false
          = .ok lines ∧
        Asm.Reaches lines (Asm.SavedBytes (Asm.savedWords lines) (entryMachine.regs .rsp))
          (0, entryMachine) (pc, m₁) ∧ lines[pc]? = some (.ins op args) ∧
        (lines[pc]? = some (.ins .call args) → (m₁.regs .rsp).toNat % 16 = 0) ∧
        (lines[pc]? = some (.ins .ret args) → Asm.Restored entryMachine m₁) := by
    intro n op args h
    obtain ⟨lines, pc, m₁, hlines, hpath, hl, hjump⟩ := leadsTo_of_stopsAt h
    exact ⟨lines, pc, m₁, hlines, hpath, hl, emitFunc_keeps_stack hlines hjump (by decide +kernel)
      (by decide) hpath args⟩
  constructor
  · obtain ⟨lines, pc, m₁, hlines, hpath, hl, hcall, -⟩ :=
      hsteps 19 .call [.label "g"] (by decide +kernel)
    exact ⟨lines, pc, m₁, hlines, hpath, hl, hcall hl⟩
  · obtain ⟨lines, pc, m₁, hlines, hpath, hl, -, hret⟩ :=
      hsteps 29 .ret [] (by decide +kernel)
    exact ⟨lines, pc, m₁, hlines, hpath, hl, hret hl⟩

/-- A function with a conditional jump to its own name in the middle of a block, after a call. -/
def startsAgain : Func :=
  let c : Local := ⟨0, "c", .int, true⟩
  let t0 : Temp := ⟨0, .int⟩
  ⟨"f", .int, true, false, [c], [t0], [⟨".L0", [⟨.move, none, [.temp t0, .var c]⟩,
    ⟨.call, none, [.symbol "g"]⟩,
    ⟨.cjump, none, [.temp t0, .label "f", .int 1 .bool]⟩,
    ⟨.ret, none, [.int 0 .int]⟩]⟩]⟩

/-- A type of values with a number of bits. -/
def wideType (id : Nat) (bits : Int64) : Ty := .custom id ⟨"", bits, false, 8⟩ .untyped

/-- A function whose variables fill the address space up to a word, so that the slot of the last one
is where the base pointer is saved. -/
def fullStack : Func :=
  let wide : Nat → Int64 → Local := fun i bits => ⟨i, s!"a{i}", wideType i bits, false⟩
  let x : Local := ⟨16, "x", .int, false⟩
  ⟨"f", .int, true, false,
    (List.range 15).map (wide · 9223372036854775807) ++ [wide 15 9223372036854775743, x], [],
    [⟨".L0", [⟨.move, none, [.var x, .int 5 .int]⟩, ⟨.ret, none, [.int 0 .int]⟩]⟩]⟩

/-- A function that starts again makes a call with the stack out of line, and one whose variables
fill the address space returns with another base pointer. -/
theorem stack_lost :
    LeadsTo startsAgain (.ins .call [.label "g"]) (fun _ m => (m.regs .rsp).toNat % 16 ≠ 0) ∧
      LeadsTo fullStack (.ins .ret []) (fun _ m => m.regs .rbp ≠ entryMachine.regs .rbp) :=
  ⟨leadsTo_of_stopsAt (n := 21) (by decide +kernel), leadsTo_of_stopsAt (n := 8) (by decide +kernel)⟩

end TreeAsm.Emit
