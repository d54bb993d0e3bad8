import TreeAsm.Proofs.Emit.Layout

/-!
# The two runs of a function agree

The run that finds out which registers a function has to save and the run that knows them write the
same lines for its parameters and blocks, one for one: every slot of the frame is lower by the bytes
of the saved registers, and every other operand is the same (`emitFunc_runs_agree`). So a register
to keep that the final lines mention was mentioned in the first run too. It is pushed once where the
frame is set up, and the pushes are undone in reverse order where the frame is removed.
-/

namespace TreeAsm

namespace Asm

/-- An operand has a register in it: as itself, or as the base or the index of a place. -/
def Operand.Mentions (r : Reg) : Operand → Prop
  | .reg x => x.reg = r
  | .mem m => m.base = some r ∨ m.index = some r
  | _ => False

theorem Operand.mem_regs_iff {x : Operand} {r : Reg} : r ∈ x.regs ↔ x.Mentions r := by
  cases x with
  | reg x => exact List.mem_singleton.trans eq_comm
  | mem m => simp [regs, Mentions]
  | imm _ | label _ | ptr _ _ | absent => exact iff_of_false List.not_mem_nil id

/-- Some instruction has a register in one of its operands. -/
def Uses (lines : List Line) (r : Reg) : Prop :=
  ∃ op args, .ins op args ∈ lines ∧ ∃ x ∈ args, x.Mentions r

theorem mem_flatMap_regs_iff {lines : List Line} {r : Reg} :
    r ∈ lines.flatMap Line.regs ↔ Uses lines r := by
  rw [List.mem_flatMap]
  constructor
  · rintro ⟨l, hl, hr⟩
    cases l with
    | ins op args =>
      obtain ⟨x, hx, hr⟩ := List.mem_flatMap.mp hr
      exact ⟨op, args, hl, x, hx, Operand.mem_regs_iff.mp hr⟩
    | _ => cases hr
  · rintro ⟨op, args, hl, x, hx, hr⟩
    exact ⟨_, hl, List.mem_flatMap.mpr ⟨x, hx, Operand.mem_regs_iff.mpr hr⟩⟩

/-- The register that a line pushes or pops, by the mnemonic. -/
def Line.stacked (op : Mnemonic) : Line → Option Reg
  | .ins op' [.reg r] => if op' = op then some r.reg else none
  | _ => none

theorem filterMap_stacked_map (op : Mnemonic) (rs : List Reg) :
    (rs.map fun r => Line.ins op [r.full]).filterMap (Line.stacked op) = rs := by
  rw [List.filterMap_map]
  have hsome : (Line.stacked op ∘ fun r : Reg => Line.ins op [r.full]) = some := by
    funext r
    exact if_pos rfl
  rw [hsome, List.filterMap_some]

theorem filterMap_stacked_roomLines (op op' : Mnemonic) (room : Nat) :
    (roomLines op room).filterMap (Line.stacked op') = [] := by
  unfold roomLines
  split <;> rfl

/-- The lines that start a function push the base pointer and the registers to save. -/
theorem filterMap_stacked_entryLines (name : String) (saved : List Reg) (room : Nat) :
    (entryLines name saved room).filterMap (Line.stacked .push) = .rbp :: saved := by
  show Reg.rbp :: List.filterMap _ ((saved.map fun r => Line.ins .push [r.full]) ++ _) = _
  rw [List.filterMap_append, filterMap_stacked_map, filterMap_stacked_roomLines, List.append_nil]

/-- The lines that end a function pop them in reverse order. -/
theorem filterMap_stacked_leaveLines (name : String) (saved : List Reg) (room : Nat) :
    (leaveLines name saved room).filterMap (Line.stacked .pop) = (.rbp :: saved).reverse := by
  show List.filterMap _ (_ ++ _) = _
  rw [List.filterMap_append, filterMap_stacked_map, filterMap_stacked_roomLines, List.nil_append]

end Asm

namespace Emit

open Asm (Line Reg)
open Ir

/-! ## Runs -/

/-- What a run writes: lines for the parameters of a function, and then for its blocks. -/
structure Run where
  params : List Line
  blocks : List Line

/-- All that a run writes. -/
def Run.lines (r : Run) : List Line := r.params ++ r.blocks

theorem Run.flatMap_regs_eq {σ σ' : Asm.Shift} (dry final : Run)
    (hparams : List.Forall₂ (Line.Alike σ) dry.params final.params)
    (hblocks : List.Forall₂ (Line.Alike σ') dry.blocks final.blocks) :
    dry.lines.flatMap Line.regs = final.lines.flatMap Line.regs := by
  unfold lines
  rw [List.flatMap_append, List.flatMap_append, Asm.flatMap_regs_of_alike hparams,
    Asm.flatMap_regs_of_alike hblocks]

/-- An environment has a function emitted like this. -/
structure Writes (env : Env) (r : Run) : Prop where
  params : linesOf (Emitter.fromStart env (emitParams env 0 env.func.params)) = .ok r.params
  body : linesOf (Emitter.fromStart env (emitBody env)) = .ok r.lines

variable {env : Env} {p : Unit × State} {align : Int64}

theorem linesOf_fromStart {x : Emitter Unit} (h : (x (State.start env.func)).result = .ok p) :
    linesOf (Emitter.fromStart env x) = .ok (x (State.start env.func)).lines := by
  refine linesOf_ok.mpr ?_
  show (Asm.Text.andThen _ _).result = _ ∧ (Asm.Text.andThen _ _).lines = _
  unfold Asm.Text.andThen
  rw [h]
  exact ⟨rfl, List.append_nil _⟩

theorem Writes.lines_eq {r : Run} (h : Writes env r)
    (hok : (emitBody env (State.start env.func)).result = .ok p) :
    (emitBody env (State.start env.func)).lines = r.lines :=
  Except.ok.inj ((linesOf_fromStart hok).symm.trans h.body)

/-- A run through a body that succeeds goes through the parameters and from there through the
blocks. -/
theorem writes_of_ok (h : (emitBody env (State.start env.func)).result = .ok p) :
    ∃ s, (emitParams env 0 env.func.params (State.start env.func)).result = .ok ((), s) ∧
      (emitBlocks env 0 env.func.blocks s).result = .ok p ∧
      Writes env ⟨(emitParams env 0 env.func.params (State.start env.func)).lines,
        (emitBlocks env 0 env.func.blocks s).lines⟩ := by
  obtain ⟨s, hparams, hblocks, hsplit⟩ := emitBody_ok h
  exact ⟨s, hparams, hblocks, linesOf_fromStart hparams,
    (linesOf_fromStart h).trans (congrArg Except.ok hsplit)⟩

/-! ## Agreement -/

/-- The lines of a function from its two runs. The final run has the lines of the first one for its
parameters and blocks, where slots are lower by the bytes of the saved registers. Only the arguments
in the frame of the caller are as far from the base pointer as before. -/
structure Agreement (env : Env) (isEntry : Bool) (lines : List Line) (saved : List Reg)
    (dry final : Run) (first last : List Line) : Prop where
  finds : Writes env dry
  saves : saved = savedRegs dry.lines
  knows : Writes (env.saving saved) final
  opens : linesOf (prologue (env.saving saved)) = .ok first
  closes : linesOf (epilogue (env.saving saved) isEntry) = .ok last
  parts : lines = first ++ (final.lines ++ last)
  params : List.Forall₂ (Line.Alike ⟨env.frame.Slot,
    ⟨ArgPlace (Asm.SysV.stackArgs env.func.params.length), fun _ => True⟩,
    8 * Int64.ofNat saved.length⟩) dry.params final.params
  blocks : List.Forall₂ (Line.Alike ⟨env.frame.Slot, ⟨fun _ => False, fun _ => True⟩,
    8 * Int64.ofNat saved.length⟩) dry.blocks final.blocks
  apart : frameBytes env.types env.func + 8 * Asm.SysV.stackArgs env.func.params.length + 16 ≤ 2 ^ 64 →
    ∀ disp, ArgPlace (Asm.SysV.stackArgs env.func.params.length) disp → ¬ env.frame.Slot disp
  pushed : ∀ r ∈ Asm.SysV.calleeSaved, r ≠ .rbp → Asm.Uses final.lines r →
    (first.filterMap (Line.stacked .push)).count r = 1
  popped : last.filterMap (Line.stacked .pop) = (first.filterMap (Line.stacked .push)).reverse

/-- An argument in the frame of the caller is no slot, as long as both fit the address space. -/
theorem not_slot_of_argPlace {u : Universe} {f : Func} {disp : Int64} {count : Nat}
    (hfits : frameBytes u f + 8 * count + 16 ≤ 2 ^ 64) (h : ArgPlace count disp) :
    ¬ (Frame.ofFunc u f align).Slot disp := by
  obtain ⟨n, hn, rfl⟩ := h
  rintro ⟨x, hx, hdisp⟩
  obtain ⟨c, rfl, hlow, hhigh⟩ := ofFunc_slot u f align hx
  -- the argument is above the base pointer by less than what is left above the slot
  have hbits : (16 + 8 * Int64.ofNat n).toBitVec = (-Int64.ofNat c + 0).toBitVec :=
    congrArg Int64.toBitVec hdisp
  rw [Int64.toBitVec_add, Int64.toBitVec_mul, Int64.toBitVec_add, Int64.toBitVec_neg] at hbits
  change 16#64 + 8#64 * BitVec.ofNat 64 n = -BitVec.ofNat 64 c + 0#64 at hbits
  bv_omega

/-- Without saved registers slots are not moved, and each one moves them by a word. -/
theorem shift_ofFunc (hframe : env.frame = Frame.ofFunc env.types env.func align) (saved : List Reg)
    (K : Asm.Fixed) (depth : Nat) :
    (Setting.twice env saved K depth).shift = ⟨env.frame.Slot, K, 8 * Int64.ofNat saved.length⟩ := by
  have hbias : env.frame.bias = 0 := by
    rw [hframe]
    rfl
  have hdown : 0 - -8 * Int64.ofNat saved.length = 8 * Int64.ofNat saved.length := by grind
  show Asm.Shift.mk _ K (env.frame.bias - _) = _
  rw [hbias]
  exact congrArg (Asm.Shift.mk _ K) hdown

theorem savedRegs_nodup (dry : List Line) : (Reg.rbp :: savedRegs dry).Nodup := by
  rw [savedRegs_eq]
  have hscratch : (Reg.rbp :: Asm.SysV.scratch).Nodup := by decide
  exact hscratch.sublist (List.filter_sublist.cons_cons _)

theorem Rerun.agreement {isEntry : Bool} {lines : List Line} {saved : List Reg} {room : Nat}
    (h : Rerun env isEntry lines saved room)
    (hframe : env.frame = Frame.ofFunc env.types env.func align) :
    ∃ dry final, Agreement env isEntry lines saved dry final (Asm.entryLines env.func.name saved room)
      (Asm.leaveLines endLabel saved room ++ lastLines isEntry) := by
  have htemps : env.frame.temps.length = env.func.temps.length := by
    rw [hframe]
    exact ofFunc_temps_length _ _ _
  obtain ⟨p, hdry⟩ := h.dry
  obtain ⟨q, hfinal⟩ := h.final
  obtain ⟨s, hdryParams, hdryBlocks, hfinds⟩ := writes_of_ok hdry
  obtain ⟨s', hparams, hblocks, hknows⟩ := writes_of_ok hfinal
  -- the parameters leave both runs in one state, and the blocks start from there
  have hready : ∀ K : Int64 → Prop,
      (Setting.twice env saved ⟨K, fun _ => True⟩ (callsBytes env.func)).Ready := fun _ =>
    Setting.twice_ready htemps (fun _ _ => trivial) (fun _ _ => trivial) (fun _ _ => trivial) trivial
  have htracks := emitAllParams_tracks (I := Settled env)
    (hready (ArgPlace (Asm.SysV.stackArgs env.func.params.length))) (fun _ _ _ => trivial)
    (fun _ h => h) fun _ _ => ⟨fun h => h.elim, fun h => h.elim⟩
  obtain ⟨⟨hstate, hsettled, -⟩, hparamsAlike, -⟩ :=
    (htracks _ (owned_start env _)).pairs _ _ hdryParams hparams
  obtain rfl : s = s' := hstate
  have htracks := emitBlocks_tracks (hready fun _ => False) (fun _ _ _ => trivial) 0
    (fun _ _ => trivial) fun b hb =>
      Setting.twice_takes (callsWithin_callsBytes env.func b hb) fun i _ => i.refers_any
  obtain ⟨-, hblocksAlike, -⟩ := (htracks s hsettled).pairs p q hdryBlocks hblocks
  have hsaves := h.saves
  rw [hfinds.lines_eq hdry] at hsaves
  have hparts := h.parts
  rw [show (emitBody (env.saving saved) (State.start env.func)).lines = _ from
    hknows.lines_eq hfinal] at hparts
  refine ⟨_, _, hfinds, hsaves, hknows, h.opens, h.closes, hparts, ?_, ?_, ?_, ?_, ?_⟩
  · rw [shift_ofFunc hframe] at hparamsAlike
    exact hparamsAlike
  · rw [shift_ofFunc hframe] at hblocksAlike
    exact hblocksAlike
  · intro hfits disp hdisp
    rw [hframe]
    exact not_slot_of_argPlace hfits hdisp
  · intro r hcallee hrbp huses
    -- what the final run mentions the first one did
    have hregs := Run.flatMap_regs_eq ⟨_, _⟩ ⟨_, _⟩ hparamsAlike hblocksAlike
    have hused : r ∈ _ := Asm.mem_flatMap_regs_iff.mpr huses
    have hsaved : r ∈ saved := hsaves ▸ mem_savedRegs (hregs ▸ hused) hcallee hrbp
    rw [Asm.filterMap_stacked_entryLines]
    refine List.count_eq_one_of_mem ?_ (List.mem_cons_of_mem _ hsaved)
    rw [hsaves]
    exact savedRegs_nodup _
  · have hlast : (lastLines isEntry).filterMap (Line.stacked .pop) = [] := by cases isEntry <;> rfl
    rw [List.filterMap_append, hlast, List.append_nil, Asm.filterMap_stacked_leaveLines,
      Asm.filterMap_stacked_entryLines]

/-- The two runs of a function write the same lines for its parameters and blocks, except that
slots are lower by 8 bytes for each saved register in the final run. Every register to keep that
the final run mentions is pushed once at the start, and the end pops what the start pushes in
reverse order. -/
theorem emitFunc_runs_agree {u : Universe} {m : Module} {f : Func} {isEntry : Bool}
    {lines : List Line} (h : emitFunc u m f isEntry = .ok lines) :
    ∃ live visits saved dry final first last, Liveness.analyze f = .ok (live, visits) ∧
      Agreement ⟨u, m, f, Frame.ofFunc u f Asm.SysV.stackAlign, live⟩ isEntry lines saved dry final
        first last := by
  obtain ⟨live, visits, saved, room, hlive, hrerun⟩ := emitFunc_rerun h
  obtain ⟨dry, final, hagreement⟩ := hrerun.agreement rfl
  exact ⟨live, visits, saved, dry, final, _, _, hlive, hagreement⟩

/-- A function that saves a register and passes an argument on the stack. -/
theorem emitFunc_runs_agree_sevenTimes : ∃ lines,
      emitFunc (Universe.make 64 false) (withCallee sevenTimes) sevenTimes false = .ok lines ∧
      Line.ins .push [Reg.rbx.full] ∈ lines ∧
      ∃ live visits saved dry final first last, Liveness.analyze sevenTimes = .ok (live, visits) ∧
        Agreement ⟨Universe.make 64 false, withCallee sevenTimes, sevenTimes,
          Frame.ofFunc (Universe.make 64 false) sevenTimes Asm.SysV.stackAlign, live⟩ false lines
          saved dry final first last := by
  obtain ⟨lines, hlines, hpushes⟩ := Outcome.exists_ok_of_any
    (x := emitFunc (Universe.make 64 false) (withCallee sevenTimes) sevenTimes false)
    (P := fun lines => Line.ins .push [Reg.rbx.full] ∈ lines) (by decide +kernel)
  exact ⟨lines, hlines, hpushes, emitFunc_runs_agree hlines⟩

end Emit

end TreeAsm
