import TreeAsm.Proofs.Emit.Discipline

/-!
# The lines of a function, block by block

An emitted function starts with the lines that set up its frame, then come the parameters, then the
blocks one after the other, each under its label, and last the lines that remove the frame
(`emitFunc_laid`). The lines of a block are its label and instructions; there are no other labels
unless its code sets them (`emitBlocks_labels`).
-/

namespace TreeAsm

namespace Asm

/-- The label that a line defines: that of code, of a string or its length, or of a variable. -/
def Line.defines : Line → Option String
  | .label name | .bytes name _ | .zeros name _ | .number name _ _ | .address name _ _ => some name
  | .length name _ => some (name ++ "_len")
  | _ => none

/-- The symbol that a line declares to be defined elsewhere. -/
def Line.declares : Line → Option String
  | .outside name => some name
  | _ => none

/-- Whether a line is a machine instruction. -/
def Line.isIns : Line → Bool
  | .ins _ _ => true
  | _ => false

theorem Line.isIns_of_isStraight {l : Line} (h : l.isStraight) : l.isIns := by
  cases l with
  | ins _ _ => rfl
  | _ => cases h

/-- An instruction that the next line follows, or a jump to a label in `T`. -/
def Line.Leads (T : String → Prop) (l : Line) : Prop :=
  l.isStraight = true ∨ ∃ op ∈ [Mnemonic.jmp, .je, .jne], ∃ name, l = .ins op [.label name] ∧ T name

theorem Line.Leads.isIns {T : String → Prop} {l : Line} (h : l.Leads T) : l.isIns := by
  rcases h with h | ⟨op, -, name, rfl, -⟩
  · exact isIns_of_isStraight h
  · rfl

/-- Instructions define and declare nothing. -/
theorem filterMap_of_isIns {lines : List Line} (h : ∀ l ∈ lines, l.isIns) :
    lines.filterMap Line.defines = [] ∧ lines.filterMap Line.declares = [] := by
  constructor
  · refine List.filterMap_eq_nil_iff.mpr fun l hl => ?_
    cases l with
    | ins _ _ => rfl
    | _ => exact absurd (h _ hl) (by simp [Line.isIns])
  · refine List.filterMap_eq_nil_iff.mpr fun l hl => ?_
    cases l with
    | ins _ _ => rfl
    | _ => exact absurd (h _ hl) (by simp [Line.isIns])

end Asm

namespace Emit

open Asm (Line Reg Text)
open Ir

variable {s : State} {p : Unit × State} {u : Universe} {m : Module} {f : Func} {isEntry : Bool}
  {lines : List Line}

/-- A step after another that succeeds with it. -/
theorem Emitter.bind_ok {α β : Type} {x : Emitter α} {f : α → Emitter β} {r : β × State}
    (h : ((x >>= f) s).result = .ok r) :
    ∃ a s1, (x s).result = .ok (a, s1) ∧ (f a s1).result = .ok r ∧
      ((x >>= f) s).lines = (x s).lines ++ (f a s1).lines := by
  obtain ⟨⟨a, s1⟩, hx, hf, hlines⟩ := Text.bind_ok (x := x s) (f := fun p => f p.1 p.2) h
  exact ⟨a, s1, hx, hf, hlines⟩

theorem Emitter.lift_ok {α : Type} {x : Outcome α} {s' : State} {a : α}
    (h : (Emitter.lift x s).result = .ok (a, s')) : x = .ok a ∧ s = s' :=
  (Emitter.write_ok h).imp_right Eq.symm

variable {env : Env}

/-! ## Blocks -/

theorem emitParams_straight {ps : List Local} {n : Nat} (h : (emitParams env n ps s).result = .ok p)
    : ∀ l ∈ (emitParams env n ps s).lines, l.isStraight :=
  (emitParams_loose (I := fun _ => True) env (fun _ _ => Line.isStraight_of_isMove) ps n).lines_of_ok
    rfl trivial h

section

variable {T : String → Prop}

variable (hends : T endLabel)

include hends

/-- Every instruction that does not set a label becomes machine instructions, and it jumps to its
own target or to the end of the function. -/
theorem allows_leads {i : Instr} (hlabel : i.op ≠ .label)
    (htarget : i.op = .jump ∨ i.op = .cjump → ∀ l, i.target = .ok l → T (l.getD "")) :
    Allows (Line.Leads T) i where
  straight _ := .inl
  ret _ := .inr ⟨.jmp, by decide, _, rfl, hends⟩
  jump hop l hl op hjump := .inr ⟨op, hjump, _, rfl, htarget hop l hl⟩
  label hop := absurd hop hlabel

/-- The lines of a block are its label and machine instructions. -/
theorem emitBlock_lines {bi : Nat} {b : Block} {s : State} {p : Unit × State} (hs : Settled env s)
    (hcode : ∀ i ∈ b.code, i.op ≠ .label)
    (htargets : ∀ i ∈ b.code, i.op = .jump ∨ i.op = .cjump → ∀ l, i.target = .ok l → T (l.getD ""))
    (h : (emitBlock env bi b s).result = .ok p) :
    Settled env p.2 ∧
      ∃ rest, (emitBlock env bi b s).lines = .label b.label :: rest ∧ ∀ l ∈ rest, l.Leads T := by
  let σ := Setting.loose env (callsBytes { env.func with blocks := [b] }) (Line.Leads T)
  have htakes : ∀ i ∈ b.code, σ.Takes i := fun i hi =>
    Setting.loose_takes (allows_leads hends (hcode i hi) (htargets i hi))
      (callsWithin_callsBytes { env.func with blocks := [b] } b List.mem_cons_self i hi)
  have hrest := (emitCode_tracks (σ := σ) Setting.loose_ready bi b.label htakes).next
    (endBlock_tracks Setting.loose_ready (moves_of_straight fun _ => .inl) bi b)
  obtain ⟨_, _, hlabel, h, hlines⟩ := Emitter.bind_ok h
  cases hlabel
  exact ⟨(Outcome.Gives.of_ok (hrest.gives rfl hs) h).1, _, hlines, hrest.lines_of_ok rfl hs h⟩

end

theorem emitBlocks_labels {blocks : List Block} {bi : Nat} (hs : Settled env s)
    (hcode : ∀ b ∈ blocks, ∀ i ∈ b.code, i.op ≠ .label)
    (h : (emitBlocks env bi blocks s).result = .ok p) :
    (emitBlocks env bi blocks s).lines.filterMap Line.defines = blocks.map (·.label) ∧
      (emitBlocks env bi blocks s).lines.filterMap Line.declares = [] := by
  induction blocks generalizing bi s with
  | nil => exact ⟨rfl, rfl⟩
  | cons b rest ih =>
    obtain ⟨_, s1, hb, hrest, hlines⟩ := Emitter.bind_ok h
    have hsplit : (emitBlocks env bi (b :: rest) s).lines
        = (emitBlock env bi b s).lines ++ (emitBlocks env (bi + 1) rest s1).lines := hlines
    obtain ⟨hs1, code, hlabel, hleads⟩ := emitBlock_lines (T := fun _ => True) trivial hs
      (hcode b List.mem_cons_self) (fun _ _ _ _ _ => trivial) hb
    obtain ⟨hdefines, hdeclares⟩ := Asm.filterMap_of_isIns fun l hl => (hleads l hl).isIns
    obtain ⟨hmore, hnone⟩ := ih hs1 (fun c hc => hcode c (List.mem_cons_of_mem _ hc)) hrest
    rw [hsplit, hlabel, List.filterMap_append, List.filterMap_append, hmore, hnone]
    constructor
    · rw [List.filterMap_cons, hdefines]
      rfl
    · rw [List.filterMap_cons, hdeclares]
      rfl

/-! ## Functions -/

/-- The lines of a body are those of the parameters and those of the blocks. -/
theorem emitBody_ok (h : (emitBody env s).result = .ok p) :
    ∃ s1, (emitParams env 0 env.func.params s).result = .ok ((), s1) ∧
      (emitBlocks env 0 env.func.blocks s1).result = .ok p ∧
      (emitBody env s).lines = (emitParams env 0 env.func.params s).lines ++
        (emitBlocks env 0 env.func.blocks s1).lines := by
  obtain ⟨_, s1, hparams, hblocks, hsplit⟩ := Emitter.bind_ok h
  exact ⟨s1, Text.within_ok hparams, hblocks, hsplit⟩

/-- The lines of a function are the start of its frame, its parameters and blocks, and the end. -/
structure Laid (u : Universe) (m : Module) (f : Func) (isEntry : Bool) (lines : List Line)
    (env : Env) (room : Nat) (s1 s2 : State) : Prop where
  types : env.types = u
  module : env.module = m
  func : env.func = f
  live : ∃ n, Liveness.analyze f = .ok (env.live, n)
  frame : ∃ saved, env.frame = { Frame.ofFunc u f Asm.SysV.stackAlign with saved := saved }
  params : (emitParams env 0 f.params (State.start f)).result = .ok ((), s1)
  blocks : (emitBlocks env 0 f.blocks s1).result = .ok ((), s2)
  parts : lines = Asm.entryLines f.name env.frame.saved room ++
    ((emitParams env 0 f.params (State.start f)).lines ++ ((emitBlocks env 0 f.blocks s1).lines ++
      (Asm.leaveLines endLabel env.frame.saved room ++ lastLines isEntry)))

/-- After the parameters, and before any block, no register is in use. -/
theorem Laid.settled {room : Nat} {s1 s2 : State} (h : Laid u m f isEntry lines env room s1 s2) :
    Settled env s1 := by
  obtain rfl := h.func
  obtain rfl := (emitParams_gives env env.func.params 0).of_ok h.params
  exact owned_start env _

theorem emitFunc_laid (h : emitFunc u m f isEntry = .ok lines) :
    ∃ env room s1 s2, Laid u m f isEntry lines env room s1 s2 := by
  obtain ⟨live, visits, saved, room, hlive, hrerun⟩ := emitFunc_rerun h
  obtain ⟨⟨_, s2⟩, hbody⟩ := hrerun.final
  obtain ⟨s1, hparams, hblocks, hsplit⟩ := emitBody_ok hbody
  refine ⟨_, room, s1, s2, rfl, rfl, rfl, ⟨visits, hlive⟩, ⟨saved, rfl⟩, hparams, hblocks, ?_⟩
  rw [hrerun.parts, hsplit, List.append_assoc]

/-- The labels of a function are its name, those of its blocks and that of its end. -/
theorem emitFunc_labels (h : emitFunc u m f isEntry = .ok lines)
    (hcode : ∀ b ∈ f.blocks, ∀ i ∈ b.code, i.op ≠ .label) :
    lines.filterMap Line.defines = f.name :: (f.blocks.map (·.label) ++ [endLabel]) ∧
      lines.filterMap Line.declares = [] := by
  obtain ⟨env, room, s1, s2, hlaid⟩ := emitFunc_laid h
  obtain ⟨hblocks, hnone⟩ := emitBlocks_labels hlaid.settled hcode hlaid.blocks
  have hparams : (emitParams env 0 f.params (State.start f)).lines.filterMap Line.defines = [] ∧
      (emitParams env 0 f.params (State.start f)).lines.filterMap Line.declares = [] :=
    Asm.filterMap_of_isIns fun l hl =>
      Line.isIns_of_isStraight (emitParams_straight hlaid.params l hl)
  have hroom : ∀ op, (Asm.roomLines op room).filterMap Line.defines = [] ∧
      (Asm.roomLines op room).filterMap Line.declares = [] := by
    intro op
    refine Asm.filterMap_of_isIns fun l hl => ?_
    unfold Asm.roomLines at hl
    split at hl
    · rw [List.mem_singleton.mp hl]
      rfl
    · cases hl
  have hregs : ∀ (op : Asm.Mnemonic) (rs : List Reg),
      (rs.map fun r => Line.ins op [r.full]).filterMap Line.defines = [] ∧
      (rs.map fun r => Line.ins op [r.full]).filterMap Line.declares = [] := by
    intro op rs
    refine Asm.filterMap_of_isIns fun l hl => ?_
    obtain ⟨r, -, rfl⟩ := List.mem_map.mp hl
    rfl
  have hlast : (lastLines isEntry).filterMap Line.defines = [] ∧
      (lastLines isEntry).filterMap Line.declares = [] := by
    cases isEntry <;> exact ⟨rfl, rfl⟩
  rw [hlaid.parts]
  unfold Asm.entryLines Asm.leaveLines
  constructor
  · simp only [List.filterMap_append, List.filterMap_cons, List.cons_append, Line.defines,
      (hregs _ _).1, (hroom _).1, hparams.1, hblocks, hlast.1, List.nil_append, List.append_nil]
  · simp only [List.filterMap_append, List.filterMap_cons, List.cons_append, Line.declares,
      (hregs _ _).2, (hroom _).2, hparams.2, hnone, hlast.2, List.append_nil]

end Emit

end TreeAsm
