import TreeAsm.Proofs.Emit.Labels

/-!
# Symbols of an emitted program

Lines refer to symbols as targets of calls and jumps, as places and addresses in memory, in data and
where a symbol is exported. All these names come from the tables of the module and from the labels
of the blocks, and each of them is defined or declared in the text (`emit_closed`). A jump stays in
the lines of its function: it goes to a block of the function or to its end.
-/

namespace TreeAsm

namespace Asm

/-- The labels that a line jumps to. -/
def Line.jumps : Line → List String
  | .ins op args => if op ∈ [Mnemonic.jmp, .je, .jne] then args.flatMap Operand.symbols else []
  | _ => []

theorem Line.jumps_subset (l : Line) : l.jumps ⊆ l.symbols := by
  cases l with
  | ins op args =>
    intro name hname
    change name ∈ (if op ∈ _ then _ else []) at hname
    split at hname
    · exact hname
    · cases hname
  | _ => exact List.nil_subset _

theorem Line.Leads.jumps {T : String → Prop} {l : Line} (h : l.Leads T) : ∀ name ∈ l.jumps, T name := by
  rcases h with hstraight | ⟨op, hop, target, rfl, htarget⟩
  · intro name hname
    cases l with
    | ins op args =>
      have hno : op ∉ [Mnemonic.jmp, .je, .jne, .ret] := of_decide_eq_true hstraight
      have hjumps : (Line.ins op args).jumps = [] :=
        if_neg fun hop => hno (List.mem_append_left [_] hop)
      exact absurd (hjumps ▸ hname) List.not_mem_nil
    | _ => cases hname
  · intro name hname
    have hjumps : (Line.ins op [.label target]).jumps = [target] := if_pos hop
    rw [hjumps] at hname
    exact List.mem_singleton.mp hname ▸ htarget

/-- The lines around a body work on registers and numbers. -/
theorem symbols_regs (op : Mnemonic) (rs : List Reg) :
    ∀ l ∈ rs.map fun r => Line.ins op [r.full], l.symbols = [] := by
  intro l hl
  obtain ⟨r, -, rfl⟩ := List.mem_map.mp hl
  rfl

theorem symbols_roomLines (op : Mnemonic) (room : Nat) : ∀ l ∈ roomLines op room, l.symbols = [] := by
  unfold roomLines
  intro l hl
  split at hl
  · rw [List.mem_singleton.mp hl]
    rfl
  · cases hl

theorem symbols_entryLines (name : String) (saved : List Reg) (room : Nat) :
    ∀ l ∈ entryLines name saved room, l.symbols = [] := by
  intro l hl
  unfold entryLines at hl
  simp only [List.cons_append, List.mem_cons, List.mem_append] at hl
  rcases hl with rfl | rfl | rfl | hl | hl
  · rfl
  · rfl
  · rfl
  · exact symbols_regs _ _ l hl
  · exact symbols_roomLines _ _ l hl

theorem symbols_leaveLines (name : String) (saved : List Reg) (room : Nat) :
    ∀ l ∈ leaveLines name saved room, l.symbols = [] := by
  intro l hl
  unfold leaveLines at hl
  simp only [List.mem_cons, List.mem_append] at hl
  rcases hl with rfl | hl | hl
  · rfl
  · exact symbols_roomLines _ _ l hl
  · exact symbols_regs _ _ l hl

end Asm

namespace Ir

theorem Instr.Form.op_ne_label {i : Instr} (h : i.Form) : i.op ≠ .label := by
  intro hop
  cases h with
  | binary hbinary =>
    cases hop
    cases hbinary
  | _ => simp at hop

/-- Of the instructions that lowering uses only jumps have a label, which is their target. -/
theorem Instr.Form.target_of_label {i : Instr} (h : i.Form) {l : String} (hl : .label l ∈ i.args) :
    (i.op = .jump ∨ i.op = .cjump) ∧ i.target = .ok (some l) := by
  have hfit : ∀ {x : Operand}, x.Fit → .label l ≠ x := by
    rintro _ hx rfl
    exact hx
  -- the operands of the other instructions are values, variables and symbols
  cases h with
  | jump =>
    obtain rfl := Operand.label.inj (List.mem_singleton.mp hl)
    exact ⟨.inl rfl, rfl⟩
  | cjump hx =>
    simp only [List.mem_cons, List.not_mem_nil, or_false, reduceCtorEq] at hl
    obtain rfl := Operand.label.inj (hl.resolve_left (hfit hx))
    exact ⟨.inr rfl, rfl⟩
  | call _ hargs =>
    rcases List.mem_cons.mp hl with hl | hl
    · cases hl
    · exact absurd rfl (hfit (hargs _ hl))
  | syscall _ hnumber hargs =>
    rcases List.mem_cons.mp hl with hl | hl
    · exact absurd hl (hfit hnumber)
    · exact absurd rfl (hfit (hargs _ hl))
  | binary _ _ hx hy =>
    simp only [List.mem_cons, List.not_mem_nil, or_false] at hl
    rcases hl with hl | rfl
    · exact absurd hl (hfit hx)
    · rcases hy with hy | ⟨-, n, hy⟩
      · exact absurd rfl (hfit hy)
      · cases hy
  | load _ hbase hoffset =>
    simp only [List.mem_cons, List.not_mem_nil, or_false] at hl
    exact absurd hl (not_or.mpr ⟨hfit hbase, hfit hoffset⟩)
  | store hbase hoffset hvalue =>
    simp only [List.mem_cons, List.not_mem_nil, or_false] at hl
    exact absurd hl (not_or.mpr ⟨hfit hbase, not_or.mpr ⟨hfit hoffset, hfit hvalue⟩⟩)
  | moveTemp _ hx | moveVar _ hx | ret hx => exact absurd (by simpa using hl) (hfit hx)
  | loadVar _ _ | addrVar _ | addrSymbol _ | retNothing => exact absurd hl (by simp)

/-- An instruction of a well-formed module refers to what the module and its function own. -/
theorem Instr.Known.refers {m : Module} {locals : List Local} {temps : List Temp} {i : Instr}
    {labels : List String} {N : String → Prop} (h : i.Known m locals temps) (hform : i.Form)
    (hjumps : i.JumpsInto labels) (hstrings : ∀ c ∈ m.strings, N c.label)
    (hnames : ∀ name, m.Names name → N name) (hlabels : ∀ l ∈ labels, N l) : i.Refers N := by
  have htarget : ∀ {l : String}, i.op = .jump ∨ i.op = .cjump → i.target = .ok (some l) → N l := by
    intro l hop hl
    obtain ⟨l', hl', htarget⟩ := hjumps hop
    obtain rfl : l = l' := Option.some.inj (Except.ok.inj (hl.symm.trans htarget))
    exact hlabels l hl'
  constructor
  · intro x hx
    cases x with
    | temp _ | var _ | outer _ _ | int _ _ => trivial
    | str c => exact hstrings c (h.args _ hx)
    | symbol name => exact hnames name (h.args _ hx)
    | label l =>
      obtain ⟨hop, hl⟩ := hform.target_of_label hx
      exact htarget hop hl
  · intro hop l hl
    obtain ⟨l', -, hl'⟩ := hjumps hop
    obtain rfl : l = some l' := Except.ok.inj (hl.symm.trans hl')
    exact htarget hop hl

end Ir

namespace Emit

open Asm (Line)
open Ir

/-! ## Functions -/

section

variable {u : Universe} {m : Module} {f : Func} {isEntry : Bool} {lines : List Line}

theorem symbols_lastLines (isEntry : Bool) : ∀ l ∈ lastLines isEntry, l.symbols = [] := by
  cases isEntry with
  | true => decide
  | false => decide

/-- The lines of a function refer to the symbols that its instructions refer to, and to those of the
module. -/
theorem emitFunc_symbols {N : String → Prop} (h : emitFunc u m f isEntry = .ok lines)
    (hstrings : ∀ c ∈ m.strings, N c.label) (hfuncs : ∀ g ∈ m.funcs, N g.name)
    (hglobals : ∀ g ∈ m.globals, N g.name) (hends : N endLabel)
    (hcode : ∀ b ∈ f.blocks, ∀ i ∈ b.code, i.Refers N) :
    ∀ l ∈ lines, ∀ name ∈ l.symbols, N name := by
  -- operands that are not slots are the same in both runs, and refer to symbols in `N`
  obtain ⟨live, visits, saved, room, -, hrerun⟩ := emitFunc_rerun h
  obtain ⟨p, hp⟩ := hrerun.dry
  obtain ⟨q, hq⟩ := hrerun.final
  let env : Env := ⟨u, m, f, Frame.ofFunc u f Asm.SysV.stackAlign, live⟩
  let σ := Setting.twice env saved ⟨fun _ => True, N⟩ (callsBytes f)
  have hready : σ.Ready :=
    Setting.twice_ready (ofFunc_temps_length u f _) hstrings hfuncs hglobals hends
  have htracks := emitBody_tracks hready (fun _ _ _ => trivial) (fun _ _ => trivial)
    (fun _ _ => ⟨fun h => h.elim, fun h => h.elim⟩) (fun _ _ => trivial)
    fun b hb => Setting.twice_takes (callsWithin_callsBytes f b hb) (hcode b hb)
  obtain ⟨-, halike, -⟩ := (htracks _ (owned_start env _)).pairs p q hp hq
  have hnone : ∀ {l : Line} {name : String}, l.symbols = [] → name ∈ l.symbols → N name :=
    fun hl hname => absurd (hl ▸ hname) List.not_mem_nil
  intro l hl name hname
  rw [hrerun.parts] at hl
  simp only [List.mem_append] at hl
  rcases hl with hl | hl | hl | hl
  · exact hnone (Asm.symbols_entryLines _ _ _ l hl) hname
  · exact Asm.symbols_of_alike halike hl hname
  · exact hnone (Asm.symbols_leaveLines _ _ _ l hl) hname
  · exact hnone (symbols_lastLines isEntry l hl) hname

/-- Blocks are left by jumps to labels of the function. -/
theorem emitBlocks_jumps {env : Env} {T : String → Prop} (hends : T endLabel) {blocks : List Block}
    {bi : Nat} {s : State} {p : Unit × State} (hs : Settled env s)
    (hcode : ∀ b ∈ blocks, ∀ i ∈ b.code, i.op ≠ .label)
    (htargets : ∀ b ∈ blocks, ∀ i ∈ b.code, i.op = .jump ∨ i.op = .cjump →
      ∀ l, i.target = .ok l → T (l.getD ""))
    (h : (emitBlocks env bi blocks s).result = .ok p) :
    ∀ l ∈ (emitBlocks env bi blocks s).lines, ∀ name ∈ l.jumps, T name := by
  induction blocks generalizing bi s with
  | nil => exact fun _ hl => nomatch hl
  | cons b blocks ih =>
    obtain ⟨_, s1, hb, hrest, hlines⟩ := Emitter.bind_ok h
    obtain ⟨hs1, code, hlabel, hleads⟩ :=
      emitBlock_lines hends hs (hcode b List.mem_cons_self) (htargets b List.mem_cons_self) hb
    intro l hl name hname
    rcases List.mem_append.mp (hlines ▸ hl) with hl | hl
    · rcases List.mem_cons.mp (hlabel ▸ hl) with rfl | hl
      · cases hname
      · exact (hleads l hl).jumps name hname
    · exact ih hs1 (fun c hc => hcode c (List.mem_cons_of_mem _ hc))
        (fun c hc => htargets c (List.mem_cons_of_mem _ hc)) hrest l hl name hname

/-- The lines of a function start with its name, and jumps in them go to labels of its blocks or to
that of its end, which are in the same lines. -/
structure Enclosed (f : Func) (lines : List Line) : Prop where
  starts : lines.head? = some (.label f.name)
  jumps : ∀ l ∈ lines, ∀ name ∈ l.jumps, name ∈ f.blocks.map (·.label) ++ [endLabel] ∧
    name ∈ lines.filterMap Line.defines

theorem emitFunc_enclosed (h : emitFunc u m f isEntry = .ok lines)
    (hcode : ∀ b ∈ f.blocks, ∀ i ∈ b.code, i.op ≠ .label)
    (hjumps : ∀ b ∈ f.blocks, ∀ i ∈ b.code, i.JumpsInto (f.blocks.map (·.label))) :
    Enclosed f lines := by
  obtain ⟨env, room, s1, s2, hlaid⟩ := emitFunc_laid h
  have hdefines := (emitFunc_labels h hcode).1
  have hends : endLabel ∈ f.blocks.map (·.label) ++ [endLabel] :=
    List.mem_append_right _ (List.mem_singleton_self _)
  have htargets : ∀ b ∈ f.blocks, ∀ i ∈ b.code, i.op = .jump ∨ i.op = .cjump →
      ∀ l, i.target = .ok l → l.getD "" ∈ f.blocks.map (·.label) ++ [endLabel] := by
    intro b hb i hi hop l hl
    obtain ⟨l', hl', htarget⟩ := hjumps b hb i hi hop
    obtain rfl : l = some l' := Except.ok.inj (hl.symm.trans htarget)
    exact List.mem_append_left _ hl'
  have hnone : ∀ {l : Line} {name : String} {P : Prop}, l.symbols = [] → name ∈ l.jumps → P :=
    fun hl hname => absurd (hl ▸ Line.jumps_subset _ hname) List.not_mem_nil
  refine ⟨?_, fun l hl name hname => ?_⟩
  · rw [hlaid.parts]
    rfl
  -- only the lines of the blocks have jumps
  have hmem : name ∈ f.blocks.map (·.label) ++ [endLabel] := by
    rw [hlaid.parts] at hl
    simp only [List.mem_append] at hl
    rcases hl with hl | hl | hl | hl | hl
    · exact hnone (Asm.symbols_entryLines _ _ _ l hl) hname
    · have hstraight := emitParams_straight hlaid.params l hl
      exact Line.Leads.jumps (T := (· ∈ _)) (.inl hstraight) name hname
    · exact emitBlocks_jumps hends hlaid.settled hcode htargets hlaid.blocks l hl name hname
    · exact hnone (Asm.symbols_leaveLines _ _ _ l hl) hname
    · exact hnone (symbols_lastLines isEntry l hl) hname
  refine ⟨hmem, ?_⟩
  rw [hdefines]
  exact List.mem_cons_of_mem _ hmem

end

/-! ## Modules -/

/-- The text of a module defines or declares a name. -/
def Offers (fatStrings : Bool) (m : Module) (name : String) : Prop :=
  name ∈ definedLabels fatStrings m ∨ name ∈ declaredLabels m

section

variable {u : Universe} {fatStrings : Bool} {entry : String} {m : Module} {lines : List Line}

theorem offers_string {c : StringConst} (hc : c ∈ m.strings) : Offers fatStrings m c.label := by
  refine Or.inl (List.mem_append_left _ (List.mem_append_left _ ?_))
  exact List.mem_flatMap.mpr ⟨c, hc, List.mem_cons_self⟩

theorem offers_global {g : Global} (hg : g ∈ m.globals) : Offers fatStrings m g.name := by
  have hmem : g.name ∈ globalNames m g.external :=
    List.mem_map.mpr ⟨g, List.mem_filter.mpr ⟨hg, beq_self_eq_true _⟩, rfl⟩
  cases hext : g.external with
  | true => exact .inr (List.mem_append_left _ (hext ▸ hmem))
  | false => exact .inl (List.mem_append_left _ (List.mem_append_right _ (hext ▸ hmem)))

theorem offers_label {f : Func} (hf : f ∈ m.funcs) (hext : f.external = false) {name : String}
    (hname : name ∈ funcLabels f) : Offers fatStrings m name := by
  refine Or.inl (List.mem_append_right _ (List.mem_flatMap.mpr ⟨f, ?_, hname⟩))
  exact List.mem_filter.mpr ⟨hf, by simp [hext]⟩

theorem offers_func {f : Func} (hf : f ∈ m.funcs) : Offers fatStrings m f.name := by
  cases hext : f.external with
  | false => exact offers_label hf hext List.mem_cons_self
  | true =>
    refine Or.inr (List.mem_append_right _ (List.mem_map.mpr ⟨f, ?_, rfl⟩))
    exact List.mem_filter.mpr ⟨hf, by simp [hext]⟩

/-- The line of a variable refers to the string that it starts with. -/
theorem globalLine_symbols {g : Global} {l : Line} (h : globalLine u g = .ok l) :
    l.isIns = false ∧ ∀ name ∈ l.symbols, ∃ c, g.init = some (.str c) ∧ name = c.label := by
  unfold globalLine at h
  split at h
  · cases h
    exact ⟨rfl, fun _ hname => nomatch hname⟩
  · obtain ⟨d, -, h⟩ := Outcome.bind_ok h
    cases h
    exact ⟨rfl, fun _ hname => nomatch hname⟩
  next c hinit =>
    obtain ⟨d, -, h⟩ := Outcome.bind_ok h
    cases h
    exact ⟨rfl, fun _ hname => ⟨c, hinit, List.mem_singleton.mp hname⟩⟩
  · cases h

theorem dataLines_symbols (h : dataLines u m.globals = .ok lines) :
    ∀ l ∈ lines, l.isIns = false ∧ ∀ name ∈ l.symbols,
      ∃ g ∈ m.globals, ∃ c, g.init = some (.str c) ∧ name = c.label := by
  obtain ⟨ls, hls, h⟩ := Outcome.bind_ok h
  cases h
  intro l hl
  split at hl
  · cases hl
  · rcases List.mem_cons.mp hl with rfl | hl
    · exact ⟨rfl, fun _ hname => nomatch hname⟩
    · obtain ⟨g, hg, hline⟩ := Outcome.mem_of_mapM hls l hl
      obtain ⟨hins, hsymbols⟩ := globalLine_symbols hline
      refine ⟨hins, fun name hname => ?_⟩
      obtain ⟨c, hinit, rfl⟩ := hsymbols name hname
      exact ⟨g, (List.mem_filter.mp hg).1, c, hinit, rfl⟩

theorem stringLines_symbols (cs : List StringConst) :
    ∀ l ∈ cs.flatMap (stringLines fatStrings), l.isIns = false ∧ l.symbols = [] := by
  intro l hl
  obtain ⟨c, -, hl⟩ := List.mem_flatMap.mp hl
  rcases List.mem_cons.mp hl with rfl | hl
  · exact ⟨rfl, rfl⟩
  · split at hl
    · rw [List.mem_singleton.mp hl]
      exact ⟨rfl, rfl⟩
    · cases hl

/-- What is exported is a function of the module. -/
theorem symbolLines_symbols : ∀ l ∈ symbolLines m entry, l.isIns = false ∧ ∀ name ∈ l.symbols,
      ∃ f ∈ m.funcs, name = f.name := by
  intro l hl
  unfold symbolLines at hl
  simp only [List.mem_append, List.mem_map] at hl
  rcases hl with (⟨g, -, rfl⟩ | ⟨f, -, rfl⟩) | ⟨f, hf, rfl⟩
  · exact ⟨rfl, fun _ hname => nomatch hname⟩
  · exact ⟨rfl, fun _ hname => nomatch hname⟩
  · exact ⟨rfl, fun _ hname => ⟨f, (List.mem_filter.mp hf).1, List.mem_singleton.mp hname⟩⟩

end

/-- Every symbol that lines refer to is defined or declared in them, and they are lines without
jumps followed by the lines of the functions of a module, in which jumps stay within each
function. -/
structure Closed (u : Universe) (entry : String) (m : Module) (lines : List Line) : Prop where
  symbols : ∀ l ∈ lines, ∀ name ∈ l.symbols,
    name ∈ lines.filterMap Line.defines ∨ name ∈ lines.filterMap Line.declares
  jumps : ∃ head texts, lines = head ++ texts.flatten ∧ (∀ l ∈ head, l.jumps = []) ∧
    List.Forall₂ (fun f text => emitFunc u m f (f.name == entry) = .ok text ∧ Enclosed f text)
      (funcsOf m false) texts

section

variable {u : Universe} {fatStrings : Bool} {entry : String} {m : Module} {lines : List Line}

/-- The lines of a function refer to what the text of the module defines or declares. -/
theorem emitFunc_offers {f : Func} {isEntry : Bool} (hwf : f.WellFormed m)
    (hforms : ∀ b ∈ f.blocks, ∀ i ∈ b.code, i.Form) (hf : f ∈ m.funcs) (hext : f.external = false)
    (h : emitFunc u m f isEntry = .ok lines) :
    ∀ l ∈ lines, ∀ name ∈ l.symbols, Offers fatStrings m name := by
  have hlabels : ∀ l ∈ f.blocks.map (·.label) ++ [endLabel], Offers fatStrings m l := fun l hl =>
    offers_label hf hext (List.mem_cons_of_mem _ hl)
  refine emitFunc_symbols h (fun _ => offers_string) (fun _ => offers_func) (fun _ => offers_global)
    (hlabels _ (List.mem_append_right _ (List.mem_singleton_self _))) fun b hb i hi => ?_
  refine (hwf.code b hb i hi).refers (hforms b hb i hi) (hwf.jumps b hb i hi)
    (fun _ => offers_string) (fun name hname => ?_)
    fun l hl => hlabels l (List.mem_append_left _ hl)
  rcases hname with hname | hname
  · obtain ⟨g, hg, rfl⟩ := List.mem_map.mp hname
    exact offers_func hg
  · obtain ⟨g, hg, rfl⟩ := List.mem_map.mp hname
    exact offers_global hg

/-- The lines of a module before those of its functions. -/
def headLines (fatStrings : Bool) (entry : String) (m : Module) (data : List Line) : List Line :=
  .sectionStart ".rodata" :: m.strings.flatMap (stringLines fatStrings) ++ data ++
    .sectionStart ".text" :: symbolLines m entry

/-- The lines before the functions have no jumps, and they refer to what the text of the module
defines or declares. -/
theorem headLines_offers {data : List Line} (hwf : m.WellFormed)
    (hdata : dataLines u m.globals = .ok data) :
    ∀ l ∈ headLines fatStrings entry m data,
      l.jumps = [] ∧ ∀ name ∈ l.symbols, Offers fatStrings m name := by
  have hjumps : ∀ {l : Line}, l.isIns = false → l.jumps = [] := by
    intro l hl
    cases l with
    | ins _ _ => cases hl
    | _ => rfl
  have hsection : ∀ name, (Line.sectionStart name).jumps = [] ∧
      ∀ n ∈ (Line.sectionStart name).symbols, Offers fatStrings m n := fun _ =>
    ⟨rfl, fun _ hname => nomatch hname⟩
  intro l hl
  simp only [headLines, List.cons_append, List.mem_cons, List.mem_append] at hl
  rcases hl with rfl | (hl | hl) | rfl | hl
  · exact hsection _
  · obtain ⟨hins, hsymbols⟩ := stringLines_symbols _ l hl
    exact ⟨hjumps hins, fun _ hname => absurd (hsymbols ▸ hname) List.not_mem_nil⟩
  · obtain ⟨hins, hsymbols⟩ := dataLines_symbols hdata l hl
    refine ⟨hjumps hins, fun name hname => ?_⟩
    obtain ⟨g, hg, c, hinit, rfl⟩ := hsymbols name hname
    exact offers_string (hwf.inits g hg c hinit)
  · exact hsection _
  · obtain ⟨hins, hsymbols⟩ := symbolLines_symbols l hl
    refine ⟨hjumps hins, fun name hname => ?_⟩
    obtain ⟨f, hf, rfl⟩ := hsymbols name hname
    exact offers_func hf

theorem emitModule_closed (hwf : m.WellFormed)
    (hforms : ∀ f ∈ m.funcs, f.external = false → ∀ b ∈ f.blocks, ∀ i ∈ b.code, i.Form)
    (h : emitModule u fatStrings entry m = .ok lines) : Closed u entry m lines := by
  have hcode : ∀ f ∈ m.funcs, f.external = false → ∀ b ∈ f.blocks, ∀ i ∈ b.code, i.op ≠ .label :=
    fun f hf hext b hb i hi => (hforms f hf hext b hb i hi).op_ne_label
  obtain ⟨hdefines, hdeclares⟩ := emitModule_labels hcode h
  obtain ⟨data, hdata, h⟩ := Outcome.bind_ok h
  obtain ⟨code, hfuncs, h⟩ := Outcome.bind_ok h
  -- what is shown of the text of one function holds of the texts of all
  have htext : ∀ f ∈ m.funcs, f.external = false → ∀ text, emitFunc u m f (f.name == entry) = .ok text →
      (∀ l ∈ text, ∀ name ∈ l.symbols, Offers fatStrings m name) ∧
        emitFunc u m f (f.name == entry) = .ok text ∧ Enclosed f text := by
    intro f hf hext text htext
    have hfunc := hwf.funcs f hf hext
    exact ⟨emitFunc_offers hfunc (hforms f hf hext) hf hext htext, htext,
      emitFunc_enclosed htext (hcode f hf hext) hfunc.jumps⟩
  obtain ⟨texts, rfl, htexts⟩ := funcLines_texts htext hfuncs
  have hhead : ∀ l ∈ headLines fatStrings entry m data, _ :=
    headLines_offers hwf (Outcome.within_eq_ok hdata)
  have hoffers := ((List.forall₂_and_left _ _).mp htexts.flip).1
  cases h
  refine ⟨fun l hl name hname => ?_, _, texts, rfl, fun l hl => (hhead l hl).1, htexts.imp fun _ _ h => h.2⟩
  rw [hdefines, hdeclares]
  rcases List.mem_append.mp hl with hl | hl
  · exact (hhead l hl).2 name hname
  · obtain ⟨text, htext, hl⟩ := List.mem_flatten.mp hl
    exact hoffers text htext l hl name hname

end

end Emit

namespace Session

open Emit Ir

/-- The text of every program that compiles is closed: each symbol that it refers to is defined in
it or declared to be elsewhere, and jumps go to labels of blocks, or of the end, in the lines of the
same function. -/
theorem emit_closed {s s' : Session} {file : Program.File} {m : Module} {lines : List Asm.Line}
    (hm : s.lowerFile file = .ok (m, s')) (hlines : s'.emit m = .ok lines) :
    Closed s'.types s'.config.entry m lines := by
  obtain ⟨r, hr, hm⟩ := Outcome.bind_ok hm
  obtain ⟨rfl, -⟩ := Prod.mk.inj (Except.ok.inj hm)
  have hforms : ∀ f ∈ r.module.funcs, f.external = false → ∀ b ∈ f.blocks, ∀ i ∈ b.code, i.Form :=
    fun f hf hext => (Lowering.lowerFile_lowered hr hf hext).forms
  exact emitModule_closed (Lowering.lowerFile_inProgress hr).wellFormed hforms hlines

/-- A program with a string in its data and a loop that calls a function which is not declared. -/
def greeting : Program.File :=
  let p : Position := default
  let id := Program.Expr.ident p
  ⟨"greeting", [.var p "text" ⟨"char", 1⟩ (some (.str p "hi")),
    .func p "main" true [⟨"n", ⟨"int", 0⟩⟩] ⟨"int", 0⟩ (some (.mk p [
      .while p (.binary p "<" (.int p 0) (id "n")) (some (.mk p [
        .expr p (.foreign p "puts" ⟨"int", 0⟩ [id "text"]),
        .set p "n" "-=" (.int p 1)])),
      .return p (some (id "n"))]))]⟩

theorem emit_closed_greeting :
    ∃ s m s' lines, Session.lowerFile s greeting = .ok (m, s') ∧ s'.emit m = .ok lines ∧
      lines.flatMap Asm.Line.symbols = ["str0", "main", ".L3", "text", "puts", ".L1"] ∧
      lines.flatMap Asm.Line.jumps = [".L3", ".L1"] ∧
      Closed s'.types s'.config.entry m lines := by
  obtain ⟨⟨m, s', lines⟩, h, hall, hjumps⟩ := Outcome.exists_ok_of_any (x := emitted greeting)
    (P := fun r => r.2.2.flatMap Asm.Line.symbols = ["str0", "main", ".L3", "text", "puts", ".L1"] ∧
      r.2.2.flatMap Asm.Line.jumps = [".L3", ".L1"]) (by decide +kernel)
  obtain ⟨s, -, hm, hlines⟩ := emitted_ok h
  exact ⟨s, m, s', lines, hm, hlines, hall, hjumps, emit_closed hm hlines⟩

end Session

end TreeAsm
