import TreeAsm.Proofs.Lowering.Stmt
import TreeAsm.Proofs.Lowering.Typed

/-!
# Lowered modules are well formed

The bodies of a program are lowered one after the other. Between two of them every function of the
module is done, external, or still waits for its body (`InProgress`). One that is done is well formed,
its code is arranged, and its stores are aimed (`Done`); what a later body adds to the module, strings
and outside functions, does not disturb it.

Main statement: `lowerFile_wellFormed`. Whatever file is lowered, the module that comes out is well
formed, so it can be printed and the liveness of each of its functions can be computed.
-/

namespace TreeAsm.Lowering

open Ir
open Outcome (bind_ok within_eq_ok)

/-! ## One body -/

theorem lowerBody_runs {env : Env} {body : Program.Block} {s s' : State} {b : Bool}
    (hret : env.ret.Proper) (hwf : s.Wf env []) (hends : s.Ends false)
    (h : lowerBody env body s = .ok (b, s')) : Runs env [] s s' true ∧ b = body.continues true := by
  obtain ⟨ends, s1, h1, h⟩ := Lower.bind_ok h
  obtain ⟨hr1, hgoes⟩ := lowerBlock_runs env hret body hwf hends (Lower.within_ok h1)
  obtain ⟨t, s2, h2, h⟩ := Lower.bind_ok h
  have h2' : (s1.block.isTerminated, s1) = (t, s2) := Except.ok.inj h2
  cases h2'
  rw [hr1.ends.terminated] at h
  cases ends with
  | true =>
    obtain ⟨rfl, rfl⟩ := Lower.pure_ok h
    exact ⟨hr1, by simpa using hgoes⟩
  | false =>
    obtain ⟨_, s2, h3, h⟩ := Lower.bind_ok h
    obtain ⟨rfl, rfl⟩ := Lower.pure_ok h
    refine ⟨hr1.advances.runs (emitRet_runs hr1.wf hr1.ends ?_ (fun x hx => ?_) h3),
      by simpa using hgoes⟩
    · split
      · exact .retNothing
      · exact .ret hret
    · split at hx
      · exact absurd hx (by simp)
      · rw [List.mem_singleton.mp hx]
        exact State.usable_of_not_temp (by simp) trivial

variable {u : Universe} {m m' : Module} {f : Func} {x : Pending} {xs : List Pending}
  {notices : List Notice} {file : Program.File}

theorem State.start_named {P : Local → Prop} (h : ∀ v ∈ f.locals, P v) :
    ∀ scope ∈ (State.start m f).scopes, ∀ p ∈ scope, P p.2 := by
  intro scope hscope p hp
  rw [State.start, List.mem_singleton] at hscope
  subst hscope
  rw [List.mem_reverse, List.mem_map] at hp
  obtain ⟨v, hv, rfl⟩ := hp
  exact h v (List.mem_filter.mp hv).1

theorem State.start_code {P : Block → Instr → Prop} :
    ∀ b ∈ (State.start m f).blocks, ∀ i ∈ b.code, P b i := by
  intro b hb i hi
  rw [List.mem_singleton.mp hb] at hi
  exact absurd hi (by simp [State.start])

theorem State.start_orderly (hm : Typed m) (hf : ∀ v ∈ f.locals, v.type.Proper)
    (hlocals : ∀ v ∈ f.locals, f.locals[v.index]? = some v) : (State.start m f).Orderly := by
  refine ⟨hm, fun v hv => ⟨hf v hv, (List.getElem?_eq_some_iff.mp (hlocals v hv)).1⟩,
    State.start_named hf, State.start_code, ⟨?_, ?_⟩, ?_⟩
  · simp [State.start, State.blocks]
  · intro code hcode
    obtain rfl : code = [] := by simpa [State.start, State.blocks] using hcode
    exact covered_nil
  · intro id hid
    exact absurd hid (by simp [State.written, State.start, State.blocks])

/-- The state at the start of a function is in order. -/
theorem State.start_wf (env : Env) (hm : Typed m) (hf : ∀ v ∈ f.locals, v.type.Proper)
    (hlocals : ∀ v ∈ f.locals, f.locals[v.index]? = some v) :
    (State.start m f).Wf env [] ∧ (State.start m f).Ends false := by
  refine ⟨⟨State.start_orderly hm hf hlocals, State.start_named hlocals, State.start_code, ?_,
    State.start_code, ?_, ?_⟩, ?_⟩
  · intro b hb
    exact absurd hb (by simp [State.start])
  · exact List.nodup_singleton _
  · intro l hl
    exact ⟨0, Nat.one_pos, List.mem_singleton.mp hl⟩
  · intro i hi
    exact absurd hi (by simp [State.start])

/-- A function whose variables have types and numbers, whose instructions have their forms and whose
code is arranged. -/
structure Func.Lowered (f : Func) : Prop where
  ret : f.ret.Proper
  locals : ∀ v ∈ f.locals, v.type.Proper ∧ v.index < f.locals.length
  forms : ∀ b ∈ f.blocks, ∀ i ∈ b.code, i.Form
  arranged : Arranged (f.blocks.map (·.code))

/-- A function whose lowering is done. -/
structure Done (u : Universe) (m : Module) (f : Func) : Prop where
  wellFormed : f.WellFormed m
  lowered : Func.Lowered f
  aimed : ∀ b ∈ f.blocks, ∀ i ∈ b.code, Aimed u m i

theorem State.Wf.done {env : Env} {s : State} (hwf : s.Wf env []) (hends : s.Ends true)
    (hret : f.ret.Proper) : Done env.types s.module
      { f with locals := s.locals, temps := s.temps, blocks := s.closed ++ [s.block] } := by
  have ho := hwf.orderly
  refine ⟨⟨by simp, hwf.distinct, forall_mem_concat hwf.closed hends.1, ?_, ?_,
    fun b hb i hi => (hwf.code b hb i hi).knows⟩,
    ⟨hret, ho.locals, ho.forms, ho.arranged⟩, fun b hb i hi => (hwf.code b hb i hi).aimed⟩
  · intro b hb i hi
    have hjumps := hwf.jumps b hb i hi
    rw [List.append_nil] at hjumps
    exact hjumps
  · intro b hb i hi
    rw [List.getLast?_concat, Option.some.injEq] at hb
    subst hb
    exact hends.2 i hi

/-! ## All bodies -/

theorem setFunc_names (m : Module) (f : Func) :
    (m.setFunc f).funcs.map (·.name) = m.funcs.map (·.name) := by
  rw [Module.setFunc, Table.modify, List.map_map]
  refine List.map_congr_left fun g _ => ?_
  rw [Function.comp_apply]
  by_cases hname : g.name == f.name
  · rw [if_pos hname]
    exact (by simpa using hname : g.name = f.name).symm
  · rw [if_neg hname]

theorem mem_setFunc {g : Func} (h : g ∈ (m.setFunc f).funcs) : g = f ∨ g ∈ m.funcs ∧ g.name ≠ f.name := by
  obtain ⟨g', hg', rfl⟩ := List.mem_map.mp h
  by_cases hname : g'.name == f.name
  · rw [if_pos hname]
    exact .inl rfl
  · rw [if_neg hname]
    exact .inr ⟨hg', by simpa using hname⟩

/-- A module some of whose functions wait for their bodies. -/
structure InProgress (u : Universe) (m : Module) (xs : List Pending) : Prop where
  typed : Typed m
  names : (m.funcs.map (·.name)).Nodup
  bodies : (xs.map (·.name)).Nodup
  declared : ∀ x ∈ xs, x.name ∈ m.funcs.map (·.name)
  funcs : ∀ f ∈ m.funcs, f.external = false → Done u m f ∨ f.name ∈ xs.map (·.name)
  internal : ∀ f ∈ m.funcs, f.name ∈ xs.map (·.name) → f.external = false
  external : ∀ f ∈ m.funcs, f.external = true → f.blocks = []
  locals : ∀ f ∈ m.funcs, f.name ∈ xs.map (·.name) → ∀ v ∈ f.locals, f.locals[v.index]? = some v
  inits : ∀ g ∈ m.globals, ∀ c, g.init = some (.str c) → c ∈ m.strings
  structs : ∀ s ∈ m.structs, ∃ l, s.layout? = some l ∧ l.offsets.length = s.fields.length

theorem InProgress.done (h : InProgress u m []) (hf : f ∈ m.funcs) (hinternal : f.external = false) :
    Done u m f :=
  (h.funcs f hf hinternal).resolve_right (by simp)

theorem InProgress.wellFormed (h : InProgress u m []) : m.WellFormed :=
  ⟨fun _ hf hinternal => (h.done hf hinternal).wellFormed, h.inits, h.structs⟩

/-- Putting a function that is done in its place. The module may have grown in the meantime. -/
theorem InProgress.setFunc {m1 : Module} (hm : InProgress u m (x :: xs)) (hgrows : Grows m m1)
    (htyped : Typed m1) (hname : f.name = x.name) (hinternal : f.external = false)
    (hdone : Done u m1 f) : InProgress u (m1.setFunc f) xs := by
  obtain ⟨new, hnew, hexternal⟩ := hgrows.funcs
  obtain ⟨strings, hstrings⟩ := hgrows.strings
  obtain ⟨hfresh, hbodies⟩ := List.nodup_cons.mp hm.bodies
  have hnames1 : ∀ n, m1.Names n → (m1.setFunc f).Names n := by
    intro n hn
    rw [Module.Names, setFunc_names]
    exact hn
  have hkept : ∀ n, m.Names n → (m1.setFunc f).Names n := fun n hn => hnames1 n (hgrows.names hn)
  -- a function of the new module is the one put in, an old one with another name, or a new one
  have hcases : ∀ g ∈ (m1.setFunc f).funcs, g = f ∨ (g ∈ m.funcs ∧ g.name ≠ x.name) ∨
      (g.external ∧ g.blocks = [] ∧ g.name ∉ xs.map (·.name)) := by
    intro g hg
    rcases mem_setFunc hg with rfl | ⟨hg, hne⟩
    · exact .inl rfl
    · rw [hnew] at hg
      rcases List.mem_append.mp hg with hg | hg
      · exact .inr (.inl ⟨hg, hname ▸ hne⟩)
      · obtain ⟨hext, hblocks⟩ := hexternal g hg
        refine Or.inr (.inr ⟨hext, hblocks, fun hmem => ?_⟩)
        obtain ⟨y, hy, hyname⟩ := List.mem_map.mp hmem
        have hold := hm.declared y (List.mem_cons_of_mem _ hy)
        have hnodup := hgrows.nodup hm.names
        rw [hnew, List.map_append, List.nodup_append] at hnodup
        exact hnodup.2.2 _ hold _ (List.mem_map_of_mem hg) hyname
  have hnotDone : ∀ {g : Func}, g = f → g.name ∉ xs.map (·.name) := by
    rintro g rfl hmem
    rw [hname] at hmem
    exact hfresh hmem
  refine ⟨⟨htyped.structs, htyped.globals, htyped.inits, htyped.strings, ?_⟩,
    by rw [setFunc_names]; exact hgrows.nodup hm.names, hbodies, ?_, ?_, ?_, ?_, ?_, ?_, ?_⟩
  · intro g hg
    rcases mem_setFunc hg with rfl | ⟨hg, -⟩
    · exact ⟨hdone.lowered.ret, fun v hv => (hdone.lowered.locals v hv).1⟩
    · exact htyped.funcs g hg
  · intro y hy
    rw [setFunc_names, hnew, List.map_append]
    exact List.mem_append_left _ (hm.declared y (List.mem_cons_of_mem _ hy))
  · intro g hg hint
    rcases hcases g hg with rfl | ⟨hg, hne⟩ | ⟨hext, -⟩
    · exact .inl ⟨hdone.wellFormed.mono hnames1 fun _ hc => hc, hdone.lowered,
        fun b hb i hi => (hdone.aimed b hb i hi).mono rfl rfl⟩
    · rcases hm.funcs g hg hint with hold | hmem
      · refine Or.inl ⟨hold.wellFormed.mono hkept fun c hc => ?_, hold.lowered,
          fun b hb i hi => (hold.aimed b hb i hi).mono hgrows.structs hgrows.globals⟩
        show c ∈ m1.strings
        rw [hstrings]
        exact List.mem_append_left _ hc
      · rw [List.map_cons, List.mem_cons] at hmem
        exact .inr (hmem.resolve_left hne)
    · exact absurd hint (by simp [hext])
  · intro g hg hmem
    rcases hcases g hg with rfl | ⟨hg, -⟩ | ⟨-, -, hnot⟩
    · exact hinternal
    · exact hm.internal g hg (by rw [List.map_cons]; exact List.mem_cons_of_mem _ hmem)
    · exact absurd hmem hnot
  · intro g hg hext
    rcases hcases g hg with rfl | ⟨hg, -⟩ | ⟨-, hblocks, -⟩
    · exact absurd hinternal (by simp [hext])
    · exact hm.external g hg hext
    · exact hblocks
  · intro g hg hmem
    rcases hcases g hg with rfl | ⟨hg, -⟩ | ⟨-, -, hnot⟩
    · exact absurd hmem (hnotDone rfl)
    · exact hm.locals g hg (by rw [List.map_cons]; exact List.mem_cons_of_mem _ hmem)
    · exact absurd hmem hnot
  · intro g hg c hc
    rw [show (m1.setFunc f).globals = m.globals from hgrows.globals] at hg
    show c ∈ m1.strings
    rw [hstrings]
    exact List.mem_append_left _ (hm.inits g hg c hc)
  · rw [show (m1.setFunc f).structs = m.structs from hgrows.structs]
    exact hm.structs

/-- What a function is reported with whose end can be reached. -/
def Pending.notice (x : Pending) : Notice := ⟨x.pos, s!"function {x.name} did not return"⟩

/-- A pending function is one of the module, and its body is lowered from its start. It is reported if
the end of its body can be reached, where what stands after a return counts as reached. -/
theorem lowerPending_cases (hm : InProgress u m (x :: xs)) (h : lowerPending u m x = .ok (m', notices)) :
    ∃ f ∈ m.funcs, ∃ b s, f.name = x.name ∧ f.external = false ∧
      lowerBody ⟨u, x.ns, f.ret⟩ x.body (State.start m f) = .ok (b, s) ∧
      Runs ⟨u, x.ns, f.ret⟩ [] (State.start m f) s true ∧
      m' = s.module.setFunc { f with locals := s.locals, temps := s.temps, blocks := s.blocks } ∧
      notices = if x.body.continues true then [x.notice] else [] := by
  unfold lowerPending at h
  cases hf : m.func? x.name with
  | none =>
    rw [hf] at h
    exact absurd h (by simp [Outcome.crash])
  | some f =>
    rw [hf] at h
    obtain ⟨⟨open', s⟩, hbody, h⟩ := bind_ok h
    cases h
    obtain ⟨hmem, hname⟩ : f ∈ m.funcs ∧ f.name = x.name := Table.find?_some hf
    have hpending : f.name ∈ (x :: xs).map (·.name) := by
      rw [hname]
      simp
    have hsignature := hm.typed.funcs f hmem
    obtain ⟨hwf, hends⟩ := State.start_wf ⟨u, x.ns, f.ret⟩ hm.typed hsignature.2 (hm.locals f hmem hpending)
    obtain ⟨hr, rfl⟩ := lowerBody_runs hsignature.1 hwf hends hbody
    exact ⟨f, hmem, _, s, hname, hm.internal f hmem hpending, hbody, hr, rfl, rfl⟩

theorem lowerPending_inProgress (hm : InProgress u m (x :: xs))
    (h : lowerPending u m x = .ok (m', notices)) : InProgress u m' xs := by
  obtain ⟨f, hmem, b, s, hname, hinternal, -, hr, rfl, -⟩ := lowerPending_cases hm h
  exact hm.setFunc hr.advances.module hr.wf.orderly.typed hname hinternal
    (hr.wf.done hr.ends (hm.typed.funcs f hmem).1)

/-- What lowering one body keeps, lowering all of them keeps. -/
theorem lowerAllPending_keeps {P : Module → Prop}
    (hstep : ∀ {m m' x xs notices}, InProgress u m (x :: xs) → P m →
      lowerPending u m x = .ok (m', notices) → P m') :
    ∀ {xs : List Pending} {m m' : Module} {notices : List Notice}, InProgress u m xs → P m →
      lowerAllPending u m xs = .ok (m', notices) → InProgress u m' [] ∧ P m' := by
  intro xs
  induction xs with
  | nil =>
    intro m m' notices hm hP h
    cases h
    exact ⟨hm, hP⟩
  | cons x xs ih =>
    intro m m' notices hm hP h
    obtain ⟨⟨m1, notices1⟩, h1, h⟩ := bind_ok h
    obtain ⟨⟨m2, notices2⟩, h2, h⟩ := bind_ok h
    cases h
    have h1 := within_eq_ok h1
    exact ih (lowerPending_inProgress hm h1) (hstep hm hP h1) h2

/-- In a module whose functions have different names each is found by its name. -/
theorem func?_of_mem (hnames : (m.funcs.map (·.name)).Nodup) (hf : f ∈ m.funcs) : m.func? f.name = some f :=
  Table.find?_of_mem hnames hf

/-- What lowering a pending function does to the module: its function gets the blocks of its body, and
the others stay. -/
theorem lowerPending_lowered (hm : InProgress u m (x :: xs)) (h : lowerPending u m x = .ok (m', notices)) :
    (∀ f ∈ m.funcs, f.name = x.name → ∃ b s,
      lowerBody ⟨u, x.ns, f.ret⟩ x.body (State.start m f) = .ok (b, s) ∧
        { f with locals := s.locals, temps := s.temps, blocks := s.blocks } ∈ m'.funcs) ∧
    ∀ g ∈ m.funcs, g.name ≠ x.name → g ∈ m'.funcs := by
  obtain ⟨f, hmem, b, s, hname, -, hbody, hr, rfl, -⟩ := lowerPending_cases hm h
  obtain ⟨new, hnew, -⟩ := hr.advances.module.funcs
  have hkept : ∀ g ∈ m.funcs, g ∈ s.module.funcs := by
    intro g hg
    rw [hnew]
    exact List.mem_append_left _ hg
  refine ⟨fun f' hf' hname' => ?_, fun g hg hne => ?_⟩
  · obtain rfl : f' = f := List.inj_on_of_nodup_map hm.names hf' hmem (hname'.trans hname.symm)
    refine ⟨b, s, hbody, List.mem_map.mpr ⟨f', hkept f' hf', ?_⟩⟩
    rw [if_pos (by simp)]
  · refine List.mem_map.mpr ⟨g, hkept g hg, ?_⟩
    rw [if_neg (by simpa [hname] using hne)]

/-- Every function that waited for its body has the blocks of the body in the end. -/
theorem lowerAllPending_lowered : ∀ {xs : List Pending} {m m' : Module}
    {notices : List Notice}, InProgress u m xs → lowerAllPending u m xs = .ok (m', notices) →
    (∀ x ∈ xs, ∀ f ∈ m.funcs, f.name = x.name → ∃ m1 b s, Typed m1 ∧
      lowerBody ⟨u, x.ns, f.ret⟩ x.body (State.start m1 f) = .ok (b, s) ∧
        { f with locals := s.locals, temps := s.temps, blocks := s.blocks } ∈ m'.funcs) ∧
    ∀ g ∈ m.funcs, g.name ∉ xs.map (·.name) → g ∈ m'.funcs := by
  intro xs
  induction xs with
  | nil =>
    intro m m' notices _ h
    cases h
    exact ⟨by simp, fun g hg _ => hg⟩
  | cons x xs ih =>
    intro m m' notices hm h
    obtain ⟨⟨m1, notices1⟩, h1, h⟩ := bind_ok h
    obtain ⟨⟨m2, notices2⟩, h2, h⟩ := bind_ok h
    cases h
    have h1 := within_eq_ok h1
    obtain ⟨hfirst, hothers⟩ := lowerPending_lowered hm h1
    obtain ⟨hrest, hkept⟩ := ih (lowerPending_inProgress hm h1) h2
    have hfresh := (List.nodup_cons.mp hm.bodies).1
    refine ⟨fun y hy f hf hname => ?_, fun g hg hnot => ?_⟩
    · rcases List.mem_cons.mp hy with rfl | hy
      · obtain ⟨b, s, hbody, hmem⟩ := hfirst f hf hname
        exact ⟨m, b, s, hm.typed, hbody, hkept _ hmem (by rw [hname]; exact hfresh)⟩
      · have hne : f.name ≠ x.name := by
          intro he
          exact hfresh (List.mem_map.mpr ⟨y, hy, hname.symm.trans he⟩)
        exact hrest y hy f (hothers f hf hne) hname
    · rw [List.map_cons, List.mem_cons, not_or] at hnot
      exact hkept g (hothers g hg hnot.1) hnot.2

/-! ## Files -/

/-- What is declared and laid out waits for the bodies only. -/
theorem Declared.Sound.inProgress {d : Declared} (hd : d.Sound) (htyped : Typed d.module)
    {st : LayoutState} (h : layoutAll u d.module = .ok st) :
    InProgress st.types st.module d.bodies := by
  obtain ⟨hst, hdone⟩ := layoutAll_done hd.structs hd.layouts h
  refine ⟨hst.typed htyped, ?_, hd.bodies, ?_, ?_, ?_, ?_, ?_, ?_, hdone⟩
  · rw [hst.funcs]
    exact hd.names
  · rw [hst.funcs]
    exact hd.declared
  · intro f hf hinternal
    rw [hst.funcs] at hf
    exact .inr ((hd.pending f hf).mp hinternal)
  · intro f hf hmem
    rw [hst.funcs] at hf
    exact (hd.pending f hf).mpr hmem
  · intro f hf _
    rw [hst.funcs] at hf
    exact hd.blocks f hf
  · intro f hf _
    rw [hst.funcs] at hf
    exact hd.locals f hf
  · rw [hst.globals, hst.strings]
    exact hd.inits

/-- The steps of lowering a file: structs, declarations, layouts and bodies. -/
theorem lowerFile_steps {r : Lowered} (h : lowerFile u file = .ok r) : ∃ d st, d.Sound ∧ Typed d.module ∧
      (∃ m, addAllStructs "" .empty file.stmts = .ok m ∧ declareAll u "" ⟨m, []⟩ file.stmts = .ok d) ∧
      layoutAll u d.module = .ok st ∧ r.types = st.types ∧
      lowerAllPending st.types st.module d.bodies = .ok (r.module, r.notices) := by
  obtain ⟨m, hm, h⟩ := bind_ok h
  obtain ⟨d, hd, h⟩ := bind_ok h
  obtain ⟨st, hst, h⟩ := bind_ok h
  obtain ⟨⟨m', notices⟩, hm', h⟩ := bind_ok h
  cases h
  have hm := within_eq_ok hm
  have hd := within_eq_ok hd
  have hsound := declareAll_keeps Declaring.sound file.stmts (addAllStructs_discovered hm).declared hd
  have htyped : Typed d.module :=
    declareAll_keeps (I := (Typed ·.module)) Declaring.typed file.stmts (addAllStructs_typed hm) hd
  exact ⟨d, st, hsound, htyped, ⟨m, hm, hd⟩, within_eq_ok hst, rfl, hm'⟩

theorem lowerFile_inProgress {r : Lowered} (h : lowerFile u file = .ok r) :
    InProgress r.types r.module [] := by
  obtain ⟨d, st, hsound, htyped, -, hst, htypes, hm'⟩ := lowerFile_steps h
  rw [htypes]
  exact (lowerAllPending_keeps (P := fun _ => True) (fun _ _ _ => trivial)
    (hsound.inProgress htyped hst) trivial hm').1

/-- Every module that comes out of lowering a file is well formed. So it can be printed, and the
liveness of each of its functions can be computed. -/
theorem lowerFile_wellFormed {u : Universe} {file : Program.File} {r : Lowered}
    (h : lowerFile u file = .ok r) :
    r.module.WellFormed ∧ (∀ u' out, ∃ text, r.module.dump u' out = .ok text) ∧
      ∀ f ∈ r.module.funcs, ∃ facts, Liveness.analyze f = .ok facts := by
  have hdone := lowerFile_inProgress h
  have hwf := hdone.wellFormed
  refine ⟨hwf, fun u' out => Module.dump_ok hwf u' out, ?_⟩
  intro f hf
  cases hext : f.external with
  | false => exact Liveness.analyze_ok (hwf.funcs f hf hext).jumps (hwf.funcs f hf hext).code
  | true =>
    have hblocks := hdone.external f hf hext
    exact Liveness.analyze_ok (m := r.module) (by simp [hblocks]) (by simp [hblocks])

/-- A function with an endless-looking loop that is left by a return, and statements after one. -/
def returningLoop : Program.File :=
  let p : Position := default
  let n := Program.Expr.ident p "n"
  ⟨"loop", [.func p "f" true [⟨"n", ⟨"int", 0⟩⟩] ⟨"int", 0⟩ (some (.mk p [
    .while p (.binary p "<" (.int p 0) n) (some (.mk p [
      .cond p [.mk (.binary p "==" n (.int p 5)) (some (.mk p [.return p (some n), .expr p n]))]
        (some (.mk p [.set p "n" "-=" (.int p 1)]))]))]))]⟩

theorem lowerFile_wellFormed_returningLoop : ∃ r, lowerFile (Universe.make 64 false) returningLoop = .ok r ∧
      r.module.WellFormed ∧ (∀ u' out, ∃ text, r.module.dump u' out = .ok text) ∧
      ∀ f ∈ r.module.funcs, ∃ facts, Liveness.analyze f = .ok facts := by
  have hok : (lowerFile (Universe.make 64 false) returningLoop).isOk = true := by
    decide +kernel
  obtain ⟨r, hr⟩ := Outcome.exists_ok hok
  exact ⟨r, hr, lowerFile_wellFormed hr⟩

end TreeAsm.Lowering
