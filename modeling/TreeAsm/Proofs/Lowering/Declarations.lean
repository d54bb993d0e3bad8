import TreeAsm.Proofs.Lowering.Steps

/-!
# What the declarations of a program amount to

After the declarations are collected every function has a name of its own, its variables are its
parameters in order, and it is either external or waits for its body (`Declared.Sound`). Laying out
the structs gives each of them an offset for every field (`layoutAll_done`): a struct is laid out
after those it holds, from the fields it was declared with, and laying out another one never takes
that back.
-/

namespace TreeAsm.Lowering

open Ir
open Program (FieldDecl Param Stmt TypeRef)
open Outcome (bind_ok within_eq_ok)

/-! ## Structs -/

/-- The modules before anything but the names of structs is known. -/
structure Discovered (m : Module) : Prop where
  names : (m.structs.map (·.name)).Nodup
  layouts : ∀ s ∈ m.structs, s.layout? = none
  empty : m.funcs = [] ∧ m.globals = [] ∧ m.strings = []

mutual

theorem addStructs_keeps {I : Module → Prop} (hstep : ∀ m m' s, s.fields = [] → s.layout? = none →
      m.addStruct s = .ok m' → I m → I m') :
    ∀ (st : Stmt) {ns : String} {m m' : Module}, I m → addStructs ns m st = .ok m' → I m' := by
  intro st ns m m' hm h
  cases st with
  | space _ _ body => exact addAllStructs_keeps hstep body hm (within_eq_ok h)
  | struct => exact hstep _ _ _ rfl rfl h hm
  | _ => exact Except.ok.inj h ▸ hm

/-- What every new struct without fields preserves holds after all structs have been found. -/
theorem addAllStructs_keeps {I : Module → Prop} (hstep : ∀ m m' s, s.fields = [] →
      s.layout? = none → m.addStruct s = .ok m' → I m → I m') :
    ∀ (stmts : List Stmt) {ns : String} {m m' : Module}, I m → addAllStructs ns m stmts = .ok m' → I m'
  | [], _, _, _, hm, h => Except.ok.inj h ▸ hm
  | st :: rest, _, _, _, hm, h => by
    obtain ⟨m1, h1, h⟩ := bind_ok h
    exact addAllStructs_keeps hstep rest (addStructs_keeps hstep st hm h1) h

end

variable {m m' : Module} {u : Universe} {ns name : String} {d : Declared} {f : Func} {s : Struct}
  {st : LayoutState} {params : List Param} {init : Option Program.Expr} {packed : Bool}

theorem Module.addStruct_ok (h : m.addStruct s = .ok m') : s.name ∉ m.structs.map (·.name) ∧
    m' = { m with structTable := .ofList (m.structs ++ [s]) } :=
  Module.ok_of_new (m.addStruct_eq s ▸ h)

theorem discovered_empty : Discovered Module.empty :=
  ⟨List.nodup_nil, List.forall_mem_nil _, rfl, rfl, rfl⟩

theorem addAllStructs_discovered {stmts : List Stmt} (h : addAllStructs ns .empty stmts = .ok m) :
    Discovered m := by
  refine addAllStructs_keeps (fun m m' s _ hlayout h hm => ?_) stmts discovered_empty h
  obtain ⟨hnew, rfl⟩ := Module.addStruct_ok h
  exact ⟨nodup_names_append hm.names hnew, forall_mem_concat hm.layouts hlayout, hm.empty⟩

/-! ## Functions and global variables -/

/-- The numbers of parameters are their places. -/
theorem paramLocals_index :
    ∀ {params : List Param} {n : Nat} {vs : List Local}, paramLocals u m ns n params = .ok vs →
      ∀ i v, vs[i]? = some v → v.index = n + i := by
  intro params
  induction params with
  | nil =>
    intro n vs h i v hv
    cases h
    cases hv
  | cons p params ih =>
    intro n vs h i v hv
    obtain ⟨t, ht, h⟩ := bind_ok h
    obtain ⟨ws, hws, h⟩ := bind_ok h
    cases h
    cases i with
    | zero =>
      rw [List.getElem?_cons_zero, Option.some.injEq] at hv
      rw [← hv]
      rfl
    | succ i =>
      rw [List.getElem?_cons_succ] at hv
      have := ih hws i v hv
      omega

theorem paramLocals_numbered {vs : List Local} (h : paramLocals u m ns 0 params = .ok vs) :
    ∀ v ∈ vs, vs[v.index]? = some v := by
  intro v hv
  obtain ⟨i, hi⟩ := List.mem_iff_getElem?.mp hv
  have hindex := paramLocals_index h i v hi
  rw [hindex, Nat.zero_add, hi]

/-- What the declarations found so far amount to. -/
structure Declared.Sound (d : Declared) : Prop where
  names : (d.module.funcs.map (·.name)).Nodup
  bodies : (d.bodies.map (·.name)).Nodup
  declared : ∀ x ∈ d.bodies, x.name ∈ d.module.funcs.map (·.name)
  pending : ∀ f ∈ d.module.funcs, f.external = false ↔ f.name ∈ d.bodies.map (·.name)
  blocks : ∀ f ∈ d.module.funcs, f.blocks = []
  locals : ∀ f ∈ d.module.funcs, ∀ v ∈ f.locals, f.locals[v.index]? = some v
  inits : ∀ g ∈ d.module.globals, ∀ c, g.init = some (.str c) → c ∈ d.module.strings
  structs : (d.module.structs.map (·.name)).Nodup
  layouts : ∀ s ∈ d.module.structs, s.layout? = none

theorem Discovered.declared (h : Discovered m) : (⟨m, []⟩ : Declared).Sound := by
  obtain ⟨hfuncs, hglobals, -⟩ := h.empty
  refine ⟨?_, by simp, by simp, ?_, ?_, ?_, ?_, h.names, h.layouts⟩
  · rw [hfuncs]
    simp
  · intro f hf
    rw [hfuncs] at hf
    cases hf
  · intro f hf
    rw [hfuncs] at hf
    cases hf
  · intro f hf
    rw [hfuncs] at hf
    cases hf
  · intro g hg
    rw [hglobals] at hg
    cases hg

theorem Module.addFunc_ok (h : m.addFunc f = .ok m') : f.name ∉ m.funcs.map (·.name) ∧
    m' = { m with funcTable := .ofList (m.funcs ++ [f]) } :=
  Module.ok_of_new (m.addFunc_eq f ▸ h)

theorem Module.addGlobal_ok {g : Global} (h : m.addGlobal g = .ok m') : g.name ∉ m.globals.map (·.name) ∧
    m' = { m with globalTable := .ofList (m.globals ++ [g]) } :=
  Module.ok_of_new (m.addGlobal_eq g ▸ h)

theorem signature_ok {ret : TypeRef} (h : signature u m ns name params ret = .ok f) :
    f.blocks = [] ∧ ∀ v ∈ f.locals, f.locals[v.index]? = some v := by
  obtain ⟨t, ht, h⟩ := bind_ok h
  obtain ⟨vs, hvs, h⟩ := bind_ok h
  cases h
  exact ⟨rfl, paramLocals_numbered hvs⟩

/-- Adding an external function. -/
theorem Declared.Sound.addExternal (hd : d.Sound) (h : d.module.addFunc f = .ok m)
    (hexternal : f.external) (hblocks : f.blocks = [])
    (hlocals : ∀ v ∈ f.locals, f.locals[v.index]? = some v) : (⟨m, d.bodies⟩ : Declared).Sound := by
  obtain ⟨hnew, rfl⟩ := Module.addFunc_ok h
  refine ⟨nodup_names_append hd.names hnew, hd.bodies, ?_, forall_mem_concat hd.pending ?_,
    forall_mem_concat hd.blocks hblocks, forall_mem_concat hd.locals hlocals, hd.inits, hd.structs,
    hd.layouts⟩
  · intro x hx
    rw [List.map_append]
    exact List.mem_append_left _ (hd.declared x hx)
  · rw [hexternal]
    refine ⟨fun hfalse => absurd hfalse (by simp), fun hmem => ?_⟩
    obtain ⟨y, hy, hname⟩ := List.mem_map.mp hmem
    exact absurd (hname ▸ hd.declared y hy) hnew

/-- Adding a function that waits for its body. -/
theorem Declared.Sound.addPending (hd : d.Sound) {x : Pending} (h : d.module.addFunc f = .ok m)
    (hname : x.name = f.name) (hinternal : f.external = false) (hblocks : f.blocks = [])
    (hlocals : ∀ v ∈ f.locals, f.locals[v.index]? = some v) :
    (⟨m, d.bodies ++ [x]⟩ : Declared).Sound := by
  obtain ⟨hnew, rfl⟩ := Module.addFunc_ok h
  have hfresh : x.name ∉ d.bodies.map (·.name) := by
    intro hmem
    obtain ⟨y, hy, hxy⟩ := List.mem_map.mp hmem
    have hdeclared := hd.declared y hy
    rw [hxy, hname] at hdeclared
    exact hnew hdeclared
  refine ⟨nodup_names_append hd.names hnew, nodup_names_append hd.bodies hfresh, ?_, ?_,
    forall_mem_concat hd.blocks hblocks, forall_mem_concat hd.locals hlocals, hd.inits, hd.structs,
    hd.layouts⟩
  · intro y hy
    rw [List.map_append, List.mem_append]
    rcases List.mem_append.mp hy with hy | hy
    · exact .inl (hd.declared y hy)
    · rw [List.mem_singleton.mp hy, hname]
      exact .inr (by simp)
  · intro g hg
    rw [List.map_append, List.mem_append, List.map_singleton, List.mem_singleton, hname]
    rcases List.mem_append.mp hg with hg | hg
    · rw [hd.pending g hg]
      refine ⟨.inl, fun hor => hor.resolve_right fun heq => hnew ?_⟩
      rw [← heq]
      exact List.mem_map_of_mem hg
    · rw [List.mem_singleton.mp hg]
      exact ⟨fun _ => .inr rfl, fun _ => hinternal⟩

/-- Adding a global variable to a module that may have got more strings. -/
theorem Declared.Sound.addGlobal (hd : d.Sound) {g : Global} {m1 : Module}
    (hgrows : Grows d.module m1) (hfuncs : m1.funcs = d.module.funcs)
    (hinit : ∀ c, g.init = some (.str c) → c ∈ m1.strings) (h : m1.addGlobal g = .ok m) :
    (⟨m, d.bodies⟩ : Declared).Sound := by
  rw [(Module.addGlobal_ok h).2]
  refine ⟨by rw [hfuncs]; exact hd.names, hd.bodies, by rw [hfuncs]; exact hd.declared,
    by rw [hfuncs]; exact hd.pending, by rw [hfuncs]; exact hd.blocks,
    by rw [hfuncs]; exact hd.locals, ?_, by rw [hgrows.structs]; exact hd.structs,
    by rw [hgrows.structs]; exact hd.layouts⟩
  intro g' hg' c hc
  rcases List.mem_append.mp hg' with hg' | hg'
  · rw [hgrows.globals] at hg'
    obtain ⟨new, hnew⟩ := hgrows.strings
    rw [hnew]
    exact List.mem_append_left _ (hd.inits g' hg' c hc)
  · rw [List.mem_singleton.mp hg'] at hc
    exact hinit c hc

/-- The value a variable starts with is a number, or a string that is now in the module. -/
theorem constantInit_cases {e : Program.Expr} {x : Operand} (h : constantInit m e = .ok (x, m')) :
    (∃ value t, x = .int value t ∧ m' = m) ∨
      ∃ value, x = .str (m.intern value (.ptr .byte)).1 ∧ m' = (m.intern value (.ptr .byte)).2 := by
  unfold constantInit at h
  split at h
  · cases h
    exact .inl ⟨_, _, rfl, rfl⟩
  · split at h
    · cases h
      exact .inl ⟨_, _, rfl, rfl⟩
    · cases h
  next value =>
    obtain ⟨hx, hm⟩ := Prod.mk.inj (Except.ok.inj h)
    exact .inr ⟨value, hx.symm, hm.symm⟩
  · cases h

theorem constantInit_ok {e : Program.Expr} {x : Operand} (h : constantInit m e = .ok (x, m')) :
    Grows m m' ∧ m'.funcs = m.funcs ∧ ∀ c, x = .str c → c ∈ m'.strings := by
  obtain ⟨value, t, rfl, rfl⟩ | ⟨value, rfl, rfl⟩ := constantInit_cases h
  · exact ⟨Grows.refl _, rfl, by simp⟩
  · obtain ⟨hgrows, hmem⟩ := Grows.intern m value (.ptr .byte)
    refine ⟨hgrows, ?_, ?_⟩
    · rcases m.intern_cases value (.ptr .byte) with ⟨_, _, _, heq⟩ | ⟨_, heq⟩ <;> rw [heq]
    · intro c hc
      cases hc
      exact hmem

theorem globalInit_ok {x : Option Operand} (h : globalInit m init = .ok (x, m')) :
    Grows m m' ∧ m'.funcs = m.funcs ∧ ∀ c, x = some (.str c) → c ∈ m'.strings := by
  cases init with
  | none =>
    cases h
    exact ⟨Grows.refl _, rfl, by simp⟩
  | some e =>
    obtain ⟨⟨y, m1⟩, h1, h⟩ := bind_ok h
    cases h
    obtain ⟨hgrows, hfuncs, hmem⟩ := constantInit_ok h1
    exact ⟨hgrows, hfuncs, fun c hc => hmem c (Option.some.inj hc)⟩

theorem declareGlobal_sound {ref : TypeRef} (hd : d.Sound)
    (h : declareGlobal u d.module ns name ref init = .ok m) : (⟨m, d.bodies⟩ : Declared).Sound := by
  obtain ⟨written, -, h⟩ := bind_ok h
  obtain ⟨⟨value, m1⟩, h1, h⟩ := bind_ok h
  obtain ⟨_, -, h⟩ := bind_ok h
  obtain ⟨hgrows, hfuncs, hmem⟩ := globalInit_ok h1
  refine hd.addGlobal hgrows hfuncs ?_ h
  intro c hc
  cases value with
  | none => cases hc
  | some x =>
    cases x with
    | str c' =>
      rw [← Operand.str.inj (Option.some.inj hc)]
      exact hmem c' rfl
    | _ => cases hc

theorem setFields_sound (hd : d.Sound) (name : String) (fields : List Field) :
    ({ d with module := d.module.setFields name fields } : Declared).Sound := by
  refine ⟨hd.names, hd.bodies, hd.declared, hd.pending, hd.blocks, hd.locals, hd.inits, ?_, ?_⟩
  · have hnames : (d.module.setFields name fields).structs.map (·.name)
        = d.module.structs.map (·.name) := by
      rw [Module.setFields, Table.modify, List.map_map]
      refine List.map_congr_left fun s _ => ?_
      rw [Function.comp_apply]
      split <;> rfl
    rw [hnames]
    exact hd.structs
  · intro s hs
    obtain ⟨s', hs', rfl⟩ := List.mem_map.mp hs
    have hnone := hd.layouts s' hs'
    split <;> exact hnone

/-- One declaration in a namespace: the fields of a struct, a function that is external or waits for
its body, or a global variable that is external or not. -/
inductive Declaring (u : Universe) (ns : String) (d : Declared) : Declared → Prop
  | fields {name : String} {decls : List FieldDecl} {fs : List Field}
      (h : structFields u d.module ns name decls = .ok fs) :
      Declaring u ns d { d with module := d.module.setFields name fs }
  | external {name : String} {params : List Param} {ret : TypeRef} {f : Func} {isPublic : Bool}
      {m : Module} (hf : signature u d.module ns name params ret = .ok f)
      (h : d.module.addFunc { f with isPublic := isPublic, external := true } = .ok m) :
      Declaring u ns d ⟨m, d.bodies⟩
  | pending {name : String} {params : List Param} {ret : TypeRef} {f : Func} {isPublic : Bool}
      {m : Module} {x : Pending} (hf : signature u d.module ns name params ret = .ok f)
      (h : d.module.addFunc { f with isPublic := isPublic, external := false } = .ok m)
      (hx : x.name = f.name) : Declaring u ns d ⟨m, d.bodies ++ [x]⟩
  | outside {name : String} {ref : TypeRef} {t : Ty} {m : Module}
      (ht : resolveType u d.module ns ref = .ok t)
      (h : d.module.addGlobal ⟨name, t, none, true⟩ = .ok m) : Declaring u ns d ⟨m, d.bodies⟩
  | global {name : String} {ref : TypeRef} {init : Option Program.Expr} {m : Module}
      (h : declareGlobal u d.module ns name ref init = .ok m) : Declaring u ns d ⟨m, d.bodies⟩

mutual

theorem declare_keeps {u : Universe} {I : Declared → Prop}
    (hstep : ∀ {ns d d'}, Declaring u ns d d' → I d → I d') :
    ∀ (st : Stmt) {ns : String} {d d' : Declared}, I d → declare u ns d st = .ok d' → I d' := by
  intro st ns d d' hd h
  cases st with
  | space _ name body => exact declareAll_keeps hstep body hd (within_eq_ok h)
  | struct _ name _ _ fields =>
    obtain ⟨fs, hfs, h⟩ := bind_ok h
    cases h
    exact hstep (.fields hfs) hd
  | func pos name isPublic params ret body =>
    obtain ⟨f, h1, h⟩ := bind_ok h
    obtain ⟨m, h2, h⟩ := bind_ok h
    cases body with
    | none =>
      cases h
      exact hstep (.external (within_eq_ok h1) h2) hd
    | some b =>
      cases h
      exact hstep (.pending (within_eq_ok h1) h2 rfl) hd
  | outside _ name isVar params ret =>
    cases isVar with
    | true =>
      obtain ⟨t, ht, h⟩ := bind_ok h
      obtain ⟨m, h2, h⟩ := bind_ok h
      cases h
      exact hstep (.outside (within_eq_ok ht) h2) hd
    | false =>
      obtain ⟨f, h1, h⟩ := bind_ok h
      obtain ⟨m, h2, h⟩ := bind_ok h
      cases h
      exact hstep (.external (within_eq_ok h1) h2) hd
  | var _ name ref init =>
    obtain ⟨m, h1, h⟩ := bind_ok h
    cases h
    exact hstep (.global (within_eq_ok h1)) hd
  | _ => simp [declare, Outcome.fail] at h

/-- What every declaration preserves holds after all of them. -/
theorem declareAll_keeps {u : Universe} {I : Declared → Prop}
    (hstep : ∀ {ns d d'}, Declaring u ns d d' → I d → I d') :
    ∀ (stmts : List Stmt) {ns : String} {d d' : Declared}, I d → declareAll u ns d stmts = .ok d' → I d'
  | [], _, _, _, hd, h => Except.ok.inj h ▸ hd
  | st :: rest, _, _, _, hd, h => by
    obtain ⟨d1, h1, h⟩ := bind_ok h
    exact declareAll_keeps hstep rest (declare_keeps hstep st hd h1) h

end

theorem Declaring.sound {d' : Declared} (h : Declaring u ns d d') (hd : d.Sound) : d'.Sound := by
  cases h with
  | fields h => exact setFields_sound hd _ _
  | external hf h => exact hd.addExternal h rfl (signature_ok hf).1 (signature_ok hf).2
  | pending hf h hx => exact hd.addPending h hx rfl (signature_ok hf).1 (signature_ok hf).2
  | outside ht h => exact hd.addGlobal (Grows.refl _) rfl (by simp) h
  | global h => exact declareGlobal_sound hd h

/-! ## Layouts -/

theorem place_length : ∀ {fields : List Field} {off align : Int64}
    {r : List Int64 × Int64 × Int64}, Layout.place u packed fields off align = .ok r →
    r.1.length = fields.length := by
  intro fields
  induction fields with
  | nil =>
    intro off align r h
    cases h
    rfl
  | cons f fields ih =>
    intro off align r h
    rw [Layout.place] at h
    split at h
    · cases h
    · obtain ⟨start, -, h⟩ := bind_ok h
      obtain ⟨r', hr', h⟩ := bind_ok h
      cases h
      rw [List.length_cons, List.length_cons, ih hr']

theorem compute_length {fields : List Field} {l : Layout}
    (h : Layout.compute u fields packed = .ok l) : l.offsets.length = fields.length := by
  obtain ⟨⟨offsets, stop, align⟩, hplace, h⟩ := bind_ok h
  have hlen := place_length hplace
  cases packed with
  | true =>
    cases h
    exact hlen
  | false =>
    obtain ⟨size, -, h⟩ := bind_ok h
    cases h
    exact hlen

/-- A module in which some structs of another one have been laid out. -/
structure Layouts (m0 m : Module) : Prop where
  shapes : m.structs.map (fun s => (s.name, s.fields)) = m0.structs.map fun s => (s.name, s.fields)
  offsets : ∀ s ∈ m.structs, ∀ l, s.layout? = some l → l.offsets.length = s.fields.length
  funcs : m.funcs = m0.funcs
  globals : m.globals = m0.globals
  strings : m.strings = m0.strings

/-- Whether the structs with a name are laid out. -/
def LaidOut (m : Module) (name : String) : Prop :=
  ∀ s ∈ m.structs, s.name = name → s.layout?.isSome = true

variable {m0 : Module}

theorem Layouts.names (h : Layouts m0 m) : m.structs.map (·.name) = m0.structs.map (·.name) := by
  have hfst := congrArg (List.map Prod.fst) h.shapes
  rw [List.map_map, List.map_map] at hfst
  exact hfst

theorem Layouts.mem_shapes (h : Layouts m0 m) (hs : s ∈ m.structs) :
    (s.name, s.fields) ∈ m0.structs.map fun s => (s.name, s.fields) := by
  rw [← h.shapes]
  exact List.mem_map_of_mem hs

/-- Structs with one name have the same fields, however far they are laid out. -/
theorem Layouts.fields_eq (hnames : (m0.structs.map (·.name)).Nodup) (h : Layouts m0 m)
    (h' : Layouts m0 m') {s' : Struct} (hs : s ∈ m.structs) (hs' : s' ∈ m'.structs)
    (hname : s.name = s'.name) : s.fields = s'.fields := by
  have hnodup : ((m0.structs.map fun s => (s.name, s.fields)).map Prod.fst).Nodup := by
    rw [List.map_map]
    exact hnames
  exact congrArg Prod.snd (List.inj_on_of_nodup_map hnodup (h.mem_shapes hs) (h'.mem_shapes hs') hname)

/-- Giving a struct a layout that has an offset for each of its fields. -/
theorem Layouts.setLayout (h : Layouts m0 m) {l : Layout}
    (hl : ∀ s ∈ m.structs, s.name = name → l.offsets.length = s.fields.length) :
    Layouts m0 (m.setLayout name l) := by
  refine ⟨?_, ?_, h.funcs, h.globals, h.strings⟩
  · rw [← h.shapes, Module.setLayout, Table.modify, List.map_map]
    refine List.map_congr_left fun s _ => ?_
    rw [Function.comp_apply]
    split <;> rfl
  · intro s hs l' hl'
    obtain ⟨s', hs', rfl⟩ := List.mem_map.mp hs
    by_cases hname : s'.name == name
    · rw [if_pos hname] at hl' ⊢
      cases hl'
      exact hl s' hs' (by simpa using hname)
    · rw [if_neg hname] at hl' ⊢
      exact h.offsets s' hs' l' hl'

/-- A struct that gets a layout is laid out, and so are those that were. -/
theorem laidOut_setLayout {x : String} (l : Layout) (h : x = name ∨ LaidOut m x) :
    LaidOut (m.setLayout name l) x := by
  intro s hs hx
  obtain ⟨s', hs', rfl⟩ := List.mem_map.mp hs
  by_cases hn : s'.name == name
  · rw [if_pos hn]
    rfl
  · rw [if_neg hn] at hx ⊢
    exact h.resolve_left (fun h => hn (by rw [hx, h, beq_self_eq_true])) s' hs' hx

/-- A struct that is found laid out is the one with its name. -/
theorem laidOut_of_struct (hnames : (m0.structs.map (·.name)).Nodup) (h : Layouts m0 m)
    (hs : m.struct? name = some s) (hdone : s.layout?.isSome) : LaidOut m name := by
  intro s' hs' hname
  obtain ⟨hmem, hs0⟩ := Table.find?_some hs
  rw [← h.names] at hnames
  rw [List.inj_on_of_nodup_map hnames hs' hmem (hname.trans hs0.symm)]
  exact hdone

/-- Lays out what a field of a struct holds. -/
def layoutField (fuel : Nat) (path : List String) (name : String) (st : LayoutState) (f : Field) :
    Outcome LayoutState :=
  if !f.type.isRecord then .ok st
  else if (st.module.struct? f.type.name).isNone then
    .fail (.unknownFieldStruct name f.name f.type.name)
  else (layoutStruct fuel (name :: path) st f.type.name).within s!"struct {name}"

/-- A struct is laid out already, or it is laid out from its fields after what they hold. -/
theorem layoutStruct_cases {fuel : Nat} {path : List String} {st' : LayoutState}
    (h : layoutStruct fuel path st name = .ok st') :
    ∃ s, st.module.struct? name = some s ∧ (s.layout?.isSome ∧ st' = st ∨
      ∃ fuel' st1 l, fuel = fuel' + 1 ∧ s.fields.foldlM (layoutField fuel' path name) st = .ok st1 ∧
        Layout.compute st1.types s.fields s.packed = .ok l ∧
        st' = ⟨st1.module.setLayout name l, st1.types.setLayout name l.size l.align⟩) := by
  unfold layoutStruct at h
  cases hs : st.module.struct? name with
  | none =>
    rw [hs] at h
    cases h
  | some s =>
    rw [hs] at h
    dsimp only at h
    split at h
    next hdone =>
      cases h
      exact ⟨s, rfl, .inl ⟨hdone, rfl⟩⟩
    next =>
      split at h
      · cases h
      · cases fuel with
        | zero => cases h
        | succ fuel =>
          obtain ⟨st1, h1, h⟩ := bind_ok h
          obtain ⟨l, hl, h⟩ := bind_ok h
          cases h
          exact ⟨s, rfl, .inr ⟨fuel, st1, l, rfl, h1, within_eq_ok hl, rfl⟩⟩

/-- What every new layout preserves holds after a struct has been laid out. -/
theorem layoutStruct_keeps {I : LayoutState → Prop}
    (hset : ∀ {st st' name s l}, I st → st.module.struct? name = some s → I st' →
      Layout.compute st'.types s.fields s.packed = .ok l →
      I ⟨st'.module.setLayout name l, st'.types.setLayout name l.size l.align⟩) :
    ∀ (fuel : Nat) {path : List String} {st st' : LayoutState} {name : String},
      layoutStruct fuel path st name = .ok st' → I st → I st' := by
  intro fuel
  induction fuel with
  | zero =>
    intro path st st' name h hst
    obtain ⟨s, -, ⟨-, rfl⟩ | ⟨fuel', _, _, hfuel, -⟩⟩ := layoutStruct_cases h
    · exact hst
    · cases hfuel
  | succ fuel ih =>
    intro path st st' name h hst
    obtain ⟨s, hs, ⟨-, rfl⟩ | ⟨fuel', st1, l, hfuel, hfold, hl, rfl⟩⟩ := layoutStruct_cases h
    · exact hst
    · cases hfuel
      refine hset hst hs (Outcome.foldlM_keeps (fun {st st' f} hf hst => ?_) hfold hst) hl
      unfold layoutField at hf
      split at hf
      · cases hf
        exact hst
      · split at hf
        · cases hf
        · exact ih (within_eq_ok hf) hst

theorem layoutStruct_layouts (hnames : (m0.structs.map (·.name)).Nodup) {fuel : Nat}
    {path : List String} {st' : LayoutState} (h : layoutStruct fuel path st name = .ok st')
    (hst : Layouts m0 st.module) : Layouts m0 st'.module := by
  refine layoutStruct_keeps (I := fun st => Layouts m0 st.module) (fun {st st' name s l} hst hs hst' hl =>
    hst'.setLayout fun s' hs' hname => ?_) fuel h hst
  obtain ⟨hmem, hs0⟩ := Table.find?_some hs
  rw [compute_length hl, Layouts.fields_eq hnames hst hst' hmem hs' (hs0.trans hname.symm)]

/-- After all structs are laid out, each of them has an offset for each of its fields. -/
theorem layoutAll_done (hnames : (m.structs.map (·.name)).Nodup)
    (hnone : ∀ s ∈ m.structs, s.layout? = none) (h : layoutAll u m = .ok st) :
    Layouts m st.module ∧
      ∀ s ∈ st.module.structs, ∃ l, s.layout? = some l ∧ l.offsets.length = s.fields.length := by
  have hfold : ∀ {xs : List Struct} {n : Nat} {st st' : LayoutState}, Layouts m st.module →
      xs.foldlM (fun st s => layoutStruct n [] st s.name) st = .ok st' →
      Layouts m st'.module ∧ ∀ x, (LaidOut st.module x ∨ ∃ s ∈ xs, s.name = x) → LaidOut st'.module x := by
    intro xs n
    induction xs with
    | nil =>
      intro st st' hst h
      cases h
      exact ⟨hst, fun _ hx => hx.resolve_right (by simp)⟩
    | cons s xs ih =>
      intro st st' hst h
      obtain ⟨st1, h1, h⟩ := bind_ok h
      obtain ⟨hst', hdone⟩ := ih (layoutStruct_layouts hnames h1 hst) h
      refine ⟨hst', fun x hx => hdone x ?_⟩
      rcases hx with hx | ⟨s', hs', rfl⟩
      · exact .inl (layoutStruct_keeps (I := fun st => LaidOut st.module x)
          (fun _ _ hst' _ => laidOut_setLayout _ (.inr hst')) n h1 hx)
      rcases List.mem_cons.mp hs' with rfl | hs'
      · obtain ⟨t, ht, ⟨hlaid, rfl⟩ | ⟨_, _, l, -, -, -, rfl⟩⟩ := layoutStruct_cases h1
        · exact .inl (laidOut_of_struct hnames hst ht hlaid)
        · exact .inl (laidOut_setLayout l (.inl rfl))
      · exact .inr ⟨s', hs', rfl⟩
  have hstart : Layouts m m := by
    refine ⟨rfl, ?_, rfl, rfl, rfl⟩
    intro s hs l hl
    rw [hnone s hs] at hl
    cases hl
  obtain ⟨hst, hdone⟩ := hfold hstart h
  refine ⟨hst, ?_⟩
  intro s hs
  have hmem : s.name ∈ m.structs.map (·.name) := by
    rw [← hst.names]
    exact List.mem_map_of_mem hs
  obtain ⟨l, hl⟩ := Option.isSome_iff_exists.mp (hdone s.name (.inr (List.mem_map.mp hmem)) s hs rfl)
  exact ⟨l, hl, hst.offsets s hs l hl⟩

end TreeAsm.Lowering
