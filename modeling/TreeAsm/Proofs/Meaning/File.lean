import TreeAsm.Proofs.Meaning.Function

/-!
# What a lowered file does

A function of the structured language is declared with variables of type `int` for its parameters, and
its body waits until all declarations are known (`declareAll_awaits`). The pending bodies are then
lowered one after another, and none of them touches the blocks of another function. So the module of a
file has, for each function of the language, blocks that do what its body does, whatever else the file
declares; and a file that declares only such functions, under different names, is always lowered
(`lowerFile_agrees`).
-/

namespace TreeAsm.Meaning

open Ir Lowering
open Program (Param Returns Stmt TypeRef isStructuredFunction)
open Outcome (bind_eq bind_ok)

/-! ## Declarations -/

/-- A function with a body that a file declares, under its full name. -/
structure Declaration where
  name : String
  params : List Param
  ret : TypeRef
  body : Program.Block

/-- Whether a declared function belongs to the structured language. -/
def Declaration.isStructured (d : Declaration) : Bool := isStructuredFunction d.params d.ret d.body

mutual

/-- The functions with a body that a statement at top level declares. -/
def declarations (ns : String) : Stmt → List Declaration
  | .space _ name body => allDeclarations (qualify ns name) body
  | .func _ name _ params ret (some body) => [⟨qualify ns name, params, ret, body⟩]
  | _ => []

/-- The functions with a body that statements at top level declare. -/
def allDeclarations (ns : String) : List Stmt → List Declaration
  | [] => []
  | st :: rest => declarations ns st ++ allDeclarations ns rest

end

mutual

/-- Whether a statement at top level declares only functions of the structured language. -/
def isStructuredDecl : Stmt → Bool
  | .space _ _ body => areStructuredDecls body
  | .func _ _ _ params ret (some body) => isStructuredFunction params ret body
  | _ => false

/-- Whether statements at top level declare only functions of the structured language. -/
def areStructuredDecls : List Stmt → Bool
  | [] => true
  | st :: rest => isStructuredDecl st && areStructuredDecls rest

end

theorem paramLocals_int (u : Universe) (m : Module) (ns : String) : ∀ {params : List Param} {n : Nat},
    params.all (·.type.isInt) → paramLocals u m ns n params = .ok (intParams n params) := by
  intro params
  induction params with
  | nil => intro n _; rfl
  | cons p rest ih =>
    intro n h
    rw [List.all_cons, Bool.and_eq_true] at h
    have hvalue : valueType u m ns p.type = .ok .int := by
      rw [valueType, resolveType_int h.1]
      exact bind_eq (checkValueType_int u)
    rw [paramLocals, hvalue, ih h.2]
    rfl

variable {m : Module} {u : Universe} {d d' : Declared} {ns : String} {params : List Param}
  {ret : TypeRef} {file : Program.File}

/-- The signature of a function of the structured language. -/
theorem signature_int (hparams : params.all (·.type.isInt)) (hret : ret.isInt)
    (u : Universe) (m : Module) (ns name : String) :
    signature u m ns name params ret = .ok ⟨name, .int, false, false, intParams 0 params, [], []⟩ := by
  rw [signature, resolveType_int hret, paramLocals_int u m ns hparams]
  rfl

theorem isStructuredFunction_iff {body : Program.Block} : isStructuredFunction params ret body ↔
      (params.all (·.type.isInt) ∧ ret.isInt) ∧ body.isStructured (params.map (·.name)) := by
  rw [isStructuredFunction, Bool.and_eq_true, Bool.and_eq_true]

/-- A pending body belongs to a function of the structured language. -/
def Awaits (m : Module) (x : Pending) (d : Declaration) : Prop :=
  x.name = d.name ∧ x.body = d.body ∧
    ∃ f ∈ m.funcs, f.name = d.name ∧ f.ret = .int ∧ f.locals = intParams 0 d.params

theorem Awaits.mono {m' : Module} {x : Pending} {d : Declaration} (h : Awaits m x d)
    (hm : m.funcs ⊆ m'.funcs) : Awaits m' x d := by
  obtain ⟨hname, hbody, f, hf, hsignature⟩ := h
  exact ⟨hname, hbody, f, hm hf, hsignature⟩

/-- Later declarations take nothing away from earlier ones. -/
structure Extends (d d' : Declared) : Prop where
  funcs : d.module.funcs ⊆ d'.module.funcs
  bodies : d.bodies ⊆ d'.bodies

theorem Extends.refl (d : Declared) : Extends d d :=
  ⟨List.Subset.refl _, List.Subset.refl _⟩

theorem Extends.trans {d1 d2 d3 : Declared} (h : Extends d1 d2) (h' : Extends d2 d3) : Extends d1 d3 :=
  ⟨List.Subset.trans h.funcs h'.funcs, List.Subset.trans h.bodies h'.bodies⟩

theorem Extends.addFunc {f : Func} (h : d.module.addFunc f = .ok m) (bodies : List Pending) :
    Extends d ⟨m, d.bodies ++ bodies⟩ := by
  obtain ⟨-, rfl⟩ := Module.addFunc_ok h
  exact ⟨List.subset_append_left _ _, List.subset_append_left _ _⟩

theorem declareGlobal_extends {name : String} {ref : TypeRef} {init : Option Program.Expr}
    (h : declareGlobal u d.module ns name ref init = .ok m) : Extends d ⟨m, d.bodies⟩ := by
  obtain ⟨written, -, h⟩ := bind_ok h
  obtain ⟨⟨value, m1⟩, h1, h⟩ := bind_ok h
  obtain ⟨_, -, h⟩ := bind_ok h
  obtain ⟨-, hfuncs, -⟩ := globalInit_ok h1
  rw [(Module.addGlobal_ok h).2]
  exact ⟨fun f hf => hfuncs ▸ hf, List.Subset.refl _⟩

theorem Declaring.extends (h : Declaring u ns d d') : Extends d d' := by
  cases h with
  | fields h => exact ⟨List.Subset.refl _, List.Subset.refl _⟩
  | external hf h => exact List.append_nil d.bodies ▸ Extends.addFunc h []
  | pending hf h _ => exact Extends.addFunc h _
  | outside ht h =>
    rw [(Module.addGlobal_ok h).2]
    exact ⟨List.Subset.refl _, List.Subset.refl _⟩
  | global h => exact declareGlobal_extends h

theorem declareAll_extends {stmts : List Stmt} (h : declareAll u ns d stmts = .ok d') : Extends d d' :=
  declareAll_keeps (fun hstep hd => hd.trans (Declaring.extends hstep)) stmts (Extends.refl d) h

mutual

/-- A function of the structured language waits for its body after its declaration. -/
theorem declare_awaits {u : Universe} : ∀ (st : Stmt) {ns : String} {d d' : Declared},
    declare u ns d st = .ok d' →
      ∀ e ∈ declarations ns st, e.isStructured → ∃ x ∈ d'.bodies, Awaits d'.module x e := by
  intro st ns d d' h
  cases st with
  | space _ name body => exact declareAll_awaits body (Outcome.within_eq_ok h)
  | func pos name isPublic params ret body =>
    cases body with
    | none => exact fun _ he => nomatch he
    | some b =>
      obtain ⟨f, h1, h⟩ := bind_ok h
      obtain ⟨m, h2, h⟩ := bind_ok h
      cases h
      intro e he hstructured
      rw [declarations, List.mem_singleton] at he
      subst he
      obtain ⟨⟨hparams, hret⟩, -⟩ := isStructuredFunction_iff.mp hstructured
      have hf := (signature_int hparams hret u d.module ns (qualify ns name)).symm.trans
        (Outcome.within_eq_ok h1)
      cases hf
      obtain ⟨-, rfl⟩ := Module.addFunc_ok h2
      exact ⟨_, List.mem_append_right _ (List.mem_singleton_self _), rfl, rfl, _,
        List.mem_append_right _ (List.mem_singleton_self _), rfl, rfl, rfl⟩
  | _ => exact fun _ he => nomatch he

theorem declareAll_awaits {u : Universe} : ∀ (stmts : List Stmt) {ns : String} {d d' : Declared},
    declareAll u ns d stmts = .ok d' →
      ∀ e ∈ allDeclarations ns stmts, e.isStructured → ∃ x ∈ d'.bodies, Awaits d'.module x e
  | [], _, d, _, _ => fun _ he => nomatch he
  | st :: rest, ns, _, _, h => by
    obtain ⟨d1, h1, h⟩ := bind_ok h
    have hextends := declareAll_extends h
    intro e he hstructured
    rw [allDeclarations, List.mem_append] at he
    rcases he with he | he
    · obtain ⟨x, hx, hawait⟩ := declare_awaits st h1 e he hstructured
      exact ⟨x, hextends.bodies hx, hawait.mono hextends.funcs⟩
    · exact declareAll_awaits rest h e he hstructured

end

/-! ## Files that are lowered -/

/-- What declaring functions of the structured language does: their names are added, and each body that
is new waits for one of them. -/
structure Adds (d d' : Declared) (es : List Declaration) : Prop where
  names : d'.module.funcs.map (·.name) = d.module.funcs.map (·.name) ++ es.map (·.name)
  structs : d'.module.structs = d.module.structs
  bodies : ∀ x ∈ d'.bodies, x ∈ d.bodies ∨ ∃ e, e.isStructured = true ∧ Awaits d'.module x e

theorem Module.addFunc_new {f : Func} (h : f.name ∉ m.funcs.map (·.name)) :
    m.addFunc f = .ok { m with funcTable := .ofList (m.funcs ++ [f]) } :=
  (m.addFunc_eq f).trans (if_neg h)

mutual

theorem declare_structured (u : Universe) : ∀ (st : Stmt) {ns : String} {d : Declared},
    isStructuredDecl st → (d.module.funcs.map (·.name) ++ (declarations ns st).map (·.name)).Nodup →
    ∃ d', declare u ns d st = .ok d' ∧ Adds d d' (declarations ns st) := by
  intro st ns d hst hnames
  cases st with
  | space _ name body =>
    obtain ⟨d', hd', hadds⟩ := declareAll_structured u body hst hnames
    refine ⟨d', ?_, hadds⟩
    rw [declare, hd']
    rfl
  | func pos name isPublic params ret body =>
    cases body with
    | none => cases hst
    | some body =>
      obtain ⟨⟨hparams, hret⟩, -⟩ := isStructuredFunction_iff.mp hst
      have hnew : qualify ns name ∉ d.module.funcs.map (·.name) := fun hmem =>
        (List.nodup_append.mp hnames).2.2 _ hmem _ (List.mem_singleton_self _) rfl
      refine ⟨⟨{ d.module with funcTable := .ofList (d.module.funcs ++
          [⟨qualify ns name, .int, isPublic, false, intParams 0 params, [], []⟩]) },
        d.bodies ++ [⟨qualify ns name, ns, pos, body⟩]⟩, ?_, ?_, ?_, ?_⟩
      · rw [declare, signature_int hparams hret]
        exact bind_eq (Module.addFunc_new hnew)
      · exact List.map_append
      · rfl
      · intro x hx
        rcases List.mem_append.mp hx with hx | hx
        · exact .inl hx
        · rw [List.mem_singleton.mp hx]
          exact .inr ⟨⟨qualify ns name, params, ret, body⟩, hst, rfl, rfl, _,
            List.mem_append_right _ (List.mem_singleton_self _), rfl, rfl, rfl⟩
  | _ => cases hst

theorem declareAll_structured (u : Universe) : ∀ (stmts : List Stmt) {ns : String} {d : Declared},
    areStructuredDecls stmts →
    (d.module.funcs.map (·.name) ++ (allDeclarations ns stmts).map (·.name)).Nodup →
    ∃ d', declareAll u ns d stmts = .ok d' ∧ Adds d d' (allDeclarations ns stmts)
  | [], _, d, _, _ => ⟨d, rfl, by simp [allDeclarations], rfl, fun _ => .inl⟩
  | st :: rest, ns, d, hst, hnames => by
    rw [areStructuredDecls, Bool.and_eq_true] at hst
    rw [allDeclarations, List.map_append, ← List.append_assoc] at hnames
    obtain ⟨d1, hd1, hadds1⟩ :=
      declare_structured u st hst.1 (List.Nodup.of_append_left hnames)
    rw [← hadds1.names] at hnames
    obtain ⟨d2, hd2, hadds2⟩ := declareAll_structured u rest hst.2 hnames
    refine ⟨d2, ?_, ?_, hadds2.structs.trans hadds1.structs, fun x hx => ?_⟩
    · rw [declareAll, hd1]
      exact hd2
    · rw [allDeclarations, hadds2.names, hadds1.names, List.map_append, List.append_assoc]
    · rcases hadds2.bodies x hx with hx | hx
      · rcases hadds1.bodies x hx with hx | ⟨e, he, hawait⟩
        · exact .inl hx
        · exact .inr ⟨e, he, hawait.mono (declareAll_extends hd2).funcs⟩
      · exact .inr hx

end

mutual

/-- Functions declare no struct. -/
theorem addStructs_structured : ∀ (st : Stmt) (ns : String) (m : Module),
    isStructuredDecl st → addStructs ns m st = .ok m := by
  intro st ns m hst
  cases st with
  | space _ name body =>
    rw [addStructs, addAllStructs_structured body (qualify ns name) m hst]
    rfl
  | func => rfl
  | _ => cases hst

theorem addAllStructs_structured : ∀ (stmts : List Stmt) (ns : String) (m : Module),
    areStructuredDecls stmts → addAllStructs ns m stmts = .ok m
  | [], _, _, _ => rfl
  | st :: rest, ns, m, hst => by
    rw [areStructuredDecls, Bool.and_eq_true] at hst
    rw [addAllStructs, addStructs_structured st ns m hst.1]
    exact addAllStructs_structured rest ns m hst.2

end

theorem lowerPending_structured {x : Pending} {xs : List Pending} {d : Declaration}
    (hm : InProgress u m (x :: xs)) (hd : d.isStructured) (h : Awaits m x d) :
    ∃ r, lowerPending u m x = .ok r := by
  obtain ⟨hname, hbody, f, hf, hfname, hret, hlocals⟩ := h
  obtain ⟨-, hstructured⟩ := isStructuredFunction_iff.mp hd
  obtain ⟨b, s, hs, -⟩ :=
    lowerBody_agrees ⟨u, x.ns, f.ret⟩ hm.typed hret hstructured hlocals
  have hfunc : m.func? x.name = some f := by
    rw [hname, ← hfname, func?_of_mem hm.names hf]
  rw [lowerPending, hfunc, hbody]
  exact ⟨_, bind_eq hs⟩

theorem lowerAllPending_structured (u : Universe) : ∀ {xs : List Pending} {m : Module},
    InProgress u m xs → (∀ x ∈ xs, ∃ d : Declaration, d.isStructured ∧ Awaits m x d) →
    ∃ r, lowerAllPending u m xs = .ok r := by
  intro xs
  induction xs with
  | nil => exact fun _ _ => ⟨_, rfl⟩
  | cons x xs ih =>
    intro m hm hall
    obtain ⟨d, hd, hawait⟩ := hall x (List.mem_cons_self ..)
    obtain ⟨⟨m1, notices⟩, h1⟩ := lowerPending_structured hm hd hawait
    have hothers := (lowerPending_lowered hm h1).2
    have hfresh := (List.nodup_cons.mp hm.bodies).1
    obtain ⟨r, hr⟩ := ih (lowerPending_inProgress hm h1) fun y hy => by
      obtain ⟨e, he, hname, hbody, f, hf, hfname, hsignature⟩ := hall y (List.mem_cons_of_mem _ hy)
      have hne : f.name ≠ x.name := fun heq =>
        hfresh (List.mem_map.mpr ⟨y, hy, (hname.trans hfname.symm).trans heq⟩)
      exact ⟨e, he, hname, hbody, f, hothers f hf hne, hfname, hsignature⟩
    rw [lowerAllPending, h1]
    exact ⟨_, bind_eq hr⟩

/-- A file that declares only functions of the structured language is lowered. -/
theorem lowerFile_structured (u : Universe) (hfile : areStructuredDecls file.stmts)
    (hnames : ((allDeclarations "" file.stmts).map (·.name)).Nodup) :
    ∃ r, lowerFile u file = .ok r := by
  obtain ⟨d, hd, hadds⟩ := declareAll_structured u (d := ⟨Module.empty, []⟩) file.stmts hfile hnames
  have hsound := declareAll_keeps Declaring.sound file.stmts discovered_empty.declared hd
  have hlayout : layoutAll u d.module = .ok ⟨d.module, u⟩ := by
    rw [layoutAll, hadds.structs]
    rfl
  have htyped : Typed d.module :=
    declareAll_keeps (I := (Typed ·.module)) Declaring.typed file.stmts typed_empty hd
  obtain ⟨r, hr⟩ := lowerAllPending_structured u (hsound.inProgress htyped hlayout) fun x hx =>
    (hadds.bodies x hx).resolve_left List.not_mem_nil
  rw [lowerFile, addAllStructs_structured _ _ _ hfile]
  exact ⟨_, (bind_eq (Outcome.within_eq hd)).trans
    ((bind_eq (Outcome.within_eq hlayout)).trans (bind_eq hr))⟩

/-! ## Files -/

/-- Every function of the structured language has blocks in the module that do what its body does. -/
theorem lowerFile_declaration {r : Lowered} (h : lowerFile u file = .ok r) {d : Declaration}
    (hmem : d ∈ allDeclarations "" file.stmts) (hd : d.isStructured) :
    ∃ f ∈ r.module.funcs, f.name = d.name ∧ Agrees r.types f.blocks d.params d.body := by
  obtain ⟨ds, st, hsound, htyped, ⟨m, hm, hds⟩, hst, htypes, hm'⟩ := lowerFile_steps h
  obtain ⟨hlayouts, -⟩ := layoutAll_done hsound.structs hsound.layouts hst
  obtain ⟨x, hx, hname, hbody, f, hf, hfname, hret, hlocals⟩ :=
    declareAll_awaits file.stmts hds d hmem hd
  rw [← hlayouts.funcs] at hf
  obtain ⟨m1, b, s, hm1, hs, hlowered⟩ := (lowerAllPending_lowered (hsound.inProgress htyped hst) hm').1
    x hx f hf (hfname.trans hname.symm)
  obtain ⟨-, hstructured⟩ := isStructuredFunction_iff.mp hd
  rw [← hbody] at hstructured
  obtain ⟨b', s', hs', hagrees⟩ :=
    lowerBody_agrees ⟨st.types, x.ns, f.ret⟩ hm1 hret hstructured hlocals
  obtain ⟨-, rfl⟩ := Prod.mk.inj (Except.ok.inj (hs.symm.trans hs'))
  rw [hbody] at hagrees
  rw [htypes]
  exact ⟨_, hlowered, hfname, hagrees⟩

/-- Lowering preserves what the functions of the structured language do. A file that declares only
such functions is lowered; and in the module of any file that is, the blocks of each such function
return a value exactly if its body returns it, and fault exactly if its body does. -/
theorem lowerFile_agrees (u : Universe) (file : Program.File) :
    (areStructuredDecls file.stmts = true → ((allDeclarations "" file.stmts).map (·.name)).Nodup →
      ∃ r, lowerFile u file = .ok r) ∧
    ∀ r, lowerFile u file = .ok r → ∀ d ∈ allDeclarations "" file.stmts, d.isStructured = true →
      ∃ f ∈ r.module.funcs, f.name = d.name ∧ Agrees r.types f.blocks d.params d.body :=
  ⟨fun hfile hnames => lowerFile_structured u hfile hnames,
    fun _ hr _ hmem hd => lowerFile_declaration hr hmem hd⟩

/-- The sum of the even numbers below `n`, divided by `n`. The odd ones only change a variable that hides
the sum. -/
def average : Declaration :=
  let p : Position := default
  let n := Program.Expr.ident p "n"
  let i := Program.Expr.ident p "i"
  let sum := Program.Expr.ident p "sum"
  ⟨"math__average", [⟨"n", ⟨"int", 0⟩⟩], ⟨"int", 0⟩, .mk p [.var p "sum" ⟨"", 0⟩ (some (.int p 0)),
    .for p "i" (.int p 0) n none (some (.mk p [.cond p [.mk (.binary p "&" i (.int p 1)) (some (.mk p [
        .var p "sum" ⟨"int", 0⟩ (some (.binary p "*" i (.int p 2))),
        .set p "sum" "+=" (.int p 1)]))]
        (some (.mk p [.set p "sum" "+=" i]))])),
    .return p (some (.binary p "/" sum n))]⟩

def averageFile : Program.File :=
  ⟨"average", [.space default "math"
    [.func default "average" true average.params average.ret (some average.body)]]⟩

theorem lowerFile_agrees_average : ∃ r, lowerFile (Universe.make 64 false) averageFile = .ok r ∧
      ∃ f ∈ r.module.funcs, f.name = "math__average" ∧ ∀ σ : Store,
        (σ.locals 0 = 6 → ∃ k, run r.types f.blocks k ⟨0, 0, σ⟩ = .returned (some 1)) ∧
        (σ.locals 0 = 0 → ∃ k, run r.types f.blocks k ⟨0, 0, σ⟩ = .faulted) := by
  obtain ⟨hlowers, hagrees⟩ := lowerFile_agrees (Universe.make 64 false) averageFile
  obtain ⟨r, hr⟩ := hlowers rfl (List.nodup_singleton _)
  have hdeclared : allDeclarations "" averageFile.stmts = [average] := rfl
  obtain ⟨f, hf, hname, hf'⟩ :=
    hagrees r hr average (hdeclared ▸ List.mem_singleton_self average) rfl
  refine ⟨r, hr, f, hf, hname, fun σ => ⟨fun harg => ?_, fun harg => ?_⟩⟩
  · have hpasses : Passes [6] σ := by
      rintro (_ | i) a ha
      · cases ha
        exact harg
      · exact absurd ha (by simp)
    exact ((hf' [6] σ rfl hpasses).1 _).mpr ⟨1, rfl, 8, .inl rfl⟩
  · have hpasses : Passes [0] σ := by
      rintro (_ | i) a ha
      · cases ha
        exact harg
      · exact absurd ha (by simp)
    exact (hf' [0] σ rfl hpasses).2.1.mpr ⟨8, rfl⟩

end TreeAsm.Meaning
