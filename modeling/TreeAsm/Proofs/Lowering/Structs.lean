import Mathlib.Data.List.Perm.Basic
import TreeAsm.Proofs.Lowering.FormsFile
import TreeAsm.Proofs.Lowering.Nesting

/-!
# Declarations of structs

The structs of a program are those it declares, each with the fields it is declared with, in the
order of their declaration. A type is resolved by the names of the structs alone, and all names are
known before the first type is resolved. So the declarations of structs and the other ones do not
get into each other's way (`declareAll_iff`), and structs may be declared in any order
(`discovery_rearranged`).
-/

namespace TreeAsm.Lowering

open Ir
open Program (FieldDecl Param Stmt TypeRef)
open Outcome (bind_eq bind_ok fail within_eq_ok)

/-- A declaration of a struct, and the namespace it stands in. -/
structure StructDecl where
  ns : String
  name : String
  isPublic : Bool
  packed : Bool
  fields : List FieldDecl

mutual

/-- The structs that a statement at top level declares. -/
def structDecls (ns : String) : Stmt → List StructDecl
  | .space _ name body => allStructDecls (qualify ns name) body
  | .struct _ name isPublic packed fields => [⟨ns, name, isPublic, packed, fields⟩]
  | _ => []

/-- The structs that statements at top level declare. -/
def allStructDecls (ns : String) : List Stmt → List StructDecl
  | [] => []
  | s :: rest => structDecls ns s ++ allStructDecls ns rest

end

mutual

/-- What else a statement at top level declares, with the namespace it stands in. -/
def otherDecls (ns : String) : Stmt → List (String × Stmt)
  | .space _ name body => allOtherDecls (qualify ns name) body
  | .struct _ _ _ _ _ => []
  | s => [(ns, s)]

/-- What else statements at top level declare, with the namespaces. -/
def allOtherDecls (ns : String) : List Stmt → List (String × Stmt)
  | [] => []
  | s :: rest => otherDecls ns s ++ allOtherDecls ns rest

end

/-- Whether two programs declare the same, except that the structs may be in another order. -/
structure Rearranged (f f' : Program.File) : Prop where
  structs : (allStructDecls "" f'.stmts).Perm (allStructDecls "" f.stmts)
  others : allOtherDecls "" f'.stmts = allOtherDecls "" f.stmts

/-- A struct as it is found, without fields. -/
def StructDecl.found (d : StructDecl) : Struct :=
  ⟨qualify d.ns d.name, d.isPublic, d.packed, [], none⟩

/-- Whether a struct has the fields that a declaration gives it. -/
structure Built (u : Universe) (m : Module) (d : StructDecl) (s : Struct) : Prop where
  fields : structFields u m d.ns (qualify d.ns d.name) d.fields = .ok s.fields
  eq : s = { d.found with fields := s.fields }

/-- A module with other structs. -/
def withStructs (m : Module) (structs : List Struct) : Module := { m with structTable := .ofList structs }

theorem withStructs_items (m : Module) (t : Table Struct (·.name)) :
    withStructs m t.items = { m with structTable := t } := by
  have hsame : Table.ofList t.items = t := Table.ext rfl
  rw [withStructs, hsame]

/-! ## Names of structs -/

variable {u : Universe} {m : Module} {s : Struct} {d d' : Declared} {structs : List Struct}
  {ns b : String} {p : String × Stmt} {ref : TypeRef}

theorem addStruct_iff {m' : Module} : m.addStruct s = .ok m' ↔
    s.name ∉ m.structs.map (·.name) ∧ m' = withStructs m (m.structs ++ [s]) := by
  rw [Module.addStruct_eq]
  refine ⟨Module.ok_of_new, fun ⟨hnew, heq⟩ => ?_⟩
  rw [if_neg hnew, heq]
  rfl

theorem addNoStruct_iff {m' : Module} (hm : (m.structs.map (·.name)).Nodup) :
    (.ok m : Outcome Module) = .ok m' ↔ ((m.structs ++ []).map fun s : Struct => s.name).Nodup ∧
        m' = withStructs m (m.structs ++ []) := by
  rw [List.append_nil, withStructs_items]
  exact ⟨fun h => ⟨hm, (Except.ok.inj h).symm⟩, fun h => congrArg Except.ok h.2.symm⟩

mutual

theorem addStructs_iff : ∀ (st : Stmt) {ns : String} {m m' : Module},
    (m.structs.map (·.name)).Nodup → (addStructs ns m st = .ok m' ↔
      (((m.structs ++ (structDecls ns st).map (·.found)).map (·.name)).Nodup ∧
        m' = withStructs m (m.structs ++ (structDecls ns st).map (·.found)))) := by
  intro st ns m m' hm
  cases st with
  | space _ name body =>
    rw [structDecls, ← addAllStructs_iff body hm]
    exact ⟨within_eq_ok, Outcome.within_eq⟩
  | struct _ name isPublic packed fields =>
    rw [addStructs, addStruct_iff]
    refine and_congr_left fun _ => ?_
    rw [structDecls, List.map_append, List.nodup_append]
    simp [hm, StructDecl.found]
  | _ => exact addNoStruct_iff hm

/-- The structs are found if their names are different. -/
theorem addAllStructs_iff : ∀ (stmts : List Stmt) {ns : String} {m m' : Module},
    (m.structs.map (·.name)).Nodup → (addAllStructs ns m stmts = .ok m' ↔
      (((m.structs ++ (allStructDecls ns stmts).map (·.found)).map (·.name)).Nodup ∧
        m' = withStructs m (m.structs ++ (allStructDecls ns stmts).map (·.found))))
  | [], ns, m, m', hm => addNoStruct_iff hm
  | st :: rest, ns, m, m', hm => by
    have happend : (allStructDecls ns (st :: rest)).map (·.found)
        = (structDecls ns st).map (·.found) ++ (allStructDecls ns rest).map (·.found) := by
      rw [allStructDecls, List.map_append]
    rw [happend, ← List.append_assoc]
    refine ⟨fun h => ?_, fun ⟨hnodup, heq⟩ => ?_⟩
    · obtain ⟨m1, h1, h⟩ := bind_ok h
      obtain ⟨hnodup1, rfl⟩ := (addStructs_iff st hm).mp h1
      exact (addAllStructs_iff rest hnodup1).mp h
    · have hnodup1 : ((m.structs ++ (structDecls ns st).map (·.found)).map (·.name)).Nodup := by
        rw [List.map_append] at hnodup
        exact hnodup.of_append_left
      rw [addAllStructs, bind_eq ((addStructs_iff st hm).mpr ⟨hnodup1, rfl⟩)]
      exact (addAllStructs_iff rest hnodup1).mpr ⟨hnodup, heq⟩

end

/-! ## What types depend on -/

/-- Whether two modules have structs with the same names. -/
def SameNames (m m' : Module) : Prop :=
  ∀ a, a ∈ m.structs.map (·.name) ↔ a ∈ m'.structs.map (·.name)

section

variable {m m' : Module} (h : SameNames m m') (u : Universe) (ns : String)

include h

theorem struct?_name_congr (a : String) : (m.struct? a).map (·.name) = (m'.struct? a).map (·.name) := by
  have hname : ∀ m : Module, (m.struct? a).map (·.name) =
      if a ∈ m.structs.map (·.name) then some a else none := by
    intro m
    split
    next hmem =>
      obtain ⟨s, hs⟩ := exists_struct? hmem
      rw [hs, Option.map_some, (mem_of_struct? hs).2]
    next hmem =>
      rw [Option.map_eq_none_iff]
      exact Table.find?_eq_none_iff.mpr hmem
  rw [hname m, hname m']
  simp only [h a]

omit h in
theorem eq_of_map_name {x y : Option Struct} (hxy : x.map (·.name) = y.map (·.name)) :
    x = none ∧ y = none ∨ ∃ s s', x = some s ∧ y = some s' ∧ s.name = s'.name := by
  cases x with
  | none => exact .inl ⟨rfl, Option.map_eq_none_iff.mp hxy.symm⟩
  | some s =>
    obtain ⟨s', hs', hname⟩ := Option.map_eq_some_iff.mp hxy.symm
    exact .inr ⟨s, s', rfl, hs', hname.symm⟩

theorem structIn_name_congr (a : String) :
    (structIn m ns a).map (·.name) = (structIn m' ns a).map (·.name) := by
  have hfirst : (if ns == "" then none else m.struct? (qualify ns a)).map (·.name)
      = (if ns == "" then none else m'.struct? (qualify ns a)).map (·.name) := by
    split
    · rfl
    · exact struct?_name_congr h _
  unfold structIn
  rcases eq_of_map_name hfirst with ⟨hx, hy⟩ | ⟨s, s', hx, hy, hname⟩ <;> rw [hx, hy]
  · exact struct?_name_congr h a
  · exact congrArg some hname

/-- A type is resolved by the names of the structs. -/
theorem resolveType_congr (ref : TypeRef) : resolveType u m ns ref = resolveType u m' ns ref := by
  unfold resolveType
  rcases eq_of_map_name (structIn_name_congr h ns ref.name) with ⟨hx, hy⟩ | ⟨s, s', hx, hy, hname⟩
  · rw [hx, hy]
  · simp only [hx, hy, hname]

theorem valueType_congr (ref : TypeRef) : valueType u m ns ref = valueType u m' ns ref := by
  rw [valueType, valueType, resolveType_congr h]

theorem structFields_congr (struct : String) (decls : List FieldDecl) :
    structFields u m ns struct decls = structFields u m' ns struct decls := by
  simp only [structFields, valueType_congr h]

theorem paramLocals_congr (params : List Param) (n : Nat) :
    paramLocals u m ns n params = paramLocals u m' ns n params := by
  induction params generalizing n with
  | nil => rfl
  | cons p params ih => simp only [paramLocals, valueType_congr h, ih]

theorem signature_congr (name : String) (params : List Param) (ret : TypeRef) :
    signature u m ns name params ret = signature u m' ns name params ret := by
  rw [signature, signature, resolveType_congr h, paramLocals_congr h]

theorem Built.congr {d : StructDecl} {s : Struct} (hs : Built u m d s) : Built u m' d s :=
  ⟨(structFields_congr h u d.ns _ d.fields).symm.trans hs.fields, hs.eq⟩

end

/-! ## Other declarations -/

/-- The declarations found so far, with other structs. -/
def Declared.withStructs (d : Declared) (structs : List Struct) : Declared :=
  { d with module := Lowering.withStructs d.module structs }

theorem Declared.withStructs_module (d : Declared) (structs : List Struct) :
    (d.withStructs structs).module = Lowering.withStructs d.module structs := rfl

theorem Declared.withStructs_self (d : Declared) : d.withStructs d.module.structs = d :=
  congrArg (fun m => { d with module := m }) (withStructs_items d.module _)

section

variable (m : Module) (structs : List Struct)

theorem addFunc_withStructs (f : Func) :
    (withStructs m structs).addFunc f = (m.addFunc f).map (withStructs · structs) := by
  unfold Module.addFunc
  rw [show (withStructs m structs).funcTable = m.funcTable from rfl]
  cases m.funcTable.add f _ <;> rfl

theorem addGlobal_withStructs (g : Global) :
    (withStructs m structs).addGlobal g = (m.addGlobal g).map (withStructs · structs) := by
  unfold Module.addGlobal
  rw [show (withStructs m structs).globalTable = m.globalTable from rfl]
  cases m.globalTable.add g _ <;> rfl

theorem intern_withStructs (value : String) (t : Ty) : (withStructs m structs).intern value t
    = ((m.intern value t).1, withStructs (m.intern value t).2 structs) := by
  rfl

theorem globalInit_withStructs (init : Option Program.Expr) : globalInit (withStructs m structs) init
      = (globalInit m init).map fun r => (r.1, withStructs r.2 structs) := by
  have hconstant : ∀ e, constantInit (withStructs m structs) e
      = (constantInit m e).map fun r => (r.1, withStructs r.2 structs) := by
    intro e
    unfold constantInit
    split
    · rfl
    · split <;> rfl
    · simp only [intern_withStructs]
      rfl
    · rfl
  cases init with
  | none => rfl
  | some e =>
    rw [globalInit, globalInit, hconstant]
    cases constantInit m e <;> rfl

variable {m structs} (h : SameNames m (withStructs m structs)) (u : Universe) (ns : String)

include h

theorem declareGlobal_withStructs (name : String) (ref : TypeRef) (init : Option Program.Expr) :
    declareGlobal u (withStructs m structs) ns name ref init
      = (declareGlobal u m ns name ref init).map (withStructs · structs) := by
  have hwritten : writtenGlobalType u (withStructs m structs) ns ref = writtenGlobalType u m ns ref := by
    rw [writtenGlobalType, writtenGlobalType, resolveType_congr h]
  rw [declareGlobal, declareGlobal, hwritten, globalInit_withStructs]
  cases writtenGlobalType u m ns ref with
  | error e => rfl
  | ok written =>
    cases globalInit m init with
    | error e => rfl
    | ok r =>
      obtain ⟨value, m1⟩ := r
      show (checkValueType u _ >>= _) = (checkValueType u _ >>= _ : Outcome Module).map _
      cases checkValueType u (if written ≠ .untyped then written else inferredGlobalType value) with
      | error e => rfl
      | ok _ => exact addGlobal_withStructs _ _ _

end

/-- Adds what a declaration other than one of a struct declares. -/
def declareOther (u : Universe) (d : Declared) : String × Stmt → Outcome Declared
  | (_, .space _ _ _) | (_, .struct _ _ _ _ _) => .ok d
  | (ns, s) => declare u ns d s

/-- What is done after a step is changed by `g`, so all of it is. -/
theorem within_bind_map {α β : Type} {x : Outcome α} {step : String} {k k' : α → Outcome β} {g : β → β}
    (hk : ∀ a, k' a = (k a).map g) : (x.within step >>= k') = (x.within step >>= k).map g := by
  cases x with
  | error e => rfl
  | ok a => exact hk a

/-- Other declarations do not depend on the structs but for their names, and leave them alone. -/
theorem declareOther_withStructs (h : SameNames d.module (withStructs d.module structs))
    (p : String × Stmt) :
    declareOther u (d.withStructs structs) p = (declareOther u d p).map (·.withStructs structs) := by
  -- in each case types are resolved in either module alike, and then one entry is added
  obtain ⟨ns, s⟩ := p
  cases s with
  | func pos name isPublic params ret body =>
    show ((signature u (withStructs d.module structs) ns _ params ret).within _ >>= _) = _
    rw [← signature_congr h]
    refine within_bind_map fun f => ?_
    rw [d.withStructs_module, addFunc_withStructs]
    cases d.module.addFunc { f with isPublic := isPublic, external := body.isNone } with
    | error e => rfl
    | ok m => cases body <;> rfl
  | outside pos name isVar params ret =>
    cases isVar with
    | true =>
      show ((resolveType u (withStructs d.module structs) ns ret).within _ >>= _) = _
      rw [← resolveType_congr h]
      refine within_bind_map fun t => ?_
      rw [d.withStructs_module, addGlobal_withStructs]
      cases d.module.addGlobal ⟨name, t, none, true⟩ <;> rfl
    | false =>
      show ((signature u (withStructs d.module structs) ns name params ret).within _ >>= _) = _
      rw [← signature_congr h]
      refine within_bind_map fun f => ?_
      rw [d.withStructs_module, addFunc_withStructs]
      cases d.module.addFunc { f with external := true } <;> rfl
  | var pos name ref init =>
    show ((declareGlobal u (withStructs d.module structs) ns name ref init).within _ >>= _) = _
    rw [declareGlobal_withStructs h]
    show _ = Except.map _ ((declareGlobal u d.module ns name ref init).within _ >>= _)
    cases declareGlobal u d.module ns name ref init <;> rfl
  | _ => rfl

theorem declareOther_structs (h : declareOther u d p = .ok d') : d'.module.structs = d.module.structs := by
  have hsame : declareOther u (d.withStructs d.module.structs) p = _ :=
    declareOther_withStructs (fun _ => Iff.rfl) p
  rw [d.withStructs_self, h] at hsame
  exact congrArg (fun d => d.module.structs) (Except.ok.inj hsame)

theorem foldlM_declareOther_withStructs : ∀ {ps : List (String × Stmt)} {d : Declared},
    SameNames d.module (withStructs d.module structs) →
    ps.foldlM (declareOther u) (d.withStructs structs)
      = (ps.foldlM (declareOther u) d).map (·.withStructs structs) := by
  intro ps
  induction ps with
  | nil => exact fun _ => rfl
  | cons p ps ih =>
    intro d h
    rw [List.foldlM_cons, List.foldlM_cons, declareOther_withStructs h]
    cases h1 : declareOther u d p with
    | error e => rfl
    | ok d1 =>
      refine ih fun a => ?_
      rw [declareOther_structs h1]
      exact h a

/-! ## All declarations -/

/-- The structs after some of them got their fields. -/
def fill (structs built : List Struct) : List Struct :=
  built.foldl (fun structs s => structs.map fun t =>
    if t.name == s.name then { t with fields := s.fields } else t) structs

theorem fill_names (structs built : List Struct) :
    (fill structs built).map (·.name) = structs.map (·.name) := by
  induction built generalizing structs with
  | nil => rfl
  | cons s built ih =>
    show (fill _ built).map (·.name) = _
    rw [ih, List.map_map]
    refine List.map_congr_left fun t _ => ?_
    rw [Function.comp_apply]
    split <;> rfl

/-- What declarations amount to: the structs are built from theirs, and the others are added, each
as if the others were not there. -/
def Declares (u : Universe) (d : Declared) (structs : List StructDecl)
    (others : List (String × Stmt)) (d' : Declared) : Prop :=
  ∃ built, List.Forall₂ (Built u d.module) structs built ∧
    others.foldlM (declareOther u) d = .ok (d'.withStructs d.module.structs) ∧
    d'.module.structs = fill d.module.structs built

theorem declares_other : declareOther u d p = .ok d' ↔ Declares u d [] [p] d' := by
  have hfold : [p].foldlM (declareOther u) d = declareOther u d p := by
    rw [List.foldlM_cons]
    cases declareOther u d p <;> rfl
  unfold Declares
  rw [hfold]
  refine ⟨fun h => ?_, fun ⟨built, hbuilt, h, hstructs⟩ => ?_⟩
  · have hkept := declareOther_structs h
    refine ⟨[], .nil, ?_, hkept⟩
    rw [h, ← hkept, d'.withStructs_self]
  · obtain rfl : built = [] := List.forall₂_nil_left_iff.mp hbuilt
    have hkept : d'.module.structs = d.module.structs := hstructs
    rw [h, ← hkept, d'.withStructs_self]

theorem fill_append (structs built1 built2 : List Struct) :
    fill structs (built1 ++ built2) = fill (fill structs built1) built2 := List.foldl_append

section

variable {u : Universe} {d d1 d' : Declared} {structs1 structs2 : List StructDecl}
  {others1 others2 : List (String × Stmt)}

theorem Declares.sameNames (h : Declares u d structs1 others1 d1) : SameNames d1.module d.module := by
  obtain ⟨built, -, -, hstructs⟩ := h
  intro a
  rw [hstructs, fill_names]

/-- Declarations after declarations. -/
theorem Declares.trans (h1 : Declares u d structs1 others1 d1) (h2 : Declares u d1 structs2 others2 d') :
    Declares u d (structs1 ++ structs2) (others1 ++ others2) d' := by
  have hnames := h1.sameNames
  obtain ⟨built1, hbuilt1, hothers1, hstructs1⟩ := h1
  obtain ⟨built2, hbuilt2, hothers2, hstructs2⟩ := h2
  refine ⟨built1 ++ built2, List.rel_append hbuilt1 (hbuilt2.imp fun _ _ hs => hs.congr hnames u), ?_, ?_⟩
  · rw [List.foldlM_append, Outcome.bind_eq hothers1, foldlM_declareOther_withStructs hnames, hothers2]
    rfl
  · rw [fill_append, ← hstructs1, hstructs2]

/-- Declarations can be taken apart: what the first ones come to is determined. -/
theorem Declares.split (h : Declares u d (structs1 ++ structs2) (others1 ++ others2) d') :
    ∃ d1, Declares u d structs1 others1 d1 ∧ Declares u d1 structs2 others2 d' := by
  obtain ⟨built, hbuilt, hothers, hstructs⟩ := h
  have htake := List.forall₂_take structs1.length hbuilt
  have hdrop := List.forall₂_drop structs1.length hbuilt
  rw [List.take_left] at htake
  rw [List.drop_left] at hdrop
  rw [List.foldlM_append] at hothers
  obtain ⟨e, he, hothers⟩ := bind_ok hothers
  have hkept := Outcome.foldlM_keeps (I := fun e => e.module.structs = d.module.structs)
    (fun h hs => (declareOther_structs h).trans hs) he rfl
  -- the state between has the functions and variables of `e` and the structs built so far
  have hfirst : Declares u d structs1 others1
      (e.withStructs (fill d.module.structs (built.take structs1.length))) := by
    refine ⟨_, htake, ?_, rfl⟩
    rw [he, ← hkept]
    exact congrArg Except.ok e.withStructs_self.symm
  have hnames : SameNames d.module
      (e.withStructs (fill d.module.structs (built.take structs1.length))).module :=
    fun a => (hfirst.sameNames a).symm
  refine ⟨_, hfirst, built.drop structs1.length, hdrop.imp fun _ _ hs => hs.congr hnames u, ?_, ?_⟩
  · rw [foldlM_declareOther_withStructs, hothers]
    · rfl
    · intro a
      rw [hkept]
      exact hnames a
  · rw [hstructs]
    show _ = fill (fill d.module.structs (built.take structs1.length)) _
    rw [← fill_append, List.take_append_drop]

end

mutual

theorem declare_iff {u : Universe} : ∀ (st : Stmt) {ns : String} {d d' : Declared},
    declare u ns d st = .ok d' ↔ Declares u d (structDecls ns st) (otherDecls ns st) d' := by
  intro st ns d d'
  cases st with
  | space _ name body =>
    rw [structDecls, otherDecls, ← declareAll_iff body]
    exact ⟨within_eq_ok, Outcome.within_eq⟩
  | struct pos name isPublic packed fields =>
    rw [structDecls, otherDecls]
    refine ⟨fun h => ?_, fun ⟨built, hbuilt, hothers, hstructs⟩ => ?_⟩
    · obtain ⟨fs, hfs, h⟩ := bind_ok h
      cases h
      exact ⟨[⟨qualify ns name, isPublic, packed, fs, none⟩], .cons ⟨hfs, rfl⟩ .nil,
        congrArg Except.ok d.withStructs_self.symm, rfl⟩
    · obtain ⟨s, rest, hs, hrest, rfl⟩ := List.forall₂_cons_left_iff.mp hbuilt
      obtain rfl := List.forall₂_nil_left_iff.mp hrest
      have hname : s.name = qualify ns name := by rw [hs.eq]; rfl
      have hd : d = d'.withStructs d.module.structs := Except.ok.inj hothers
      rw [declare, bind_eq hs.fields]
      refine congrArg Except.ok ?_
      calc { d with module := d.module.setFields (qualify ns name) s.fields }
          = d.withStructs (fill d.module.structs [s]) := by
            rw [← hname]
            exact congrArg (fun m => { d with module := m }) (withStructs_items d.module _).symm
        _ = d' := by
          rw [← hstructs, hd]
          exact d'.withStructs_self
  | _ =>
    simp only [structDecls, otherDecls]
    rw [← declares_other]
    rfl

/-- Declarations succeed exactly if those of structs do and the others do. -/
theorem declareAll_iff {u : Universe} : ∀ (stmts : List Stmt) {ns : String} {d d' : Declared},
    declareAll u ns d stmts = .ok d' ↔ Declares u d (allStructDecls ns stmts) (allOtherDecls ns stmts) d'
  | [], ns, d, d' => by
    refine ⟨fun h => ⟨[], .nil, ?_, ?_⟩, fun ⟨built, hbuilt, hothers, hstructs⟩ => ?_⟩
    · cases h
      exact congrArg Except.ok d.withStructs_self.symm
    · cases h
      rfl
    · obtain rfl : built = [] := List.forall₂_nil_left_iff.mp hbuilt
      have hkept : d'.module.structs = d.module.structs := hstructs
      have hd : d = d'.withStructs d.module.structs := Except.ok.inj hothers
      rw [declareAll, hd, ← hkept, d'.withStructs_self]
  | st :: rest, ns, d, d' => by
    rw [allStructDecls, allOtherDecls]
    refine ⟨fun h => ?_, fun h => ?_⟩
    · obtain ⟨d1, h1, h⟩ := bind_ok h
      exact ((declare_iff st).mp h1).trans ((declareAll_iff rest).mp h)
    · obtain ⟨d1, h1, h2⟩ := h.split
      rw [declareAll, bind_eq ((declare_iff st).mpr h1)]
      exact (declareAll_iff rest).mpr h2

end

/-! ## The structs of a program -/

theorem Built.name {d : StructDecl} (h : Built u m d s) : s.name = d.found.name := by
  rw [h.eq]

theorem setFields_of_not_mem (h : s.name ∉ structs.map (·.name)) :
    structs.map (fun t => if t.name == s.name then { t with fields := s.fields } else t) = structs := by
  have hsame : ∀ t ∈ structs, (if t.name == s.name then { t with fields := s.fields } else t) = t := by
    intro t ht
    have hne : t.name ≠ s.name := fun he => h (he ▸ List.mem_map_of_mem ht)
    rw [if_neg (by simpa using hne)]
  exact (List.map_congr_left hsame).trans (List.map_id _)

/-- Structs with different names, each of which gets its own fields. -/
theorem fill_found : ∀ {decls : List StructDecl}
    {built before : List Struct}, List.Forall₂ (Built u m) decls built →
    ((before ++ decls.map (·.found)).map (·.name)).Nodup →
    fill (before ++ decls.map (·.found)) built = before ++ built := by
  intro decls
  induction decls with
  | nil =>
    intro built before hbuilt _
    obtain rfl := List.forall₂_nil_left_iff.mp hbuilt
    rfl
  | cons d decls ih =>
    intro built before hbuilt hnodup
    obtain ⟨s, rest, hs, hrest, rfl⟩ := List.forall₂_cons_left_iff.mp hbuilt
    have hname := hs.name
    have hparts : s.name ∉ before.map (·.name) ∧ s.name ∉ (decls.map (·.found)).map (·.name) := by
      rw [List.map_append, List.map_cons, List.map_cons, ← hname, List.nodup_append] at hnodup
      obtain ⟨-, hcons, hdisjoint⟩ := hnodup
      refine ⟨fun hmem => hdisjoint _ hmem _ List.mem_cons_self rfl, ?_⟩
      exact (List.nodup_cons.mp hcons).1
    have hself : (if d.found.name == s.name then { d.found with fields := s.fields } else d.found) = s := by
      rw [if_pos (by simp [hname])]
      exact hs.eq.symm
    -- the fields go to the first struct, and no other one has its name
    have hfirst : fill (before ++ (d :: decls).map (·.found)) (s :: rest)
        = fill ((before ++ [s]) ++ decls.map (·.found)) rest := by
      show fill ((before ++ d.found :: decls.map (·.found)).map _) rest = _
      rw [List.map_append, List.map_cons, setFields_of_not_mem hparts.1,
        setFields_of_not_mem hparts.2, hself, List.append_assoc]
      rfl
    have hnodup' : (((before ++ [s]) ++ decls.map (·.found)).map (·.name)).Nodup := by
      have hnames : ((before ++ [s]) ++ decls.map (·.found)).map (·.name)
          = (before ++ (d :: decls).map (·.found)).map (·.name) := by
        simp [hname]
      rw [hnames]
      exact hnodup
    rw [hfirst, ih hrest hnodup', List.append_assoc]
    rfl

section

variable {u : Universe} {f : Program.File} {m : Module} {d : Declared}

theorem addAllStructs_empty_iff (stmts : List Stmt) : addAllStructs "" .empty stmts = .ok m ↔
    ((((allStructDecls "" stmts).map (·.found)).map (·.name)).Nodup ∧
      m = withStructs .empty ((allStructDecls "" stmts).map (·.found))) :=
  addAllStructs_iff stmts List.nodup_nil

/-- The structs of a program are the ones it declares, with their fields. -/
theorem discovery_built (hm : addAllStructs "" .empty f.stmts = .ok m)
    (hd : declareAll u "" ⟨m, []⟩ f.stmts = .ok d) :
    List.Forall₂ (Built u m) (allStructDecls "" f.stmts) d.module.structs := by
  obtain ⟨hnodup, rfl⟩ := (addAllStructs_empty_iff f.stmts).mp hm
  obtain ⟨built, hbuilt, -, hstructs⟩ := (declareAll_iff f.stmts).mp hd
  rw [hstructs]
  show List.Forall₂ _ _ (fill ([] ++ (allStructDecls "" f.stmts).map (·.found)) built)
  rw [fill_found hbuilt hnodup]
  exact hbuilt

/-- Structs may be declared in any order. -/
theorem discovery_rearranged {f' : Program.File} (hr : Rearranged f f')
    (hm : addAllStructs "" .empty f.stmts = .ok m) (hd : declareAll u "" ⟨m, []⟩ f.stmts = .ok d) :
    ∃ m' d', addAllStructs "" .empty f'.stmts = .ok m' ∧
      declareAll u "" ⟨m', []⟩ f'.stmts = .ok d' ∧ d'.module.structs.Perm d.module.structs := by
  have hbuilt := discovery_built hm hd
  obtain ⟨hnodup, rfl⟩ := (addAllStructs_empty_iff f.stmts).mp hm
  obtain ⟨-, -, hothers, -⟩ := (declareAll_iff f.stmts).mp hd
  have hfound := hr.structs.map (·.found)
  have hnodup' : (((allStructDecls "" f'.stmts).map (·.found)).map (·.name)).Nodup :=
    (hfound.map (·.name)).nodup_iff.mpr hnodup
  obtain ⟨built', hbuilt', hperm⟩ := List.perm_comp_forall₂ hr.structs hbuilt
  have hnames : SameNames (withStructs .empty ((allStructDecls "" f.stmts).map (·.found)))
      (withStructs .empty ((allStructDecls "" f'.stmts).map (·.found))) :=
    fun a => ((hfound.map (·.name)).mem_iff).symm
  refine ⟨_, d.withStructs built', (addAllStructs_empty_iff f'.stmts).mpr ⟨hnodup', rfl⟩,
    (declareAll_iff f'.stmts).mpr ⟨built', hbuilt'.imp fun _ _ hs => hs.congr hnames u, ?_, ?_⟩,
    hperm⟩
  · -- the other declarations meet structs with the same names
    rw [hr.others]
    exact (foldlM_declareOther_withStructs (d := ⟨_, []⟩) hnames).trans (congrArg (Except.map _) hothers)
  · show built' = fill ([] ++ (allStructDecls "" f'.stmts).map (·.found)) built'
    rw [fill_found hbuilt' hnodup']
    rfl

end

/-! ## Fields -/

theorem ptrs_eq_record {n : Nat} {t : Ty} (h : Ty.ptrs n t = .record b) : t = .record b := by
  induction n generalizing t with
  | zero => exact h
  | succ n ih => exact absurd (ih (t := .ptr t) h) (by simp)

theorem named?_ne_record {name : String} : u.named? name ≠ some (.record b) := by
  have hstring : u.stringType ≠ .record b := by
    unfold Universe.stringType
    split <;> simp
  intro h
  unfold Universe.named? at h
  split at h <;> exact absurd h (by simp [hstring])

theorem structIn_mem {name : String} (h : structIn m ns name = some s) : s ∈ m.structs := by
  unfold structIn at h
  split at h
  next t ht =>
    cases h
    split at ht
    · cases ht
    · exact (mem_of_struct? ht).1
  next => exact (mem_of_struct? h).1

/-- A type that is resolved to a struct is one that the module has. -/
theorem resolveType_record (h : resolveType u m ns ref = .ok (.record b)) : b ∈ m.structs.map (·.name) := by
  unfold resolveType at h
  split at h
  · cases h
  · split at h
    · cases h
    · split at h
      next t hnamed =>
        rw [ptrs_eq_record (Except.ok.inj h)] at hnamed
        exact absurd hnamed named?_ne_record
      next =>
        split at h
        next s hs =>
          obtain rfl := Ty.record.inj (ptrs_eq_record (Except.ok.inj h))
          exact List.mem_map_of_mem (structIn_mem hs)
        next => cases h

theorem valueType_storable {t : Ty} (h : valueType u m ns ref = .ok t) :
    t.Storable ∧ ∀ b, t = .record b → b ∈ m.structs.map (·.name) := by
  obtain ⟨t', ht', h⟩ := bind_ok h
  obtain ⟨_, hcheck, h⟩ := bind_ok h
  cases h
  refine ⟨⟨resolveType_proper ht', ?_⟩, ?_⟩
  · rintro rfl
    have hvoid : u.isVoid .void := by
      simp [Universe.isVoid, Universe.bits, Ty.isPtr, Ty.elem, Ty.name]
    simp [checkValueType, hvoid, fail] at hcheck
  · rintro b rfl
    exact resolveType_record ht'

theorem structFields_storable {struct : String} {decls : List FieldDecl} {fs : List Field}
    (h : structFields u m ns struct decls = .ok fs) :
    ∀ f ∈ fs, f.type.Storable ∧ ∀ b, f.type = .record b → b ∈ m.structs.map (·.name) := by
  intro f hf
  obtain ⟨d, -, hd⟩ := Outcome.mem_of_mapM h f hf
  obtain ⟨t, ht, hd⟩ := bind_ok hd
  cases hd
  exact valueType_storable (within_eq_ok ht)

theorem Built.exists_of_mem {decls : List StructDecl} (h : List.Forall₂ (Built u m) decls structs)
    (hs : s ∈ structs) : ∃ d, Built u m d s := by
  induction h with
  | nil => cases hs
  | cons hd _ ih =>
    rcases List.mem_cons.mp hs with rfl | hs
    · exact ⟨_, hd⟩
    · exact ih hs

/-- The structs of a program can be laid out. -/
theorem discovery_unlaid {f : Program.File} (hm : addAllStructs "" .empty f.stmts = .ok m)
    (hd : declareAll u "" ⟨m, []⟩ f.stmts = .ok d) : Unlaid d.module := by
  have hsound := declareAll_keeps Declaring.sound f.stmts (addAllStructs_discovered hm).declared hd
  have hnames := ((declareAll_iff f.stmts).mp hd).sameNames
  have hfields : ∀ s ∈ d.module.structs, ∀ x ∈ s.fields,
      x.type.Storable ∧ ∀ b, x.type = .record b → b ∈ m.structs.map (·.name) := by
    intro s hs
    obtain ⟨decl, hdecl⟩ := Built.exists_of_mem (discovery_built hm hd) hs
    exact structFields_storable hdecl.fields
  refine ⟨hsound.structs, hsound.layouts, fun s hs x hx => (hfields s hs x hx).1, ?_⟩
  rintro a b ⟨s, hs, -, x, hx, hb⟩
  exact (hnames b).mpr ((hfields s hs x hx).2 b hb)

end TreeAsm.Lowering
