import TreeAsm.Proofs.Lowering.Declarations
import TreeAsm.Proofs.Lowering.Expr

/-!
# Declarations have types

Every type in the module of declarations is one that a program can name (`Declaring.typed`), and
laying out the structs keeps it so (`Layouts.typed`).
-/

namespace TreeAsm.Lowering

open Ir
open Program (Param Stmt TypeRef)
open Outcome (bind_ok within_eq_ok)

theorem typed_empty : Typed Module.empty := by
  refine ⟨?_, ?_, ?_, ?_, ?_⟩ <;>
  · intro x hx
    cases hx

theorem addAllStructs_typed {stmts : List Stmt} {ns : String} {m : Module}
    (h : addAllStructs ns .empty stmts = .ok m) : Typed m := by
  refine addAllStructs_keeps (fun m m' s hfields _ h hm => ?_) stmts typed_empty h
  obtain ⟨-, rfl⟩ := Module.addStruct_ok h
  refine ⟨fun s' hs f hf => ?_, hm.globals, hm.inits, hm.strings, hm.funcs⟩
  rcases List.mem_append.mp hs with hs | hs
  · exact hm.structs s' hs f hf
  · rw [List.mem_singleton.mp hs, hfields] at hf
    cases hf

variable {u : Universe} {m m' : Module} {ns : String}

variable {ref : TypeRef} {name : String} {init : Option Program.Expr}

theorem valueType_proper {t : Ty} (h : valueType u m ns ref = .ok t) : t.Proper := by
  obtain ⟨t', ht', h⟩ := bind_ok h
  obtain ⟨_, -, h⟩ := bind_ok h
  cases h
  exact resolveType_proper ht'

theorem structFields_proper {struct : String} {decls : List Program.FieldDecl} {fs : List Field}
    (h : structFields u m ns struct decls = .ok fs) : ∀ f ∈ fs, f.type.Proper := by
  intro f hf
  obtain ⟨d, -, hd⟩ := Outcome.mem_of_mapM h f hf
  obtain ⟨t, ht, hd⟩ := bind_ok hd
  cases hd
  exact valueType_proper (within_eq_ok ht)

theorem paramLocals_proper : ∀ {params : List Param} {n : Nat} {vs : List Local},
    paramLocals u m ns n params = .ok vs → ∀ v ∈ vs, v.type.Proper := by
  intro params
  induction params with
  | nil =>
    intro n vs h v hv
    cases h
    cases hv
  | cons p params ih =>
    intro n vs h v hv
    obtain ⟨t, ht, h⟩ := bind_ok h
    obtain ⟨ws, hws, h⟩ := bind_ok h
    cases h
    rcases List.mem_cons.mp hv with rfl | hv
    · exact valueType_proper (within_eq_ok ht)
    · exact ih hws v hv

theorem signature_proper {params : List Param} {ret : TypeRef} {f : Func}
    (h : signature u m ns name params ret = .ok f) : SignatureProper f := by
  obtain ⟨t, ht, h⟩ := bind_ok h
  obtain ⟨vs, hvs, h⟩ := bind_ok h
  cases h
  exact ⟨resolveType_proper (within_eq_ok ht), paramLocals_proper hvs⟩

theorem Typed.addFunc (hm : Typed m) {f : Func} (hf : SignatureProper f)
    (h : m.addFunc f = .ok m') : Typed m' := by
  obtain ⟨-, rfl⟩ := Module.addFunc_ok h
  exact ⟨hm.structs, hm.globals, hm.inits, hm.strings, forall_mem_concat hm.funcs hf⟩

theorem Typed.addGlobal (hm : Typed m) {g : Global} (ht : g.type.Proper)
    (hinit : ∀ x, g.init = some x → (∃ value t, x = .int value t) ∨ ∃ c, x = .str c)
    (h : m.addGlobal g = .ok m') : Typed m' := by
  rw [(Module.addGlobal_ok h).2]
  exact ⟨hm.structs, forall_mem_concat hm.globals ht, forall_mem_concat hm.inits hinit, hm.strings,
    hm.funcs⟩

theorem Typed.setFields (hm : Typed m) (name : String) {fields : List Field}
    (hfields : ∀ f ∈ fields, f.type.Proper) : Typed (m.setFields name fields) := by
  refine ⟨fun s hs f hf => ?_, hm.globals, hm.inits, hm.strings, hm.funcs⟩
  obtain ⟨s', hs', rfl⟩ := List.mem_map.mp hs
  split at hf
  · exact hfields f hf
  · exact hm.structs s' hs' f hf

theorem Typed.intern (hm : Typed m) (value : String) : Typed (m.intern value (.ptr .byte)).2 := by
  rcases m.intern_cases value (.ptr .byte) with ⟨_, _, _, heq⟩ | ⟨_, heq⟩ <;> rw [heq]
  · exact hm
  · exact ⟨hm.structs, hm.globals, hm.inits, forall_mem_concat hm.strings trivial, hm.funcs⟩

theorem constantInit_typed (hm : Typed m) {e : Program.Expr} {x : Operand}
    (h : constantInit m e = .ok (x, m')) :
    Typed m' ∧ ((∃ value t, x = .int value t) ∨ ∃ c, x = .str c) := by
  obtain ⟨value, t, rfl, rfl⟩ | ⟨value, rfl, rfl⟩ := constantInit_cases h
  · exact ⟨hm, .inl ⟨_, _, rfl⟩⟩
  · exact ⟨hm.intern value, .inr ⟨_, rfl⟩⟩

theorem globalInit_typed (hm : Typed m) {x : Option Operand} (h : globalInit m init = .ok (x, m')) :
    Typed m' ∧ ∀ y, x = some y → (∃ value t, y = .int value t) ∨ ∃ c, y = .str c := by
  cases init with
  | none =>
    cases h
    exact ⟨hm, by simp⟩
  | some e =>
    obtain ⟨⟨y, m1⟩, h1, h⟩ := bind_ok h
    cases h
    obtain ⟨hm', hy⟩ := constantInit_typed hm h1
    refine ⟨hm', fun z hz => ?_⟩
    cases hz
    exact hy

theorem writtenGlobalType_proper {t : Ty} (h : writtenGlobalType u m ns ref = .ok t) :
    t ≠ .untyped → t.Proper := by
  unfold writtenGlobalType at h
  split at h
  · cases h
    exact fun hne => absurd rfl hne
  · exact fun _ => resolveType_proper h

theorem inferredGlobalType_proper (x : Option Operand) : (inferredGlobalType x).Proper := by
  unfold inferredGlobalType
  split <;> trivial

theorem declareGlobal_typed (hm : Typed m) (h : declareGlobal u m ns name ref init = .ok m') :
    Typed m' := by
  obtain ⟨written, hwritten, h⟩ := bind_ok h
  obtain ⟨⟨value, m1⟩, h1, h⟩ := bind_ok h
  obtain ⟨_, -, h⟩ := bind_ok h
  obtain ⟨hm1, hvalue⟩ := globalInit_typed hm h1
  refine hm1.addGlobal ?_ ?_ h
  · split
    next hne => exact writtenGlobalType_proper hwritten hne
    next => exact inferredGlobalType_proper value
  · intro x hx
    obtain ⟨y, hy, rfl⟩ := Option.map_eq_some_iff.mp hx
    rcases hvalue y hy with ⟨v, t, rfl⟩ | ⟨c, rfl⟩
    · exact .inl ⟨_, _, rfl⟩
    · exact .inr ⟨c, rfl⟩

theorem Declaring.typed {d d' : Declared} (h : Declaring u ns d d') (hd : Typed d.module) :
    Typed d'.module := by
  cases h with
  | fields h => exact hd.setFields _ (structFields_proper h)
  | external hf h =>
    refine hd.addFunc ?_ h
    exact ⟨(signature_proper hf).1, (signature_proper hf).2⟩
  | pending hf h _ =>
    refine hd.addFunc ?_ h
    exact ⟨(signature_proper hf).1, (signature_proper hf).2⟩
  | outside ht h => exact hd.addGlobal (resolveType_proper ht) (by simp) h
  | global h => exact declareGlobal_typed hd h

/-- Laying out structs does not change what has a type. -/
theorem Layouts.typed {m0 : Module} (h : Layouts m0 m) (hm : Typed m0) : Typed m := by
  refine ⟨fun s hs f hf => ?_, by rw [h.globals]; exact hm.globals,
    by rw [h.globals]; exact hm.inits, by rw [h.strings]; exact hm.strings,
    by rw [h.funcs]; exact hm.funcs⟩
  obtain ⟨s0, hs0, heq⟩ := List.mem_map.mp (h.mem_shapes hs)
  have hfields : s0.fields = s.fields := congrArg Prod.snd heq
  exact hm.structs s0 hs0 f (hfields ▸ hf)

end TreeAsm.Lowering
