import TreeAsm.Proofs.Lowering.File

/-!
# The names in the tables of a module

Each table of a module refuses a name that it has already: no two functions of a lowered program have
one name, no two global variables have, and the labels of its string constants are `str0`, `str1` and
so on. Blocks have local labels (`lowerFile_tables`). Nothing compares one table with another.
-/

namespace TreeAsm.Lowering

open Ir
open Program (Stmt)

/-- The tables of a module, each for itself: different names, and numbers for the string constants. -/
structure Tables (m : Module) : Prop where
  funcs : (m.funcs.map (·.name)).Nodup
  globals : (m.globals.map (·.name)).Nodup
  strings : Numbered m
  blocks : ∀ f ∈ m.funcs, ∀ b ∈ f.blocks, ∃ k, b.label = blockLabel k

variable {u : Universe} {m m' : Module}

/-! ## Declarations -/

theorem Tables.addFunc (hm : Tables m) {f : Func} (h : m.addFunc f = .ok m')
    (hblocks : f.blocks = []) : Tables m' := by
  obtain ⟨hnew, rfl⟩ := Module.addFunc_ok h
  refine ⟨nodup_names_append hm.funcs hnew, hm.globals, hm.strings, fun g hg b hb => ?_⟩
  rcases List.mem_append.mp hg with hg | hg
  · exact hm.blocks g hg b hb
  · rw [List.mem_singleton.mp hg, hblocks] at hb
    exact absurd hb List.not_mem_nil

theorem Tables.addGlobal (hm : Tables m) {g : Global} (h : m.addGlobal g = .ok m') : Tables m' := by
  obtain ⟨hnew, rfl⟩ := Module.addGlobal_ok h
  exact ⟨hm.funcs, nodup_names_append hm.globals hnew, hm.strings, hm.blocks⟩

theorem Tables.grows (hm : Tables m) (h : Grows m m') : Tables m' := by
  refine ⟨h.nodup hm.funcs, by rw [h.globals]; exact hm.globals, h.numbered hm.strings, ?_⟩
  obtain ⟨new, hnew, hexternal⟩ := h.funcs
  intro f hf b hb
  rw [hnew] at hf
  rcases List.mem_append.mp hf with hf | hf
  · exact hm.blocks f hf b hb
  · rw [(hexternal f hf).2] at hb
    exact absurd hb List.not_mem_nil

theorem declareGlobal_tables {ns name : String} {ref : Program.TypeRef}
    {init : Option Program.Expr} (hm : Tables m)
    (h : declareGlobal u m ns name ref init = .ok m') : Tables m' := by
  obtain ⟨written, -, h⟩ := Outcome.bind_ok h
  obtain ⟨⟨value, m1⟩, h1, h⟩ := Outcome.bind_ok h
  obtain ⟨_, -, h⟩ := Outcome.bind_ok h
  exact (hm.grows (globalInit_ok h1).1).addGlobal h

theorem Declaring.tables {ns : String} {d d' : Declared} (h : Declaring u ns d d')
    (hd : Tables d.module) : Tables d'.module := by
  cases h with
  | fields h => exact ⟨hd.funcs, hd.globals, hd.strings, hd.blocks⟩
  | external hf h => exact hd.addFunc h (signature_ok hf).1
  | pending hf h _ => exact hd.addFunc h (signature_ok hf).1
  | outside ht h => exact hd.addGlobal h
  | global h => exact declareGlobal_tables hd h

/-! ## Bodies -/

theorem lowerPending_tables {x : Pending} {xs : List Pending} {notices : List Notice}
    (hprogress : InProgress u m (x :: xs)) (hm : Tables m)
    (h : lowerPending u m x = .ok (m', notices)) : Tables m' := by
  obtain ⟨f, -, b, s, -, -, -, hruns, rfl, -⟩ := lowerPending_cases hprogress h
  have hgrown := hm.grows hruns.advances.module
  refine ⟨?_, hgrown.globals, hgrown.strings, fun g hg b hb => ?_⟩
  · rw [setFunc_names]
    exact hgrown.funcs
  · rcases mem_setFunc hg with rfl | ⟨hg, -⟩
    · -- the function at hand: its labels came from the counter
      obtain ⟨k, -, hk⟩ := hruns.wf.numbered b.label (List.mem_map_of_mem hb)
      exact ⟨k, hk⟩
    · exact hgrown.blocks g hg b hb

/-- The tables of every lowered program are in order. -/
theorem lowerFile_tables {file : Program.File} {r : Lowered} (h : lowerFile u file = .ok r) :
    Tables r.module := by
  obtain ⟨d, st, hsound, htyped, ⟨m, hm, hd⟩, hst, -, hm'⟩ := lowerFile_steps h
  obtain ⟨hfuncs, hglobals, hstrings⟩ := (addAllStructs_discovered hm).empty
  have hstart : Tables m := by
    refine ⟨?_, ?_, ?_, ?_⟩
    · rw [hfuncs]
      exact List.nodup_nil
    · rw [hglobals]
      exact List.nodup_nil
    · intro i c hc
      rw [hstrings] at hc
      exact absurd hc (by simp)
    · intro f hf
      rw [hfuncs] at hf
      exact absurd hf List.not_mem_nil
  have hdeclared := declareAll_keeps (I := (Tables ·.module)) Declaring.tables file.stmts hstart hd
  have hlaid := (layoutAll_done hsound.structs hsound.layouts hst).1
  have htables : Tables st.module := by
    refine ⟨?_, ?_, ?_, ?_⟩
    · rw [hlaid.funcs]
      exact hdeclared.funcs
    · rw [hlaid.globals]
      exact hdeclared.globals
    · intro i c hc
      rw [hlaid.strings] at hc
      exact hdeclared.strings i c hc
    · rw [hlaid.funcs]
      exact hdeclared.blocks
  exact (lowerAllPending_keeps lowerPending_tables (hsound.inProgress htyped hst) htables hm').2

end TreeAsm.Lowering
