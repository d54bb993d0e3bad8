import TreeAsm.Pipeline
import TreeAsm.Proofs.Emit.Layout
import TreeAsm.Proofs.Ir.Tables
import TreeAsm.Proofs.Lowering.FormsFile
import TreeAsm.Proofs.Lowering.Names

/-!
# Labels of an emitted program

The text of a program defines the labels of its strings and of their lengths, of its variables and of
its functions, and it declares the symbols of others (`emitModule_labels`). They come from tables that
are kept apart. Each of them holds different names, so a label is defined twice, or defined and
declared, or declared twice, only if two tables share a name: this is exactly when it happens
(`labelled_iff_apart`). A variable and a function of one name are enough (`labelled_twice`).
-/

namespace TreeAsm

open Outcome (bind_ok)

namespace Emit

open Asm (Line)
open Ir

/-! ## The lines of a module -/

/-- The labels of a string constant: its own and, if strings carry their length, that of the
length. -/
def stringLabels (fatStrings : Bool) (c : StringConst) : List String :=
  c.label :: if fatStrings then [c.label ++ "_len"] else []

theorem stringLines_labels (fatStrings : Bool) (cs : List StringConst) :
    (cs.flatMap (stringLines fatStrings)).filterMap Line.defines = cs.flatMap (stringLabels fatStrings) ∧
      (cs.flatMap (stringLines fatStrings)).filterMap Line.declares = [] := by
  induction cs with
  | nil => exact ⟨rfl, rfl⟩
  | cons c cs ih =>
    rw [List.flatMap_cons, List.filterMap_append, List.filterMap_append, ih.1, ih.2, List.flatMap_cons]
    cases fatStrings <;> exact ⟨rfl, rfl⟩

variable {m : Module} {u : Universe} {lines : List Line} {entry : String} {fs : List Func}
  {fatStrings : Bool}

theorem globalLine_labels {g : Global} {l : Line} (h : globalLine u g = .ok l) :
    l.defines = some g.name ∧ l.declares = none := by
  unfold globalLine at h
  split at h
  · cases h
    exact ⟨rfl, rfl⟩
  · obtain ⟨d, -, h⟩ := bind_ok h
    cases h
    exact ⟨rfl, rfl⟩
  · obtain ⟨d, -, h⟩ := bind_ok h
    cases h
    exact ⟨rfl, rfl⟩
  · cases h

/-- The names of the global variables that are defined here, and of those that are not. -/
def globalNames (m : Module) (external : Bool) : List String :=
  (m.globals.filter fun g => g.external == external).map (·.name)

/-- The functions that are defined here, or those that are not. -/
def funcsOf (m : Module) (external : Bool) : List Func :=
  m.funcs.filter fun f => f.external == external

theorem dataLines_labels (h : dataLines u m.globals = .ok lines) :
    lines.filterMap Line.defines = globalNames m false ∧ lines.filterMap Line.declares = [] := by
  have hmap : ∀ {gs : List Global} {ls : List Line},
      List.Forall₂ (fun g l => globalLine u g = .ok l) gs ls →
      ls.filterMap Line.defines = gs.map (·.name) ∧ ls.filterMap Line.declares = [] := by
    intro gs ls h
    induction h with
    | nil => exact ⟨rfl, rfl⟩
    | cons hl _ ih =>
      obtain ⟨hdefines, hdeclares⟩ := globalLine_labels hl
      rw [List.filterMap_cons, List.filterMap_cons, hdefines, hdeclares, ih.1, ih.2]
      exact ⟨rfl, rfl⟩
  obtain ⟨ls, hls, h⟩ := bind_ok h
  obtain ⟨hdefines, hdeclares⟩ := hmap (Outcome.mapM_eq_ok_iff.mp hls)
  have hown : m.globals.filter (fun g => !g.external) = m.globals.filter fun g => g.external == false :=
    List.filter_congr fun g _ => by cases g.external <;> rfl
  rw [hown] at h hdefines
  cases h
  split
  next hempty =>
    rw [globalNames, List.isEmpty_iff.mp hempty]
    exact ⟨rfl, rfl⟩
  next => exact ⟨hdefines, hdeclares⟩

/-- The labels in the lines of a function. -/
def funcLabels (f : Func) : List String := f.name :: (f.blocks.map (·.label) ++ [endLabel])

/-- The lines of the functions are those of one function after the other. -/
theorem funcLines_texts {fs : List Func} {R : Func → List Line → Prop}
    (hR : ∀ f ∈ fs, f.external = false → ∀ text, emitFunc u m f (f.name == entry) = .ok text → R f text)
    (h : funcLines u m entry fs = .ok lines) : ∃ texts, lines = texts.flatten ∧
      List.Forall₂ R (fs.filter fun f => f.external == false) texts := by
  induction fs generalizing lines with
  | nil =>
    cases h
    exact ⟨[], rfl, .nil⟩
  | cons f fs ih =>
    have hrest := fun g hg => hR g (List.mem_cons_of_mem f hg)
    rw [funcLines] at h
    cases hext : f.external with
    | true =>
      rw [if_pos hext] at h
      rw [List.filter_cons_of_neg (by simp [hext])]
      exact ih hrest h
    | false =>
      rw [if_neg (by simp [hext])] at h
      obtain ⟨text, htext, h⟩ := bind_ok h
      obtain ⟨more, hmore, h⟩ := bind_ok h
      cases h
      obtain ⟨texts, rfl, htexts⟩ := ih hrest hmore
      rw [List.filter_cons_of_pos (by simp [hext])]
      have htext := hR f List.mem_cons_self hext text (Outcome.within_eq_ok htext)
      exact ⟨text :: texts, rfl, .cons htext htexts⟩

theorem funcLines_labels (hcode : ∀ f ∈ fs, f.external = false → ∀ b ∈ f.blocks, ∀ i ∈ b.code,
      i.op ≠ .label) (h : funcLines u m entry fs = .ok lines) :
    lines.filterMap Line.defines = (fs.filter fun f => f.external == false).flatMap funcLabels ∧
      lines.filterMap Line.declares = [] := by
  obtain ⟨texts, rfl, htexts⟩ := funcLines_texts (fun f hf hext text htext =>
    emitFunc_labels htext (hcode f hf hext)) h
  rw [List.filterMap_flatten, List.filterMap_flatten]
  generalize fs.filter (fun f => f.external == false) = own at htexts ⊢
  clear h
  induction htexts with
  | nil => exact ⟨rfl, rfl⟩
  | cons h _ ih => simp [funcLabels, h.1, h.2, ih.1, ih.2]

theorem symbolLines_labels (m : Module) (entry : String) :
    (symbolLines m entry).filterMap Line.defines = [] ∧ (symbolLines m entry).filterMap Line.declares
        = globalNames m true ++ (funcsOf m true).map (·.name) := by
  have houtside : ∀ names : List String, (names.map Line.outside).filterMap Line.defines = [] ∧
      (names.map Line.outside).filterMap Line.declares = names := by
    intro names
    induction names with
    | nil => exact ⟨rfl, rfl⟩
    | cons n names ih => exact ⟨ih.1, congrArg (n :: ·) ih.2⟩
  have hexported : ∀ fs : List Func, (fs.map fun f => Line.exported f.name).filterMap Line.defines = [] ∧
      (fs.map fun f => Line.exported f.name).filterMap Line.declares = [] := by
    intro fs
    induction fs with
    | nil => exact ⟨rfl, rfl⟩
    | cons f fs ih => exact ih
  have hglobals : (m.globals.filter (·.external)).map (fun g => Line.outside g.name)
      = (globalNames m true).map Line.outside := by
    rw [globalNames, List.map_map]
    simp [Function.comp_def]
  have hfuncs : (m.funcs.filter (·.external)).map (fun f => Line.outside f.name)
      = ((funcsOf m true).map (·.name)).map Line.outside := by
    rw [funcsOf, List.map_map]
    simp [Function.comp_def]
  rw [symbolLines, hglobals, hfuncs]
  constructor
  · rw [List.filterMap_append, List.filterMap_append, (houtside _).1, (houtside _).1, (hexported _).1]
    rfl
  · rw [List.filterMap_append, List.filterMap_append, (houtside _).2, (houtside _).2,
      (hexported _).2, List.append_nil]

/-- The labels that the text of a module defines. -/
def definedLabels (fatStrings : Bool) (m : Module) : List String :=
  m.strings.flatMap (stringLabels fatStrings) ++ globalNames m false ++ (funcsOf m false).flatMap funcLabels

/-- The symbols that the text of a module declares. -/
def declaredLabels (m : Module) : List String :=
  globalNames m true ++ (funcsOf m true).map (·.name)

theorem emitModule_labels (hcode : ∀ f ∈ m.funcs, f.external = false → ∀ b ∈ f.blocks, ∀ i ∈ b.code,
      i.op ≠ .label) (h : emitModule u fatStrings entry m = .ok lines) :
    lines.filterMap Line.defines = definedLabels fatStrings m ∧
      lines.filterMap Line.declares = declaredLabels m := by
  obtain ⟨data, hdata, h⟩ := bind_ok h
  obtain ⟨code, hlines, h⟩ := bind_ok h
  cases h
  have hstrings := stringLines_labels fatStrings m.strings
  have hglobals := dataLines_labels (Outcome.within_eq_ok hdata)
  have hfuncs := funcLines_labels hcode hlines
  have hsymbols := symbolLines_labels m entry
  constructor
  · simp only [List.cons_append, List.filterMap_cons, List.filterMap_append, Line.defines,
      hstrings.1, hglobals.1, hsymbols.1, hfuncs.1, List.append_nil]
    rfl
  · simp only [List.cons_append, List.filterMap_cons, List.filterMap_append, Line.declares,
      hstrings.2, hglobals.2, hsymbols.2, hfuncs.2, List.nil_append, List.append_nil]
    rfl

/-! ## Labels and tables -/

/-- A label that belongs to the function it stands in. -/
def isLocal (name : String) : Bool := name.toList.head? == some '.'

/-- Every label that is not local is defined once at most, and no symbol is declared twice or declared
and defined. -/
structure Labelled (lines : List Line) : Prop where
  once : ∀ name, isLocal name = false → (lines.filterMap Line.defines).count name ≤ 1
  elsewhere : ∀ name ∈ lines.filterMap Line.declares, name ∉ lines.filterMap Line.defines
  declared : (lines.filterMap Line.declares).Nodup

/-- The tables of a module share no name: no string has the label of a variable or function, no
variable the name of a function, and no symbol from elsewhere is in two tables or has a label of this
module. -/
structure Apart (fatStrings : Bool) (m : Module) : Prop where
  strings : ∀ c ∈ m.strings, ∀ l ∈ stringLabels fatStrings c,
    l ∉ globalNames m false ∧ l ∉ (funcsOf m false).map (·.name)
  globals : ∀ name ∈ globalNames m false, isLocal name = false → name ∉ (funcsOf m false).map (·.name)
  outside : ∀ name ∈ globalNames m true, name ∉ (funcsOf m true).map (·.name)
  elsewhere : ∀ name ∈ declaredLabels m, name ∉ definedLabels fatStrings m

instance (fatStrings : Bool) (m : Module) : Decidable (Apart fatStrings m) :=
  decidable_of_iff ((∀ c ∈ m.strings, ∀ l ∈ stringLabels fatStrings c,
        l ∉ globalNames m false ∧ l ∉ (funcsOf m false).map (·.name)) ∧
      (∀ name ∈ globalNames m false, isLocal name = false → name ∉ (funcsOf m false).map (·.name)) ∧
      (∀ name ∈ globalNames m true, name ∉ (funcsOf m true).map (·.name)) ∧
      ∀ name ∈ declaredLabels m, name ∉ definedLabels fatStrings m)
    ⟨fun ⟨h1, h2, h3, h4⟩ => ⟨h1, h2, h3, h4⟩, fun ⟨h1, h2, h3, h4⟩ => ⟨h1, h2, h3, h4⟩⟩

/-- No string has the label of the length of another: digits end the one and not the other. -/
theorem strLabel_ne_length (i j : Nat) : s!"str{i}" ≠ s!"str{j}" ++ "_len" := by
  intro h
  have h' : "str" ++ Nat.repr i = "str" ++ (Nat.repr j ++ "_len") := by
    rw [← String.append_assoc]
    exact h
  have hrepr := congrArg String.toList (String.append_right_inj _ |>.mp h')
  rw [String.toList_append, Nat.repr_eq_ofList_toDigits, String.toList_ofList] at hrepr
  have hmem : '_' ∈ Nat.toDigits 10 i := by
    rw [hrepr]
    exact List.mem_append_right _ (by decide)
  exact absurd (Nat.isDigit_of_mem_toDigits (by omega) (by omega) hmem) (by decide)

/-- The labels of numbered strings and of their lengths are all different, and none is local. -/
theorem stringLabels_nodup (fatStrings : Bool) (h : Lowering.Numbered m) :
    (m.strings.flatMap (stringLabels fatStrings)).Nodup ∧
      ∀ c ∈ m.strings, ∀ l ∈ stringLabels fatStrings c, isLocal l = false := by
  have hmem : ∀ {c : StringConst} {l : String}, l ∈ stringLabels fatStrings c →
      l = c.label ∨ l = c.label ++ "_len" := by
    intro c l hl
    cases fatStrings with
    | false => exact .inl (List.mem_singleton.mp hl)
    | true =>
      rcases List.mem_cons.mp hl with hl | hl
      · exact .inl hl
      · exact .inr (List.mem_singleton.mp hl)
  have hlabel : ∀ c ∈ m.strings, ∃ i : Nat, c.label = s!"str{i}" := by
    intro c hc
    obtain ⟨i, hi⟩ := List.getElem?_of_mem hc
    exact ⟨i, h i c hi⟩
  constructor
  · rw [List.nodup_flatMap]
    constructor
    · intro c hc
      obtain ⟨i, hi⟩ := hlabel c hc
      cases fatStrings with
      | false => exact List.nodup_singleton _
      | true =>
        refine List.nodup_cons.mpr ⟨fun hin => ?_, List.nodup_singleton _⟩
        rw [hi] at hin
        exact strLabel_ne_length i i (List.mem_singleton.mp hin)
    · rw [List.pairwise_iff_getElem]
      intro i j hi hj hlt l hl hl'
      have hli := h i _ (List.getElem?_eq_getElem hi)
      have hlj := h j _ (List.getElem?_eq_getElem hj)
      have hne : s!"str{i}" ≠ s!"str{j}" := fun heq => by
        have := Module.strLabel_injective heq
        omega
      rcases hmem hl with rfl | rfl
      · rcases hmem hl' with heq | heq
        · rw [hli, hlj] at heq
          exact hne heq
        · rw [hli, hlj] at heq
          exact strLabel_ne_length i j heq
      · rcases hmem hl' with heq | heq
        · rw [hli, hlj] at heq
          exact strLabel_ne_length j i heq.symm
        · rw [hli, hlj] at heq
          exact hne (String.append_left_inj _ |>.mp heq)
  · intro c hc l hl
    obtain ⟨i, hi⟩ := hlabel c hc
    have hstart : ∀ rest : String, isLocal ("str" ++ rest) = false := by
      intro rest
      rw [isLocal, String.toList_append]
      rfl
    rcases hmem hl with rfl | rfl
    · rw [hi]
      exact hstart (Nat.repr i)
    · rw [hi]
      have hlong : s!"str{i}" ++ "_len" = "str" ++ (Nat.repr i ++ "_len") := String.append_assoc
      rw [hlong]
      exact hstart _

/-- Of the labels in functions only their names are not local. -/
theorem count_funcLabels (hblocks : ∀ f ∈ fs, ∀ b ∈ f.blocks, ∃ k, b.label = blockLabel k)
    {name : String} (hname : isLocal name = false) :
    (fs.flatMap funcLabels).count name = (fs.map (·.name)).count name := by
  induction fs with
  | nil => rfl
  | cons f fs ih =>
    have hinner : (f.blocks.map (·.label) ++ [endLabel]).count name = 0 := by
      rw [List.count_eq_zero]
      intro hmem
      rcases List.mem_append.mp hmem with hmem | hmem
      · obtain ⟨b, hb, rfl⟩ := List.mem_map.mp hmem
        obtain ⟨k, hk⟩ := hblocks f List.mem_cons_self b hb
        have hlocal : isLocal (blockLabel k) := by
          show isLocal (".L" ++ toString (k : Int))
          rw [isLocal, String.toList_append]
          rfl
        rw [hk, hlocal] at hname
        cases hname
      · rw [List.mem_singleton.mp hmem] at hname
        cases hname
    rw [List.flatMap_cons, List.count_append, ih fun g hg => hblocks g (List.mem_cons_of_mem _ hg),
      funcLabels, List.count_cons, hinner, List.map_cons, List.count_cons]
    omega

/-- In a module whose tables are in order, labels are defined and declared once exactly if the tables
share no name. -/
theorem labelled_iff (htables : Lowering.Tables m)
    (hdefines : lines.filterMap Line.defines = definedLabels fatStrings m)
    (hdeclares : lines.filterMap Line.declares = declaredLabels m) :
    Labelled lines ↔ Apart fatStrings m := by
  obtain ⟨hstrings, hnonlocal⟩ := stringLabels_nodup fatStrings htables.strings
  have hglobals : ∀ external, (globalNames m external).Nodup := fun _ =>
    htables.globals.sublist (List.filter_sublist.map _)
  have hfuncs : ∀ external, ((funcsOf m external).map (·.name)).Nodup := fun _ =>
    htables.funcs.sublist (List.filter_sublist.map _)
  -- a label that is not local comes from the strings, the variables or the functions
  have hcount : ∀ name, isLocal name = false → (lines.filterMap Line.defines).count name
        = (m.strings.flatMap (stringLabels fatStrings)).count name
          + (globalNames m false).count name + ((funcsOf m false).map (·.name)).count name := by
    intro name hname
    have hblocks : ∀ f ∈ funcsOf m false, ∀ b ∈ f.blocks, ∃ k, b.label = blockLabel k :=
      fun f hf => htables.blocks f (List.mem_filter.mp hf).1
    rw [hdefines, definedLabels, List.count_append, List.count_append, count_funcLabels hblocks hname]
  constructor
  · intro h
    refine ⟨fun c hc l hl => ?_, fun name hname hlocal hfunc => ?_, fun name hname hfunc => ?_, ?_⟩
    · have hlocal := hnonlocal c hc l hl
      have honce := h.once l hlocal
      rw [hcount l hlocal] at honce
      have hpos := List.count_pos_iff.mpr (List.mem_flatMap.mpr ⟨c, hc, hl⟩)
      refine ⟨fun hmem => ?_, fun hmem => ?_⟩
      · have := List.count_pos_iff.mpr hmem
        omega
      · have := List.count_pos_iff.mpr hmem
        omega
    · have honce := h.once name hlocal
      rw [hcount name hlocal] at honce
      have hpos := List.count_pos_iff.mpr hname
      have hpos' := List.count_pos_iff.mpr hfunc
      omega
    · have hnodup := h.declared
      rw [hdeclares, declaredLabels, List.nodup_append] at hnodup
      exact hnodup.2.2 name hname name hfunc rfl
    · intro name hname
      rw [← hdefines]
      exact h.elsewhere name (hdeclares ▸ hname)
  · intro h
    refine ⟨fun name hlocal => ?_, fun name hname => ?_, ?_⟩
    · rw [hcount name hlocal]
      have hone := List.nodup_iff_count_le_one.mp hstrings name
      have htwo := List.nodup_iff_count_le_one.mp (hglobals false) name
      have hthree := List.nodup_iff_count_le_one.mp (hfuncs false) name
      by_cases hstring : name ∈ m.strings.flatMap (stringLabels fatStrings)
      · obtain ⟨c, hc, hl⟩ := List.mem_flatMap.mp hstring
        obtain ⟨hglobal, hfunc⟩ := h.strings c hc name hl
        rw [List.count_eq_zero.mpr hglobal, List.count_eq_zero.mpr hfunc]
        omega
      · rw [List.count_eq_zero.mpr hstring]
        by_cases hglobal : name ∈ globalNames m false
        · rw [List.count_eq_zero.mpr (h.globals name hglobal hlocal)]
          omega
        · rw [List.count_eq_zero.mpr hglobal]
          omega
    · rw [hdefines]
      exact h.elsewhere name (hdeclares ▸ hname)
    · rw [hdeclares, declaredLabels, List.nodup_append]
      refine ⟨hglobals true, hfuncs true, ?_⟩
      rintro name hname _ hfunc rfl
      exact h.outside name hname hfunc

end Emit

namespace Session

open Emit Ir

/-- The labels of the text of a program are each defined or declared once exactly if the tables of its
module share no name. -/
theorem labelled_iff_apart {s s' : Session} {file : Program.File} {m : Module}
    {lines : List Asm.Line} (hm : s.lowerFile file = .ok (m, s'))
    (hlines : s'.emit m = .ok lines) :
    Labelled lines ↔ Apart s'.config.fatStrings m := by
  obtain ⟨r, hr, hm⟩ := bind_ok hm
  obtain ⟨rfl, -⟩ := Prod.mk.inj (Except.ok.inj hm)
  have hcode : ∀ f ∈ r.module.funcs, f.external = false → ∀ b ∈ f.blocks, ∀ i ∈ b.code, i.op ≠ .label := by
    intro f hf hext b hb i hi hop
    have hform := (Lowering.lowerFile_lowered hr hf hext).forms b hb i hi
    cases hform with
    | binary hbinary =>
      cases hop
      exact absurd hbinary (by decide)
    | _ => simp at hop
  obtain ⟨hdefines, hdeclares⟩ := emitModule_labels hcode hlines
  exact labelled_iff (Lowering.lowerFile_tables hr) hdefines hdeclares

/-- The module of a program, the session after it and its lines. -/
def emitted (file : Program.File) : Outcome (Module × Session × List Asm.Line) := do
  let s ← start Config.default
  let (m, s') ← s.lowerFile file
  let lines ← s'.emit m
  return (m, s', lines)

theorem emitted_ok {file : Program.File} {m : Module} {s' : Session} {lines : List Asm.Line}
    (h : emitted file = .ok (m, s', lines)) :
    ∃ s, start Config.default = .ok s ∧ s.lowerFile file = .ok (m, s') ∧ s'.emit m = .ok lines := by
  obtain ⟨s, hs, h⟩ := bind_ok h
  obtain ⟨⟨m1, s1⟩, hm, h⟩ := bind_ok h
  obtain ⟨ls, hlines, h⟩ := bind_ok h
  cases h
  exact ⟨s, hs, hm, hlines⟩

/-- A program with a variable and a function of given names. The function calls one from elsewhere
with a string. -/
def twoNames (global func : String) : Program.File :=
  let p : Position := default
  ⟨"names", [.var p global ⟨"int", 0⟩ (some (.int p 1)),
    .outside p "puts" false [⟨"s", ⟨"char", 1⟩⟩] ⟨"int", 0⟩,
    .func p func true [] ⟨"int", 0⟩ (some (.mk p [.return p (some (.call p "puts" [.str p "hi"]))]))]⟩

theorem labelled_iff_apart_twoNames :
    ∃ s m s' lines, Session.lowerFile s (twoNames "x" "main") = .ok (m, s') ∧
      s'.emit m = .ok lines ∧ Labelled lines := by
  obtain ⟨⟨m, s', lines⟩, h, hapart⟩ := Outcome.exists_ok_of_any (x := emitted (twoNames "x" "main"))
    (P := fun r => Apart r.2.1.config.fatStrings r.1) (by decide +kernel)
  obtain ⟨s, -, hm, hlines⟩ := emitted_ok h
  exact ⟨s, m, s', lines, hm, hlines, (labelled_iff_apart hm hlines).mpr hapart⟩

/-- A variable and a function of one name: the label is defined twice. -/
theorem labelled_twice : ∃ s m s' lines, start Config.default = .ok s ∧
      Session.lowerFile s (twoNames "x" "x") = .ok (m, s') ∧ s'.emit m = .ok lines ∧
      ¬ Labelled lines := by
  obtain ⟨⟨m, s', lines⟩, h, htwice⟩ := Outcome.exists_ok_of_any (x := emitted (twoNames "x" "x"))
    (P := fun r => (r.2.2.filterMap Asm.Line.defines).count "x" = 2) (by decide +kernel)
  obtain ⟨s, hs, hm, hlines⟩ := emitted_ok h
  refine ⟨s, m, s', lines, hs, hm, hlines, fun hlabelled => ?_⟩
  have honce := hlabelled.once "x" (by decide)
  dsimp only at htwice
  omega

end Session

end TreeAsm
