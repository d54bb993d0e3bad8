import Mathlib.Data.List.Nodup
import TreeAsm.Ir.Module

/-!
# Looking things up in a module

A table has a list of things and a map from their names to places in the list (`Table`). Because the two
are in step, the list says all there is to know about the table (`Table.ext`), and what operations do to a
module can be said in terms of its lists: what a name finds, what an addition does, and what interning
a string does.
-/

namespace TreeAsm.Ir

namespace Table

variable {α : Type} {key : α → String} {t : Table α key} {x : α} {n : String}

/-- Tables with the same list have the same map. -/
theorem ext {t t' : Table α key} (h : t.items = t'.items) : t = t' := by
  obtain ⟨⟨items, places⟩, hstep⟩ := t
  obtain ⟨⟨items', places'⟩, hstep'⟩ := t'
  obtain rfl : items = items' := h
  obtain rfl : places = places' := funext fun n => (hstep n).trans (hstep' n).symm
  rfl

theorem find?_eq_none_iff : t.find? n = none ↔ n ∉ t.items.map key := by
  rw [find?_eq, List.find?_eq_none, List.mem_map]
  simp

theorem find?_isSome_iff : (t.find? n).isSome ↔ n ∈ t.items.map key := by
  rw [← Option.ne_none_iff_isSome, Ne, find?_eq_none_iff, not_not]

/-- Where names are different, a name finds what has it. -/
theorem find?_of_mem (hnames : (t.items.map key).Nodup) (hx : x ∈ t.items) : t.find? (key x) = some x := by
  obtain ⟨y, hy⟩ := Option.isSome_iff_exists.mp (find?_isSome_iff.mpr (List.mem_map_of_mem hx))
  obtain ⟨hmem, hkey⟩ := find?_some hy
  rw [hy, List.inj_on_of_nodup_map hnames hmem hx hkey]

theorem put_eq (h : t.find? (key x) = none) : t.put x h = .ofList (t.items ++ [x]) := ext rfl

theorem add_eq (t : Table α key) (x : α) (taken : Cause) : t.add x taken =
    if key x ∈ t.items.map key then .fail taken else .ok (.ofList (t.items ++ [x])) := by
  by_cases hx : key x ∈ t.items.map key
  · rw [if_pos hx, add, dif_neg fun h => find?_eq_none_iff.mp h hx]
  · rw [if_neg hx, add, dif_pos (find?_eq_none_iff.mpr hx), put_eq]

end Table

namespace Module

theorem struct?_eq (m : Module) (n : String) : m.struct? n = m.structs.find? fun s => s.name == n :=
  m.structTable.find?_eq n

theorem struct?_congr {m m' : Module} (h : m'.structs = m.structs) (n : String) :
    m'.struct? n = m.struct? n :=
  congrArg (Table.find? · n) (Table.ext h)

theorem global?_congr {m m' : Module} (h : m'.globals = m.globals) (n : String) :
    m'.global? n = m.global? n :=
  congrArg (Table.find? · n) (Table.ext h)

theorem addStruct_eq (m : Module) (s : Struct) :
    m.addStruct s = if s.name ∈ m.structs.map (·.name) then .fail (.structRedefined s.name)
      else .ok { m with structTable := .ofList (m.structs ++ [s]) } := by
  rw [addStruct, Table.add_eq, apply_ite (Except.map _)]
  rfl

theorem addFunc_eq (m : Module) (f : Func) :
    m.addFunc f = if f.name ∈ m.funcs.map (·.name) then .fail (.funcRedefined f.name)
      else .ok { m with funcTable := .ofList (m.funcs ++ [f]) } := by
  rw [addFunc, Table.add_eq, apply_ite (Except.map _)]
  rfl

theorem addGlobal_eq (m : Module) (g : Global) :
    m.addGlobal g = if g.name ∈ m.globals.map (·.name) then .fail (.globalRedefined g.name)
      else .ok { m with globalTable := .ofList (m.globals ++ [g]) } := by
  rw [addGlobal, Table.add_eq, apply_ite (Except.map _)]
  rfl

/-- What is added if a name has to be new. -/
theorem ok_of_new {p : Prop} [Decidable p] {cause : Cause} {m m' : Module}
    (h : (if p then .fail cause else .ok m : Outcome Module) = .ok m') : ¬ p ∧ m' = m := by
  split at h
  · cases h
  next hp => exact ⟨hp, (Except.ok.inj h).symm⟩

/-- A string whose value is known is the constant for it; any other gets the next label. -/
theorem intern_cases (m : Module) (value : String) (type : Ty) :
    (∃ c ∈ m.strings, c.value = value ∧ m.intern value type = (c, m)) ∨ value ∉ m.strings.map (·.value) ∧
        m.intern value type = (⟨value, s!"str{m.strings.length}", type⟩, { m with
          stringTable := .ofList (m.strings ++ [⟨value, s!"str{m.strings.length}", type⟩]) }) := by
  rw [intern]
  unfold internIn
  split
  next c hc =>
    obtain ⟨hmem, hvalue⟩ := Table.find?_some hc
    exact .inl ⟨c, hmem, hvalue, rfl⟩
  next hc =>
    refine Or.inr ⟨Table.find?_eq_none_iff.mp hc, ?_⟩
    simp only [Table.put_eq]

end Module

end TreeAsm.Ir
