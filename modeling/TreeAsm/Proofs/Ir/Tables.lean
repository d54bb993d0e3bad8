import Mathlib.Data.List.Induction
import TreeAsm.Proofs.Ir.Lookup

/-!
# The tables of a module

A module is asked to intern strings, to add structs, functions and global variables, and to look them
up, in any order. What its tables have to hold is said by the requests alone: of the requests of a kind
that share a name or a value, the first one counts (`firsts`), in the order of the requests, and strings
are numbered in that order (`numbered`).

`Kept` ties the lists of a module to the requests that led to it, and every request keeps it. Each table
also has a map, through which names are looked up, and each addition writes to both; that they stay in step
is kept by `Entries.push` and carried by `Table`. The rest follows from what the lists hold: interning
(`Interning`) and, for the three tables of things with names, lookup and addition (`Naming`).
-/

namespace TreeAsm.Ir.Module

/-- What a module is asked. -/
inductive Request where
  | intern (value : String) (type : Ty)
  | addStruct (s : Struct)
  | addFunc (f : Func)
  | addGlobal (g : Global)
  | stringByLabel (label : String)
  | struct (name : String)
  | func (name : String)
  | global (name : String)
  deriving DecidableEq, Repr

/-- What a module answers. -/
inductive Answer where
  | added
  | refused (e : Failure)
  | string (c : Option StringConst)
  | struct (s : Option Struct)
  | func (f : Option Func)
  | global (g : Option Global)
  deriving DecidableEq, Repr

/-- The module is what an addition made it, or what it was if the addition failed. -/
def settle (m : Module) : Outcome Module → Answer × Module
  | .ok m' => (.added, m')
  | .error e => (.refused e, m)

/-- The answer to a request, and the module after it. -/
def serve (m : Module) : Request → Answer × Module
  | .intern value type => (.string (some (m.intern value type).1), (m.intern value type).2)
  | .addStruct s => m.settle (m.addStruct s)
  | .addFunc f => m.settle (m.addFunc f)
  | .addGlobal g => m.settle (m.addGlobal g)
  | .stringByLabel label => (.string (m.stringByLabel? label), m)
  | .struct name => (.struct (m.struct? name), m)
  | .func name => (.func (m.func? name), m)
  | .global name => (.global (m.global? name), m)

/-- A new module after some requests. -/
def after (rs : List Request) : Module := rs.foldl (fun m r => (m.serve r).2) empty

theorem after_concat (rs : List Request) (r : Request) : after (rs ++ [r]) = ((after rs).serve r).2 := by
  rw [after, List.foldl_append]
  rfl

/-! ## The first of each name -/

section

variable {α : Type} {key : α → String} {xs : List α} {x : α} {n : String}

/-- The things of a list whose name no earlier one has, in order. -/
def firsts (key : α → String) : List α → List α
  | [] => []
  | x :: xs => x :: (firsts key xs).filter fun y => key y ≠ key x

theorem mem_keys_firsts : n ∈ (firsts key xs).map key ↔ n ∈ xs.map key := by
  induction xs with
  | nil => rfl
  | cons x xs ih =>
    rw [firsts, List.map_cons, List.map_cons, List.mem_cons, List.mem_cons, ← ih]
    by_cases hn : n = key x
    · simp [hn]
    · -- a name other than that of the head is not filtered out
      have hkept : n ∈ ((firsts key xs).filter fun y => key y ≠ key x).map key ↔
          n ∈ (firsts key xs).map key := by
        simp only [List.mem_map, List.mem_filter, decide_eq_true_eq]
        constructor
        · rintro ⟨y, ⟨hy, _⟩, rfl⟩
          exact ⟨y, hy, rfl⟩
        · rintro ⟨y, hy, rfl⟩
          exact ⟨y, ⟨hy, hn⟩, rfl⟩
      rw [hkept]

theorem nodup_keys_firsts (key : α → String) (xs : List α) : ((firsts key xs).map key).Nodup := by
  induction xs with
  | nil => exact List.nodup_nil
  | cons x xs ih =>
    rw [firsts, List.map_cons, List.nodup_cons]
    constructor
    · intro hmem
      obtain ⟨y, hy, heq⟩ := List.mem_map.mp hmem
      have hne := (List.mem_filter.mp hy).2
      simp [heq] at hne
    · exact ih.sublist (List.filter_sublist.map key)

theorem nodup_keys {ys : List α} (h : ys = firsts key xs) : (ys.map key).Nodup := by
  rw [h]
  exact nodup_keys_firsts key xs

theorem firsts_concat_of_not_mem (h : key x ∉ xs.map key) :
    firsts key (xs ++ [x]) = firsts key xs ++ [x] := by
  induction xs with
  | nil => rfl
  | cons y ys ih =>
    rw [List.map_cons, List.mem_cons, not_or] at h
    rw [List.cons_append, firsts, firsts, ih h.2, List.filter_append, List.cons_append]
    simp [h.1]

theorem firsts_concat_of_mem (h : key x ∈ xs.map key) : firsts key (xs ++ [x]) = firsts key xs := by
  induction xs with
  | nil => cases h
  | cons y ys ih =>
    rw [List.cons_append, firsts, firsts]
    by_cases hys : key x ∈ ys.map key
    · rw [ih hys]
    · -- the head has the name, and drops the new thing from the end
      have hx : key x = key y := (List.mem_cons.mp h).resolve_right hys
      rw [firsts_concat_of_not_mem hys, List.filter_append]
      simp [hx]

end

/-! ## Numbered strings -/

/-- The constants for some values and types, labelled in order. -/
def numbered (xs : List (String × Ty)) : List StringConst :=
  xs.mapIdx fun i x => ⟨x.1, s!"str{i}", x.2⟩

theorem numbered_concat (xs : List (String × Ty)) (x : String × Ty) :
    numbered (xs ++ [x]) = numbered xs ++ [⟨x.1, s!"str{xs.length}", x.2⟩] := by
  rw [numbered, List.mapIdx_append]
  simp [numbered]

theorem length_numbered (xs : List (String × Ty)) : (numbered xs).length = xs.length :=
  List.length_mapIdx

theorem values_numbered (xs : List (String × Ty)) : (numbered xs).map (·.value) = xs.map Prod.fst := by
  refine List.ext_getElem? fun i => ?_
  simp [numbered, List.getElem?_mapIdx, Option.map_map, Function.comp_def]

theorem label_numbered {xs : List (String × Ty)} {i : Nat} {c : StringConst}
    (h : (numbered xs)[i]? = some c) : c.label = s!"str{i}" := by
  rw [numbered, List.getElem?_mapIdx] at h
  obtain ⟨x, _, rfl⟩ := Option.map_eq_some_iff.mp h
  rfl

/-- Strings with different numbers have different labels. -/
theorem strLabel_injective {i j : Nat} (h : s!"str{i}" = s!"str{j}") : i = j := by
  have hrepr : Nat.repr i = Nat.repr j := by
    have h' : "str" ++ Nat.repr i = "str" ++ Nat.repr j := h
    exact String.append_right_inj _ |>.mp h'
  rw [Nat.repr_eq_ofList_toDigits, Nat.repr_eq_ofList_toDigits] at hrepr
  have hval := congrArg (fun l => Nat.ofDigitChars 10 l 0) (String.ofList_injective hrepr)
  simpa [Nat.ofDigitChars_toDigits] using hval

theorem nodup_labels_numbered (xs : List (String × Ty)) : ((numbered xs).map (·.label)).Nodup := by
  rw [List.nodup_iff_getElem?_ne_getElem?]
  intro i j hij hj heq
  rw [List.getElem?_map, List.getElem?_map] at heq
  rw [List.length_map] at hj
  obtain ⟨c, hc⟩ : ∃ c, (numbered xs)[j]? = some c := ⟨_, List.getElem?_eq_getElem hj⟩
  obtain ⟨d, hd⟩ : ∃ d, (numbered xs)[i]? = some d :=
    ⟨_, List.getElem?_eq_getElem (by omega : i < (numbered xs).length)⟩
  rw [hc, hd, Option.map_some, Option.map_some, Option.some.injEq, label_numbered hc,
    label_numbered hd] at heq
  have := strLabel_injective heq
  omega

/-! ## The module and its requests -/

namespace Request

/-- The value and type of a string that is to be interned. -/
def string? : Request → Option (String × Ty)
  | intern value type => some (value, type)
  | _ => none

/-- The struct that is to be added. -/
def struct? : Request → Option Struct
  | addStruct s => some s
  | _ => none

/-- The function that is to be added. -/
def func? : Request → Option Func
  | addFunc f => some f
  | _ => none

/-- The global variable that is to be added. -/
def global? : Request → Option Global
  | addGlobal g => some g
  | _ => none

end Request

/-- The tables that some requests lead to. -/
structure Kept (rs : List Request) (m : Module) : Prop where
  strings : m.strings = numbered (firsts Prod.fst (rs.filterMap Request.string?))
  structs : m.structs = firsts (·.name) (rs.filterMap Request.struct?)
  funcs : m.funcs = firsts (·.name) (rs.filterMap Request.func?)
  globals : m.globals = firsts (·.name) (rs.filterMap Request.global?)

theorem kept_empty : Kept [] empty := ⟨rfl, rfl, rfl, rfl⟩

section

variable {rs : List Request} {m : Module}

/-- The module after an addition that fails for a name that is taken. -/
theorem settle_ite (m m' : Module) (c : Cause) (p : Prop) [Decidable p] :
    m.settle (if p then .fail c else .ok m') =
      if p then (.refused (.report [] c), m) else (.added, m') := by
  by_cases h : p
  · rw [if_pos h, if_pos h]
    rfl
  · rw [if_neg h, if_neg h]
    rfl

/-- A thing whose name is new is the first of its name. -/
theorem firsts_concat {α : Type} {key : α → String} {xs ys : List α} (h : ys = firsts key xs) (x : α) :
    firsts key (xs ++ [x]) = if key x ∈ ys.map key then ys else ys ++ [x] := by
  subst h
  by_cases hx : key x ∈ (firsts key xs).map key
  · rw [if_pos hx, firsts_concat_of_mem (mem_keys_firsts.mp hx)]
  · rw [if_neg hx, firsts_concat_of_not_mem fun hmem => hx (mem_keys_firsts.mpr hmem)]

namespace Kept

theorem values (h : Kept rs m) :
    m.strings.map (·.value) = (firsts Prod.fst (rs.filterMap Request.string?)).map Prod.fst := by
  rw [h.strings, values_numbered]

theorem nodup_values (h : Kept rs m) : (m.strings.map (·.value)).Nodup := by
  rw [h.values]
  exact nodup_keys_firsts _ _

/-- The tables after one more request. -/
theorem concat {r : Request}
    (hstrings : m.strings = numbered (firsts Prod.fst (rs.filterMap Request.string? ++ r.string?.toList)))
    (hstructs : m.structs = firsts (·.name) (rs.filterMap Request.struct? ++ r.struct?.toList))
    (hfuncs : m.funcs = firsts (·.name) (rs.filterMap Request.func? ++ r.func?.toList))
    (hglobals : m.globals = firsts (·.name) (rs.filterMap Request.global? ++ r.global?.toList)) :
    Kept (rs ++ [r]) m := by
  have hmap : ∀ {α : Type} (f : Request → Option α),
      (rs ++ [r]).filterMap f = rs.filterMap f ++ (f r).toList := by
    intro α f
    rw [List.filterMap_append]
    cases hf : f r <;> simp [hf]
  exact ⟨by rw [hmap, hstrings], by rw [hmap, hstructs], by rw [hmap, hfuncs], by rw [hmap, hglobals]⟩

/-- Every request keeps what the requests before it led to. -/
theorem step (h : Kept rs m) (r : Request) : Kept (rs ++ [r]) (m.serve r).2 := by
  -- a table stays as it is if nothing is added to it
  have hstrings : r.string? = none →
      m.strings = numbered (firsts Prod.fst (rs.filterMap Request.string? ++ r.string?.toList)) := by
    intro hr
    rw [hr, Option.toList_none, List.append_nil, h.strings]
  have hsame : ∀ {α : Type} {xs : List α} {key : α → String} {pick : Request → Option α},
      xs = firsts key (rs.filterMap pick) → pick r = none →
      xs = firsts key (rs.filterMap pick ++ (pick r).toList) := by
    intro α xs key pick hxs hr
    rw [hr, Option.toList_none, List.append_nil, hxs]
  cases r with
  | intern value type =>
    have hvalues := firsts_concat (rfl : _ = firsts Prod.fst (rs.filterMap Request.string?)) (value, type)
    rw [← h.values] at hvalues
    have hadded : (m.intern value type).2.strings =
        numbered (firsts Prod.fst (rs.filterMap Request.string? ++ [(value, type)])) := by
      rw [hvalues]
      rcases intern_cases m value type with ⟨c, hc, rfl, heq⟩ | ⟨hnew, heq⟩
      · rw [heq, if_pos (List.mem_map_of_mem hc), h.strings]
      · rw [heq, if_neg hnew, numbered_concat, ← h.strings, ← length_numbered, ← h.strings]
    rcases intern_cases m value type with ⟨c, -, -, heq⟩ | ⟨-, heq⟩ <;> rw [serve, heq] <;>
      rw [heq] at hadded <;>
      exact concat hadded (hsame h.structs rfl) (hsame h.funcs rfl) (hsame h.globals rfl)
  | addStruct s =>
    rw [serve, addStruct_eq, settle_ite]
    have hadded := firsts_concat h.structs s
    by_cases hmem : s.name ∈ m.structs.map (·.name) <;> simp only [hmem, if_true, if_false] at hadded ⊢ <;>
      exact concat (hstrings rfl) hadded.symm (hsame h.funcs rfl) (hsame h.globals rfl)
  | addFunc f =>
    rw [serve, addFunc_eq, settle_ite]
    have hadded := firsts_concat h.funcs f
    by_cases hmem : f.name ∈ m.funcs.map (·.name) <;> simp only [hmem, if_true, if_false] at hadded ⊢ <;>
      exact concat (hstrings rfl) (hsame h.structs rfl) hadded.symm (hsame h.globals rfl)
  | addGlobal g =>
    rw [serve, addGlobal_eq, settle_ite]
    have hadded := firsts_concat h.globals g
    by_cases hmem : g.name ∈ m.globals.map (·.name) <;> simp only [hmem, if_true, if_false] at hadded ⊢ <;>
      exact concat (hstrings rfl) (hsame h.structs rfl) (hsame h.funcs rfl) hadded.symm
  | stringByLabel _ | struct _ | func _ | global _ =>
    exact concat (hstrings rfl) (hsame h.structs rfl) (hsame h.funcs rfl) (hsame h.globals rfl)

end Kept

/-- The tables of a new module are those that the requests led to. -/
theorem kept_after (rs : List Request) : Kept rs (after rs) := by
  induction rs using List.reverseRecOn with
  | nil => exact kept_empty
  | append_singleton rs r ih =>
    rw [after_concat]
    exact ih.step r

end

/-! ## What the tables answer -/

/-- How a module interns strings: the map has the values of the list, which are different, and labels are
numbered, a known value is answered with its constant and nothing is added, a new one is added at the end,
and a label finds the constant that has it. -/
structure Interning (m : Module) : Prop where
  inStep : ∀ v, m.stringTable.places v = m.strings.findIdx? fun c => c.value == v
  distinct : (m.strings.map (·.value)).Nodup
  label : ∀ (i : Nat) (c : StringConst), m.strings[i]? = some c → c.label = s!"str{i}"
  known : ∀ c ∈ m.strings, ∀ type, m.serve (.intern c.value type) = (.string (some c), m)
  new : ∀ value type, value ∉ m.strings.map (·.value) →
    m.serve (.intern value type) = (.string (some ⟨value, s!"str{m.strings.length}", type⟩),
      { m with stringTable := .ofList (m.strings ++ [⟨value, s!"str{m.strings.length}", type⟩]) })
  byLabel : ∀ c ∈ m.strings, m.stringByLabel? c.label = some c
  otherLabel : ∀ label, label ∉ m.strings.map (·.label) → m.stringByLabel? label = none

/-- How a module keeps a table of things with names: the map has the names of the list, which are different,
a name finds what has it, and nothing else, a name that is taken is refused and the module stays as it is,
a new one is added at the end. -/
structure Naming {α : Type} {name : α → String} (m : Module) (t : Table α name) (find : String → Option α)
    (add : α → Request) (redefined : String → Cause) (put : Table α name → Module) : Prop where
  inStep : ∀ n, t.places n = t.items.findIdx? fun x => name x == n
  distinct : (t.items.map name).Nodup
  found : ∀ x ∈ t.items, find (name x) = some x
  missing : ∀ n, n ∉ t.items.map name → find n = none
  taken : ∀ x, name x ∈ t.items.map name → m.serve (add x) = (.refused (.report [] (redefined (name x))), m)
  new : ∀ x, name x ∉ t.items.map name → m.serve (add x) = (.added, put (.ofList (t.items ++ [x])))

section

variable {α : Type} {m : Module} {name : α → String} {t : Table α name}

theorem Kept.interning {rs : List Request} (h : Kept rs m) : Interning m := by
  have hlabels : (m.strings.map (·.label)).Nodup := by
    rw [h.strings]
    exact nodup_labels_numbered _
  -- a label is looked up in the list as in a table by labels
  let labels : Table StringConst (·.label) := .ofList m.strings
  refine ⟨m.stringTable.inStep, h.nodup_values, fun i c hc => ?_, fun c hc type => ?_,
    fun value type hnew => ?_, fun c hc => (labels.find?_eq _).symm.trans (Table.find?_of_mem hlabels hc),
    fun label hnone => (labels.find?_eq _).symm.trans (Table.find?_eq_none_iff.mpr hnone)⟩
  · rw [h.strings] at hc
    exact label_numbered hc
  · rcases intern_cases m c.value type with ⟨d, hd, hvalue, heq⟩ | ⟨hnew, _⟩
    · rw [serve, heq, List.inj_on_of_nodup_map h.nodup_values hd hc hvalue]
    · exact absurd (List.mem_map_of_mem hc) hnew
  · rcases intern_cases m value type with ⟨d, hd, rfl, _⟩ | ⟨_, heq⟩
    · exact absurd (List.mem_map_of_mem hd) hnew
    · rw [serve, heq]

/-- A table is kept if its names are different and additions are refused for names that are taken
only. -/
theorem naming {add : α → Request} {redefined : String → Cause} {put : Table α name → Module}
    (ht : (t.items.map name).Nodup) (hadd : ∀ x, m.serve (add x) = m.settle
      (if name x ∈ t.items.map name then .fail (redefined (name x))
        else .ok (put (.ofList (t.items ++ [x]))))) : Naming m t t.find? add redefined put := by
  refine ⟨t.inStep, ht, fun x hx => Table.find?_of_mem ht hx, fun n hn => Table.find?_eq_none_iff.mpr hn,
    fun x hx => ?_, fun x hx => ?_⟩
  · rw [hadd, settle_ite, if_pos hx]
  · rw [hadd, settle_ite, if_neg hx]

end

/-- After any requests the tables of a module hold the first request of each name or value, in order,
their maps are in step with their lists, and they answer as tables of their kind do. -/
theorem after_tables (rs : List Request) :
    let m := after rs
    Kept rs m ∧ Interning m ∧
      Naming m m.structTable m.struct? .addStruct .structRedefined (fun t => { m with structTable := t }) ∧
      Naming m m.funcTable m.func? .addFunc .funcRedefined (fun t => { m with funcTable := t }) ∧
      Naming m m.globalTable m.global? .addGlobal .globalRedefined
        (fun t => { m with globalTable := t }) := by
  intro m
  have h : Kept rs m := kept_after rs
  refine ⟨h, h.interning, naming ?_ fun s => ?_, naming ?_ fun f => ?_, naming ?_ fun g => ?_⟩
  · exact nodup_keys h.structs
  · rw [serve, addStruct_eq]
  · exact nodup_keys h.funcs
  · rw [serve, addFunc_eq]
  · exact nodup_keys h.globals
  · rw [serve, addGlobal_eq]

end TreeAsm.Ir.Module
