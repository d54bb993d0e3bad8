import TreeAsm.Proofs.Lowering.Steps
import TreeAsm.Proofs.Meaning.Values

/-!
# The variables of a function and those of its source

A name of the source has a value, and it stands for a variable of the function, which has one too. The
two correspond if they are the same for every name in every scope (`Matches`). Distinct names in scope
stand for distinct variables (`IntScopes`), so that an assignment to one of them keeps the
correspondence (`Matches.set`), as a new name for a new variable does (`Matches.declare`).
-/

namespace TreeAsm.Meaning

open Ir Lowering
open Program (Bindings Vars)

/-- The values that the names in scope have. -/
def readings (values : Nat → Int) (scopes : List Scope) : Bindings Int :=
  Bindings.map (fun v : Local => values v.index) scopes

/-- The names in scope have the values of the variables of the source. -/
def Matches (scopes : List Scope) (vars : Vars) (values : Nat → Int) : Prop :=
  readings values scopes = Bindings.map Int32.toInt vars

/-- The numbers of the variables in scope. -/
def indices (scopes : List Scope) : List Nat := scopes.flatten.map (·.2.index)

/-- The names in scope stand for different variables of type `int`, all below a bound. -/
structure IntScopes (n : Nat) (scopes : List Scope) : Prop where
  types : ∀ p ∈ scopes.flatten, p.2.type = .int
  distinct : (indices scopes).Nodup
  bound : ∀ i ∈ indices scopes, i < n

/-- The names that can be seen are in scope. -/
def Sees (vis : List String) (scopes : List Scope) : Prop :=
  ∀ name ∈ vis, ∃ v, lookupIn scopes name = some v

variable {n : Nat} {scopes : List Scope} {vars : Vars} {σ : Store} {values values' : Nat → Int}
  {name : String} {v : Local}

theorem mem_of_lookup {scope : Scope} (h : scope.lookup name = some v) : (name, v) ∈ scope := by
  obtain ⟨before, after, rfl, -⟩ := List.lookup_eq_some_iff.mp h
  simp

theorem mem_flatten_of_lookupIn (h : lookupIn scopes name = some v) : (name, v) ∈ scopes.flatten := by
  obtain ⟨scope, hscope, hv⟩ := List.exists_of_findSome?_eq_some h
  exact List.mem_flatten.mpr ⟨scope, hscope, mem_of_lookup hv⟩

theorem IntScopes.type (h : IntScopes n scopes) (hv : lookupIn scopes name = some v) : v.type = .int :=
  h.types _ (mem_flatten_of_lookupIn hv)

theorem index_mem (hv : lookupIn scopes name = some v) : v.index ∈ indices scopes :=
  List.mem_map_of_mem (mem_flatten_of_lookupIn hv)

theorem IntScopes.mono {m : Nat} (h : IntScopes n scopes) (hm : n ≤ m) : IntScopes m scopes :=
  ⟨h.types, h.distinct, fun i hi => Nat.lt_of_lt_of_le (h.bound i hi) hm⟩

theorem IntScopes.nil_cons (h : IntScopes n scopes) : IntScopes n ([] :: scopes) :=
  ⟨h.types, h.distinct, h.bound⟩

/-- The variable that a name stands for has the value of the name. -/
theorem Matches.get (h : Matches scopes vars values) (hv : lookupIn scopes name = some v) :
    ∃ a, vars.get? name = some a ∧ values v.index = a.toInt := by
  have hget := congrArg (fun b => Bindings.get? b name) h
  simp only [readings, Bindings.get?_map] at hget
  rw [show Bindings.get? scopes name = some v from hv, Option.map_some] at hget
  cases ha : vars.get? name with
  | none =>
    rw [ha] at hget
    cases hget
  | some a =>
    rw [ha, Option.map_some, Option.some.injEq] at hget
    exact ⟨a, rfl, hget⟩

/-- The correspondence is about the variables in scope only. -/
theorem readings_congr (h : ∀ i ∈ indices scopes, values' i = values i) :
    readings values' scopes = readings values scopes := by
  refine List.map_congr_left fun scope hscope => List.map_congr_left fun p hp => ?_
  exact congrArg (p.1, ·) (h _ (List.mem_map_of_mem (List.mem_flatten.mpr ⟨scope, hscope, hp⟩)))

theorem Matches.congr (h : Matches scopes vars values)
    (hvalues : ∀ i ∈ indices scopes, values' i = values i) : Matches scopes vars values' :=
  (readings_congr hvalues).trans h

theorem Matches.nil_cons (h : Matches scopes vars values) : Matches ([] :: scopes) ([] :: vars) values :=
  congrArg ([] :: ·) h

theorem Matches.drop (h : Matches scopes vars values) : Matches (scopes.drop 1) (vars.drop 1) values := by
  have hdrop := congrArg (List.drop 1) h
  simpa only [Matches, readings, Bindings.map, List.map_drop] using hdrop

/-! ## Assignments -/

/-- The values of the names in one scope. -/
private def read (σ : Store) (scope : Scope) : List (String × Int) :=
  scope.map fun p => (p.1, σ.locals p.2.index)

private theorem read_setLocal_of_not_mem {scope : Scope} {i : Nat} {x : Int}
    (h : i ∉ scope.map (·.2.index)) : read (σ.setLocal i x) scope = read σ scope := by
  refine List.map_congr_left fun p hp => ?_
  have hne : p.2.index ≠ i := fun he => h (he ▸ List.mem_map_of_mem hp)
  rw [Store.setLocal_locals, if_neg hne]

private theorem read_setLocal {x : Int} : ∀ {scope : Scope}, (scope.map (·.2.index)).Nodup →
    scope.lookup name = some v →
    read (σ.setLocal v.index x) scope = Bindings.setFirst name x (read σ scope) := by
  intro scope
  induction scope with
  | nil => intro _ hv; cases hv
  | cons p rest ih =>
    intro hnodup hv
    rw [List.map_cons, List.nodup_cons] at hnodup
    rw [List.lookup_cons] at hv
    show (p.1, (σ.setLocal v.index x).locals p.2.index) :: read (σ.setLocal v.index x) rest
      = if name == p.1 then (p.1, x) :: read σ rest
        else (p.1, σ.locals p.2.index) :: Bindings.setFirst name x (read σ rest)
    split at hv
    next hname =>
      cases hv
      rw [if_pos hname, Store.setLocal_locals, if_pos rfl, read_setLocal_of_not_mem hnodup.1]
    next hname =>
      have hne : p.2.index ≠ v.index := by
        intro he
        exact hnodup.1 (he ▸ List.mem_map_of_mem (mem_of_lookup hv))
      rw [if_neg (by simpa using hname), Store.setLocal_locals, if_neg hne, ih hnodup.2 hv]

/-- An assignment to a variable changes the value of its name and of no other. -/
theorem readings_setLocal {x : Int} : ∀ {scopes : List Scope}, (indices scopes).Nodup →
    lookupIn scopes name = some v →
    readings (σ.setLocal v.index x).locals scopes = (readings σ.locals scopes).set name x := by
  intro scopes
  induction scopes with
  | nil => intro _ hv; cases hv
  | cons scope outer ih =>
    intro hnodup hv
    rw [indices, List.flatten_cons, List.map_append, List.nodup_append] at hnodup
    obtain ⟨hscope, houter, hdisjoint⟩ := hnodup
    show read (σ.setLocal v.index x) scope :: readings (σ.setLocal v.index x).locals outer
      = if ((read σ scope).lookup name).isSome
        then Bindings.setFirst name x (read σ scope) :: readings σ.locals outer
        else read σ scope :: (readings σ.locals outer).set name x
    have hsome : ((read σ scope).lookup name).isSome = (scope.lookup name).isSome := by
      rw [read, Bindings.lookup_map (fun v : Local => σ.locals v.index), Option.isSome_map]
    rw [hsome]
    rw [lookupIn, List.findSome?_cons] at hv
    cases hfound : scope.lookup name with
    | some w =>
      rw [hfound] at hv
      obtain rfl := Option.some.inj hv
      rw [if_pos Option.isSome_some]
      have houter' : readings (σ.setLocal w.index x).locals outer = readings σ.locals outer := by
        refine readings_congr fun i hi => ?_
        have hw : w.index ∈ scope.map (·.2.index) := List.mem_map_of_mem (mem_of_lookup hfound)
        rw [Store.setLocal_locals, if_neg fun he => hdisjoint _ hw _ hi he.symm]
      rw [houter']
      exact congrArg (· :: readings σ.locals outer) (read_setLocal hscope hfound)
    | none =>
      rw [hfound] at hv
      rw [if_neg (by simp), ih houter hv]
      have hnot : v.index ∉ scope.map (·.2.index) := by
        intro hmem
        exact hdisjoint _ hmem _ (index_mem hv) rfl
      exact congrArg (· :: (readings σ.locals outer).set name x) (read_setLocal_of_not_mem hnot)

theorem Matches.set (h : Matches scopes vars σ.locals) (hscopes : IntScopes n scopes)
    (hv : lookupIn scopes name = some v) (a : Int32) :
    Matches scopes (vars.set name a) (σ.setLocal v.index a.toInt).locals := by
  rw [Matches, readings_setLocal hscopes.distinct hv, Bindings.set_map]
  exact congrArg (Bindings.set · name a.toInt) h

/-! ## New names -/

theorem defineIn_eq_declare (scopes : List Scope) (name : String) (v : Local) :
    defineIn scopes name v = Bindings.declare scopes name v := by
  cases scopes <;> rfl

theorem indices_defineIn (scopes : List Scope) (name : String) (v : Local) :
    indices (defineIn scopes name v) = v.index :: indices scopes := by
  cases scopes <;> rfl

theorem lookupIn_defineIn (scopes : List Scope) (name other : String) (v : Local) :
    lookupIn (defineIn scopes name v) other = if other = name then some v else lookupIn scopes other := by
  have hcons : ∀ (scope : Scope) (outer : List Scope), lookupIn (((name, v) :: scope) :: outer) other
        = if other = name then some v else lookupIn (scope :: outer) other := by
    intro scope outer
    rw [lookupIn, lookupIn, List.findSome?_cons, List.lookup_cons]
    by_cases h : other = name
    · rw [if_pos h, beq_iff_eq.mpr h]
    · rw [if_neg h, beq_eq_false_iff_ne.mpr h, List.findSome?_cons]
  cases scopes with
  | nil => exact hcons [] []
  | cons scope outer => exact hcons scope outer

theorem Sees.defineIn {vis : List String} (h : Sees vis scopes) (name : String) (v : Local) :
    Sees (name :: vis) (defineIn scopes name v) := by
  intro other hother
  rw [lookupIn_defineIn]
  split
  next => exact ⟨v, rfl⟩
  next hne =>
    rcases List.mem_cons.mp hother with rfl | hother
    · exact absurd rfl hne
    · exact h other hother

theorem IntScopes.defineIn (h : IntScopes n scopes) (name : String) (hv : v.index = n)
    (htype : v.type = .int) : IntScopes (n + 1) (defineIn scopes name v) := by
  have hnot : v.index ∉ indices scopes := fun hmem => by
    have := h.bound _ hmem
    omega
  refine ⟨?_, ?_, ?_⟩
  · intro p hp
    cases scopes with
    | nil =>
      obtain rfl : p = (name, v) := by simpa [Lowering.defineIn] using hp
      exact htype
    | cons scope outer =>
      rw [Lowering.defineIn, List.flatten_cons, List.cons_append] at hp
      rcases List.mem_cons.mp hp with rfl | hp
      · exact htype
      · exact h.types p hp
  · rw [indices_defineIn]
    exact List.nodup_cons.mpr ⟨hnot, h.distinct⟩
  · intro i hi
    rw [indices_defineIn] at hi
    rcases List.mem_cons.mp hi with rfl | hi
    · omega
    · exact Nat.lt_succ_of_lt (h.bound i hi)

theorem Matches.declare (h : Matches scopes vars σ.locals) (hv : v.index ∉ indices scopes) (name : String)
    (a : Int32) :
    Matches (defineIn scopes name v) (vars.declare name a) (σ.setLocal v.index a.toInt).locals := by
  have hsame : readings (σ.setLocal v.index a.toInt).locals scopes = readings σ.locals scopes := by
    refine readings_congr fun i hi => ?_
    have hne : i ≠ v.index := fun he => hv (he ▸ hi)
    rw [Store.setLocal_locals, if_neg hne]
  have hdefine : readings (σ.setLocal v.index a.toInt).locals (defineIn scopes name v)
      = (readings (σ.setLocal v.index a.toInt).locals scopes).declare name a.toInt := by
    have hdeclare := Bindings.declare_map
      (fun w : Local => (σ.setLocal v.index a.toInt).locals w.index) name v scopes
    rw [Store.setLocal_locals, if_pos rfl] at hdeclare
    rw [defineIn_eq_declare]
    exact hdeclare
  rw [Matches, hdefine, hsame, Bindings.declare_map]
  exact congrArg (Bindings.declare · name a.toInt) h

/-! ## What is left alone -/

/-- The temporaries below a bound and the variables without a name keep their values. -/
structure Keeps (temps : Nat) (changed : Nat → Prop) (σ σ' : Store) : Prop where
  temps : ∀ i < temps, σ'.temps i = σ.temps i
  locals : ∀ i, ¬ changed i → σ'.locals i = σ.locals i

theorem Keeps.refl {changed : Nat → Prop} (σ : Store) : Keeps n changed σ σ :=
  ⟨fun _ _ => rfl, fun _ _ => rfl⟩

theorem Keeps.trans {m : Nat} {changed : Nat → Prop} {σ σ' σ'' : Store} (h : Keeps n changed σ σ')
    (h' : Keeps m changed σ' σ'') (hm : n ≤ m) : Keeps n changed σ σ'' :=
  ⟨fun i hi => (h'.temps i (Nat.lt_of_lt_of_le hi hm)).trans (h.temps i hi),
    fun i hi => (h'.locals i hi).trans (h.locals i hi)⟩

end TreeAsm.Meaning
