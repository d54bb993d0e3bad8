import Mathlib.Data.List.Perm.Subperm
import Mathlib.Logic.Relation
import TreeAsm.Proofs.Ir.Forms
import TreeAsm.Proofs.Lowering.Declarations
import TreeAsm.Proofs.Types.Layout

/-!
# Structs in structs

A struct that has a field of another struct, as a value and not behind a pointer, contains it
(`Contains`). Structs are laid out depth first, each after those it contains. The invariant of the
search (`Settled`) says of a struct that is laid out: its layout is the one computed from the types
as they are now, everything it contains is laid out, and nothing is contained without end. A struct
that waits for one it contains has no layout in the meantime (`Waits`), so a later layout never
changes what an earlier one was computed from. If the search meets a struct that waits already, the
struct contains itself.
-/

namespace TreeAsm

/-- A type that a field can have. -/
structure Ty.Storable (t : Ty) : Prop where
  proper : t.Proper
  ne_void : t ≠ .void

theorem Ty.Proper.isRecord_iff {t : Ty} (h : t.Proper) : t.isRecord ↔ ∃ a, t = .record a := by
  cases t with
  | record a =>
    obtain ⟨hempty, hvoid, hbool, hstring⟩ := h
    refine ⟨fun _ => ⟨a, rfl⟩, fun _ => ?_⟩
    simp [Ty.isRecord, Ty.isPtr, Ty.elem, Ty.name, hempty, hvoid, hbool, hstring]
  | ptr e =>
    have he : e ≠ .untyped := Ty.Proper.ne_untyped (t := e) h
    simp [Ty.isRecord, Ty.isPtr, Ty.elem, he]
  | untyped | custom _ _ _ => exact absurd h id
  | _ => simp [Ty.isRecord, Ty.name]

namespace Lowering

open Ir

/-! ## What structs contain -/

/-- Whether a struct has a field that is a value of another one. -/
def Contains (m : Module) (a b : String) : Prop :=
  ∃ s ∈ m.structs, s.name = a ∧ ∃ f ∈ s.fields, f.type = .record b

/-- Whether what a struct contains, and what that contains and so on, comes to an end. -/
def Founded (m : Module) (a : String) : Prop := Acc (fun b a => Contains m a b) a

variable {a : String} {st st' : LayoutState} {s : Struct} {path : List String} {m : Module}
  {fuel : Nat}

/-- What contains itself goes on without end. -/
theorem Founded.not_cyclic (h : Founded m a) : ¬ Relation.TransGen (Contains m) a a := by
  induction h with
  | intro a _ ih =>
    intro hcycle
    obtain ⟨b, hab, hba⟩ := Relation.TransGen.head'_iff.mp hcycle
    exact ih b hab (Relation.TransGen.tail' hba hab)

/-- Structs before any of them is laid out. -/
structure Unlaid (m : Module) : Prop where
  names : (m.structs.map (·.name)).Nodup
  layouts : ∀ s ∈ m.structs, s.layout? = none
  fields : ∀ s ∈ m.structs, ∀ f ∈ s.fields, f.type.Storable
  declared : ∀ {a b}, Contains m a b → b ∈ m.structs.map (·.name)

theorem struct?_of_mem (hnames : (m.structs.map (·.name)).Nodup) (hs : s ∈ m.structs) :
    m.struct? s.name = some s :=
  Table.find?_of_mem hnames hs

theorem mem_of_struct? (h : m.struct? a = some s) : s ∈ m.structs ∧ s.name = a :=
  Table.find?_some h

theorem exists_struct? (h : a ∈ m.structs.map (·.name)) : ∃ s, m.struct? a = some s :=
  Option.isSome_iff_exists.mp (Table.find?_isSome_iff.mpr h)

/-- What a struct contains is among its fields. -/
theorem Unlaid.contains_iff (hm : Unlaid m) {b : String} (hs : m.struct? a = some s) :
    Contains m a b ↔ ∃ f ∈ s.fields, f.type = .record b := by
  obtain ⟨hmem, hname⟩ := mem_of_struct? hs
  refine ⟨fun ⟨t, ht, hta, hf⟩ => ?_, fun hf => ⟨s, hmem, hname, hf⟩⟩
  obtain rfl : t = s := List.inj_on_of_nodup_map hm.names ht hmem (hta.trans hname.symm)
  exact hf

/-! ## Structs that are laid out -/

/-- The layout of the struct with a name, if it has one by now. -/
def LayoutState.layout? (st : LayoutState) (a : String) : Option Layout :=
  (st.module.struct? a).bind (·.layout?)

/-- Gives a struct its layout, in the module and in the types. -/
def LayoutState.set (st : LayoutState) (a : String) (l : Layout) : LayoutState :=
  ⟨st.module.setLayout a l, st.types.setLayout a l.size l.align⟩

/-- A struct as it is declared. -/
def bare (s : Struct) : Struct := { s with layout? := none }

theorem struct?_setLayout (m : Module) (a b : String) (l : Layout) :
    (m.setLayout a l).struct? b = (m.struct? b).map fun s =>
      if s.name == a then { s with layout? := some l } else s := by
  rw [Module.struct?_eq, Module.struct?_eq, Module.setLayout, Table.modify, List.find?_map]
  congr 2
  funext s
  rw [Function.comp_apply]
  split <;> rfl

theorem layout?_set_self (l : Layout) (hs : st.module.struct? a = some s) :
    (st.set a l).layout? a = some l := by
  have hname := (mem_of_struct? hs).2
  rw [LayoutState.layout?, LayoutState.set, struct?_setLayout, hs, Option.map_some, hname,
    if_pos (beq_self_eq_true a)]
  rfl

theorem layout?_set_of_ne {b : String} (l : Layout) (h : b ≠ a) :
    (st.set a l).layout? b = st.layout? b := by
  rw [LayoutState.layout?, LayoutState.set, struct?_setLayout, LayoutState.layout?]
  cases hs : st.module.struct? b with
  | none => rfl
  | some s =>
    have hname := (mem_of_struct? hs).2
    rw [Option.map_some, if_neg (by simpa [hname] using h)]

variable {m : Module} {u : Universe}

/-- What is known of a struct once it is laid out. -/
structure Laid (m : Module) (st : LayoutState) (a : String) (l : Layout) : Prop where
  shape : st.types.shape? a = some ⟨a, l.size * 8, l.align⟩
  align : 0 < l.align
  computed : ∀ s, m.struct? a = some s → Layout.compute st.types s.fields s.packed = .ok l
  inner : ∀ b, Contains m a b → (st.layout? b).isSome = true
  founded : Founded m a

/-- The invariant of laying out the structs of a module: they are the structs of the module, and
those with a layout have the one they need. -/
structure Settled (m : Module) (u : Universe) (st : LayoutState) : Prop where
  structs : st.module.structs.map bare = m.structs
  ptrBits : st.types.ptrBits = u.ptrBits
  laid : ∀ a l, st.layout? a = some l → Laid m st a l

theorem Settled.struct? (h : Settled m u st) (a : String) :
    (st.module.struct? a).map bare = m.struct? a := by
  rw [Module.struct?_eq, Module.struct?_eq, ← h.structs, List.find?_map]
  rfl

theorem Settled.lookup (h : Settled m u st) (hs : m.struct? a = some s) :
    ∃ s', st.module.struct? a = some s' ∧ bare s' = s := by
  rw [← h.struct? a] at hs
  exact Option.map_eq_some_iff.mp hs

theorem Settled.start (hm : Unlaid m) : Settled m u ⟨m, u⟩ := by
  refine ⟨?_, rfl, fun a l hl => ?_⟩
  · have hbare : ∀ s ∈ m.structs, bare s = s := by
      intro s hs
      rw [bare, ← hm.layouts s hs]
    exact (List.map_congr_left hbare).trans (List.map_id _)
  · obtain ⟨s, hs, hl⟩ := Option.bind_eq_some_iff.mp hl
    rw [hm.layouts s (mem_of_struct? hs).1] at hl
    cases hl

/-- Laying out a struct after all that it contains. -/
theorem Settled.set (hm : Unlaid m) (h : Settled m u st) {l : Layout} (hs : m.struct? a = some s)
    (hnone : st.layout? a = none) (hinner : ∀ b, Contains m a b → (st.layout? b).isSome)
    (halign : 0 < l.align) (hl : Layout.compute st.types s.fields s.packed = .ok l) :
    Settled m u (st.set a l) := by
  obtain ⟨s', hs', -⟩ := h.lookup hs
  have hkept : ∀ b, (st.layout? b).isSome → ((st.set a l).layout? b).isSome := by
    intro b hb
    have hne : b ≠ a := by
      rintro rfl
      rw [hnone] at hb
      cases hb
    rw [layout?_set_of_ne l hne]
    exact hb
  -- what contains only structs that are laid out does not contain the new one, so the new layout
  -- does not change how it is laid out
  have hsame : ∀ b t, m.struct? b = some t → (∀ c, Contains m b c → (st.layout? c).isSome) →
      Layout.compute (st.set a l).types t.fields t.packed = Layout.compute st.types t.fields t.packed := by
    intro b t ht hb
    refine compute_congr _ fun f hf => ?_
    apply Universe.measure_setLayout_of_ne
    intro hfa
    have hdone := hb a ((hm.contains_iff ht).mpr ⟨f, hf, hfa⟩)
    rw [hnone] at hdone
    cases hdone
  refine ⟨?_, h.ptrBits, fun b k hk => ?_⟩
  · rw [← h.structs, LayoutState.set, Module.setLayout, Table.modify, List.map_map]
    refine List.map_congr_left fun t _ => ?_
    rw [Function.comp_apply]
    split <;> rfl
  · by_cases hba : b = a
    · subst hba
      rw [layout?_set_self l hs'] at hk
      cases hk
      refine ⟨Universe.shape?_setLayout_self _ _ _ _, halign, fun t ht => ?_,
        fun c hc => hkept c (hinner c hc), ?_⟩
      · rw [hsame b t ht hinner]
        rw [hs] at ht
        cases ht
        exact hl
      · refine Acc.intro b fun c hc => ?_
        obtain ⟨k, hk⟩ := Option.isSome_iff_exists.mp (hinner c hc)
        exact (h.laid c k hk).founded
    · rw [layout?_set_of_ne l hba] at hk
      have hold := h.laid b k hk
      refine ⟨?_, hold.align, fun t ht => ?_, fun c hc => hkept c (hold.inner c hc), hold.founded⟩
      · rw [← hold.shape]
        exact Universe.shape?_setLayout_of_ne _ _ _ _ hba
      · rw [hsame b t ht hold.inner]
        exact hold.computed t ht

/-! ## The search -/

/-- Structs that wait for one: they contain it, directly or not, and have no layout yet. -/
structure Waits (m : Module) (st : LayoutState) (path : List String) (a : String) : Prop where
  nodup : path.Nodup
  declared : ∀ p ∈ path, p ∈ m.structs.map (·.name)
  pending : ∀ p ∈ path, st.layout? p = none
  contains : ∀ p ∈ path, Relation.TransGen (Contains m) p a

/-- Layouts stay as they are, and the structs that wait get none. -/
structure Progress (path : List String) (st st' : LayoutState) : Prop where
  kept : ∀ a l, st.layout? a = some l → st'.layout? a = some l
  pending : ∀ p ∈ path, st.layout? p = none → st'.layout? p = none

theorem Progress.isSome (h : Progress path st st') (ha : (st.layout? a).isSome) :
    (st'.layout? a).isSome := by
  obtain ⟨l, hl⟩ := Option.isSome_iff_exists.mp ha
  rw [h.kept a l hl]
  rfl

/-- A struct that has waited for all it contains gets its layout. -/
theorem Progress.set (h : Progress (a :: path) st st') (hnone : st.layout? a = none)
    (hpath : a ∉ path) (l : Layout) : Progress path st (st'.set a l) := by
  refine ⟨fun b k hk => ?_, fun p hp hp' => ?_⟩
  · have hne : b ≠ a := by
      rintro rfl
      rw [hnone] at hk
      cases hk
    rw [layout?_set_of_ne l hne]
    exact h.kept b k hk
  · have hne : p ≠ a := fun he => hpath (he ▸ hp)
    rw [layout?_set_of_ne l hne]
    exact h.pending p (List.mem_cons_of_mem _ hp) hp'

/-- What a search comes to: the layouts it was to find, or the report of a struct that contains
itself. -/
def Found (m : Module) (u : Universe) (path : List String) (st : LayoutState)
    (goal : LayoutState → Prop) (x : Outcome LayoutState) : Prop :=
  (∃ st', x = .ok st' ∧ Settled m u st' ∧ Progress path st st' ∧ goal st') ∨
    ∃ trail b, x = .error (.report trail (.recursiveLayout b)) ∧ Relation.TransGen (Contains m) b b

section

variable {path : List String} {st : LayoutState}

variable {goal : LayoutState → Prop}

theorem Found.nothing (hst : Settled m u st) (hgoal : goal st) : Found m u path st goal (.ok st) :=
  Or.inl ⟨st, rfl, hst, ⟨fun _ _ h => h, fun _ _ h => h⟩, hgoal⟩

theorem Found.within {x : Outcome LayoutState} (step : String) (h : Found m u path st goal x) :
    Found m u path st goal (x.within step) := by
  obtain ⟨st', rfl, hst'⟩ | ⟨trail, b, rfl, hb⟩ := h
  · exact .inl ⟨st', rfl, hst'⟩
  · exact .inr ⟨step :: trail, b, rfl, hb⟩

/-- Searching for one thing after the other. -/
theorem foldlM_found {α : Type} {step : LayoutState → α → Outcome LayoutState}
    {goal : α → LayoutState → Prop}
    (hgoal : ∀ x st st', Progress path st st' → goal x st → goal x st') : ∀ {xs : List α} {st},
    (∀ x ∈ xs, ∀ st, Settled m u st → (∀ p ∈ path, st.layout? p = none) →
      Found m u path st (goal x) (step st x)) → Settled m u st → (∀ p ∈ path, st.layout? p = none) →
    Found m u path st (fun st' => ∀ x ∈ xs, goal x st') (xs.foldlM step st) := by
  intro xs
  induction xs with
  | nil => exact fun _ hst _ => .nothing hst (by simp)
  | cons x xs ih =>
    intro st hstep hst hpending
    rw [List.foldlM_cons]
    obtain ⟨st1, h1, hst1, hadv1, hx⟩ | ⟨trail, b, h1, hb⟩ :=
      hstep x List.mem_cons_self st hst hpending
    · rw [Outcome.bind_eq h1]
      obtain ⟨st', h', hst', hadv, hxs⟩ | hfail := ih (fun y hy => hstep y (List.mem_cons_of_mem _ hy)) hst1
        (fun p hp => hadv1.pending p hp (hpending p hp))
      · refine Or.inl ⟨st', h', hst', ⟨fun a l hl => hadv.kept a l (hadv1.kept a l hl),
          fun p hp hnone => hadv.pending p hp (hadv1.pending p hp hnone)⟩, fun y hy => ?_⟩
        rcases List.mem_cons.mp hy with rfl | hy
        · exact hgoal y st1 st' hadv hx
        · exact hxs y hy
      · exact .inr hfail
    · rw [h1]
      exact .inr ⟨trail, b, rfl, hb⟩

end

/-- The sizes and alignments of the types that are no structs. -/
theorem scalar_measure {t : Ty} (hu : u.ptrBits = 32 ∨ u.ptrBits = 64) (ht : t.Storable)
    (hscalar : ∀ a, t ≠ .record a) :
    0 < (u.align t).toInt ∧ (u.align t).toInt.toNat ∣ 8 ∧ 0 < (u.size t).toInt := by
  cases t with
  | untyped | custom _ _ _ => exact absurd ht.proper id
  | void => exact absurd rfl ht.ne_void
  | record a => exact absurd rfl (hscalar a)
  | byte | bool | u16 | int | u64 | long =>
    rw [Universe.size, Universe.align, Universe.bits]
    exact ⟨by decide, by decide, by decide⟩
  | string | ptr _ =>
    rw [Universe.size, Universe.align, Universe.bits]
    obtain hu | hu := hu <;> rw [hu] <;> exact ⟨by decide, by decide, by decide⟩

/-- When all that a struct contains is laid out, its own layout can be computed. -/
theorem Settled.compute_ok (hm : Unlaid m) (hst : Settled m u st)
    (hu : u.ptrBits = 32 ∨ u.ptrBits = 64) (hs : m.struct? a = some s)
    (hinner : ∀ b, Contains m a b → (st.layout? b).isSome) :
    ∃ l, Layout.compute st.types s.fields s.packed = .ok l ∧ 0 < l.align := by
  refine (compute_fault? _ _ _).2 (List.findSome?_eq_none_iff.mpr fun f hf => ?_)
  have hstorable := hm.fields s (mem_of_struct? hs).1 f hf
  refine Field.fault?_eq_none.mpr ⟨hstorable.proper.ne_untyped, fun _ => ?_⟩
  by_cases hrecord : ∃ b, f.type = .record b
  · obtain ⟨b, hb⟩ := hrecord
    obtain ⟨l, hl⟩ := Option.isSome_iff_exists.mp (hinner b ((hm.contains_iff hs).mpr ⟨f, hf, hb⟩))
    have hlaid := hst.laid b l hl
    rw [hb, Universe.align, hlaid.shape]
    exact hlaid.align
  · rw [← hst.ptrBits] at hu
    exact Int64.lt_iff_toInt_lt.mpr (scalar_measure hu hstorable fun b hb => hrecord ⟨b, hb⟩).1

theorem layoutStruct_laid (hs : st.module.struct? a = some s) (hsome : s.layout?.isSome) :
    layoutStruct fuel path st a = .ok st := by
  unfold layoutStruct
  rw [hs]
  exact if_pos hsome

theorem layoutStruct_waiting (hs : st.module.struct? a = some s) (hnone : s.layout? = none)
    (hpath : a ∈ path) : layoutStruct fuel path st a = .fail (.recursiveLayout a) := by
  unfold layoutStruct
  rw [hs]
  dsimp only
  rw [hnone, if_neg (by simp), if_pos (List.contains_iff_mem.mpr hpath)]

theorem layoutStruct_pending (hs : st.module.struct? a = some s) (hnone : s.layout? = none)
    (hpath : a ∉ path) :
    layoutStruct (fuel + 1) path st a = (do
      let st ← s.fields.foldlM (layoutField fuel path a) st
      let l ← (Layout.compute st.types s.fields s.packed).within s!"struct {a}"
      return st.set a l) := by
  rw [layoutStruct, hs]
  dsimp only
  rw [if_neg (by rw [hnone]; simp), if_neg (by rw [List.contains_iff_mem]; exact hpath)]
  rfl

/-- The search for what the fields of a struct contain, if it works for each of these structs. -/
theorem layoutFields_found (hm : Unlaid m) (hs : m.struct? a = some s)
    (hfield : ∀ b st, Contains m a b → Settled m u st → (∀ p ∈ a :: path, st.layout? p = none) →
      Found m u (a :: path) st (fun st' => (st'.layout? b).isSome)
        (layoutStruct fuel (a :: path) st b)) (hst : Settled m u st)
    (hpending : ∀ p ∈ a :: path, st.layout? p = none) :
    Found m u (a :: path) st (fun st' => ∀ b, Contains m a b → (st'.layout? b).isSome)
      (s.fields.foldlM (layoutField fuel path a) st) := by
  have hall : Found m u (a :: path) st
      (fun st' => ∀ f ∈ s.fields, ∀ b, f.type = .record b → (st'.layout? b).isSome)
      (s.fields.foldlM (layoutField fuel path a) st) := by
    refine foldlM_found (fun f st st' hadv h b hb => hadv.isSome (h b hb))
      (fun f hf st hst hpending => ?_) hst hpending
    have hproper := (hm.fields s (mem_of_struct? hs).1 f hf).proper
    -- a field that is a struct goes on to it, and any other field is passed over
    by_cases hrecord : ∃ b, f.type = .record b
    · obtain ⟨b, hb⟩ := hrecord
      have hcontains : Contains m a b := (hm.contains_iff hs).mpr ⟨f, hf, hb⟩
      obtain ⟨t, ht⟩ := exists_struct? (hm.declared hcontains)
      have hknown : (st.module.struct? f.type.name).isNone = false := by
        rw [hb, ← Option.isNone_map (f := bare), show (Ty.record b).name = b from rfl, hst.struct? b, ht]
        rfl
      unfold layoutField
      rw [if_neg (by rw [hproper.isRecord_iff.mpr ⟨b, hb⟩]; simp), if_neg (by rw [hknown]; simp), hb]
      obtain ⟨st', h⟩ | hfail := (hfield b st hcontains hst hpending).within s!"struct {a}"
      · refine Or.inl ⟨st', h.1, h.2.1, h.2.2.1, fun c hc => ?_⟩
        obtain rfl := Ty.record.inj hc
        exact h.2.2.2
      · exact .inr hfail
    · have hno : f.type.isRecord = false :=
        Bool.eq_false_iff.mpr fun h => hrecord (hproper.isRecord_iff.mp h)
      unfold layoutField
      rw [if_pos (by rw [hno]; rfl)]
      exact .nothing hst fun b hb => absurd ⟨b, hb⟩ hrecord
  obtain ⟨st', h, hst', hadv, hgoal⟩ | hfail := hall
  · refine Or.inl ⟨st', h, hst', hadv, fun b hb => ?_⟩
    obtain ⟨f, hf, hfb⟩ := (hm.contains_iff hs).mp hb
    exact hgoal f hf b hfb
  · exact .inr hfail

section

variable {path : List String} {st : LayoutState} {a : String}

/-- The structs that wait and the one that is reached are different structs of the module. -/
theorem Waits.length_lt (h : Waits m st path a) (ha : a ∈ m.structs.map (·.name))
    (hpath : a ∉ path) : path.length < m.structs.length := by
  have hsub : (a :: path) ⊆ m.structs.map (·.name) := List.cons_subset.mpr ⟨ha, h.declared⟩
  have hnodup := List.nodup_cons.mpr ⟨hpath, h.nodup⟩
  have hle := (List.subperm_of_subset hnodup hsub).length_le
  rwa [List.length_cons, List.length_map] at hle

/-- The struct that is reached waits with the others while what it contains is laid out. -/
theorem Waits.cons (h : Waits m st path a) (ha : a ∈ m.structs.map (·.name)) (hpath : a ∉ path)
    {st' : LayoutState} (hpending : ∀ p ∈ a :: path, st'.layout? p = none) {b : String}
    (hb : Contains m a b) : Waits m st' (a :: path) b := by
  refine ⟨List.nodup_cons.mpr ⟨hpath, h.nodup⟩, List.cons_subset.mpr ⟨ha, h.declared⟩, hpending,
    fun p hp => ?_⟩
  rcases List.mem_cons.mp hp with rfl | hp
  · exact .single hb
  · exact .tail (h.contains p hp) hb

end

/-- The search for a struct. The fuel is enough, because the structs that wait are different structs
of the module. -/
theorem layoutStruct_found (hm : Unlaid m) (hu : u.ptrBits = 32 ∨ u.ptrBits = 64) (fuel : Nat)
    (hst : Settled m u st) (hwaits : Waits m st path a) (ha : a ∈ m.structs.map (·.name))
    (hfuel : m.structs.length ≤ fuel + path.length) :
    Found m u path st (fun st' => (st'.layout? a).isSome) (layoutStruct fuel path st a) := by
  induction fuel using Nat.strongRecOn generalizing path st a with
  | ind fuel ih =>
    obtain ⟨s, hs⟩ := exists_struct? ha
    obtain ⟨s', hs', hbare⟩ := hst.lookup hs
    have hlayout : st.layout? a = s'.layout? := by rw [LayoutState.layout?, hs']; rfl
    cases hl : s'.layout? with
    | some l =>
      rw [layoutStruct_laid hs' (by rw [hl]; rfl)]
      exact .nothing hst (by rw [hlayout, hl]; rfl)
    | none =>
      by_cases hpath : a ∈ path
      · rw [layoutStruct_waiting hs' hl hpath]
        exact .inr ⟨[], a, rfl, hwaits.contains a hpath⟩
      have hlen := hwaits.length_lt ha hpath
      obtain ⟨fuel, rfl⟩ : ∃ n, fuel = n + 1 := ⟨fuel - 1, by omega⟩
      have hfields : s'.fields = s.fields := by rw [← hbare]; rfl
      have hpacked : s'.packed = s.packed := by rw [← hbare]; rfl
      rw [layoutStruct_pending hs' hl hpath, hfields, hpacked]
      have hpending : ∀ p ∈ a :: path, st.layout? p = none := by
        intro p hp
        rcases List.mem_cons.mp hp with rfl | hp
        · rw [hlayout, hl]
        · exact hwaits.pending p hp
      have hinner : ∀ b st, Contains m a b → Settled m u st → (∀ p ∈ a :: path, st.layout? p = none) →
          Found m u (a :: path) st (fun st' => (st'.layout? b).isSome)
            (layoutStruct fuel (a :: path) st b) := by
        intro b st hb hst hpending
        exact ih fuel (by omega) hst (hwaits.cons ha hpath hpending hb) (hm.declared hb)
          (by rw [List.length_cons]; omega)
      -- the struct is laid out when all that it contains is
      obtain ⟨st1, h1, hst1, hadv, hdone⟩ | ⟨trail, b, h1, hb⟩ :=
        layoutFields_found hm hs hinner hst hpending
      · obtain ⟨l, hcompute, halign⟩ := hst1.compute_ok hm hu hs hdone
        have hnone1 := hadv.pending a List.mem_cons_self (hpending a List.mem_cons_self)
        rw [Outcome.bind_eq h1, Outcome.bind_eq (Outcome.within_eq hcompute)]
        obtain ⟨s1, hs1, -⟩ := hst1.lookup hs
        refine Or.inl ⟨st1.set a l, rfl, hst1.set hm hs hnone1 hdone halign hcompute,
          hadv.set (hpending a List.mem_cons_self) hpath l, ?_⟩
        exact Option.isSome_iff_exists.mpr ⟨l, layout?_set_self l hs1⟩
      · rw [h1]
        exact .inr ⟨trail, b, rfl, hb⟩

/-- Laying out all structs of a module. -/
theorem layoutAll_found (hm : Unlaid m) (hu : u.ptrBits = 32 ∨ u.ptrBits = 64) :
    Found m u [] ⟨m, u⟩ (fun st => ∀ s ∈ m.structs, (st.layout? s.name).isSome) (layoutAll u m) := by
  have hstep : ∀ s ∈ m.structs, ∀ st, Settled m u st → (∀ p ∈ [], st.layout? p = none) →
      Found m u [] st (fun st' => (st'.layout? s.name).isSome)
        (layoutStruct m.structs.length [] st s.name) := by
    intro s hs st hst _
    exact layoutStruct_found hm hu m.structs.length hst
      ⟨List.nodup_nil, by simp, by simp, by simp⟩ (List.mem_map_of_mem hs) (Nat.le_refl _)
  have hkept : ∀ (s : Struct) st st', Progress [] st st' → (st.layout? s.name).isSome →
      (st'.layout? s.name).isSome := fun _ _ _ hadv h => hadv.isSome h
  exact foldlM_found hkept hstep (Settled.start hm) (by simp)

end Lowering

end TreeAsm
