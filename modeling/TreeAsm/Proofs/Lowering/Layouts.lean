import TreeAsm.Proofs.Lowering.Structs

/-!
# The layouts of a program

The structs of a program are laid out unless one of them contains itself, and this is the only way
in which it fails (`layoutAll_lays_out`). Every layout is the one computed when the structs among
the fields have the sizes and alignments of their own layouts. So it does not depend on the order in
which the structs are declared: two complete sets of layouts agree on a struct if they agree on all
it contains (`Settled.layout?_eq`).
-/

namespace TreeAsm.Lowering

open Ir

/-! ## Layouts and the order of declaration -/

section

variable {m m' : Module} {u : Universe} {st st' : LayoutState}

theorem contains_perm (hperm : m'.structs.Perm m.structs) {a b : String} :
    Contains m' a b ↔ Contains m a b :=
  exists_congr fun _ => and_congr_left fun _ => hperm.mem_iff

theorem struct?_perm (hm' : Unlaid m') (hperm : m'.structs.Perm m.structs)
    {a : String} {s : Struct} (hs : m.struct? a = some s) : m'.struct? a = some s := by
  obtain ⟨hmem, rfl⟩ := mem_of_struct? hs
  exact struct?_of_mem hm'.names (hperm.mem_iff.mpr hmem)

/-- Types that are no structs are measured by the width of pointers alone. -/
theorem measure_scalar {v w : Universe} (h : v.ptrBits = w.ptrBits) {t : Ty}
    (hscalar : ∀ a, t ≠ .record a) : v.bits t = w.bits t ∧ v.align t = w.align t := by
  cases t with
  | record a => exact absurd rfl (hscalar a)
  | string | ptr _ => simp only [Universe.bits, Universe.align, h, and_self]
  | _ => exact ⟨rfl, rfl⟩

theorem Settled.measure_record (hst : Settled m u st) {a : String} {l : Layout}
    (hl : st.layout? a = some l) :
    st.types.bits (.record a) = l.size * 8 ∧ st.types.align (.record a) = l.align := by
  simp only [Universe.bits, Universe.align, (hst.laid a l hl).shape]
  exact ⟨rfl, rfl⟩

/-- Every struct is laid out. -/
def Complete (m : Module) (st : LayoutState) : Prop :=
  ∀ s ∈ m.structs, (st.layout? s.name).isSome = true

theorem Complete.exists (h : Complete m st) {a : String} (ha : a ∈ m.structs.map (·.name)) :
    ∃ l, st.layout? a = some l := by
  obtain ⟨s, hs, rfl⟩ := List.mem_map.mp ha
  exact Option.isSome_iff_exists.mp (h s hs)

/-- Nothing is contained without end if every struct is laid out. -/
theorem Settled.founded (hst : Settled m u st) (hdone : Complete m st) (a : String) : Founded m a := by
  by_cases ha : a ∈ m.structs.map (·.name)
  · obtain ⟨l, hl⟩ := hdone.exists ha
    exact (hst.laid a l hl).founded
  · refine Acc.intro a fun b hb => ?_
    obtain ⟨s, hs, hname, -⟩ := hb
    exact absurd (hname ▸ List.mem_map_of_mem hs) ha

/-- The layout of a struct is the same in whatever order the structs are declared. -/
theorem Settled.layout?_eq (hm : Unlaid m) (hm' : Unlaid m') (hperm : m'.structs.Perm m.structs)
    (hst : Settled m u st) (hst' : Settled m' u st') (hdone : Complete m st)
    (hdone' : Complete m' st') {a : String} (ha : a ∈ m.structs.map (·.name)) :
    st'.layout? a = st.layout? a := by
  have hfounded := hst.founded hdone a
  induction hfounded with
  | intro a _ ih =>
    obtain ⟨s, hs⟩ := exists_struct? ha
    have hs' := struct?_perm hm' hperm hs
    obtain ⟨l, hl⟩ := hdone.exists ha
    obtain ⟨l', hl'⟩ := hdone'.exists ((hperm.map (·.name)).mem_iff.mpr ha)
    have hcompute : Layout.compute st'.types s.fields s.packed
        = Layout.compute st.types s.fields s.packed := by
      refine compute_congr _ fun f hf => ?_
      by_cases hrecord : ∃ b, f.type = .record b
      · -- what the struct contains has the same layout by induction
        obtain ⟨b, hb⟩ := hrecord
        have hcontains : Contains m a b := (hm.contains_iff hs).mpr ⟨f, hf, hb⟩
        obtain ⟨k, hk⟩ := hdone.exists (hm.declared hcontains)
        have hk' := (ih b hcontains (hm.declared hcontains)).trans hk
        rw [hb]
        obtain ⟨hbits, halign⟩ := hst.measure_record hk
        obtain ⟨hbits', halign'⟩ := hst'.measure_record hk'
        exact ⟨hbits'.trans hbits.symm, halign'.trans halign.symm⟩
      · exact measure_scalar (hst'.ptrBits.trans hst.ptrBits.symm) fun b hb => hrecord ⟨b, hb⟩
    have hok := (hst.laid a l hl).computed s hs
    have hok' := (hst'.laid a l' hl').computed s hs'
    rw [hcompute, hok] at hok'
    rw [hl, hl', Except.ok.inj hok']

/-- The structs with the layouts they have. -/
theorem Settled.structs_eq (hm : Unlaid m) (hst : Settled m u st) :
    st.module.structs = m.structs.map fun s => { s with layout? := st.layout? s.name } := by
  have hnames : (st.module.structs.map (·.name)).Nodup := by
    have hsame : st.module.structs.map (·.name) = m.structs.map (·.name) := by
      rw [← hst.structs, List.map_map]
      rfl
    rw [hsame]
    exact hm.names
  have hself : ∀ s ∈ st.module.structs, { bare s with layout? := st.layout? (bare s).name } = s := by
    intro s hs
    have hlayout : st.layout? s.name = s.layout? := by
      rw [LayoutState.layout?, struct?_of_mem hnames hs]
      rfl
    show { s with layout? := st.layout? s.name } = s
    rw [hlayout]
  rw [← hst.structs, List.map_map]
  exact ((List.map_congr_left hself).trans (List.map_id _)).symm

/-- A struct that may be laid out, and the one it is declared as. -/
theorem Settled.of_mem (hm : Unlaid m) (hst : Settled m u st) {s : Struct} (hs : s ∈ st.module.structs) :
    m.struct? s.name = some (bare s) ∧ st.layout? s.name = s.layout? := by
  have hbare : bare s ∈ m.structs := by
    rw [← hst.structs]
    exact List.mem_map_of_mem hs
  refine ⟨struct?_of_mem hm.names hbare, ?_⟩
  rw [hst.structs_eq hm] at hs
  obtain ⟨t, -, rfl⟩ := List.mem_map.mp hs
  rfl

theorem Settled.structs_perm (hm : Unlaid m) (hm' : Unlaid m') (hperm : m'.structs.Perm m.structs)
    (hst : Settled m u st) (hst' : Settled m' u st') (hdone : Complete m st)
    (hdone' : Complete m' st') : st'.module.structs.Perm st.module.structs := by
  have hsame : ∀ s ∈ m'.structs, { s with layout? := st'.layout? s.name }
      = { s with layout? := st.layout? s.name } := by
    intro s hs
    rw [hst.layout?_eq hm hm' hperm hst' hdone hdone' (List.mem_map_of_mem (hperm.mem_iff.mp hs))]
  rw [hst.structs_eq hm, hst'.structs_eq hm', List.map_congr_left hsame]
  exact hperm.map _

end

/-! ## Laying out a program -/

/-- Layouts of the structs of a module: every struct has the one that is computed when each struct
among its fields has the size and the alignment of its own layout. Sizes are kept in bits, so a size
has to be a number of bits that a machine integer can hold. -/
structure ExactLayouts (m : Module) (st : LayoutState) : Prop where
  structs : st.module.structs.map bare = m.structs
  computed : ∀ s ∈ st.module.structs, ∃ l, s.layout? = some l ∧
    Layout.compute st.types s.fields s.packed = .ok l
  measured : ∀ s ∈ st.module.structs, ∀ l, s.layout? = some l → (l.size * 8).toInt = l.size.toInt * 8 →
    st.types.size (.record s.name) = l.size ∧ st.types.align (.record s.name) = l.align

/-- What laying out the structs of a program comes to. -/
structure LaysOut (u : Universe) (f : Program.File) (m : Module) : Prop where
  /-- There are layouts, or there is a report of a struct that contains itself. -/
  outcome : (∃ st, layoutAll u m = .ok st) ∨
    ∃ trail a, layoutAll u m = .error (.report trail (.recursiveLayout a)) ∧
      Relation.TransGen (Contains m) a a
  /-- It fails exactly if a struct contains itself. -/
  fails_iff : (∃ e, layoutAll u m = .error e) ↔ ∃ a, Relation.TransGen (Contains m) a a
  exact : ∀ st, layoutAll u m = .ok st → ExactLayouts m st
  /-- The structs may be declared in another order, and have the same layouts then. -/
  rearranged : ∀ f', Rearranged f f' → ∃ m' d', addAllStructs "" .empty f'.stmts = .ok m' ∧
    declareAll u "" ⟨m', []⟩ f'.stmts = .ok d' ∧
    ((∃ e, layoutAll u d'.module = .error e) ↔ ∃ e, layoutAll u m = .error e) ∧
    ∀ st st', layoutAll u m = .ok st → layoutAll u d'.module = .ok st' →
      st'.module.structs.Perm st.module.structs

theorem bits_to_size {n : Int64} (h : (n * 8).toInt = n.toInt * 8) : n * 8 / 8 = n := by
  have hlow := n.le_toInt
  have hhigh := n.toInt_lt
  apply Int64.toInt_inj.mp
  rw [Int64.toInt_div, h, show (8 : Int64).toInt = 8 from rfl, Int.mul_tdiv_cancel _ (by decide)]
  exact Int.bmod_eq_of_le (by omega) (by omega)

section

variable {m : Module} {u : Universe} (hm : Unlaid m) (hu : u.ptrBits = 32 ∨ u.ptrBits = 64)

include hm hu

theorem layoutAll_settled {st : LayoutState} (h : layoutAll u m = .ok st) :
    Settled m u st ∧ Complete m st := by
  obtain ⟨st', h', hst', -, hdone⟩ | ⟨trail, b, h', -⟩ := layoutAll_found hm hu
  · rw [h] at h'
    cases h'
    exact ⟨hst', hdone⟩
  · rw [h] at h'
    cases h'

theorem layoutAll_fails_iff :
    (∃ e, layoutAll u m = .error e) ↔ ∃ a, Relation.TransGen (Contains m) a a := by
  refine ⟨fun ⟨e, he⟩ => ?_, fun ⟨a, ha⟩ => ?_⟩
  · obtain ⟨st, h, -⟩ | ⟨trail, b, -, hb⟩ := layoutAll_found hm hu
    · rw [he] at h
      cases h
    · exact ⟨b, hb⟩
  · cases h : layoutAll u m with
    | error e => exact ⟨e, rfl⟩
    | ok st =>
      obtain ⟨hst, hdone⟩ := layoutAll_settled hm hu h
      exact absurd ha (hst.founded hdone a).not_cyclic

theorem layoutAll_exact {st : LayoutState} (h : layoutAll u m = .ok st) : ExactLayouts m st := by
  obtain ⟨hst, hdone⟩ := layoutAll_settled hm hu h
  refine ⟨hst.structs, fun s hs => ?_, fun s hs l hl hbits => ?_⟩
  · obtain ⟨hdeclared, hlayout⟩ := hst.of_mem hm hs
    obtain ⟨l, hl⟩ := Option.isSome_iff_exists.mp (hdone (bare s) (mem_of_struct? hdeclared).1)
    exact ⟨l, hlayout.symm.trans hl, (hst.laid _ l hl).computed (bare s) hdeclared⟩
  · obtain ⟨hsize, halign⟩ := hst.measure_record ((hst.of_mem hm hs).2.trans hl)
    rw [Universe.size, hsize, bits_to_size hbits]
    exact ⟨rfl, halign⟩

end

/-- Laying out the structs of a program. -/
theorem layoutAll_lays_out {u : Universe} {f : Program.File} {m : Module} {d : Declared}
    (hu : u.ptrBits = 32 ∨ u.ptrBits = 64) (hm : addAllStructs "" .empty f.stmts = .ok m)
    (hd : declareAll u "" ⟨m, []⟩ f.stmts = .ok d) : LaysOut u f d.module := by
  have hunlaid := discovery_unlaid hm hd
  refine ⟨?_, layoutAll_fails_iff hunlaid hu, fun st h => layoutAll_exact hunlaid hu h, ?_⟩
  · obtain ⟨st, h, -⟩ | hfail := layoutAll_found hunlaid hu
    · exact .inl ⟨st, h⟩
    · exact .inr hfail
  · intro f' hr
    obtain ⟨m', d', hm', hd', hperm⟩ := discovery_rearranged hr hm hd
    have hunlaid' := discovery_unlaid hm' hd'
    have hcontains : Contains d'.module = Contains d.module := by
      funext a b
      exact propext (contains_perm hperm)
    refine ⟨m', d', hm', hd', ?_, fun st st' h h' => ?_⟩
    · rw [layoutAll_fails_iff hunlaid' hu, layoutAll_fails_iff hunlaid hu, hcontains]
    · obtain ⟨hst, hdone⟩ := layoutAll_settled hunlaid hu h
      obtain ⟨hst', hdone'⟩ := layoutAll_settled hunlaid' hu h'
      exact hst.structs_perm hunlaid hunlaid' hperm hst' hdone hdone'

/-- A list of pairs: the struct of its cells contains the one of pairs, which is declared later, and
points to itself. -/
def pairList : Program.File :=
  let p : Position := default
  ⟨"pairs", [.struct p "Cell" true false [⟨p, "tag", ⟨"byte", 0⟩, true⟩, ⟨p, "pair", ⟨"Pair", 0⟩, true⟩,
      ⟨p, "next", ⟨"Cell", 1⟩, true⟩],
    .struct p "Pair" true false [⟨p, "first", ⟨"u16", 0⟩, true⟩, ⟨p, "second", ⟨"int", 0⟩, true⟩]]⟩

theorem layoutAll_lays_out_pairList : ∃ m d, addAllStructs "" .empty pairList.stmts = .ok m ∧
      declareAll (Universe.make 64 false) "" ⟨m, []⟩ pairList.stmts = .ok d ∧
      (∃ st, layoutAll (Universe.make 64 false) d.module = .ok st) ∧
      LaysOut (Universe.make 64 false) pairList d.module := by
  have hok : (do
      let m ← addAllStructs "" .empty pairList.stmts
      let d ← declareAll (Universe.make 64 false) "" ⟨m, []⟩ pairList.stmts
      layoutAll (Universe.make 64 false) d.module).isOk = true := by decide +kernel
  obtain ⟨st, hst⟩ := Outcome.exists_ok hok
  obtain ⟨m, hm, h⟩ := Outcome.bind_ok hst
  obtain ⟨d, hd, h⟩ := Outcome.bind_ok h
  exact ⟨m, d, hm, hd, ⟨st, h⟩, layoutAll_lays_out (.inr rfl) hm hd⟩

end TreeAsm.Lowering
