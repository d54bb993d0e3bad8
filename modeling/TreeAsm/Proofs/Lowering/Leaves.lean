import TreeAsm.Proofs.Lowering.Layouts

/-!
# The leaves of a struct

A leaf of a struct is a field that is no struct itself, reached through fields that are. As long as
no size is too big for a machine integer, every struct has the layout without bounds (`Sized`), and
a field of a struct has exactly the place that the struct in it needs. So leaves lie in their
struct, two of them never overlap, and those that no packed struct is around are aligned in every
element of an array (`lowerFile_leaves`).
-/

namespace TreeAsm.Lowering

open Ir

/-- What has to be known of the fields of a struct to place them. -/
def extents (v : Universe) (s : Struct) : List Extent := s.fields.map (·.extent v s.packed)

/-- Whether a machine integer can hold the size of a struct in bits. -/
def Fits (v : Universe) (s : Struct) : Prop := 8 * Extent.total s.packed (extents v s) < 2 ^ 63

instance (v : Universe) (s : Struct) : Decidable (Fits v s) := Nat.decLt _ _

/-- What is known of a struct that fits, as do all it contains. -/
structure Sized (v : Universe) (s : Struct) (l : Layout) : Prop where
  placeable : ∀ f ∈ s.fields, f.type.Placeable v
  eighths : ∀ f ∈ s.fields, (v.align f.type).toInt.toNat ∣ 8
  scalars : ∀ f ∈ s.fields, (∀ b, f.type ≠ .record b) → 0 < (v.size f.type).toInt
  fits : Fits v s
  offsets : l.offsets = (Extent.offsets (extents v s) 0).map .ofNat
  size : l.size.toInt = Extent.total s.packed (extents v s)
  align : l.align.toInt = Extent.widest 1 (extents v s)
  measured : v.size (.record s.name) = l.size ∧ v.align (.record s.name) = l.align

/-! ## Structs that fit -/

variable {s : Struct} {u v : Universe} {l : Layout} {file : Program.File}

theorem extents_dvd_eight (h : ∀ f ∈ s.fields, (v.align f.type).toInt.toNat ∣ 8) :
    ∀ e ∈ extents v s, e.align ∣ 8 := by
  intro e he
  obtain ⟨f, hf, rfl⟩ := List.mem_map.mp he
  show (f.alignIn v s.packed).toInt.toNat ∣ 8
  unfold Field.alignIn
  split
  · decide
  · exact h f hf

/-- A struct that fits has the layout without bounds, if the types of its fields can be placed. -/
theorem sized_of_computed (hfits : Fits v s) (hplaceable : ∀ f ∈ s.fields, f.type.Placeable v)
    (heighths : ∀ f ∈ s.fields, (v.align f.type).toInt.toNat ∣ 8)
    (hscalars : ∀ f ∈ s.fields, (∀ b, f.type ≠ .record b) → 0 < (v.size f.type).toInt)
    (hl : Layout.compute v s.fields s.packed = .ok l)
    (hmeasured : (l.size * 8).toInt = l.size.toInt * 8 →
      v.size (.record s.name) = l.size ∧ v.align (.record s.name) = l.align) : Sized v s l := by
  -- the size in bits is below 2 ^ 63, and no alignment is above 8, so nothing wraps around
  have hwidest : Extent.widest 1 (extents v s) ≤ 8 := Nat.le_of_dvd (by decide)
    (Extent.widest_dvd_eight (extents_dvd_eight heighths) (by decide))
  have htotal : Extent.total s.packed (extents v s) < 2 ^ 60 := by
    unfold Fits at hfits
    omega
  have hstop := Extent.stop_le_total s.packed (extents v s)
  rw [compute_eq hplaceable (by unfold extents at hstop htotal; omega)
    (by unfold extents at hwidest; omega)] at hl
  cases hl
  have hsize : (Int64.ofNat (Extent.total s.packed (extents v s))).toInt
      = Extent.total s.packed (extents v s) := Int64.toInt_ofNat_of_lt (by omega)
  have halign : (Int64.ofNat (Extent.widest 1 (extents v s))).toInt
      = Extent.widest 1 (extents v s) := Int64.toInt_ofNat_of_lt (by omega)
  refine ⟨hplaceable, heighths, hscalars, hfits, rfl, hsize, halign, hmeasured ?_⟩
  show (Int64.ofNat (Extent.total s.packed (extents v s)) * 8).toInt
    = (Int64.ofNat (Extent.total s.packed (extents v s))).toInt * 8
  rw [Int64.toInt_mul, hsize, show (8 : Int64).toInt = 8 from rfl]
  exact Int.bmod_eq_of_le (by omega) (by omega)

section

variable {v : Universe} {s : Struct} {l : Layout} {f : Field} {i : Nat} {off : Int64}

theorem Sized.offset (h : Sized v s l) (ho : l.offsets[i]? = some off) :
    ∃ o : Nat, (Extent.offsets (extents v s) 0)[i]? = some o ∧ off = .ofNat o := by
  rw [h.offsets, List.getElem?_map] at ho
  obtain ⟨o, ho', rfl⟩ := Option.map_eq_some_iff.mp ho
  exact ⟨o, ho', rfl⟩

theorem Sized.extent (hf : s.fields[i]? = some f) : (extents v s)[i]? = some (f.extent v s.packed) := by
  rw [extents, List.getElem?_map, hf]
  rfl

theorem Sized.aligned (h : Sized v s l) : Extent.Aligned (extents v s) :=
  aligned_extents s.packed h.placeable

theorem Sized.offset_toInt (h : Sized v s l) (hf : s.fields[i]? = some f) (ho : l.offsets[i]? = some off) :
    ∃ o : Nat, (Extent.offsets (extents v s) 0)[i]? = some o ∧ off.toInt = o := by
  obtain ⟨o, ho', rfl⟩ := h.offset ho
  obtain ⟨-, hend⟩ := Extent.offsets_spec h.aligned (Sized.extent hf) ho'
  have hstop := Extent.stop_le_total s.packed (extents v s)
  have hfits := h.fits
  unfold Fits at hfits
  exact ⟨o, ho', Int64.toInt_ofNat_of_lt (by omega)⟩

theorem Sized.size_toNat (h : Sized v s l) (hf : s.fields[i]? = some f) :
    ((f.extent v s.packed).size : Int) = (v.size f.type).toInt :=
  Int.toNat_of_nonneg (h.placeable f (List.mem_of_getElem? hf)).size

/-- A field lies in its struct. -/
theorem Sized.field (h : Sized v s l) (hf : s.fields[i]? = some f) (ho : l.offsets[i]? = some off) :
    0 ≤ off.toInt ∧ off.toInt + (v.size f.type).toInt ≤ l.size.toInt := by
  obtain ⟨o, ho, hoff⟩ := h.offset_toInt hf ho
  obtain ⟨-, hend⟩ := Extent.offsets_spec h.aligned (Sized.extent hf) ho
  have hsize := h.size_toNat hf
  have hstop := Extent.stop_le_total s.packed (extents v s)
  rw [hoff, h.size]
  omega

/-- A field lies behind those before it. -/
theorem Sized.apart (h : Sized v s l) {j : Nat} {g : Field} {off' : Int64} (hij : i < j)
    (hf : s.fields[i]? = some f) (ho : l.offsets[i]? = some off) (hg : s.fields[j]? = some g)
    (ho' : l.offsets[j]? = some off') : off.toInt + (v.size f.type).toInt ≤ off'.toInt := by
  obtain ⟨o, ho, hoff⟩ := h.offset_toInt hf ho
  obtain ⟨o', ho', hoff'⟩ := h.offset_toInt hg ho'
  have hle := Extent.offsets_apart h.aligned hij (Sized.extent hf) ho ho'
  have hsize := h.size_toNat hf
  omega

/-- A field of a struct that is not packed is at a multiple of its alignment, and so is the struct
in an array. -/
theorem Sized.unpacked (h : Sized v s l) (hpacked : s.packed = false) (hf : s.fields[i]? = some f)
    (ho : l.offsets[i]? = some off) :
    (v.align f.type).toInt ∣ off.toInt ∧ (v.align f.type).toInt ∣ l.align.toInt ∧
      l.align.toInt ∣ l.size.toInt := by
  have hmem := List.mem_of_getElem? hf
  have hpos := (h.placeable f hmem).align
  have halign : ((f.extent v s.packed).align : Int) = (v.align f.type).toInt := by
    show ((f.alignIn v s.packed).toInt.toNat : Int) = _
    rw [Field.alignIn, hpacked, if_neg Bool.false_ne_true]
    exact Int.toNat_of_nonneg (Int.le_of_lt hpos)
  obtain ⟨o, ho, hoff⟩ := h.offset_toInt hf ho
  have hdvd := (Extent.offsets_spec h.aligned (Sized.extent hf) ho).1
  have height := extents_dvd_eight h.eighths
  have hin : f.extent v s.packed ∈ extents v s := List.mem_map_of_mem hmem
  rw [hoff, h.align, h.size, ← halign]
  refine ⟨Int.natCast_dvd_natCast.mpr hdvd, Int.natCast_dvd_natCast.mpr ?_, Int.natCast_dvd_natCast.mpr ?_⟩
  · exact Extent.dvd_of_le_of_dvd_eight (height _ hin)
      (Extent.widest_dvd_eight height (by decide)) (Extent.align_le_widest hin 1)
  · rw [Extent.total, hpacked, if_neg Bool.false_ne_true]
    exact dvd_nextMultiple _ _

end

/-- What is known of a struct as the type of a field. -/
theorem Sized.asField (h : Sized v s l) :
    (Ty.record s.name).Placeable v ∧ (v.align (.record s.name)).toInt.toNat ∣ 8 := by
  have hsize := h.size
  have halign := h.align
  have hone := Extent.le_widest (extents v s) 1
  have height := Extent.widest_dvd_eight (extents_dvd_eight h.eighths) (Nat.one_dvd 8)
  refine ⟨⟨by simp, ?_, ?_⟩, ?_⟩
  · rw [h.measured.2, halign]
    omega
  · rw [h.measured.1, hsize]
    omega
  · rw [h.measured.2, halign, Int.toNat_natCast]
    exact height

/-- The layouts of structs that fit, by induction on what they contain. -/
theorem Settled.sized {m : Module} {st : LayoutState} (hm : Unlaid m)
    (hu : u.ptrBits = 32 ∨ u.ptrBits = 64) (hst : Settled m u st) (hdone : Complete m st)
    {a : String} (hs : m.struct? a = some s) (hl : st.layout? a = some l)
    (hfits : ∀ b t, Relation.ReflTransGen (Contains m) a b → m.struct? b = some t →
      Fits st.types t) : Sized st.types s l := by
  have hfounded := hst.founded hdone a
  induction hfounded generalizing s l with
  | intro a _ ih =>
    obtain ⟨hmem, rfl⟩ := mem_of_struct? hs
    have hptr : st.types.ptrBits = 32 ∨ st.types.ptrBits = 64 := by rw [hst.ptrBits]; exact hu
    have hfield : ∀ f ∈ s.fields, f.type.Placeable st.types ∧ (st.types.align f.type).toInt.toNat ∣ 8 ∧
        ((∀ b, f.type ≠ .record b) → 0 < (st.types.size f.type).toInt) := by
      intro f hf
      have hstorable := hm.fields s hmem f hf
      by_cases hrecord : ∃ b, f.type = .record b
      · -- the struct in the field fits by induction, and its layout says how big the field is
        obtain ⟨b, hb⟩ := hrecord
        have hcontains : Contains m s.name b := (hm.contains_iff hs).mpr ⟨f, hf, hb⟩
        obtain ⟨t, ht⟩ := exists_struct? (hm.declared hcontains)
        obtain ⟨k, hk⟩ := hdone.exists (hm.declared hcontains)
        have hsized := ih b hcontains ht hk fun c t' hc => hfits c t' (hc.head hcontains)
        obtain ⟨hplaceable, height⟩ := hsized.asField
        rw [(mem_of_struct? ht).2, ← hb] at hplaceable height
        exact ⟨hplaceable, height, fun hscalar => absurd hb (hscalar b)⟩
      · obtain ⟨hpos, height, hsize⟩ :=
          scalar_measure hptr hstorable fun b hb => hrecord ⟨b, hb⟩
        exact ⟨⟨hstorable.proper.ne_untyped, hpos, Int.le_of_lt hsize⟩, height, fun _ => hsize⟩
    refine sized_of_computed (hfits s.name s .refl hs) (fun f hf => (hfield f hf).1)
      (fun f hf => (hfield f hf).2.1) (fun f hf => (hfield f hf).2.2)
      ((hst.laid s.name l hl).computed s hs) fun hbits => ?_
    obtain ⟨hsize, halign⟩ := hst.measure_record hl
    rw [Universe.size, hsize, bits_to_size hbits]
    exact ⟨rfl, halign⟩

/-! ## Leaves -/

/-- A field that is no struct, reached from a struct through fields that are: the places of the
fields on the way, the offset from the start of the struct, the type of the field, and whether none
of the structs on the way is packed. -/
inductive Leaf (m : Module) : Struct → List Nat → Int → Ty → Bool → Prop
  | field {s : Struct} {l : Layout} {i : Nat} {f : Field} {off : Int64} (hl : s.layout? = some l)
      (hf : s.fields[i]? = some f) (ho : l.offsets[i]? = some off)
      (hscalar : ∀ b, f.type ≠ .record b) : Leaf m s [i] off.toInt f.type !s.packed
  | inner {s t : Struct} {l : Layout} {i : Nat} {f : Field} {off : Int64} {b : String}
      {path : List Nat} {n : Int} {type : Ty} {loose : Bool} (hl : s.layout? = some l)
      (hf : s.fields[i]? = some f) (ho : l.offsets[i]? = some off) (hb : f.type = .record b)
      (ht : m.struct? b = some t) (h : Leaf m t path n type loose) :
      Leaf m s (i :: path) (off.toInt + n) type (!s.packed && loose)

/-- Whether a struct and all it contains have the layouts without bounds. -/
def AllSized (m : Module) (v : Universe) (s : Struct) : Prop :=
  s ∈ m.structs ∧ ∀ t ∈ m.structs, Relation.ReflTransGen (Contains m) s.name t.name →
    ∀ l, t.layout? = some l → Sized v t l

section

variable {m : Module} {v : Universe} {s t : Struct} {l : Layout} {f : Field} {i : Nat}

theorem AllSized.self (h : AllSized m v s) (hl : s.layout? = some l) : Sized v s l :=
  h.2 s h.1 .refl l hl

theorem AllSized.inner (h : AllSized m v s) (hf : s.fields[i]? = some f) {b : String}
    (hb : f.type = .record b) (ht : m.struct? b = some t) : AllSized m v t := by
  obtain ⟨hmem, hname⟩ := mem_of_struct? ht
  have hcontains : Contains m s.name t.name :=
    ⟨s, h.1, rfl, f, List.mem_of_getElem? hf, by rw [hb, hname]⟩
  exact ⟨hmem, fun t' ht' hreach => h.2 t' ht' (hreach.head hcontains)⟩

variable {path path' : List Nat} {n : Int} {type : Ty} {loose loose' : Bool}

theorem Leaf.layout (h : Leaf m s path n type loose) : ∃ l, s.layout? = some l := by
  cases h with
  | field hl _ _ _ => exact ⟨_, hl⟩
  | inner hl _ _ _ _ _ => exact ⟨_, hl⟩

/-- A leaf lies in the first field on its way. -/
theorem Leaf.in_field (h : Leaf m s path n type loose) (hs : AllSized m v s) (hl : s.layout? = some l) :
    ∃ i rest f off, path = i :: rest ∧ s.fields[i]? = some f ∧ l.offsets[i]? = some off ∧
      off.toInt ≤ n ∧ 0 < (v.size type).toInt ∧
      n + (v.size type).toInt ≤ off.toInt + (v.size f.type).toInt := by
  induction h generalizing l with
  | field hl' hf ho hscalar =>
    rw [hl] at hl'
    cases hl'
    exact ⟨_, [], _, _, rfl, hf, ho, Int.le_refl _,
      (hs.self hl).scalars _ (List.mem_of_getElem? hf) hscalar, Int.le_refl _⟩
  | inner hl' hf ho hb ht h ih =>
    rw [hl] at hl'
    cases hl'
    have hinner := hs.inner hf hb ht
    obtain ⟨k, hk⟩ := h.layout
    have hsized := hinner.self hk
    obtain ⟨j, rest, g, off', rfl, hg, ho', hlow, hpos, hhigh⟩ := ih hinner hk
    obtain ⟨hnonneg, hend⟩ := hsized.field hg ho'
    -- the field is as big as the struct in it
    have hsize := congrArg Int64.toInt hsized.measured.1
    rw [(mem_of_struct? ht).2, ← hb] at hsize
    exact ⟨_, _, _, _, rfl, hf, ho, by omega, hpos, by omega⟩

/-- A leaf lies in its struct. -/
theorem Leaf.bounds (h : Leaf m s path n type loose) (hs : AllSized m v s) (hl : s.layout? = some l)
    : 0 ≤ n ∧ 0 < (v.size type).toInt ∧ n + (v.size type).toInt ≤ l.size.toInt := by
  obtain ⟨i, rest, f, off, -, hf, ho, hlow, hpos, hhigh⟩ := h.in_field hs hl
  obtain ⟨hnonneg, hend⟩ := (hs.self hl).field hf ho
  exact ⟨by omega, hpos, by omega⟩

/-- Leaves in different fields of a struct do not overlap. -/
theorem Leaf.apart_of_ne {j : Nat} {n' : Int} {type' : Ty} (h : Leaf m s (i :: path) n type loose)
    (h' : Leaf m s (j :: path') n' type' loose') (hs : AllSized m v s) (hne : i ≠ j) :
    n + (v.size type).toInt ≤ n' ∨ n' + (v.size type').toInt ≤ n := by
  obtain ⟨l, hl⟩ := h.layout
  obtain ⟨i, rest, f, off, hi, hf, ho, hlow, -, hhigh⟩ := h.in_field hs hl
  obtain ⟨j, rest', f', off', hj, hf', ho', hlow', -, hhigh'⟩ := h'.in_field hs hl
  obtain ⟨rfl, -⟩ := List.cons.inj hi
  obtain ⟨rfl, -⟩ := List.cons.inj hj
  rcases Nat.lt_or_gt_of_ne hne with hlt | hgt
  · have hapart := (hs.self hl).apart hlt hf ho hf' ho'
    exact .inl (by omega)
  · have hapart := (hs.self hl).apart hgt hf' ho' hf ho
    exact .inr (by omega)

/-- Different leaves do not overlap: the ways to them part at some struct. -/
theorem Leaf.apart {n' : Int} {type' : Ty} (h : Leaf m s path n type loose)
    (h' : Leaf m s path' n' type' loose') (hs : AllSized m v s) (hne : path ≠ path') :
    n + (v.size type).toInt ≤ n' ∨ n' + (v.size type').toInt ≤ n := by
  induction h generalizing path' n' type' loose' with
  | field hl hf ho hscalar =>
    cases h' with
    | field hl' hg ho' hscalar' =>
      refine Leaf.apart_of_ne (.field hl hf ho hscalar) (.field hl' hg ho' hscalar') hs ?_
      rintro rfl
      exact hne rfl
    | inner hl' hg ho' hb ht h' =>
      -- one field is no struct and the other one is
      refine Leaf.apart_of_ne (.field hl hf ho hscalar) (.inner hl' hg ho' hb ht h') hs ?_
      rintro rfl
      rw [hf] at hg
      cases hg
      exact hscalar _ hb
  | @inner s t l i f off b path n type loose hl hf ho hb ht h ih =>
    cases h' with
    | field hl' hg ho' hscalar' =>
      refine Leaf.apart_of_ne (.inner hl hf ho hb ht h) (.field hl' hg ho' hscalar') hs ?_
      rintro rfl
      rw [hf] at hg
      cases hg
      exact hscalar' _ hb
    | @inner _ t' l' j g off' b' path' n' _ loose' hl' hg ho' hb' ht' h' =>
      by_cases hij : i = j
      · -- both ways go into the same struct, and part in it
        subst hij
        obtain rfl : l' = l := Option.some.inj (hl'.symm.trans hl)
        obtain rfl : g = f := Option.some.inj (hg.symm.trans hf)
        obtain rfl : off' = off := Option.some.inj (ho'.symm.trans ho)
        obtain rfl : b' = b := Ty.record.inj (hb'.symm.trans hb)
        obtain rfl : t' = t := Option.some.inj (ht'.symm.trans ht)
        have hinner := ih h' (hs.inner hf hb ht) fun he => hne (by rw [he])
        omega
      · exact Leaf.apart_of_ne (.inner hl hf ho hb ht h) (.inner hl' hg ho' hb' ht' h') hs hij

/-- A leaf that no packed struct is around is at a multiple of its alignment, which divides the
alignment of the struct, and this the size of the struct. -/
theorem Leaf.aligned (h : Leaf m s path n type loose) (hs : AllSized m v s)
    (hl : s.layout? = some l) (hloose : loose) :
    (v.align type).toInt ∣ n ∧ (v.align type).toInt ∣ l.align.toInt ∧ l.align.toInt ∣ l.size.toInt := by
  induction h generalizing l with
  | field hl' hf ho _ =>
    obtain rfl := Option.some.inj (hl'.symm.trans hl)
    exact (hs.self hl).unpacked (by simpa using hloose) hf ho
  | inner hl' hf ho hb ht h ih =>
    obtain rfl := Option.some.inj (hl'.symm.trans hl)
    rw [Bool.and_eq_true] at hloose
    have hinner := hs.inner hf hb ht
    obtain ⟨k, hk⟩ := h.layout
    obtain ⟨hn, halign, -⟩ := ih hinner hk hloose.2
    obtain ⟨hoff, houter, hsize⟩ := (hs.self hl).unpacked (by simpa using hloose.1) hf ho
    -- the field is aligned as the struct in it is
    have hfield := congrArg Int64.toInt (hinner.self hk).measured.2
    rw [(mem_of_struct? ht).2, ← hb] at hfield
    rw [hfield] at hoff houter
    exact ⟨Int.dvd_add (Int.dvd_trans halign hoff) hn, Int.dvd_trans halign houter, hsize⟩

end

/-! ## Leaves of lowered programs -/

/-- Lowering bodies leaves the structs alone. -/
theorem lowerAllPending_structs {xs : List Pending} {m m' : Module} {notices : List Notice}
    (hm : InProgress u m xs) (h : lowerAllPending u m xs = .ok (m', notices)) :
    m'.structs = m.structs := by
  refine (lowerAllPending_keeps (P := fun m' => m'.structs = m.structs)
    (fun hm hstructs h => ?_) hm rfl h).2
  obtain ⟨f, -, b, s, -, -, -, hruns, rfl, -⟩ := lowerPending_cases hm h
  exact hruns.advances.module.structs.trans hstructs

/-- The structs of a lowered program are the ones it declares, laid out. -/
theorem lowerFile_settled {r : Lowered} (hu : u.ptrBits = 32 ∨ u.ptrBits = 64)
    (h : lowerFile u file = .ok r) :
    ∃ m st, Unlaid m ∧ Settled m u st ∧ Complete m st ∧ st.types = r.types ∧
      st.module.structs = r.module.structs := by
  obtain ⟨d, st, hsound, htyped, ⟨m, hm, hd⟩, hst, htypes, hm'⟩ := lowerFile_steps h
  have hunlaid := discovery_unlaid hm hd
  obtain ⟨hsettled, hdone⟩ := layoutAll_settled hunlaid hu hst
  exact ⟨d.module, st, hunlaid, hsettled, hdone, htypes.symm,
    (lowerAllPending_structs (hsound.inProgress htyped hst) hm').symm⟩

/-- Structs that fit, as do all they contain, in a lowered program. -/
theorem lowerFile_allSized {r : Lowered} (hu : u.ptrBits = 32 ∨ u.ptrBits = 64)
    (h : lowerFile u file = .ok r) (hs : s ∈ r.module.structs)
    (hfits : ∀ t ∈ r.module.structs, Relation.ReflTransGen (Contains r.module) s.name t.name →
      Fits r.types t) : AllSized r.module r.types s := by
  obtain ⟨m, st, hm, hst, hdone, htypes, hstructs⟩ := lowerFile_settled hu h
  have hcontains : Contains m = Contains r.module := by
    funext a b
    refine propext ⟨fun ⟨t, ht, hta, hf⟩ => ?_, fun ⟨t, ht, hta, hf⟩ => ?_⟩
    · rw [← hst.structs] at ht
      obtain ⟨t', ht', rfl⟩ := List.mem_map.mp ht
      exact ⟨t', hstructs ▸ ht', hta, hf⟩
    · refine ⟨bare t, ?_, hta, hf⟩
      rw [← hst.structs, hstructs]
      exact List.mem_map_of_mem ht
  refine ⟨hs, fun t ht hreach l hl => ?_⟩
  obtain ⟨hdeclared, hlayout⟩ := hst.of_mem hm (hstructs ▸ ht)
  have hsized := hst.sized hm hu hdone hdeclared (hlayout.trans hl) fun b t' hb ht' => by
    obtain ⟨t'', ht'', rfl⟩ := hst.lookup ht'
    obtain ⟨hmem, rfl⟩ := mem_of_struct? ht''
    rw [hcontains] at hb
    rw [htypes]
    exact hfits t'' (hstructs ▸ hmem) (hreach.trans hb)
  rw [htypes] at hsized
  exact ⟨hsized.placeable, hsized.eighths, hsized.scalars, hsized.fits, hsized.offsets, hsized.size,
    hsized.align, hsized.measured⟩

/-- Where the leaves of a struct are: each in the struct, no two at the same place, and those that
no packed struct is around aligned in every element of an array of the struct. -/
theorem lowerFile_leaves {u : Universe} {file : Program.File} {r : Lowered}
    (hu : u.ptrBits = 32 ∨ u.ptrBits = 64) (h : lowerFile u file = .ok r) {s : Struct}
    (hs : s ∈ r.module.structs)
    (hfits : ∀ t ∈ r.module.structs, Relation.ReflTransGen (Contains r.module) s.name t.name →
      Fits r.types t) :
    ∃ l, s.layout? = some l ∧ (∀ path n t loose, Leaf r.module s path n t loose →
        0 ≤ n ∧ 0 < (r.types.size t).toInt ∧ n + (r.types.size t).toInt ≤ l.size.toInt) ∧
      (∀ path n t loose path' n' t' loose', Leaf r.module s path n t loose →
        Leaf r.module s path' n' t' loose' → path ≠ path' →
        n + (r.types.size t).toInt ≤ n' ∨ n' + (r.types.size t').toInt ≤ n) ∧
      ∀ path n t, Leaf r.module s path n t true → ∀ k : Nat,
        (r.types.align t).toInt ∣ k * l.size.toInt + n := by
  have hsized := lowerFile_allSized hu h hs hfits
  obtain ⟨l, hl, -⟩ := (lowerFile_inProgress h).structs s hs
  refine ⟨l, hl, fun _ _ _ _ hleaf => hleaf.bounds hsized hl,
    fun _ _ _ _ _ _ _ _ hleaf hleaf' hne => hleaf.apart hleaf' hsized hne,
    fun _ n _ hleaf k => ?_⟩
  obtain ⟨hn, halign, hsize⟩ := hleaf.aligned hsized hl rfl
  exact Int.dvd_add (Int.dvd_trans (Int.dvd_trans halign hsize) (Int.dvd_mul_left _ _)) hn

/-- The struct of pairs, laid out. -/
def pairStruct : Struct :=
  ⟨"Pair", true, false, [⟨"first", .u16, true⟩, ⟨"second", .int, true⟩], some ⟨[0, 4], 8, 4⟩⟩

/-- The struct of the cells of a list of pairs, laid out. -/
def cellStruct : Struct :=
  ⟨"Cell", true, false, [⟨"tag", .byte, true⟩, ⟨"pair", .record "Pair", true⟩,
    ⟨"next", .ptr (.record "Cell"), true⟩], some ⟨[0, 4, 16], 24, 8⟩⟩

/-- The leaves of a cell of a list of pairs: the second part of the pair is at offset 8. -/
theorem lowerFile_leaves_pairList :
    ∃ r s l, lowerFile (Universe.make 64 false) pairList = .ok r ∧ s ∈ r.module.structs ∧
      (∀ t ∈ r.module.structs, Relation.ReflTransGen (Contains r.module) s.name t.name → Fits r.types t) ∧
      s.layout? = some l ∧ Leaf r.module s [1, 1] 8 .int true ∧
      (∀ path n t loose, Leaf r.module s path n t loose →
        0 ≤ n ∧ 0 < (r.types.size t).toInt ∧ n + (r.types.size t).toInt ≤ l.size.toInt) ∧
      (∀ path n t loose path' n' t' loose', Leaf r.module s path n t loose →
        Leaf r.module s path' n' t' loose' → path ≠ path' →
        n + (r.types.size t).toInt ≤ n' ∨ n' + (r.types.size t').toInt ≤ n) ∧
      ∀ path n t, Leaf r.module s path n t true → ∀ k : Nat,
        (r.types.align t).toInt ∣ k * l.size.toInt + n := by
  obtain ⟨r, hr, hstructs, htypes⟩ := Outcome.exists_ok_of_any
    (x := lowerFile (Universe.make 64 false) pairList)
    (P := fun r => r.module.structs = [cellStruct, pairStruct] ∧
      r.types = ⟨64, false, [⟨"Cell", 192, 8⟩, ⟨"Pair", 64, 4⟩]⟩) (by decide +kernel)
  have hfits : ∀ t ∈ r.module.structs, Fits r.types t := by
    rw [hstructs, htypes]
    decide +kernel
  have hcell : cellStruct ∈ r.module.structs := by
    rw [hstructs]
    exact List.mem_cons_self
  have hpair : r.module.struct? "Pair" = some pairStruct := by
    rw [Module.struct?_eq, hstructs]
    decide +kernel
  have hsecond : Leaf r.module pairStruct [1] 4 .int true :=
    @Leaf.field r.module pairStruct ⟨[0, 4], 8, 4⟩ 1 ⟨"second", .int, true⟩ 4 rfl rfl rfl (by simp)
  have hleaf : Leaf r.module cellStruct [1, 1] 8 .int true :=
    @Leaf.inner r.module cellStruct pairStruct ⟨[0, 4, 16], 24, 8⟩ 1
      ⟨"pair", .record "Pair", true⟩ 4 "Pair" [1] 4 .int true rfl rfl rfl rfl hpair hsecond
  obtain ⟨l, hl, hleaves⟩ :=
    lowerFile_leaves (.inr rfl) hr hcell fun t ht _ => hfits t ht
  exact ⟨r, cellStruct, l, hr, hcell, fun t ht _ => hfits t ht, hl, hleaf, hleaves⟩

end TreeAsm.Lowering
