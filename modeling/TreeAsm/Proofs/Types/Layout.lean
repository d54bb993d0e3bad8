import Mathlib.Algebra.Order.Ring.Int
import Mathlib.Order.Bounds.Basic
import TreeAsm.Proofs.Outcome
import TreeAsm.Types.Layout

/-!
# Layouts without bounds

A layout depends on the sizes and alignments of the types of the fields only (`compute_congr`), and
there is one unless a field has no type or an alignment that is not positive (`compute_fault?`).

Machine integers wrap around, so the layout of a huge struct is not what one would expect. Here the
fields are placed once more, as numbers without bound: each with an alignment and a size (`Extent`),
one after the other. As long as the size of the struct does not get too big, the layout that is
computed is this one (`compute_eq`), and about this one it is easy to say where the fields are: each
at the least multiple of its alignment behind the ones before it (`compute_tight`).
-/

namespace TreeAsm

open Layout (compute place widest)
open Int64 (ofNat toInt_ofNat_of_lt)
open Outcome (bind_eq)

/-! ## What a layout depends on -/

namespace Universe

variable (u : Universe) (name : String) (size align : Int64)

theorem shape?_setLayout_self :
    (u.setLayout name size align).shape? name = some ⟨name, size * 8, align⟩ := by
  simp [shape?, setLayout]

theorem shape?_setLayout_of_ne {a : String} (h : a ≠ name) :
    (u.setLayout name size align).shape? a = u.shape? a := by
  have hhead : ((name == a)) = False := by simp [Ne.symm h]
  unfold shape? setLayout
  rw [List.find?_cons_of_neg (by rw [hhead]; exact id), List.find?_filter]
  congr 1
  funext s
  by_cases hs : s.name = a
  · simp [hs, h]
  · simp [hs]

/-- Giving a record a layout changes no other type. -/
theorem measure_setLayout_of_ne {t : Ty} (h : t ≠ .record name) :
    (u.setLayout name size align).bits t = u.bits t ∧
      (u.setLayout name size align).align t = u.align t := by
  cases t with
  | record a =>
    have hne : a ≠ name := fun he => h (congrArg Ty.record he)
    simp only [bits, Universe.align, shape?_setLayout_of_ne u name size align hne]
    exact ⟨trivial, trivial⟩
  | _ => exact ⟨rfl, rfl⟩

end Universe

variable {u u' : Universe} {fields : List Field}

theorem place_congr {packed : Bool} : ∀ {fields : List Field},
    (∀ f ∈ fields, u.bits f.type = u'.bits f.type ∧ u.align f.type = u'.align f.type) → ∀ off align,
      place u packed fields off align = place u' packed fields off align := by
  intro fields
  induction fields with
  | nil => exact fun _ _ _ => rfl
  | cons f fields ih =>
    intro h off align
    obtain ⟨hbits, halign⟩ := h f List.mem_cons_self
    have hin : f.alignIn u packed = f.alignIn u' packed := by
      rw [Field.alignIn, Field.alignIn, halign]
    have hsize : u.size f.type = u'.size f.type := by rw [Universe.size, Universe.size, hbits]
    simp only [place, hin, hsize, ih fun f' hf' => h f' (List.mem_cons_of_mem _ hf')]

/-- A layout depends on the types of the fields through their widths and alignments only. -/
theorem compute_congr (packed : Bool)
    (h : ∀ f ∈ fields, u.bits f.type = u'.bits f.type ∧ u.align f.type = u'.align f.type) :
    compute u fields packed = compute u' fields packed := by
  rw [compute, compute, place_congr h]

theorem alignUp_eq {off align : Int64} (h : 0 < align) : alignUp off align = .ok (roundUp off align) :=
  if_neg (Int64.not_le.mpr h)

/-- Why a field cannot be placed. -/
def Field.fault? (u : Universe) (packed : Bool) (f : Field) : Option Failure :=
  if f.type = .untyped then some (.report [] (.fieldWithoutType f.name))
  else if packed = false ∧ u.align f.type ≤ 0 then
    some (.report [s!"field {f.name}"] (.badAlignment (u.align f.type)))
  else none

theorem Field.fault?_eq_none {packed : Bool} {f : Field} :
    f.fault? u packed = none ↔ f.type ≠ .untyped ∧ (packed = false → 0 < u.align f.type) := by
  unfold fault?
  by_cases htyped : f.type = .untyped
  · simp [htyped]
  · cases packed <;> simp [htyped]

theorem place_fault {packed : Bool} {f : Field} {e : Failure} (h : f.fault? u packed = some e)
    (fields : List Field) (off align : Int64) :
    place u packed (f :: fields) off align = .error e := by
  rw [place]
  unfold Field.fault? at h
  split at h
  next hty =>
    rw [if_pos hty, ← Option.some.inj h]
    rfl
  next hty =>
    split at h
    next hbad =>
      have hin : f.alignIn u packed = u.align f.type := by
        rw [Field.alignIn, hbad.1, if_neg Bool.false_ne_true]
      rw [if_neg hty, ← Option.some.inj h]
      simp only [hin, alignUp, if_pos hbad.2]
      rfl
    next => exact nomatch h

/-- Fields are placed, unless there is one that cannot be; the first one of these is reported. -/
theorem place_fault? (packed : Bool) (fields : List Field) (off : Int64) {align : Int64}
    (halign : 0 < align) :
    (∀ e, fields.findSome? (·.fault? u packed) = some e →
      place u packed fields off align = .error e) ∧ (fields.findSome? (·.fault? u packed) = none →
      ∃ r, place u packed fields off align = .ok r ∧ 0 < r.2.2) := by
  induction fields generalizing off align with
  | nil => exact ⟨fun _ h => absurd h (by simp), fun _ => ⟨_, rfl, halign⟩⟩
  | cons f fields ih =>
    rw [List.findSome?_cons]
    cases hf : f.fault? u packed with
    | some e => exact ⟨fun _ h => Option.some.inj h ▸ place_fault hf _ _ _, fun h => nomatch h⟩
    | none =>
      obtain ⟨htyped, hpos⟩ := Field.fault?_eq_none.mp hf
      have hin : 0 < f.alignIn u packed := by
        cases packed with
        | true => exact (by decide : (0 : Int64) < 1)
        | false => exact hpos rfl
      have hwide : 0 < widest align (f.alignIn u packed) := by
        unfold widest
        split
        · exact hin
        · exact halign
      obtain ⟨hfails, hplaces⟩ := ih (roundUp off (f.alignIn u packed) + u.size f.type) hwide
      rw [place, if_neg htyped]
      simp only [alignUp_eq hin]
      rw [bind_eq (Outcome.within_eq rfl)]
      constructor
      · intro e he
        rw [hfails e he]
        rfl
      · intro hnone
        obtain ⟨r, hr, hlast⟩ := hplaces hnone
        rw [bind_eq hr]
        exact ⟨_, rfl, hlast⟩

/-- There is a layout, with a positive alignment, unless some field cannot be placed; the first one of
these is reported. -/
theorem compute_fault? (u : Universe) (fields : List Field) (packed : Bool) :
    (∀ e, fields.findSome? (·.fault? u packed) = some e → compute u fields packed = .error e) ∧
    (fields.findSome? (·.fault? u packed) = none → ∃ l, compute u fields packed = .ok l ∧ 0 < l.align) := by
  obtain ⟨hfails, hplaces⟩ := place_fault? (u := u) packed fields 0 (show (0 : Int64) < 1 by decide)
  constructor
  · intro e he
    rw [compute, hfails e he]
    rfl
  · intro hnone
    obtain ⟨⟨offsets, stop, align⟩, hr, hpos⟩ := hplaces hnone
    rw [compute, bind_eq hr]
    cases packed with
    | true => exact ⟨_, rfl, hpos⟩
    | false =>
      refine ⟨⟨offsets, roundUp stop align, align⟩, ?_, hpos⟩
      show (if _ then _ else alignUp _ _ >>= _) = _
      rw [if_neg Bool.false_ne_true, bind_eq (alignUp_eq hpos)]
      rfl

/-! ## Numbers without bound -/

/-- The next multiple of a positive `a` from `n` on. -/
def nextMultiple (n a : Nat) : Nat := (n + a - 1) / a * a

theorem nextMultiple_bounds (n : Nat) {a : Nat} (ha : 0 < a) :
    n ≤ nextMultiple n a ∧ nextMultiple n a < n + a := by
  have hdiv := Nat.div_add_mod (n + a - 1) a
  have hmod := Nat.mod_lt (n + a - 1) ha
  rw [Nat.mul_comm] at hdiv
  unfold nextMultiple
  omega

theorem dvd_nextMultiple (n a : Nat) : a ∣ nextMultiple n a := Nat.dvd_mul_left _ _

theorem isLeast_nextMultiple (n : Nat) {a : Nat} (ha : 0 < a) :
    IsLeast {m : Int | (a : Int) ∣ m ∧ n ≤ m} (nextMultiple n a) := by
  obtain ⟨hle, hlt⟩ := nextMultiple_bounds n ha
  have hdvd : (a : Int) ∣ nextMultiple n a := Int.natCast_dvd_natCast.mpr (dvd_nextMultiple n a)
  refine ⟨⟨hdvd, Int.ofNat_le.mpr hle⟩, fun m hm => ?_⟩
  -- a smaller multiple would be at least `a` below
  by_contra hlow
  have hgap := Int.le_of_dvd (by omega) (Int.dvd_sub hdvd hm.1)
  have hfrom := hm.2
  omega

/-- Rounding a machine integer up, as long as nothing wraps around. -/
theorem roundUp_ofNat {n a : Nat} (ha : 0 < a) (h : n + a < 2 ^ 63) :
    roundUp (.ofNat n) (.ofNat a) = .ofNat (nextMultiple n a) := by
  obtain ⟨-, hlt⟩ := nextMultiple_bounds n ha
  have hsum : Int64.ofNat n + Int64.ofNat a - 1 = Int64.ofNat (n + a - 1) := by
    rw [← Int64.ofNat_add, show (1 : Int64) = Int64.ofNat 1 from rfl, Int64.ofNat_sub _ _ (by omega)]
  have hquot : (n + a - 1) / a ≤ n + a - 1 := Nat.div_le_self _ _
  have hdiv : Int64.ofNat (n + a - 1) / Int64.ofNat a = Int64.ofNat ((n + a - 1) / a) := by
    apply Int64.toInt_inj.mp
    rw [Int64.toInt_div, Int64.toInt_ofNat_of_lt (by omega), Int64.toInt_ofNat_of_lt (by omega),
      Int64.toInt_ofNat_of_lt (by omega), Int.tdiv_eq_ediv_of_nonneg (by omega),
      ← Int.natCast_ediv]
    generalize (n + a - 1) / a = q at hquot ⊢
    exact Int.bmod_eq_of_le (by omega) (by omega)
  rw [roundUp, hsum, hdiv, ← Int64.ofNat_mul]
  rfl

/-- What has to be known of a thing to place it. -/
structure Extent where
  align : Nat
  size : Nat

namespace Extent

/-- Where things are that are placed one after the other. -/
def offsets : List Extent → (off : Nat) → List Nat
  | [], _ => []
  | e :: es, off =>
    nextMultiple off e.align :: offsets es (nextMultiple off e.align + e.size)

/-- Where the last of them ends. -/
def stop : List Extent → (off : Nat) → Nat
  | [], off => off
  | e :: es, off => stop es (nextMultiple off e.align + e.size)

/-- The greatest of their alignments and `a`. -/
def widest (a : Nat) : List Extent → Nat
  | [] => a
  | e :: es => widest (max a e.align) es

/-- The size of a struct with these fields. -/
def total (packed : Bool) (es : List Extent) : Nat :=
  if packed then stop es 0 else nextMultiple (stop es 0) (widest 1 es)

/-- Alignments have to be positive. -/
def Aligned (es : List Extent) : Prop := ∀ e ∈ es, 0 < e.align

variable {es : List Extent}

variable {e : Extent} {off o : Nat}

theorem Aligned.cons (h : Aligned (e :: es)) : 0 < e.align ∧ Aligned es :=
  ⟨h e List.mem_cons_self, fun e' he' => h e' (List.mem_cons_of_mem _ he')⟩

theorem le_stop (h : Aligned es) (off : Nat) : off ≤ stop es off := by
  induction es generalizing off with
  | nil => exact Nat.le_refl off
  | cons e es ih =>
    obtain ⟨he, hes⟩ := h.cons
    have hfirst := (nextMultiple_bounds off he).1
    have hrest := ih hes (nextMultiple off e.align + e.size)
    show off ≤ stop es _
    omega

theorem le_widest (es : List Extent) (a : Nat) : a ≤ widest a es := by
  induction es generalizing a with
  | nil => exact Nat.le_refl a
  | cons e es ih =>
    have hrest := ih (max a e.align)
    show a ≤ widest (max a e.align) es
    omega

theorem align_le_widest (he : e ∈ es) (a : Nat) : e.align ≤ widest a es := by
  induction es generalizing a with
  | nil => cases he
  | cons e' es ih =>
    show e.align ≤ widest (max a e'.align) es
    rcases List.mem_cons.mp he with rfl | he
    · have := le_widest es (max a e.align)
      omega
    · exact ih he _

/-- The end of the fields of a struct is at most its size. -/
theorem stop_le_total (packed : Bool) (es : List Extent) : stop es 0 ≤ total packed es := by
  unfold total
  split
  · exact Nat.le_refl _
  · exact (nextMultiple_bounds _ (le_widest es 1)).1

/-- Among divisors of 8 the greatest is a multiple of all. -/
theorem dvd_of_le_of_dvd_eight {a b : Nat} (ha : a ∣ 8) (hb : b ∣ 8) (h : a ≤ b) : a ∣ b := by
  have hcases : ∀ n, n ∣ 8 → n = 1 ∨ n = 2 ∨ n = 4 ∨ n = 8 := by
    intro n hn
    have hle : n ≤ 8 := Nat.le_of_dvd (by decide) hn
    revert hn
    revert n
    decide
  obtain rfl | rfl | rfl | rfl := hcases a ha <;>
    obtain rfl | rfl | rfl | rfl := hcases b hb <;> revert h <;> decide

theorem widest_dvd_eight (h : ∀ e ∈ es, e.align ∣ 8) {a : Nat} (ha : a ∣ 8) : widest a es ∣ 8 := by
  induction es generalizing a with
  | nil => exact ha
  | cons e es ih =>
    have hmax : max a e.align ∣ 8 := by
      rcases Nat.le_total a e.align with hle | hle
      · rw [Nat.max_eq_right hle]
        exact h e List.mem_cons_self
      · rw [Nat.max_eq_left hle]
        exact ha
    exact ih (fun e' he' => h e' (List.mem_cons_of_mem _ he')) hmax

theorem le_of_mem_offsets (h : Aligned es) (ho : o ∈ offsets es off) : off ≤ o := by
  induction es generalizing off with
  | nil => cases ho
  | cons e es ih =>
    obtain ⟨he, hes⟩ := h.cons
    have hfirst := (nextMultiple_bounds off he).1
    rcases List.mem_cons.mp ho with rfl | ho
    · exact hfirst
    · have hrest := ih hes ho
      omega

/-- Every thing is at a multiple of its alignment and ends before the end of all. -/
theorem offsets_spec (h : Aligned es) {i : Nat} (he : es[i]? = some e)
    (ho : (offsets es off)[i]? = some o) : e.align ∣ o ∧ o + e.size ≤ stop es off := by
  induction es generalizing off i with
  | nil => cases he
  | cons e' es ih =>
    obtain ⟨-, hes⟩ := h.cons
    cases i with
    | zero =>
      obtain rfl : e' = e := by simpa using he
      obtain rfl : nextMultiple off e'.align = o := by simpa [offsets] using ho
      exact ⟨dvd_nextMultiple _ _, le_stop hes _⟩
    | succ i => exact ih hes he ho

theorem le_stop_of_mem_offsets (h : Aligned es) (ho : o ∈ offsets es off) : o ≤ stop es off := by
  induction es generalizing off with
  | nil => cases ho
  | cons e es ih =>
    obtain ⟨-, hes⟩ := h.cons
    rcases List.mem_cons.mp ho with rfl | ho
    · exact Nat.le_trans (Nat.le_add_right _ _) (le_stop hes _)
    · exact ih hes ho

/-- A thing is placed behind all those before it. -/
theorem offsets_apart (h : Aligned es) {i j o' : Nat} (hij : i < j) (he : es[i]? = some e)
    (ho : (offsets es off)[i]? = some o) (ho' : (offsets es off)[j]? = some o') :
    o + e.size ≤ o' := by
  induction es generalizing off i j with
  | nil => cases he
  | cons e' es ih =>
    obtain ⟨-, hes⟩ := h.cons
    obtain ⟨j, rfl⟩ : ∃ k, j = k + 1 := ⟨j - 1, by omega⟩
    have hlater : (offsets es (nextMultiple off e'.align + e'.size))[j]? = some o' := ho'
    cases i with
    | zero =>
      obtain rfl : e' = e := by simpa using he
      obtain rfl : nextMultiple off e'.align = o := by simpa [offsets] using ho
      exact le_of_mem_offsets hes (List.mem_of_getElem? hlater)
    | succ i => exact ih hes (by omega) he ho hlater

end Extent

/-! ## The layouts that are computed -/

/-- A machine integer that is not negative is the one of a natural number. -/
theorem ofNat_toNat_toInt {n : Int64} (h : 0 ≤ n.toInt) : ofNat n.toInt.toNat = n := by
  rw [← Int64.ofInt_eq_ofNat, Int.toNat_of_nonneg h, Int64.ofInt_toInt]

/-- What has to be known of a field to place it. -/
def Field.extent (u : Universe) (packed : Bool) (f : Field) : Extent :=
  ⟨(f.alignIn u packed).toInt.toNat, (u.size f.type).toInt.toNat⟩

/-- A type whose values can be placed. -/
structure Ty.Placeable (u : Universe) (t : Ty) : Prop where
  typed : t ≠ .untyped
  align : 0 < (u.align t).toInt
  size : 0 ≤ (u.size t).toInt

section

variable {u : Universe} {packed : Bool}

theorem alignIn_pos (packed : Bool) {f : Field} (hf : f.type.Placeable u) :
    0 < (f.alignIn u packed).toInt := by
  unfold Field.alignIn
  split
  · decide
  · exact hf.align

variable {fields : List Field}

theorem aligned_extents (packed : Bool) (hfields : ∀ f ∈ fields, f.type.Placeable u) :
    Extent.Aligned (fields.map (·.extent u packed)) := by
  intro e he
  obtain ⟨f, hf, rfl⟩ := List.mem_map.mp he
  have hpos := alignIn_pos packed (hfields f hf)
  show 0 < (f.alignIn u packed).toInt.toNat
  omega

theorem widest_ofNat {a b : Nat} (ha : a < 2 ^ 63) (hb : b < 2 ^ 63) :
    widest (.ofNat a) (.ofNat b) = .ofNat (max a b) := by
  have hlt : ofNat b > ofNat a ↔ a < b := by
    rw [GT.gt, Int64.lt_iff_toInt_lt, toInt_ofNat_of_lt ha, toInt_ofNat_of_lt hb]
    omega
  unfold widest
  by_cases h : a < b
  · rw [if_pos (hlt.mpr h), Nat.max_eq_right (Nat.le_of_lt h)]
  · rw [if_neg (fun hgt => h (hlt.mp hgt)), Nat.max_eq_left (by omega)]

/-- Placing fields, as long as the end of the last one is not too far. -/
theorem place_eq (hfields : ∀ f ∈ fields, f.type.Placeable u) {off align : Nat}
    (hstop : Extent.stop (fields.map (·.extent u packed)) off < 2 ^ 62)
    (hwidest : Extent.widest align (fields.map (·.extent u packed)) < 2 ^ 62) :
    place u packed fields (.ofNat off) (.ofNat align) =
      .ok ((Extent.offsets (fields.map (·.extent u packed)) off).map .ofNat,
        .ofNat (Extent.stop (fields.map (·.extent u packed)) off),
        .ofNat (Extent.widest align (fields.map (·.extent u packed)))) := by
  induction fields generalizing off align with
  | nil => rfl
  | cons f fields ih =>
    have hf := hfields f List.mem_cons_self
    have hrest := fun f' hf' => hfields f' (List.mem_cons_of_mem f hf')
    have hpos := alignIn_pos packed hf
    have halign : ofNat (f.extent u packed).align = f.alignIn u packed :=
      ofNat_toNat_toInt (Int.le_of_lt hpos)
    have hsize : ofNat (f.extent u packed).size = u.size f.type := ofNat_toNat_toInt hf.size
    have hposNat : 0 < (f.extent u packed).align := by
      show 0 < (f.alignIn u packed).toInt.toNat
      omega
    rw [List.map_cons] at hstop hwidest ⊢
    -- the numbers on the way are below the end and the greatest alignment
    have hstart := (nextMultiple_bounds off hposNat).1
    have hnext := Extent.le_stop (aligned_extents packed hrest)
      (nextMultiple off (f.extent u packed).align + (f.extent u packed).size)
    have hmax := Extent.le_widest (fields.map (·.extent u packed)) (max align (f.extent u packed).align)
    rw [Extent.stop] at hstop
    rw [Extent.widest] at hwidest
    have hup : alignUp (.ofNat off) (f.alignIn u packed)
        = .ok (.ofNat (nextMultiple off (f.extent u packed).align)) := by
      rw [alignUp_eq (Int64.lt_iff_toInt_lt.mpr hpos), ← halign, roundUp_ofNat hposNat (by omega)]
    rw [place, if_neg hf.typed]
    simp only [hup]
    rw [bind_eq (Outcome.within_eq rfl), ← hsize, ← Int64.ofNat_add, ← halign,
      widest_ofNat (by omega) (by omega), bind_eq (ih hrest hstop hwidest)]
    rfl

/-- The layout that is computed is the one without bounds, as long as the struct does not get too
big. -/
theorem compute_eq (hfields : ∀ f ∈ fields, f.type.Placeable u)
    (hstop : Extent.stop (fields.map (·.extent u packed)) 0 < 2 ^ 62)
    (hwidest : Extent.widest 1 (fields.map (·.extent u packed)) < 2 ^ 62) :
    compute u fields packed = .ok ⟨(Extent.offsets (fields.map (·.extent u packed)) 0).map .ofNat,
        .ofNat (Extent.total packed (fields.map (·.extent u packed))),
        .ofNat (Extent.widest 1 (fields.map (·.extent u packed)))⟩ := by
  have hpos := Extent.le_widest (fields.map (·.extent u packed)) 1
  rw [compute, show (0 : Int64) = .ofNat 0 from rfl, show (1 : Int64) = .ofNat 1 from rfl,
    bind_eq (place_eq hfields hstop hwidest)]
  cases packed with
  | true => rfl
  | false =>
    -- the end of the last field is rounded up to the alignment of the struct
    have hup : alignUp (.ofNat (Extent.stop (fields.map (·.extent u false)) 0))
        (.ofNat (Extent.widest 1 (fields.map (·.extent u false))))
        = .ok (.ofNat (Extent.total false (fields.map (·.extent u false)))) := by
      rw [alignUp_eq, roundUp_ofNat hpos (by omega)]
      · rfl
      · rw [Int64.lt_iff_toInt_lt, toInt_ofNat_of_lt (by omega)]
        show (0 : Int) < _
        omega
    show (if _ then _ else alignUp _ _ >>= _) = _
    rw [if_neg Bool.false_ne_true, bind_eq hup]
    rfl

/-! ## Fields as close as possible -/

/-- Fields from `start` on, each at the first offset that its alignment allows; the last one ends at
`stop`. -/
def Snug (u : Universe) : (start : Int) → List Field → (offsets : List Int) → (stop : Int) → Prop
  | start, [], [], stop => stop = start
  | start, f :: fields, o :: offsets, stop =>
    IsLeast {n : Int | (u.align f.type).toInt ∣ n ∧ start ≤ n} o ∧
      Snug u (o + (u.size f.type).toInt) fields offsets stop
  | _, _, _, _ => False

/-- A struct without needless gaps: its fields are snug, and it ends as soon as the greatest of their
alignments allows. -/
def Layout.Tight (u : Universe) (fields : List Field) (l : Layout) : Prop :=
  l.align.toInt = (fields.map fun f => (u.align f.type).toInt).foldl max 1 ∧
    ∃ stop, Snug u 0 fields (l.offsets.map (·.toInt)) stop ∧
      IsLeast {n : Int | l.align.toInt ∣ n ∧ stop ≤ n} l.size.toInt

/-- A struct without gaps: the sums of the sizes of its first fields are the offsets and, of all of
them, the size. -/
def Layout.Packed (u : Universe) (fields : List Field) (l : Layout) : Prop :=
  l.align.toInt = 1 ∧ l.offsets.map (·.toInt) ++ [l.size.toInt]
    = (fields.map fun f => (u.size f.type).toInt).scanl (· + ·) 0

/-- All sizes and alignments of fields, added up. -/
def measureSum (u : Universe) (fields : List Field) : Int :=
  (fields.map fun f => (u.size f.type).toInt + (u.align f.type).toInt).sum

theorem Ty.Placeable.extent {f : Field} (hf : f.type.Placeable u) (packed : Bool) :
    ((f.extent u packed).size : Int) = (u.size f.type).toInt ∧
      ((f.extent u packed).align : Int) = if packed then 1 else (u.align f.type).toInt := by
  refine ⟨Int.toNat_of_nonneg hf.size, ?_⟩
  show ((f.alignIn u packed).toInt.toNat : Int) = _
  rw [Int.toNat_of_nonneg (Int.le_of_lt (alignIn_pos packed hf)), Field.alignIn]
  split <;> rfl

theorem extents_le_sum (packed : Bool) (hfields : ∀ f ∈ fields, f.type.Placeable u) (off a : Nat) :
    Extent.stop (fields.map (·.extent u packed)) off ≤ off + measureSum u fields ∧
      Extent.widest a (fields.map (·.extent u packed)) ≤ max (a : Int) (measureSum u fields) := by
  induction fields generalizing off a with
  | nil => exact ⟨by simp [Extent.stop, measureSum], by simp [Extent.widest]⟩
  | cons f fields ih =>
    have hf := hfields f List.mem_cons_self
    have hrest := fun g hg => hfields g (List.mem_cons_of_mem f hg)
    have hpos := hf.align
    have hposNat : 0 < (f.extent u packed).align := (aligned_extents packed hfields).cons.1
    have hnext := nextMultiple_bounds off hposNat
    obtain ⟨hsize, halign⟩ := hf.extent packed
    have hle : (f.extent u packed).align ≤ (u.align f.type).toInt := by
      rw [halign]
      split <;> omega
    obtain ⟨hstop, hwidest⟩ := ih hrest
      (nextMultiple off (f.extent u packed).align + (f.extent u packed).size)
      (max a (f.extent u packed).align)
    have hfrom := Extent.le_stop (aligned_extents packed hrest)
      (nextMultiple off (f.extent u packed).align + (f.extent u packed).size)
    have hsum : measureSum u (f :: fields)
        = (u.size f.type).toInt + (u.align f.type).toInt + measureSum u fields := by
      simp [measureSum]
    rw [List.map_cons, Extent.stop, Extent.widest, hsum]
    constructor <;> omega

/-- The numbers of a layout are the ones without bounds. -/
theorem compute_exact (packed : Bool) (hfields : ∀ f ∈ fields, f.type.Placeable u)
    (hsum : measureSum u fields < 2 ^ 62) : ∃ l, compute u fields packed = .ok l ∧
      l.offsets.map (·.toInt) = (Extent.offsets (fields.map (·.extent u packed)) 0).map (↑) ∧
      l.size.toInt = Extent.total packed (fields.map (·.extent u packed)) ∧
      l.align.toInt = Extent.widest 1 (fields.map (·.extent u packed)) := by
  obtain ⟨hstop, hwidest⟩ := extents_le_sum packed hfields 0 1
  have hpos := Extent.le_widest (fields.map (·.extent u packed)) 1
  have hround := nextMultiple_bounds (Extent.stop (fields.map (·.extent u packed)) 0) hpos
  refine ⟨_, compute_eq hfields (by omega) (by omega), ?_, toInt_ofNat_of_lt ?_,
    toInt_ofNat_of_lt (by omega)⟩
  · rw [List.map_map]
    refine List.map_congr_left fun o ho => toInt_ofNat_of_lt ?_
    have hle := Extent.le_stop_of_mem_offsets (aligned_extents packed hfields) ho
    omega
  · unfold Extent.total
    split <;> omega

theorem snug_offsets (hfields : ∀ f ∈ fields, f.type.Placeable u) (off a : Nat) :
    Snug u off fields ((Extent.offsets (fields.map (·.extent u false)) off).map (↑))
        (Extent.stop (fields.map (·.extent u false)) off) ∧
      (Extent.widest a (fields.map (·.extent u false)) : Int)
        = (fields.map fun f => (u.align f.type).toInt).foldl max (a : Int) := by
  induction fields generalizing off a with
  | nil => exact ⟨rfl, rfl⟩
  | cons f fields ih =>
    have hposNat : 0 < (f.extent u false).align := (aligned_extents false hfields).cons.1
    obtain ⟨hsize, halign⟩ := (hfields f List.mem_cons_self).extent false
    rw [if_neg Bool.false_ne_true] at halign
    obtain ⟨hsnug, hwidest⟩ := ih (fun g hg => hfields g (List.mem_cons_of_mem f hg))
      (nextMultiple off (f.extent u false).align + (f.extent u false).size)
      (max a (f.extent u false).align)
    rw [Int.natCast_add, hsize] at hsnug
    have hmax : ((max a (f.extent u false).align : Nat) : Int)
        = max (a : Int) (u.align f.type).toInt := by omega
    rw [hmax] at hwidest
    refine ⟨⟨?_, hsnug⟩, hwidest⟩
    rw [← halign]
    exact isLeast_nextMultiple off hposNat

theorem scanl_sizes (hfields : ∀ f ∈ fields, f.type.Placeable u) (off : Nat) :
    ((Extent.offsets (fields.map (·.extent u true)) off).map (↑) : List Int)
        ++ [(Extent.stop (fields.map (·.extent u true)) off : Int)]
      = (fields.map fun f => (u.size f.type).toInt).scanl (· + ·) (off : Int) ∧
    Extent.widest 1 (fields.map (·.extent u true)) = 1 := by
  induction fields generalizing off with
  | nil => exact ⟨rfl, rfl⟩
  | cons f fields ih =>
    obtain ⟨hsize, -⟩ := (hfields f List.mem_cons_self).extent true
    have hnext : nextMultiple off 1 = off := by
      rw [nextMultiple, Nat.div_one, Nat.mul_one, Nat.add_sub_cancel]
    obtain ⟨hsums, hwidest⟩ := ih (fun g hg => hfields g (List.mem_cons_of_mem f hg))
      (off + (f.extent u true).size)
    refine ⟨?_, hwidest⟩
    rw [Int.natCast_add, hsize] at hsums
    rw [List.map_cons, List.map_cons, List.scanl_cons, ← hsums]
    show (nextMultiple off 1 : Int) :: (((Extent.offsets _ (nextMultiple off 1 + _)).map (↑)) ++
      [(Extent.stop _ (nextMultiple off 1 + _) : Int)]) = _
    rw [hnext]

/-- A struct is laid out as closely as the alignments of its fields allow, and one that is packed
without gaps. It has no layout exactly if there is a field that cannot be placed, and the first one of
these is reported. -/
theorem compute_tight (u : Universe) (fields : List Field) :
    (∀ packed, (∀ e, fields.findSome? (·.fault? u packed) = some e →
        Layout.compute u fields packed = .error e) ∧
      (fields.findSome? (·.fault? u packed) = none → ∃ l, Layout.compute u fields packed = .ok l)) ∧
    ((∀ f ∈ fields, f.type.Placeable u) → measureSum u fields < 2 ^ 62 →
      (∃ l, Layout.compute u fields false = .ok l ∧ l.Tight u fields) ∧
      ∃ l, Layout.compute u fields true = .ok l ∧ l.Packed u fields) := by
  refine ⟨fun packed => ⟨(compute_fault? u fields packed).1, fun hnone => ?_⟩, fun hfields hsum => ⟨?_, ?_⟩⟩
  · obtain ⟨l, hl, -⟩ := (compute_fault? u fields packed).2 hnone
    exact ⟨l, hl⟩
  · obtain ⟨l, hl, hoffsets, hsize, halign⟩ := compute_exact false hfields hsum
    obtain ⟨hsnug, hfold⟩ := snug_offsets hfields 0 1
    refine ⟨l, hl, halign.trans hfold, _, hoffsets.symm ▸ hsnug, ?_⟩
    rw [hsize, halign]
    exact isLeast_nextMultiple _ (Extent.le_widest _ 1)
  · obtain ⟨l, hl, hoffsets, hsize, halign⟩ := compute_exact true hfields hsum
    obtain ⟨hsums, hone⟩ := scanl_sizes hfields 0
    refine ⟨l, hl, by rw [halign, hone]; rfl, ?_⟩
    rw [hoffsets, hsize]
    exact hsums

theorem compute_tight_gap :
    (⟨[0, 8], 16, 8⟩ : Layout).Tight (.make 64 true) [⟨"a", .byte, false⟩, ⟨"b", .long, true⟩] ∧
      (⟨[0, 1], 9, 1⟩ : Layout).Packed (.make 64 true) [⟨"a", .byte, false⟩, ⟨"b", .long, true⟩] := by
  obtain ⟨⟨l, hl, htight⟩, l', hl', hpacked⟩ :=
    (compute_tight (.make 64 true) [⟨"a", .byte, false⟩, ⟨"b", .long, true⟩]).2
      (List.forall_mem_cons.mpr ⟨⟨by decide, by decide, by decide⟩,
        List.forall_mem_cons.mpr ⟨⟨by decide, by decide, by decide⟩, by simp⟩⟩) (by decide)
  cases hl
  cases hl'
  exact ⟨htight, hpacked⟩

end

end TreeAsm
