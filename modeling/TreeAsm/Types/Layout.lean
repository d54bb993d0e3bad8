import TreeAsm.Types.Basic

/-!
# Layout of structs

Fields are placed in the order of their declaration, each at the next offset that its alignment
allows. A packed struct has no gaps. Offsets are machine integers, which wrap around.
-/

namespace TreeAsm

/-- A field of a struct. -/
structure Field where
  name : String
  type : Ty
  isPublic : Bool
  deriving DecidableEq, Repr

/-- Where the fields of a struct are, and its size and alignment. -/
structure Layout where
  offsets : List Int64
  size : Int64
  align : Int64
  deriving DecidableEq, Repr

/-- The next multiple of a positive `align` from `off` on. -/
def roundUp (off align : Int64) : Int64 := (off + align - 1) / align * align

/-- The next multiple of `align` from `off` on; an alignment must be positive. -/
def alignUp (off align : Int64) : Outcome Int64 :=
  if align ≤ 0 then .fail (.badAlignment align) else .ok (roundUp off align)

/-- The alignment of a field in a struct. -/
def Field.alignIn (u : Universe) (packed : Bool) (f : Field) : Int64 :=
  if packed then 1 else u.align f.type

namespace Layout

/-- The greater of two alignments. -/
def widest (a b : Int64) : Int64 := if b > a then b else a

/-- Places fields from an offset on: their offsets, the end of the last one and the greatest of
`align` and their alignments. -/
def place (u : Universe) (packed : Bool) :
    List Field → (off align : Int64) → Outcome (List Int64 × Int64 × Int64)
  | [], off, align => .ok ([], off, align)
  | f :: fields, off, align =>
    if f.type = .untyped then .fail (.fieldWithoutType f.name)
    else do
      let a := f.alignIn u packed
      let start ← (alignUp off a).within s!"field {f.name}"
      let (offsets, stop, all) ← place u packed fields (start + u.size f.type) (widest align a)
      return (start :: offsets, stop, all)

/-- The layout of a struct with these fields. -/
def compute (u : Universe) (fields : List Field) (packed : Bool) : Outcome Layout := do
  let (offsets, stop, align) ← place u packed fields 0 1
  if packed then return ⟨offsets, stop, align⟩
  else return ⟨offsets, ← alignUp stop align, align⟩

end Layout

end TreeAsm
