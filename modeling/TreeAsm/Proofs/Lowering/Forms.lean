import TreeAsm.Proofs.Ir.Forms
import TreeAsm.Proofs.Lowering.Steps

/-!
# Temporaries of lowered expressions

While a function is lowered its code is arranged (`State.Orderly`): each temporary is written once,
and what reads it stands after that in the same block. An expression never opens a block, so an
operand that one part of an expression leaves in a temporary is still there for the next part
(`Builds`). What is added is also known to the function and aimed (`Adds`), so that one pass over the
expressions says everything about the code they come to.
-/

namespace TreeAsm.Lowering

open Ir
open Program (Expr TypeRef)

variable {α β : Type} {env : Env} {s s' : State}

/-! ## Types -/

/-- Every type in a module is one that a program can name, and global variables start with numbers
or strings. -/
structure Typed (m : Module) : Prop where
  structs : ∀ s ∈ m.structs, ∀ f ∈ s.fields, f.type.Proper
  globals : ∀ g ∈ m.globals, g.type.Proper
  inits : ∀ g ∈ m.globals, ∀ x, g.init = some x → (∃ value t, x = .int value t) ∨ ∃ c, x = .str c
  strings : ∀ c ∈ m.strings, c.type.Proper
  funcs : ∀ f ∈ m.funcs, f.ret.Proper ∧ ∀ v ∈ f.locals, v.type.Proper

theorem stringType_proper (u : Universe) : u.stringType.Proper := by
  unfold Universe.stringType
  split <;> trivial

variable {t : Ty} {x l : Operand} {op : Opcode} {u : Universe} {name ns : String}
  {args : List Operand} {r : Temp}

theorem named?_proper (h : u.named? name = some t) : t.Proper := by
  unfold Universe.named? at h
  split at h <;> first
    | (obtain rfl := Option.some.inj h; first | exact stringType_proper u | trivial)
    | exact absurd h (by simp)

/-- A name within a namespace is none of the built-in names. -/
theorem qualify_ne {special : String} (hns : ns ≠ "") (h : '_' ∉ special.toList) :
    qualify ns name ≠ special := by
  rintro rfl
  unfold qualify at h
  rw [if_neg (by simpa using hns)] at h
  exact h (by simp [String.toList_append])

theorem structIn_name {m : Module} {s : Struct} (h : structIn m ns name = some s) :
    s.name = name ∨ ns ≠ "" ∧ s.name = qualify ns name := by
  unfold structIn at h
  split at h
  next found hfound =>
    cases h
    split at hfound
    · exact absurd hfound (by simp)
    next hns =>
      refine Or.inr ⟨by simpa using hns, ?_⟩
      exact (Table.find?_some hfound).2
  next =>
    exact .inl (Table.find?_some h).2

theorem resolveType_proper {m : Module} {ref : TypeRef} (h : resolveType u m ns ref = .ok t) :
    t.Proper := by
  unfold resolveType at h
  split at h
  · cases h
    trivial
  · split at h
    · exact absurd h (by simp [Outcome.fail])
    next hempty =>
      split at h
      next t' hnamed =>
        cases h
        exact (named?_proper hnamed).ptrs ref.stars
      next hnamed =>
        split at h
        next s hs =>
          cases h
          refine Ty.Proper.ptrs (t := .record s.name) ?_ ref.stars
          rcases structIn_name hs with hname | ⟨hns, hname⟩
          · -- a built-in name stands for its type and never for a struct
            rw [hname]
            refine ⟨by simpa using hempty, ?_, ?_, ?_⟩ <;>
            · intro hspecial
              rw [hspecial] at hnamed
              exact absurd hnamed (by simp [Universe.named?])
          · rw [hname]
            exact ⟨qualify_ne hns (by decide), qualify_ne hns (by decide),
              qualify_ne hns (by decide), qualify_ne hns (by decide)⟩
        next => exact absurd h (by simp [Outcome.fail])

/-! ## What a step makes sure of -/

/-- A step that succeeds leaves a result and a state with a property. -/
def Ensures (x : Lower α) (s : State) (Q : α → State → Prop) : Prop :=
  ∀ a s', x s = .ok (a, s') → Q a s'

namespace Ensures

variable {Q : α → State → Prop}

theorem pure {a : α} (h : Q a s) : Ensures (pure a) s Q := by
  intro b s' hb
  obtain ⟨rfl, rfl⟩ := Lower.pure_ok hb
  exact h

variable {x : Lower α}

theorem bind {f : α → Lower β} {R : β → State → Prop} (hx : Ensures x s Q)
    (hf : ∀ a s', Q a s' → Ensures (f a) s' R) : Ensures (x >>= f) s R := by
  intro b s'' h
  obtain ⟨a, s', ha, hb⟩ := Lower.bind_ok h
  exact hf a s' (hx a s' ha) b s'' hb

theorem mono {Q' : α → State → Prop} (hx : Ensures x s Q) (hQ : ∀ a s', Q a s' → Q' a s') :
    Ensures x s Q' :=
  fun a s' h => hQ a s' (hx a s' h)

theorem fail {cause : Cause} : Ensures (Lower.fail cause : Lower α) s Q :=
  fun _ _ h => absurd h Lower.fail_ok

theorem within (hx : Ensures x s Q) (step : String) : Ensures (Lower.within step x) s Q :=
  fun a s' h => hx a s' (Lower.within_ok h)

theorem lift {x : Outcome α} (hx : ∀ a, x = .ok a → Q a s) : Ensures (Lower.lift x) s Q := by
  intro a s' h
  obtain ⟨ha, rfl⟩ := Lower.lift_ok h
  exact hx a ha

theorem get {Q : State → State → Prop} (h : Q s s) : Ensures (get : Lower State) s Q := by
  intro t s' ht
  obtain ⟨rfl, rfl⟩ := Lower.get_ok ht
  exact h

theorem modify {f : State → State} {Q : PUnit → State → Prop} (h : Q ⟨⟩ (f s)) :
    Ensures (modify f : Lower PUnit) s Q := by
  intro a s' hm
  obtain rfl := Lower.modify_ok hm
  exact h

end Ensures

/-! ## Arranged states -/

/-- The numbers of the temporaries that the code so far writes. -/
def State.written (s : State) : List Nat :=
  (s.blocks.map (·.code)).flatten.filterMap Instr.target?

/-- Everything has a type that a program can name, the instructions have their forms, and the code is
arranged. -/
structure State.Orderly (s : State) : Prop where
  typed : Typed s.module
  locals : ∀ v ∈ s.locals, v.type.Proper ∧ v.index < s.locals.length
  scopes : ∀ scope ∈ s.scopes, ∀ p ∈ scope, p.2.type.Proper
  forms : ∀ b ∈ s.blocks, ∀ i ∈ b.code, i.Form
  arranged : Arranged (s.blocks.map (·.code))
  numbered : ∀ id ∈ s.written, id < s.temps.length

/-- A temporary that nothing writes so far. -/
def State.Fresh (s : State) (id : Nat) : Prop := id < s.temps.length ∧ id ∉ s.written

/-- If an operand is a temporary, the open block has written it. -/
def State.Has (s : State) (x : Operand) : Prop :=
  ∀ t, x = .temp t → ∃ j ∈ s.block.code, j.writes t.id = true

/-- A value that the open block can read. -/
structure State.Ready (s : State) (x : Operand) : Prop where
  fit : x.Fit
  has : s.Has x
  known : s.Knows x

theorem State.Has.mono (h : s.Has x) (hpre : s.block.code <+: s'.block.code) : s'.Has x := by
  intro t ht
  obtain ⟨j, hj, hw⟩ := h t ht
  exact ⟨j, hpre.subset hj, hw⟩

theorem State.Ready.mono (h : s.Ready x) (hadds : Adds env s s') : s'.Ready x :=
  ⟨h.fit, h.has.mono hadds.pre, State.Knows.mono h.known hadds.toLe⟩

theorem State.Ready.keep (h : s.Ready x) (hle : s.Le s') (hblock : s'.block = s.block) : s'.Ready x :=
  ⟨h.fit, h.has.mono (hblock ▸ List.prefix_rfl), State.Knows.mono h.known hle⟩

theorem State.ready_int {value : Int64} (ht : t.Proper) : s.Ready (.int value t) :=
  ⟨ht, fun _ h => absurd h (by simp), trivial⟩

/-- An operand that an instruction of the open block can use. -/
def State.Usable (s : State) (x : Operand) : Prop := s.Has x ∧ s.Knows x

theorem State.Ready.usable (h : s.Ready x) : s.Usable x := ⟨h.has, h.known⟩

theorem State.Usable.mono (h : s.Usable x) (hadds : Adds env s s') : s'.Usable x :=
  ⟨h.1.mono hadds.pre, State.Knows.mono h.2 hadds.toLe⟩

theorem State.usable_of_not_temp (h : ∀ t, x ≠ .temp t) (hknown : s.Knows x) : s.Usable x :=
  ⟨fun t ht => absurd ht (h t), hknown⟩

theorem usable_pair {y : Operand} (hx : s.Usable x) (hy : s.Usable y) : ∀ z ∈ [x, y], s.Usable z := by
  intro z hz
  rcases List.mem_cons.mp hz with rfl | hz
  · exact hx
  · rwa [List.mem_singleton.mp hz]

/-- An instruction is added to an orderly state. -/
theorem State.Orderly.concat (h : s.Orderly) {i : Instr} (hform : i.Form)
    (hreads : ∀ x ∈ (if i.op = .move then i.args.drop 1 else i.args), s.Has x)
    (hfresh : ∀ id, i.target? = some id → s.Fresh id) :
    State.Orderly { s with block := { s.block with code := s.block.code ++ [i] } } := by
  have hblocks : State.blocks { s with block := { s.block with code := s.block.code ++ [i] } } =
      s.closed ++ [{ s.block with code := s.block.code ++ [i] }] := rfl
  have hcodes : (State.blocks { s with block := { s.block with code := s.block.code ++ [i] } }).map
      (·.code) = s.closed.map (·.code) ++ [s.block.code ++ [i]] := by
    rw [hblocks, List.map_append]
    rfl
  have hold : s.blocks.map (·.code) = s.closed.map (·.code) ++ [s.block.code] := by
    rw [State.blocks, List.map_append]
    rfl
  have hflat : ((State.blocks { s with block := { s.block with code := s.block.code ++ [i] } }).map
      (·.code)).flatten = (s.blocks.map (·.code)).flatten ++ [i] := by
    rw [hcodes, hold]
    simp
  have hwritten : State.written { s with block := { s.block with code := s.block.code ++ [i] } } =
      s.written ++ i.target?.toList := by
    unfold State.written
    rw [hflat, List.filterMap_append]
    cases ht : i.target? <;> simp [ht]
  refine ⟨h.typed, h.locals, h.scopes, ?_, ⟨?_, ?_⟩, ?_⟩
  · intro b hb j hj
    rw [hblocks] at hb
    rcases List.mem_append.mp hb with hb | hb
    · exact h.forms b (List.mem_append_left _ hb) j hj
    · rw [List.mem_singleton.mp hb] at hj
      rcases List.mem_append.mp hj with hj | hj
      · exact h.forms s.block (List.mem_append_right _ (List.mem_singleton_self _)) j hj
      · rw [List.mem_singleton.mp hj]
        exact hform
  · show (State.written _).Nodup
    rw [hwritten, List.nodup_append]
    refine ⟨h.arranged.once, ?_, ?_⟩
    · cases i.target? <;> simp
    · intro id hid id' hid' heq
      cases ht : i.target? with
      | none =>
        rw [ht] at hid'
        exact absurd hid' (by simp)
      | some k =>
        rw [ht] at hid'
        obtain rfl : id' = k := by simpa using hid'
        exact (hfresh id' ht).2 (heq ▸ hid)
  · intro code hcode
    rw [hcodes] at hcode
    rcases List.mem_append.mp hcode with hcode | hcode
    · exact h.arranged.covered code (by rw [hold]; exact List.mem_append_left _ hcode)
    · rw [List.mem_singleton.mp hcode]
      refine (h.arranged.covered s.block.code (by rw [hold]; simp)).concat ?_
      intro id hid
      obtain ⟨t, rfl, ht⟩ := Instr.mem_of_readsTemp hid
      exact hreads _ ht t rfl
  · intro id hid
    rw [hwritten] at hid
    rcases List.mem_append.mp hid with hid | hid
    · exact h.numbered id hid
    · cases ht : i.target? with
      | none =>
        rw [ht] at hid
        exact absurd hid (by simp)
      | some k =>
        rw [ht] at hid
        obtain rfl : id = k := by simpa using hid
        exact (hfresh id ht).1

/-- A state with one more temporary that nothing writes is as orderly as before. -/
theorem State.Orderly.spareTemp (h : s.Orderly) (t : Temp) :
    State.Orderly { s with temps := s.temps ++ [t] } := by
  refine ⟨h.typed, h.locals, h.scopes, h.forms, h.arranged, fun id hid => ?_⟩
  have hlt := h.numbered id hid
  rw [List.length_append]
  omega

theorem Adds.spareTemp (t : Temp) : Adds env s { s with temps := s.temps ++ [t] } :=
  ⟨⟨Grows.refl _, List.prefix_rfl, List.prefix_append _ _⟩, rfl, rfl, rfl, rfl, rfl, [], by simp,
    by simp⟩

/-! ## Steps within a block -/

/-- From an orderly state a step adds instructions to the open block, keeps the state orderly and
comes to a result with a property. -/
def Builds (env : Env) (s : State) (x : Lower α) (Q : α → State → Prop) : Prop :=
  s.Sound → s.Orderly → Ensures x s fun a s' => s'.Orderly ∧ Adds env s s' ∧ Q a s'

namespace Builds

variable {Q : α → State → Prop}

theorem pure {a : α} (h : Q a s) : Builds env s (pure a) Q :=
  fun _ hs => Ensures.pure ⟨hs, Adds.refl s, h⟩

variable {x : Lower α}

theorem bind {f : α → Lower β} {R : β → State → Prop} (hx : Builds env s x Q)
    (hf : ∀ a s', Adds env s s' → Q a s' → Builds env s' (f a) R) : Builds env s (x >>= f) R := by
  intro hsound hs
  refine Ensures.bind (hx hsound hs) ?_
  rintro a s' ⟨hs', hadds, hQ⟩
  refine (hf a s' hadds hQ (hadds.sound hsound) hs').mono ?_
  rintro b s'' ⟨hs'', hadds', hR⟩
  exact ⟨hs'', hadds.trans hadds', hR⟩

theorem mono {Q' : α → State → Prop} (hx : Builds env s x Q) (hQ : ∀ a s', Q a s' → Q' a s') :
    Builds env s x Q' := by
  intro hsound hs
  refine (hx hsound hs).mono ?_
  rintro a s' ⟨hs', hadds, h⟩
  exact ⟨hs', hadds, hQ a s' h⟩

theorem fail {cause : Cause} : Builds env s (Lower.fail cause : Lower α) Q :=
  fun _ _ => Ensures.fail

theorem within (hx : Builds env s x Q) (step : String) : Builds env s (Lower.within step x) Q :=
  fun hsound hs => (hx hsound hs).within step

theorem lift {x : Outcome α} (hx : ∀ a, x = .ok a → Q a s) : Builds env s (Lower.lift x) Q :=
  fun _ hs => Ensures.lift fun a ha => ⟨hs, Adds.refl s, hx a ha⟩

theorem get {Q : State → State → Prop} (h : Q s s) : Builds env s (get : Lower State) Q :=
  fun _ hs => Ensures.get ⟨hs, Adds.refl s, h⟩

/-- A step may use that the state is in order. -/
theorem of_orderly (h : s.Sound → s.Orderly → Builds env s x Q) : Builds env s x Q :=
  fun hsound hs => h hsound hs hsound hs

end Builds

/-- A temporary of a type that nothing writes so far. -/
structure State.Spare (s : State) (t : Ty) (r : Temp) : Prop where
  type : r.type = t
  fresh : s.Fresh r.id
  known : s.Knows (.temp r)

/-- A value of a type that is in a temporary. -/
structure State.Held (s : State) (t : Ty) (x : Operand) : Prop extends s.Ready x where
  type : x.type = t
  notLiteral : isLiteral x = false

theorem newTemp_builds (t : Ty) : Builds env s (newTemp t) fun r s' => s'.Spare t r := by
  intro _ hs a s' h
  have h' : ((⟨s.temps.length, t⟩ : Temp), { s with temps := s.temps ++ [⟨s.temps.length, t⟩] })
      = (a, s') := Except.ok.inj h
  cases h'
  refine ⟨hs.spareTemp _, Adds.spareTemp _, rfl, ⟨?_, fun hmem => ?_⟩, ?_⟩
  · show s.temps.length < (s.temps ++ _).length
    rw [List.length_append, List.length_singleton]
    omega
  · have hlt := hs.numbered _ hmem
    exact Nat.lt_irrefl _ hlt
  · show (s.temps ++ [_])[s.temps.length]? = some _
    simp

theorem emit_builds {r : Option Temp} (hop : op.isTerminator = false) (hform : Instr.Form ⟨op, r, args⟩)
    (hreads : ∀ x ∈ (if op = .move then args.drop 1 else args), s.Has x)
    (hfresh : ∀ id, Instr.target? ⟨op, r, args⟩ = some id → s.Fresh id)
    (hargs : ∀ x ∈ args, s.Knows x) (hresult : ∀ t, r = some t → s.Knows (.temp t))
    (haimed : Aimed env.types s.module ⟨op, r, args⟩) :
    Builds env s (emit op r args) fun _ s' =>
      s.Le s' ∧ (⟨op, r, args⟩ : Instr) ∈ s'.block.code := by
  intro _ hs a s' h
  have h' : ((), { s with block := { s.block with code := s.block.code ++ [⟨op, r, args⟩] } })
      = (a, s') := Except.ok.inj h
  obtain ⟨-, rfl⟩ := Prod.mk.inj h'
  have hle : s.Le { s with block := { s.block with code := s.block.code ++ [⟨op, r, args⟩] } } :=
    ⟨Grows.refl _, List.prefix_rfl, List.prefix_rfl⟩
  refine ⟨hs.concat hform hreads hfresh, ⟨hle, rfl, rfl, rfl, rfl, rfl, [_], rfl, fun i hi => ?_⟩, hle,
    by simp⟩
  rw [List.mem_singleton.mp hi]
  exact ⟨hop, ⟨hform.valid.1, hform.valid.2, hargs, hresult⟩, haimed⟩

/-- A temporary that an instruction of the open block writes is ready. -/
theorem State.held_temp (ht : t.Proper) (htype : r.type = t) {i : Instr} (hi : i ∈ s.block.code)
    (htarget : i.target? = some r.id) (hknown : s.Knows (.temp r)) : s.Held t (.temp r) := by
  subst htype
  refine ⟨⟨ht, fun t h => ⟨i, hi, ?_⟩, hknown⟩, rfl, rfl⟩
  obtain rfl : r = t := by simpa using h
  simp [Instr.writes, htarget]

/-- An instruction whose result goes to a spare temporary. -/
theorem emitResult_builds (ht : t.Proper) (hr : s.Spare t r) (hform : Instr.Form ⟨op, some r, args⟩)
    (hargs : ∀ x ∈ args, s.Usable x) :
    Builds env s (emit op (some r) args) fun _ s' => s'.Held t (.temp r) := by
  obtain ⟨hop, hmove, hstore⟩ := hform.of_result
  refine (emit_builds hop hform ?_ ?_ (fun x hx => (hargs x hx).2) ?_ fun h => absurd h hstore).mono
    fun _ s' h => State.held_temp ht hr.type h.2 rfl (State.Knows.mono hr.known h.1)
  · rw [if_neg hmove]
    exact fun x hx => (hargs x hx).1
  · intro id hid
    obtain rfl : r.id = id := by simpa [Instr.target?_result] using hid
    exact hr.fresh
  · rintro _ ⟨⟩
    exact hr.known

/-- A move to a spare temporary. -/
theorem emitMove_builds (ht : t.Proper) (hr : s.Spare t r)
    (hform : Instr.Form ⟨.move, none, [.temp r, x]⟩) (hx : s.Usable x) :
    Builds env s (emit .move none [.temp r, x]) fun _ s' => s'.Held t (.temp r) := by
  refine (emit_builds rfl hform (fun y hy => ?_) (fun id hid => ?_) (fun y hy => ?_) nofun nofun).mono
    fun _ s' h => State.held_temp ht hr.type h.2 rfl (State.Knows.mono hr.known h.1)
  · obtain rfl : y = x := by simpa using hy
    exact hx.1
  · obtain rfl : r.id = id := by simpa [Instr.target?_moveTemp] using hid
    exact hr.fresh
  · rcases List.mem_cons.mp hy with rfl | hy
    · exact hr.known
    · rw [List.mem_singleton.mp hy]
      exact hx.2

/-- An instruction with a result in a new temporary. -/
theorem result_builds (ht : t.Proper) (hform : ∀ r : Temp, r.type = t → Instr.Form ⟨op, some r, args⟩)
    (hargs : ∀ x ∈ args, s.Usable x) :
    Builds env s (do
      let r ← newTemp t
      emit op (some r) args
      return .temp r) fun x s' => s'.Held t x := by
  refine Builds.bind (newTemp_builds t) fun r s1 hadds hr => ?_
  exact Builds.bind (emitResult_builds ht hr (hform r hr.type) fun x hx => (hargs x hx).mono hadds)
    fun _ _ _ h => Builds.pure h

/-- A move to a new temporary. -/
theorem moved_builds (ht : t.Proper)
    (hform : ∀ r : Temp, r.type = t → Instr.Form ⟨.move, none, [.temp r, x]⟩) (hx : s.Usable x) :
    Builds env s (do
      let r ← newTemp t
      emit .move none [.temp r, x]
      return .temp r) fun y s' => s'.Held t y := by
  refine Builds.bind (newTemp_builds t) fun r s1 hadds hr => ?_
  exact Builds.bind (emitMove_builds ht hr (hform r hr.type) (hx.mono hadds)) fun _ _ _ h => Builds.pure h

/-! ## Operands -/

theorem State.Ready.coerce (h : s.Ready x) (ht : t.Proper) : s.Ready (coerce u x t) := by
  unfold Lowering.coerce
  cases x with
  | int value type =>
    show s.Ready (if _ then _ else _)
    split
    · exact State.ready_int ht
    · exact h
  | temp _ | var _ | outer _ _ | str _ | symbol _ | label _ => exact h

theorem equal_refl (u : Universe) (t : Ty) : u.equal t t := by
  unfold Universe.equal
  simp

/-- A literal that is given a type has it, unless no number of the type can be written. -/
theorem suits_coerce (h : isLiteral x ∨ u.equal x.type t) : Suits u (coerce u x t) t := by
  cases x with
  | int value type =>
    show Suits u (if isLiteralType u t = true then .int value t else .int value type) t
    split
    · exact .inl (equal_refl u t)
    next hno => exact .inr ⟨rfl, by simpa using hno⟩
  | temp _ | var _ | outer _ _ | str _ | symbol _ | label _ =>
    exact .inl (h.resolve_left (by simp [isLiteral]))

theorem convert_builds (hx : s.Ready x) (ht : t.Proper) :
    Builds env s (convert env x t) fun y s' => s'.Ready y ∧ Suits env.types y t := by
  unfold convert
  split
  next h => exact Builds.pure ⟨hx.coerce ht, suits_coerce (by simpa using h)⟩
  · refine (moved_builds ht (fun r hr => .moveTemp (hr ▸ ht) hx.fit) hx.usable).mono fun y s' hy => ?_
    exact ⟨hy.toReady, .inl (by rw [hy.type]; exact equal_refl ..)⟩

theorem load_var_builds {v : Local} (hv : v.type.Proper) (hk : s.Knows (.var v)) :
    Builds env s (load (.var v)) fun y s' => s'.Ready y :=
  (moved_builds hv (fun r hr => .loadVar (hr ▸ hv) hv) (State.usable_of_not_temp (by simp) hk)).mono
    fun _ _ h => h.toReady

theorem resultType_proper {r : Operand} (hl : l.type.Proper)
    (hr : r.type.isPtr → r.type.Proper) : (resultType op l r).Proper := by
  unfold resultType
  split
  · trivial
  · split
    next h => exact hr (by simpa using (Bool.and_eq_true_iff.mp h).1)
    next => exact hl

theorem emitBinary_builds {r : Operand} (hop : op.isBinary) (hl : s.Ready l) (hr : s.Ready r) :
    Builds env s (emitBinary env op l r) fun x s' => s'.Ready x := by
  have hbalance : s.Ready (balance env.types l r).1 ∧ s.Ready (balance env.types l r).2 := by
    unfold balance
    split
    · exact ⟨hl.coerce hr.fit.type, hr⟩
    · split
      · exact ⟨hl, hr.coerce hl.fit.type⟩
      · exact ⟨hl, hr⟩
  obtain ⟨hl, hr⟩ := hbalance
  have ht : (resultType op (balance env.types l r).1 (balance env.types l r).2).Proper :=
    resultType_proper hl.fit.type fun _ => hr.fit.type
  exact (result_builds ht (fun t ht' => .binary hop (ht' ▸ ht) hl.fit (.inl hr.fit))
    (usable_pair hl.usable hr.usable)).mono fun _ _ h => h.toReady

/-- The product of an index and the size of an element, where the size has no type of its own. -/
theorem scaled_builds (size : Int64) (hl : s.Ready l) (hlit : isLiteral l = false) :
    Builds env s (emitBinary env .mul l (.int size .untyped)) fun x s' =>
      s'.Ready x ∧ isLiteral x = false := by
  have hbalance : balance env.types l (.int size .untyped) =
      (l, coerce env.types (.int size .untyped) l.type) := by
    unfold balance
    rw [hlit, if_neg (by simp), if_pos (by rfl)]
  unfold emitBinary
  rw [hbalance]
  have hright : (coerce env.types (.int size .untyped) l.type).Fit ∨
      coerce env.types (.int size .untyped) l.type = .int size .untyped := by
    show (if _ then _ else _ : Operand).Fit ∨ (if _ then _ else _ : Operand) = _
    split
    · exact .inl hl.fit.type
    · exact .inr rfl
  have ht : (resultType .mul l (coerce env.types (.int size .untyped) l.type)).Proper := by
    refine resultType_proper hl.fit.type fun hptr => ?_
    rcases hright with hfit | heq
    · exact hfit.type
    · rw [heq] at hptr
      exact absurd hptr (by simp [Operand.type, Ty.isPtr, Ty.elem])
  have hnumber : s.Usable (coerce env.types (.int size .untyped) l.type) := by
    show s.Usable (if _ then _ else _ : Operand)
    split <;> exact State.usable_of_not_temp (by simp) trivial
  exact (result_builds ht (fun t ht' => .binary rfl (ht' ▸ ht) hl.fit
    (hright.imp_right fun heq => ⟨rfl, size, heq⟩)) (usable_pair hl.usable hnumber)).mono
    fun _ _ h => ⟨h.toReady, h.notLiteral⟩

theorem loadAt_builds {base offset : Operand} (hbase : s.Ready base) (hoffset : s.Ready offset)
    (ht : t.Proper) : Builds env s (loadAt base offset t) fun x s' => s'.Ready x :=
  (result_builds ht (fun _ hr => .load (hr ▸ ht) hbase.fit hoffset.fit)
    (usable_pair hbase.usable hoffset.usable)).mono fun _ _ h => h.toReady

theorem symbolAddress_builds (ht : t.Proper) (hname : s.module.Names name) :
    Builds env s (symbolAddress name t) fun x s' => s'.Held t x := by
  refine result_builds ht (fun r hr => .addrSymbol (hr ▸ ht)) fun x hx => ?_
  rw [List.mem_singleton.mp hx]
  exact State.usable_of_not_temp (by simp) hname

theorem ofOperator_binary {op : String} {code : Opcode} (h : Opcode.ofOperator? op = some code) :
    code.isBinary := by
  unfold Opcode.ofOperator? at h
  split at h <;> first
    | (obtain rfl := Option.some.inj h; rfl)
    | exact absurd h (by simp)

end TreeAsm.Lowering
