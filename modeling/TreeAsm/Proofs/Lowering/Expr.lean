import TreeAsm.Proofs.Lowering.Forms

/-!
# Lowered expressions are arranged

Each kind of expression leaves the code arranged and gives a value that the open block can read. The
one step that takes an instruction back is the address of a variable: the reading of the variable that
has just been added goes, and nothing has read its temporary (`takeAddress_load`).
-/

namespace TreeAsm.Lowering

open Ir
open Program (Expr TypeRef)
open Builds (fail lift within)
open Lower (bind_eq bind_ok)

variable {α : Type} {env : Env} {s s' : State}

/-! ## Names -/

theorem lookup_builds (name : String) :
    Builds env s (lookup name) fun v s' => s = s' ∧ v = lookupIn s.scopes name ∧
      ∀ w, v = some w → w.type.Proper ∧ s.Knows (.var w) := by
  intro hsound hs v s' h
  obtain ⟨rfl, rfl⟩ := lookup_ok h
  refine ⟨hs, Adds.refl s, rfl, rfl, fun w hw => ?_⟩
  obtain ⟨scope, hscope, hmem⟩ := mem_of_lookupIn hw
  exact ⟨hs.scopes scope hscope _ hmem, hsound.scopes scope hscope _ hmem⟩

theorem lookupGlobal_builds (name : String) :
    Builds env s (lookupGlobal env name) fun g s' => s = s' ∧ g = globalIn s.module env.ns name ∧
      ∀ g', g = some g' → g'.type.Proper ∧ g' ∈ s.module.globals := by
  intro _ hs g s' h
  obtain ⟨rfl, rfl⟩ := lookupGlobal_ok h
  refine ⟨hs, Adds.refl s, rfl, rfl, fun g' hg => ?_⟩
  have hmem := global_mem_of_globalIn hg
  exact ⟨hs.typed.globals g' hmem, hmem⟩

/-- A function of the module: what it returns and takes has a type. -/
def SignatureProper (f : Func) : Prop := f.ret.Proper ∧ ∀ v ∈ f.locals, v.type.Proper

theorem SignatureProper.params {f : Func} (h : SignatureProper f) : ∀ p ∈ f.params, p.type.Proper :=
  fun p hp => h.2 p (List.mem_filter.mp hp).1

theorem lookupFunc_builds (name : String) : Builds env s (lookupFunc env name) fun f s' =>
      s = s' ∧ ∀ f', f = some f' → SignatureProper f' ∧ s.module.Names f'.name := by
  intro _ hs f s' h
  obtain ⟨rfl, rfl⟩ := lookupFunc_ok h
  refine ⟨hs, Adds.refl s, rfl, fun f' hf => ?_⟩
  have hmem := func_mem_of_funcIn hf
  exact ⟨hs.typed.funcs f' hmem, .inl (List.mem_map_of_mem hmem)⟩

theorem names_of_global {m : Module} {g : Global} (h : g ∈ m.globals) : m.Names g.name :=
  Or.inr (List.mem_map_of_mem h)

theorem readName_builds (name : String) : Builds env s (readName env name) fun x s' => s'.Ready x := by
  refine Builds.bind (lookup_builds name) ?_
  rintro v _ - ⟨rfl, -, hv⟩
  cases v with
  | some v => exact load_var_builds (hv v rfl).1 (hv v rfl).2
  | none =>
    refine Builds.bind (lookupGlobal_builds name) ?_
    rintro g _ - ⟨rfl, -, hg⟩
    cases g with
    | some g =>
      obtain ⟨ht, hmem⟩ := hg g rfl
      refine Builds.bind (symbolAddress_builds (t := .ptr g.type) ht (names_of_global hmem))
        fun a s1 _ ha => ?_
      exact loadAt_builds ha.toReady (State.ready_int trivial) ht
    | none =>
      refine Builds.bind (lookupFunc_builds name) ?_
      rintro f _ - ⟨rfl, hf⟩
      cases f with
      | some f =>
        exact (symbolAddress_builds (t := .ptr .void) trivial (hf f rfl).2).mono fun _ _ h => h.toReady
      | none => exact fail

theorem emitMoveVar_builds {v : Local} {x : Operand} (hv : v.type.Proper) (hk : s.Knows (.var v))
    (hx : s.Ready x) : Builds env s (emit .move none [.var v, x]) fun _ _ => True := by
  refine (emit_builds rfl (.moveVar hv hx.fit) (fun y hy => ?_) nofun (fun y hy => ?_) nofun
    nofun).mono fun _ _ _ => trivial
  · obtain rfl : y = x := by simpa using hy
    exact hx.has
  · rcases List.mem_cons.mp hy with rfl | hy
    · exact hk
    · rw [List.mem_singleton.mp hy]
      exact hx.known

variable {base value : Operand} {p : Place} {x : Lower (Option Operand)} {u : Universe}
  {params : List Local} {args : List Operand}

/-- A store of a value that suits what it is stored to. -/
theorem emitStore_builds {offset : Operand} {t : Ty} (hbase : s.Ready base)
    (hoffset : s.Ready offset) (hvalue : s.Ready value)
    (htarget : Target env.types s.module base offset t) (hsuits : Suits env.types value t) :
    Builds env s (emit .store none [base, offset, value]) fun _ _ => True := by
  have husable : ∀ y ∈ [base, offset, value], s.Usable y := by
    intro y hy
    rcases List.mem_cons.mp hy with rfl | hy
    · exact hbase.usable
    · exact usable_pair hoffset.usable hvalue.usable y hy
  exact (emit_builds rfl (.store hbase.fit hoffset.fit hvalue.fit) (fun y hy => (husable y hy).1) nofun
    (fun y hy => (husable y hy).2) nofun fun _ => ⟨_, _, _, t, rfl, htarget, hsuits⟩).mono
    fun _ _ _ => trivial

theorem assignName_builds (name : String) (hvalue : s.Ready value) :
    Builds env s (assignName env name value) fun x s' => s'.Ready x := by
  refine Builds.bind (lookup_builds name) ?_
  rintro v _ - ⟨rfl, -, hv⟩
  cases v with
  | some v =>
    obtain ⟨ht, hk⟩ := hv v rfl
    have hcoerced := hvalue.coerce (u := env.types) ht
    refine Builds.bind (emitMoveVar_builds ht hk hcoerced) fun _ s1 hadds _ => ?_
    exact Builds.pure (hcoerced.mono hadds)
  | none =>
    refine Builds.bind (lookupGlobal_builds name) ?_
    rintro g _ - ⟨rfl, -, hg⟩
    cases g with
    | some g =>
      obtain ⟨ht, hmem⟩ := hg g rfl
      refine Builds.bind (convert_builds hvalue ht) fun v s1 hadds1 ⟨hv, hsuits⟩ => ?_
      have hmem1 : g ∈ s1.module.globals := by rwa [hadds1.module.globals]
      refine Builds.bind (symbolAddress_builds (t := .ptr g.type) ht (names_of_global hmem1))
        fun a s2 hadds2 ha => ?_
      have hv := hv.mono hadds2
      have htarget : Target env.types s2.module a (.int 0 .u64) g.type :=
        (Target.global hmem1 ha.type).mono hadds2.module.structs hadds2.module.globals
      refine Builds.bind (emitStore_builds ha.toReady (State.ready_int trivial) hv htarget hsuits)
        fun _ s3 hadds _ => Builds.pure (hv.mono hadds)
    | none => exact fail

/-! ## Addresses of names -/

/-- Reading a variable and then taking its address is taking its address: the temporary it was read
into is given up. -/
theorem takeAddress_load (s : State) (w : Local) : (load (.var w) >>= takeAddress) s = (do
        let a ← newTemp (.ptr w.type)
        emit .addrOf (some a) [.var w]
        return some (.temp a) : Lower (Option Operand))
        { s with temps := s.temps ++ [⟨s.temps.length, w.type⟩] } := by
  have hlast : movedVariable (s.block.code ++ [⟨.move, none, [.temp ⟨s.temps.length, w.type⟩, .var w]⟩])
      (.temp ⟨s.temps.length, w.type⟩) = some w := by
    unfold movedVariable
    simp
  have hmodify : ∀ (f : State → State) (t : State), (modify f : Lower PUnit) t = .ok (⟨⟩, f t) :=
    fun _ _ => rfl
  show takeAddress (.temp ⟨s.temps.length, w.type⟩) { s with
    temps := s.temps ++ [⟨s.temps.length, w.type⟩]
    block := { s.block with code := s.block.code ++
      [⟨.move, none, [.temp ⟨s.temps.length, w.type⟩, .var w]⟩] } } = _
  unfold takeAddress
  simp only [bind, StateT.bind, get, getThe, MonadStateOf.get, StateT.get, pure, Except.pure,
    Except.bind, hlast, hmodify, List.dropLast_concat]

/-- The address of a symbol is no reading of a variable. -/
theorem takeAddress_symbolAddress (s : State) (name : String) (t : Ty) :
    (symbolAddress name t >>= takeAddress) s = (do
        let _ ← symbolAddress name t
        return none : Lower (Option Operand)) s := by
  have hlast : movedVariable (s.block.code ++
      [⟨.addrOf, some ⟨s.temps.length, t⟩, [.symbol name]⟩]) (.temp ⟨s.temps.length, t⟩) = none := by
    unfold movedVariable
    simp
  show takeAddress (.temp ⟨s.temps.length, t⟩) { s with
    temps := s.temps ++ [⟨s.temps.length, t⟩]
    block := { s.block with code := s.block.code ++
      [⟨.addrOf, some ⟨s.temps.length, t⟩, [.symbol name]⟩] } } = _
  unfold takeAddress
  simp only [bind, StateT.bind, get, getThe, MonadStateOf.get, StateT.get, pure, Except.pure,
    Except.bind, hlast]
  rfl

theorem takenAddress_builds {w : Local} (hw : w.type.Proper) (hk : s.Knows (.var w)) :
    Builds env s (load (.var w) >>= takeAddress) fun a s' => ∀ x, a = some x → s'.Ready x := by
  intro hsound hs a s' h
  rw [takeAddress_load] at h
  have hspare : Adds env s { s with temps := s.temps ++ [⟨s.temps.length, w.type⟩] } :=
    Adds.spareTemp _
  have hbuilds : Builds env { s with temps := s.temps ++ [⟨s.temps.length, w.type⟩] } (do
        let a ← newTemp (.ptr w.type)
        emit .addrOf (some a) [.var w]
        return some (.temp a) : Lower (Option Operand)) fun a s' => ∀ x, a = some x → s'.Ready x := by
    refine Builds.bind (newTemp_builds (.ptr w.type)) fun r s1 hadds hr => ?_
    have ht : (Ty.ptr w.type).Proper := hw
    refine Builds.bind (emitResult_builds ht hr (.addrVar (hr.type ▸ ht)) fun y hy => ?_)
      fun _ s2 _ hheld => Builds.pure fun x hx => ?_
    · rw [List.mem_singleton.mp hy]
      exact State.usable_of_not_temp (by simp) (State.Knows.mono hk (hspare.trans hadds).toLe)
    · cases hx
      exact hheld.toReady
  obtain ⟨hs', hadds, hQ⟩ := hbuilds (hspare.sound hsound) (hs.spareTemp _) a s' h
  exact ⟨hs', hspare.trans hadds, hQ⟩

theorem addressOfName_builds (name : String) :
    Builds env s (addressOfName env name) fun x s' => s'.Ready x := by
  refine Builds.bind (lookup_builds name) ?_
  rintro v _ - ⟨rfl, hlookup, hv⟩
  cases v with
  | some v =>
    -- the variable is read, which is then turned into taking its address
    have hread : readName env name s = load (.var v) s := by
      show (lookup name >>= _) s = _
      rw [bind_eq (show lookup name s = .ok (some v, s) by rw [lookup, ← hlookup])]
    intro hsound hs x s' h
    obtain ⟨_, s0, h0, hrest⟩ := bind_ok h
    obtain ⟨rfl, rfl⟩ := Lower.pure_ok h0
    obtain ⟨y, s1, h1, hrest⟩ := bind_ok hrest
    obtain ⟨a, s2, h2, hlast⟩ := bind_ok hrest
    have hboth : (load (.var v) >>= takeAddress) s0 = .ok (a, s2) := by
      rw [bind_eq (hread ▸ h1)]
      exact h2
    obtain ⟨ht, hk⟩ := hv v rfl
    have hbuilt : s2.Orderly ∧ Adds env s0 s2 ∧ ∀ x, a = some x → s2.Ready x :=
      takenAddress_builds ht hk hsound hs a s2 hboth
    cases a with
    | none => exact absurd hlast Lower.fail_ok
    | some a =>
      obtain ⟨rfl, rfl⟩ := Lower.pure_ok hlast
      exact ⟨hbuilt.1, hbuilt.2.1, hbuilt.2.2 _ rfl⟩
  | none =>
    refine Builds.bind (lookupGlobal_builds name) ?_
    rintro g _ - ⟨rfl, hglobal, hg⟩
    cases g with
    | some g =>
      exact (symbolAddress_builds (t := .ptr g.type) (hg g rfl).1 (names_of_global (hg g rfl).2)).mono
        fun _ _ h => h.toReady
    | none =>
      -- what is read is the address of a function, and no variable is moved
      intro _ hs x s' h
      obtain ⟨y, s1, h1, h⟩ := bind_ok h
      obtain ⟨a, s2, h2, h⟩ := bind_ok h
      have hnone : a = none := by
        unfold readName at h1
        rw [bind_eq (show lookup name s = .ok (none, s) by rw [lookup, ← hlookup])] at h1
        simp only at h1
        rw [bind_eq (show lookupGlobal env name s = .ok (none, s) by
          rw [lookupGlobal, ← hglobal])] at h1
        simp only at h1
        obtain ⟨f, s3, h3, h1⟩ := bind_ok h1
        obtain ⟨-, rfl⟩ := lookupFunc_ok h3
        cases f with
        | none => exact absurd h1 Lower.fail_ok
        | some f =>
          have hboth : (symbolAddress f.name (.ptr .void) >>= takeAddress) s = .ok (a, s2) := by
            rw [bind_eq h1]
            exact h2
          rw [takeAddress_symbolAddress] at hboth
          obtain ⟨_, s4, -, h4⟩ := bind_ok hboth
          exact (Lower.pure_ok h4).1
      rw [hnone] at h
      exact absurd h Lower.fail_ok

/-! ## Places -/

/-- A place that the open block can read and write. -/
structure State.ReadyPlace (env : Env) (s : State) (p : Place) : Prop where
  base : s.Ready p.base
  offset : s.Ready p.offset
  type : p.type.Proper
  target : Target env.types s.module p.base p.offset p.type

theorem State.ReadyPlace.mono (h : s.ReadyPlace env p) (hadds : Adds env s s') : s'.ReadyPlace env p :=
  ⟨h.base.mono hadds, h.offset.mono hadds, h.type, h.target.mono hadds.module.structs hadds.module.globals⟩

theorem fieldOffset_proper {m : Module} (hm : Typed m) {t : String} {c : Struct} {name : String}
    {r : Int64 × Ty} (hc : m.struct? t = some c) (h : c.fieldOffset name = .ok r) : r.2.Proper := by
  unfold Struct.fieldOffset at h
  split at h
  · exact absurd h (by simp [Outcome.fail])
  next i f hfield =>
    have hmem : f ∈ c.fields := by
      unfold Struct.field? at hfield
      split at hfield
      next k hk =>
        obtain ⟨f', hf', heq⟩ := Option.map_eq_some_iff.mp hfield
        obtain ⟨-, rfl⟩ := Prod.mk.inj heq
        exact List.mem_of_getElem? hf'
      next => exact absurd hfield (by simp)
    obtain ⟨l, -, h⟩ := Outcome.bind_ok h
    split at h
    · cases h
      exact hm.structs c (Table.find?_some hc).1 f hmem
    · exact absurd h (by simp [Outcome.crash])

theorem fieldPlace_builds (name : String) (indirect : Bool) (hbase : s.Ready base) :
    Builds env s (fieldPlace env base name indirect) fun p s' => s'.ReadyPlace env p := by
  refine Builds.of_orderly fun _ hs => ?_
  unfold fieldPlace
  simp only
  split
  · exact fail
  · refine Builds.bind (Builds.get (Q := fun t s' => s = t ∧ s = s') ⟨rfl, rfl⟩) ?_
    rintro _ _ - ⟨rfl, rfl⟩
    cases hstruct : s.module.struct? base.type.elem.name with
    | none => exact fail
    | some c =>
      refine Builds.bind (lift (Q := fun r s' => s = s' ∧ c.fieldOffset name = .ok r)
        fun r hr => ⟨rfl, hr⟩) ?_
      rintro r _ - ⟨rfl, hr⟩
      exact Builds.pure ⟨hbase, State.ready_int trivial, fieldOffset_proper hs.typed hstruct hr,
        .field hstruct hr⟩

theorem elementPlace_builds {index : Operand} (hbase : s.Ready base) (hindex : s.Ready index)
    (hptr : base.type.isPtr) :
    Builds env s (elementPlace env base index) fun p s' => s'.ReadyPlace env p := by
  have helem : base.type.elem.Proper := hbase.fit.type.elem hptr
  -- only the offset of an index that is a number is one
  have hvariable : ∀ {x : Operand}, isLiteral x = false →
      ∀ n t, x = .int n t → ∃ k, n = k * env.types.size base.type.elem := by
    rintro x hlit n t rfl
    cases hlit
  have hscaled : isLiteral index = false → Builds env s (if env.types.size base.type.elem == 1 then
      return ⟨base, index, base.type.elem⟩
      else do
        let offset ← emitBinary env .mul index (.int (env.types.size base.type.elem) .untyped)
        return ⟨base, offset, base.type.elem⟩ : Lower Place) fun p s' => s'.ReadyPlace env p := by
    intro hlit
    split
    · exact Builds.pure ⟨hbase, hindex, helem, .element hptr (hvariable hlit)⟩
    · refine Builds.bind (scaled_builds _ hindex hlit) fun x s1 hadds ⟨hx, hlit⟩ => ?_
      exact Builds.pure ⟨hbase.mono hadds, hx, helem, .element hptr (hvariable hlit)⟩
  cases index with
  | int value type =>
    refine Builds.pure ⟨hbase, State.ready_int trivial, helem, .element hptr fun n t h => ?_⟩
    cases h
    exact ⟨value, rfl⟩
  | temp _ | var _ | outer _ _ | str _ | symbol _ | label _ => exact hscaled rfl

theorem placeAddress_builds (hp : s.ReadyPlace env p) :
    Builds env s (placeAddress env p) fun x s' => s'.Ready x := by
  have ht : (Ty.ptr p.type).Proper := hp.type
  refine Builds.bind (newTemp_builds (.ptr p.type)) fun r s1 hadds hr => ?_
  have hbase := hp.base.mono hadds
  have hoffset := (hp.offset.mono hadds).coerce (u := env.types) (t := .u64) trivial
  have hfinish : ∀ (_ : Unit) t, Adds env s1 t → t.Held (.ptr p.type) (.temp r) →
      Builds env t (pure (.temp r)) fun x s' => s'.Ready x :=
    fun _ _ _ hheld => Builds.pure hheld.toReady
  split
  · exact Builds.bind (emitMove_builds ht hr (.moveTemp (hr.type ▸ ht) hbase.fit) hbase.usable) hfinish
  · exact Builds.bind (emitResult_builds ht hr (.binary rfl (hr.type ▸ ht) hbase.fit (.inl hoffset.fit))
      (usable_pair hbase.usable hoffset.usable)) hfinish

theorem storeAt_builds (hp : s.ReadyPlace env p) (hvalue : s.Ready value) :
    Builds env s (storeAt env p value) fun x s' => s'.Ready x := by
  refine Builds.bind (convert_builds hvalue hp.type) fun v s1 hadds ⟨hv, hsuits⟩ => ?_
  have hp := hp.mono hadds
  refine Builds.bind (emitStore_builds hp.base hp.offset hv hp.target hsuits) fun _ s2 hadds _ => ?_
  exact Builds.pure (hv.mono hadds)

/-! ## Calls -/

theorem coerceArgs_ready (hparams : ∀ p ∈ params, p.type.Proper) (hargs : ∀ x ∈ args, s.Ready x) :
    ∀ x ∈ coerceArgs u params args, s.Ready x := by
  induction params generalizing args with
  | nil =>
    cases args <;> exact hargs
  | cons p params ih =>
    cases args with
    | nil => exact hargs
    | cons a args =>
      intro x hx
      rcases List.mem_cons.mp hx with rfl | hx
      · exact (hargs a (List.mem_cons_self ..)).coerce (hparams p (List.mem_cons_self ..))
      · exact ih (fun q hq => hparams q (List.mem_cons_of_mem _ hq))
          (fun y hy => hargs y (List.mem_cons_of_mem _ hy)) x hx

theorem emitCall_builds {callee : String} {ret : Ty} (hcallee : s.module.Names callee)
    (hret : ret.Proper) (hparams : ∀ p ∈ params, p.type.Proper) (hargs : ∀ x ∈ args, s.Ready x) :
    Builds env s (emitCall env callee ret params args) fun r s' => ∀ x, r = some x → s'.Ready x := by
  have hcoerced := coerceArgs_ready (u := env.types) hparams hargs
  have husable : ∀ x ∈ Operand.symbol callee :: coerceArgs env.types params args, s.Usable x := by
    intro x hx
    rcases List.mem_cons.mp hx with rfl | hx
    · exact State.usable_of_not_temp (by simp) hcallee
    · exact (hcoerced x hx).usable
  unfold emitCall
  split
  · exact fail
  · split
    · refine Builds.bind (emit_builds rfl (.call (by simp) fun x hx => (hcoerced x hx).fit)
        (fun x hx => (husable x hx).1) nofun (fun x hx => (husable x hx).2) nofun nofun)
        fun _ s1 _ _ => Builds.pure nofun
    · refine Builds.bind (newTemp_builds ret) fun r s1 hadds hr => ?_
      refine Builds.bind (emitResult_builds hret hr
        (.call (fun t ht => ?_) fun x hx => (hcoerced x hx).fit) fun x hx => (husable x hx).mono hadds)
        fun _ s2 _ hheld => Builds.pure fun x hx => ?_
      · cases ht
        exact hr.type ▸ hret
      · cases hx
        exact hheld.toReady

theorem declareOutside_builds (name : String) {ret : Ty} (hret : ret.Proper) :
    Builds env s (declareOutside name ret) fun f s' =>
      SignatureProper f ∧ s'.module.Names f.name := by
  intro _ hs f s' h
  unfold declareOutside at h
  split at h
  next hfunc =>
    cases h
    obtain ⟨hmem, -⟩ := Table.find?_some hfunc
    exact ⟨hs, Adds.refl s, hs.typed.funcs f hmem, .inl (List.mem_map_of_mem hmem)⟩
  next hfunc =>
    have hfresh : name ∉ s.module.funcs.map (·.name) := Table.find?_eq_none_iff.mp hfunc
    have hsignature : SignatureProper ⟨name, ret, false, true, [], [], []⟩ := ⟨hret, by simp⟩
    cases h
    exact ⟨⟨⟨hs.typed.structs, hs.typed.globals, hs.typed.inits, hs.typed.strings,
        forall_mem_concat hs.typed.funcs hsignature⟩, hs.locals, hs.scopes, hs.forms, hs.arranged,
        hs.numbered⟩,
      ⟨⟨⟨⟨[], by simp⟩, id, ⟨[_], rfl, by simp⟩, fun hn => nodup_names_append hn hfresh, rfl, rfl⟩,
        List.prefix_rfl, List.prefix_rfl⟩, rfl, rfl, rfl, rfl, rfl, [], by simp, by simp⟩,
      hsignature, .inl (List.mem_map_of_mem (List.mem_append_right _ (List.mem_singleton_self _)))⟩

theorem callee_builds (name : String) :
    Builds env s (callee env name) fun f s' => SignatureProper f ∧ s'.module.Names f.name := by
  refine Builds.bind (lookupFunc_builds name) ?_
  rintro f _ - ⟨rfl, hf⟩
  cases f with
  | some f => exact Builds.pure (hf f rfl)
  | none => exact declareOutside_builds name trivial

theorem intern_builds (value : String) : Builds env s (intern value) fun c s' => s'.Ready (.str c) := by
  intro _ hs c s' h
  have h' : ((s.module.intern value (.ptr .byte)).1,
      { s with module := (s.module.intern value (.ptr .byte)).2 }) = (c, s') := Except.ok.inj h
  cases h'
  have htyped : Typed (s.module.intern value (.ptr .byte)).2 ∧
      (s.module.intern value (.ptr .byte)).1.type.Proper := by
    rcases s.module.intern_cases value (.ptr .byte) with ⟨c, hc, -, heq⟩ | ⟨-, heq⟩ <;> rw [heq]
    · exact ⟨hs.typed, hs.typed.strings c hc⟩
    · exact ⟨⟨hs.typed.structs, hs.typed.globals, hs.typed.inits,
        forall_mem_concat hs.typed.strings trivial, hs.typed.funcs⟩, trivial⟩
  obtain ⟨hgrows, hmem⟩ := Grows.intern s.module value (.ptr .byte)
  exact ⟨⟨htyped.1, hs.locals, hs.scopes, hs.forms, hs.arranged, hs.numbered⟩,
    ⟨⟨hgrows, List.prefix_rfl, List.prefix_rfl⟩, rfl, rfl, rfl, rfl, rfl, [], by simp, by simp⟩,
    htyped.2, nofun, hmem⟩

theorem typeOf_builds (ref : TypeRef) : Builds env s (typeOf env ref) fun t s' => s = s' ∧ t.Proper := by
  intro _ hs t s' h
  obtain ⟨ht, rfl⟩ := typeOf_ok h
  exact ⟨hs, Adds.refl s, rfl, resolveType_proper ht⟩

/-! ## Expressions -/

theorem literal_proper (value : Int64) : (literal value).type.Proper ∧
    ∃ t, literal value = .int value t := by
  unfold literal
  split
  · exact ⟨trivial, _, rfl⟩
  · exact ⟨trivial, _, rfl⟩

theorem State.ready_literal (value : Int64) : s.Ready (literal value) := by
  obtain ⟨ht, t, heq⟩ := literal_proper value
  rw [heq] at ht ⊢
  exact State.ready_int ht

theorem required_builds (hx : Builds env s x fun r s' => ∀ y, r = some y → s'.Ready y) :
    Builds env s (required x) fun y s' => s'.Ready y := by
  refine Builds.bind hx fun r s1 _ hr => ?_
  cases r with
  | some y => exact Builds.pure (hr y rfl)
  | none => exact fail

theorem some_builds {x : Lower Operand} (hx : Builds env s x fun y s' => s'.Ready y) :
    Builds env s (do return some (← x) : Lower (Option Operand))
      fun r s' => ∀ y, r = some y → s'.Ready y := by
  refine Builds.bind hx fun y s1 _ hy => Builds.pure fun z hz => ?_
  cases hz
  exact hy

theorem checkIndexable_ok (h : checkIndexable u base = .ok ()) : base.type.isPtr := by
  unfold checkIndexable at h
  split at h
  · exact absurd h (by simp [Outcome.fail])
  next hindexable =>
    cases hptr : base.type.isPtr with
    | true => rfl
    | false => exact absurd (by simp [hptr]) hindexable

theorem checkIndexable_builds : Builds env s (Lower.lift (checkIndexable env.types base)) fun _ s' =>
      s = s' ∧ base.type.isPtr :=
  lift fun _ h => ⟨rfl, checkIndexable_ok h⟩

/-- The base of a field: a pointer, or the address of a place. -/
theorem base_builds {y : Lower Operand} (indirect : Bool)
    (hx : Builds env s x fun r s' => ∀ v, r = some v → s'.Ready v)
    (hy : Builds env s y fun v s' => s'.Ready v) :
    Builds env s (if indirect then required x else y) fun v s' => s'.Ready v := by
  cases indirect with
  | true => exact required_builds hx
  | false => exact hy

/-- The place of an element: the base, then the index. -/
theorem indexed_builds {y : Lower (Option Operand)}
    (hx : ∀ s, Builds env s x fun r s' => ∀ v, r = some v → s'.Ready v)
    (hy : ∀ s, Builds env s y fun r s' => ∀ v, r = some v → s'.Ready v) {f : Place → Lower α}
    {Q : α → State → Prop} (hf : ∀ s p, s.ReadyPlace env p → Builds env s (f p) Q) :
    Builds env s (do
      let base ← Lower.within "index base" (required x)
      Lower.lift (checkIndexable env.types base)
      let i ← Lower.within "index" (required y)
      let p ← elementPlace env base i
      f p) Q := by
  refine Builds.bind (Builds.within (required_builds (hx s)) _) fun base s1 _ hbase => ?_
  refine Builds.bind checkIndexable_builds ?_
  rintro _ _ - ⟨rfl, hptr⟩
  refine Builds.bind (Builds.within (required_builds (hy s1)) _) fun i s2 hadds hi => ?_
  exact Builds.bind (elementPlace_builds (hbase.mono hadds) hi hptr) fun p s3 _ hp => hf s3 p hp

mutual

/-- Lowering an expression leaves the code arranged and gives a value that can be read, if any. -/
theorem lowerExpr_builds (env : Env) : ∀ (e : Expr) (s : State),
    Builds env s (lowerExpr env e) fun r s' => ∀ x, r = some x → s'.Ready x
  | .int _ value, s => by
    unfold lowerExpr
    refine Builds.pure fun x hx => ?_
    obtain rfl := Option.some.inj hx
    exact State.ready_literal value
  | .str _ value, s => by
    unfold lowerExpr
    refine Builds.bind (intern_builds value) fun c s1 _ hc => Builds.pure fun x hx => ?_
    obtain rfl := Option.some.inj hx
    exact hc
  | .ident _ name, s => by
    unfold lowerExpr
    exact some_builds (readName_builds name)
  | .binary _ op left right, s => by
    unfold lowerExpr
    cases hcode : Opcode.ofOperator? op with
    | none => exact fail
    | some code =>
      refine Builds.bind (within (required_builds (lowerExpr_builds env left s)) _) fun l s1 _ hl => ?_
      refine Builds.bind (within (required_builds (lowerExpr_builds env right s1)) _)
        fun r s2 hadds hr => ?_
      exact some_builds (emitBinary_builds (ofOperator_binary hcode) (hl.mono hadds) hr)
  | .unary _ op e, s => by
    unfold lowerExpr
    split
    · exact some_builds (lowerAddress_builds env e s)
    · split
      · split
        next p value =>
          refine Builds.pure fun x hx => ?_
          obtain rfl := Option.some.inj hx
          exact State.ready_literal (-value)
        next =>
          refine Builds.bind (required_builds (lowerExpr_builds env e s)) fun v s1 _ hv => ?_
          exact some_builds (emitBinary_builds rfl (State.ready_int hv.fit.type) hv)
      · exact fail
  | .call _ name args, s => by
    unfold lowerExpr
    refine Builds.bind (callee_builds name) fun f s1 _ ⟨hf, hname⟩ => ?_
    refine Builds.bind (lowerArgs_builds env args _ 0 s1) fun values s2 hadds hvalues => ?_
    exact emitCall_builds (hadds.module.names hname) hf.1 hf.params hvalues
  | .assign _ target value, s => by
    unfold lowerExpr
    split
    next p name =>
      refine Builds.bind (within (required_builds (lowerExpr_builds env value s)) _) fun v s1 _ hv => ?_
      exact some_builds (assignName_builds name hv)
    next p y name indirect =>
      refine Builds.bind (within (base_builds indirect (lowerExpr_builds env y s)
        (lowerAddress_builds env y s)) _) fun base s1 _ hbase => ?_
      refine Builds.bind (fieldPlace_builds name indirect hbase) fun p s2 _ hp => ?_
      refine Builds.bind (within (required_builds (lowerExpr_builds env value s2)) _)
        fun v s3 hadds hv => ?_
      exact some_builds (storeAt_builds (hp.mono hadds) hv)
    next p y index =>
      refine indexed_builds (lowerExpr_builds env y) (lowerExpr_builds env index) fun t p hp => ?_
      refine Builds.bind (within (required_builds (lowerExpr_builds env value t)) _) fun v t' hadds hv => ?_
      exact some_builds (storeAt_builds (hp.mono hadds) hv)
    next => exact fail
  | .index _ y index, s => by
    unfold lowerExpr
    exact indexed_builds (lowerExpr_builds env y) (lowerExpr_builds env index) fun t p hp =>
      some_builds (loadAt_builds hp.base hp.offset hp.type)
  | .field _ y name indirect, s => by
    unfold lowerExpr
    refine Builds.bind (within (base_builds indirect (lowerExpr_builds env y s)
      (lowerAddress_builds env y s)) _) fun base s1 _ hbase => ?_
    refine Builds.bind (fieldPlace_builds name indirect hbase) fun p s2 _ hp => ?_
    exact some_builds (loadAt_builds hp.base hp.offset hp.type)
  | .cast _ type e, s => by
    unfold lowerExpr
    refine Builds.bind (within (typeOf_builds type) _) ?_
    rintro t _ - ⟨rfl, ht⟩
    refine Builds.bind (within (lift (Q := fun _ s' => s = s') fun _ _ => rfl) _) ?_
    rintro _ _ - rfl
    refine Builds.bind (within (required_builds (lowerExpr_builds env e s)) _) fun v s1 _ hv => ?_
    have hcoerced := hv.coerce (u := env.types) ht
    exact some_builds ((moved_builds ht (fun r hr => .moveTemp (hr ▸ ht) hcoerced.fit)
      hcoerced.usable).mono fun _ _ h => h.toReady)
  | .syscall _ number args, s => by
    unfold lowerExpr
    refine Builds.bind (within (required_builds (lowerExpr_builds env number s)) _) fun n s1 _ hn => ?_
    refine Builds.bind (lowerArgs_builds env args _ 0 s1) fun values s2 hadds hvalues => ?_
    have hlong : ∀ x ∈ n :: values, s2.Ready (coerce env.types x .long) := by
      intro x hx
      rcases List.mem_cons.mp hx with rfl | hx
      · exact (hn.mono hadds).coerce trivial
      · exact (hvalues x hx).coerce trivial
    refine some_builds ((result_builds (t := .long) trivial (fun r hr => ?_) fun x hx => ?_).mono
      fun _ _ h => h.toReady)
    · refine .syscall (hr ▸ trivial) (hlong n (List.mem_cons_self ..)).fit fun x hx => ?_
      obtain ⟨y, hy, rfl⟩ := List.mem_map.mp hx
      exact (hlong y (List.mem_cons_of_mem _ hy)).fit
    · obtain ⟨y, hy, rfl⟩ := List.mem_map.mp hx
      exact (hlong y hy).usable
  | .foreign _ name ret args, s => by
    unfold lowerExpr
    refine Builds.bind (within (typeOf_builds ret) _) ?_
    rintro t _ - ⟨rfl, ht⟩
    refine Builds.bind (declareOutside_builds name ht) fun f s1 _ ⟨hf, hname⟩ => within ?_ _
    refine Builds.bind (lowerArgs_builds env args _ 0 s1) fun values s2 hadds hvalues => ?_
    exact emitCall_builds (hadds.module.names hname) ht hf.params hvalues

theorem lowerAddress_builds (env : Env) : ∀ (e : Expr) (s : State),
    Builds env s (lowerAddress env e) fun x s' => s'.Ready x
  | .ident _ name, s => by
    unfold lowerAddress
    exact addressOfName_builds name
  | .field _ y name indirect, s => by
    unfold lowerAddress
    refine Builds.bind (within (base_builds indirect (lowerExpr_builds env y s)
      (lowerAddress_builds env y s)) _) fun base s1 _ hbase => ?_
    exact Builds.bind (fieldPlace_builds name indirect hbase) fun p s2 _ hp =>
      placeAddress_builds hp
  | .index _ y index, s => by
    unfold lowerAddress
    exact indexed_builds (lowerExpr_builds env y) (lowerExpr_builds env index) fun t p hp =>
      placeAddress_builds hp
  | .int _ _, _ | .str _ _, _ | .binary _ _ _ _, _ | .unary _ _ _, _ | .call _ _ _, _
  | .assign _ _ _, _ | .cast _ _ _, _ | .syscall _ _ _, _ | .foreign _ _ _ _, _ => by
    unfold lowerAddress
    exact fail

theorem lowerArgs_builds (env : Env) : ∀ (args : List Expr) (step : String) (n : Nat) (s : State),
    Builds env s (lowerArgs env step n args) fun values s' => ∀ x ∈ values, s'.Ready x
  | [], _, _, _ => by
    unfold lowerArgs
    exact Builds.pure (by simp)
  | e :: rest, step, n, s => by
    unfold lowerArgs
    refine Builds.bind (within (required_builds (lowerExpr_builds env e s)) _) fun v s1 _ hv => ?_
    refine Builds.bind (lowerArgs_builds env rest step (n + 1) s1) fun vs s2 hadds hvs => ?_
    refine Builds.pure fun x hx => ?_
    rcases List.mem_cons.mp hx with rfl | hx
    · exact hv.mono hadds
    · exact hvs x hx

end

theorem lowerValue_builds (env : Env) (e : Expr) (s : State) :
    Builds env s (lowerValue env e) fun x s' => s'.Ready x :=
  required_builds (lowerExpr_builds env e s)

end TreeAsm.Lowering
