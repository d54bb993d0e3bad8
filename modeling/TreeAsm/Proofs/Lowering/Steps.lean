import TreeAsm.Lowering.File
import TreeAsm.Proofs.Ir.WellFormed

/-!
# Steps of lowering

How a successful step of lowering decomposes into the steps it is made of, and what the basic steps
do to the state. Everything later says about lowering rests on these: the state only grows. A
temporary, a variable, a string or a function that is there once stays there (`State.Le`), and what
an expression adds to the open block never decides where control goes (`Adds`).

An instruction that is added refers to what there is, and if it is a store, it is aimed at something
that an assignment can write to (`State.Takes`).
-/

namespace TreeAsm.Lowering

open Ir

namespace Lower

variable {α β : Type} {s s' : State}

theorem bind_apply (x : Lower α) (f : α → Lower β) (s : State) :
    (x >>= f) s = (x s >>= fun p => f p.1 p.2) := rfl

variable {x : Lower α} {a b : α} {f : α → Lower β} {step : String}

/-- A successful pair of steps is a successful step after a successful step. -/
theorem bind_ok {b : β} (h : (x >>= f) s = .ok (b, s')) :
    ∃ a t, x s = .ok (a, t) ∧ f a t = .ok (b, s') := by
  rw [bind_apply] at h
  obtain ⟨⟨a, t⟩, hx, hf⟩ := Outcome.bind_ok h
  exact ⟨a, t, hx, hf⟩

/-- A step after a successful one. -/
theorem bind_eq {t : State} (h : x s = .ok (a, t)) : (x >>= f) s = f a t := by
  rw [bind_apply, h]
  rfl

theorem pure_ok (h : (pure a : Lower α) s = .ok (b, s')) : b = a ∧ s' = s := by
  have h' : (a, s) = (b, s') := Except.ok.inj h
  exact ⟨(congrArg Prod.fst h').symm, (congrArg Prod.snd h').symm⟩

theorem modify_ok {f : State → State} {b : PUnit}
    (h : (modify f : Lower PUnit) s = .ok (b, s')) : s' = f s :=
  (congrArg Prod.snd (Except.ok.inj h)).symm

theorem get_ok {t : State} (h : (get : Lower State) s = .ok (t, s')) : s = t ∧ s = s' := by
  have h' : (s, s) = (t, s') := Except.ok.inj h
  exact ⟨congrArg Prod.fst h', congrArg Prod.snd h'⟩

theorem fail_ok {cause : Cause} : (fail cause : Lower α) s ≠ .ok (b, s') := by
  intro h
  exact absurd h (by simp [fail, Outcome.fail])

theorem within_ok (h : within step x s = .ok (b, s')) : x s = .ok (b, s') :=
  Outcome.within_eq_ok h

theorem within_eq {r : α × State} (h : x s = .ok r) : within step x s = .ok r := by
  rw [within, h]
  rfl

theorem lift_ok {x : Outcome α} (h : lift x s = .ok (a, s')) : x = .ok a ∧ s = s' := by
  cases x with
  | error e => exact absurd h (by simp [lift])
  | ok b =>
    have h' : (b, s) = (a, s') := Except.ok.inj h
    cases h'
    exact ⟨rfl, rfl⟩

end Lower

/-- The blocks of a function whose lowering stops here. -/
def State.blocks (s : State) : List Block := s.closed ++ [s.block]

/-- The labels of the blocks so far. -/
def State.labels (s : State) : List String := s.blocks.map (·.label)

/-! ## What only grows -/

variable {name : String} {m m' : Module} {s s' : State} {α : Type} {i : Instr} {u : Universe}

/-- A list of things with different names stays one when something with a new name is added. -/
theorem nodup_names_append {xs : List α} {name : α → String} {x : α} (hxs : (xs.map name).Nodup)
    (hx : name x ∉ xs.map name) : ((xs ++ [x]).map name).Nodup := by
  rw [List.map_append, List.nodup_append]
  refine ⟨hxs, by simp, ?_⟩
  intro a ha b hb
  rw [List.map_singleton, List.mem_singleton] at hb
  rintro rfl
  exact hx (hb ▸ ha)

theorem forall_mem_concat {xs : List α} {x : α} {P : α → Prop} (hxs : ∀ a ∈ xs, P a) (hx : P x) :
    ∀ a ∈ xs ++ [x], P a :=
  List.forall_mem_append.mpr ⟨hxs, List.forall_mem_singleton.mpr hx⟩

/-- The labels of the string constants of a module are numbered in order. -/
def Numbered (m : Module) : Prop :=
  ∀ (i : Nat) (c : StringConst), m.strings[i]? = some c → c.label = s!"str{i}"

/-- A module with more strings and more functions, the new functions being external ones under new
names. -/
structure Grows (m m' : Module) : Prop where
  strings : ∃ new, m'.strings = m.strings ++ new
  numbered : Numbered m → Numbered m'
  funcs : ∃ new, m'.funcs = m.funcs ++ new ∧ ∀ f ∈ new, f.external = true ∧ f.blocks = []
  nodup : (m.funcs.map (·.name)).Nodup → (m'.funcs.map (·.name)).Nodup
  globals : m'.globals = m.globals
  structs : m'.structs = m.structs

theorem Grows.refl (m : Module) : Grows m m :=
  ⟨⟨[], by simp⟩, id, ⟨[], by simp⟩, id, rfl, rfl⟩

theorem Grows.trans {m'' : Module} (h : Grows m m') (h' : Grows m' m'') : Grows m m'' := by
  obtain ⟨ss, hss⟩ := h.strings
  obtain ⟨ss', hss'⟩ := h'.strings
  obtain ⟨fs, hfs, hext⟩ := h.funcs
  obtain ⟨fs', hfs', hext'⟩ := h'.funcs
  refine ⟨⟨ss ++ ss', by rw [hss', hss, List.append_assoc]⟩,
    fun hn => h'.numbered (h.numbered hn), ⟨fs ++ fs', by rw [hfs', hfs, List.append_assoc], ?_⟩,
    fun hn => h'.nodup (h.nodup hn), h'.globals.trans h.globals, h'.structs.trans h.structs⟩
  exact List.forall_mem_append.mpr ⟨hext, hext'⟩

theorem Grows.names (h : Grows m m') (hn : m.Names name) : m'.Names name := by
  obtain ⟨fs, hfs, -⟩ := h.funcs
  rw [Module.Names, hfs, h.globals, List.map_append]
  rcases hn with hn | hn
  · exact .inl (List.mem_append_left _ hn)
  · exact .inr hn

/-- A string constant is an entry of the module once it is interned. -/
theorem Grows.intern (m : Module) (value : String) (t : Ty) :
    Grows m (m.intern value t).2 ∧ (m.intern value t).1 ∈ (m.intern value t).2.strings := by
  rcases m.intern_cases value t with ⟨c, hc, -, heq⟩ | ⟨-, heq⟩ <;> rw [heq]
  · exact ⟨Grows.refl m, hc⟩
  · refine ⟨⟨⟨[_], rfl⟩, fun hn i c hc => ?_, ⟨[], by simp⟩, id, rfl, rfl⟩,
      List.mem_append_right _ (List.mem_singleton_self _)⟩
    change (m.strings ++ [_])[i]? = some c at hc
    by_cases hlt : i < m.strings.length
    · rw [List.getElem?_append_left hlt] at hc
      exact hn i c hc
    · rw [List.getElem?_append_right (Nat.le_of_not_lt hlt)] at hc
      have hlast := (List.getElem?_eq_some_iff.mp hc).1
      have hi : i = m.strings.length := by
        rw [List.length_singleton] at hlast
        omega
      subst hi
      rw [Nat.sub_self] at hc
      cases hc
      rfl

/-- A state in which nothing that an operand can refer to has been lost. -/
structure State.Le (s s' : State) : Prop where
  module : Grows s.module s'.module
  locals : s.locals <+: s'.locals
  temps : s.temps <+: s'.temps

theorem State.Le.refl (s : State) : s.Le s :=
  ⟨Grows.refl _, List.prefix_rfl, List.prefix_rfl⟩

theorem State.Le.trans {s'' : State} (h : s.Le s') (h' : s'.Le s'') : s.Le s'' :=
  ⟨h.module.trans h'.module, h.locals.trans h'.locals, h.temps.trans h'.temps⟩

/-- An operand of the function that is being lowered. -/
def State.Knows (s : State) (x : Operand) : Prop := x.Known s.module s.locals s.temps

/-- What is at a place in a list stays there when the list gets longer. -/
theorem getElem?_of_prefix {xs ys : List α} (h : xs <+: ys) {n : Nat} {x : α} (hx : xs[n]? = some x) :
    ys[n]? = some x := by
  obtain ⟨zs, rfl⟩ := h
  obtain ⟨hn, -⟩ := List.getElem?_eq_some_iff.mp hx
  rw [List.getElem?_append_left hn, hx]

theorem State.Knows.mono {x : Operand} (h : s.Knows x) (hle : s.Le s') : s'.Knows x := by
  cases x with
  | temp t => exact getElem?_of_prefix hle.temps h
  | var v => exact getElem?_of_prefix hle.locals h
  | outer name type => exact h
  | int value type => trivial
  | str c =>
    obtain ⟨new, hnew⟩ := hle.module.strings
    have hc : c ∈ s.module.strings := h
    show c ∈ s'.module.strings
    rw [hnew]
    exact List.mem_append_left _ hc
  | symbol name => exact hle.module.names h
  | label name => trivial

/-- An instruction of the function that is being lowered. -/
def State.KnowsInstr (s : State) (i : Instr) : Prop := i.Known s.module s.locals s.temps

theorem State.KnowsInstr.mono (h : s.KnowsInstr i) (hle : s.Le s') : s'.KnowsInstr i :=
  ⟨h.valid, h.move, fun x hx => State.Knows.mono (h.args x hx) hle,
    fun t ht => getElem?_of_prefix hle.temps (h.result t ht)⟩

/-! ## What stores write to -/

/-- What an assignment can write to: a field of the struct that the base points to, an element of the
array that the base points to, or a global variable. A number as the offset of an element is a multiple
of the size of elements. -/
inductive Target (u : Universe) (m : Module) : Operand → Operand → Ty → Prop
  | field {base : Operand} {c : Struct} {name : String} {r : Int64 × Ty}
      (hc : m.struct? base.type.elem.name = some c) (hr : c.fieldOffset name = .ok r) :
      Target u m base (.int r.1 .u64) r.2
  | element {base offset : Operand} (hptr : base.type.isPtr = true)
      (hoffset : ∀ n t, offset = .int n t → ∃ k, n = k * u.size base.type.elem) :
      Target u m base offset base.type.elem
  | global {base : Operand} {g : Global} (hg : g ∈ m.globals) (hbase : base.type = .ptr g.type) :
      Target u m base (.int 0 .u64) g.type

theorem Target.mono {base offset : Operand} {t : Ty} (h : Target u m base offset t)
    (hstructs : m'.structs = m.structs) (hglobals : m'.globals = m.globals) :
    Target u m' base offset t := by
  cases h with
  | field hc hr => exact .field ((Module.struct?_congr hstructs _).trans hc) hr
  | element hptr hoffset => exact .element hptr hoffset
  | global hg hbase => exact .global (by rwa [hglobals]) hbase

/-- A value of a type, or a number where a number of the type cannot be written. -/
def Suits (u : Universe) (x : Operand) (t : Ty) : Prop :=
  u.equal x.type t = true ∨ isLiteral x = true ∧ isLiteralType u t = false

/-- A store writes a value that suits what it writes to. -/
def Aimed (u : Universe) (m : Module) (i : Instr) : Prop :=
  i.op = .store → ∃ base offset value t, i.args = [base, offset, value] ∧
    Target u m base offset t ∧ Suits u value t

theorem Aimed.mono (h : Aimed u m i) (hstructs : m'.structs = m.structs)
    (hglobals : m'.globals = m.globals) : Aimed u m' i := by
  intro hop
  obtain ⟨base, offset, value, t, hargs, htarget, hsuits⟩ := h hop
  exact ⟨base, offset, value, t, hargs, htarget.mono hstructs hglobals, hsuits⟩

/-- An instruction of the function that is being lowered, aimed if it is a store. -/
structure State.Takes (env : Env) (s : State) (i : Instr) : Prop where
  knows : s.KnowsInstr i
  aimed : Aimed env.types s.module i

theorem State.Takes.mono {env : Env} (h : s.Takes env i) (hle : s.Le s') : s'.Takes env i :=
  ⟨h.knows.mono hle, h.aimed.mono hle.module.structs hle.module.globals⟩

/-! ## What an expression adds -/

/-- The difference that lowering an expression makes: more temporaries, a larger module, and
instructions in the open block that do not decide where control goes. -/
structure Adds (env : Env) (s s' : State) : Prop extends State.Le s s' where
  closed : s'.closed = s.closed
  label : s'.block.label = s.block.label
  scopes : s'.scopes = s.scopes
  sameLocals : s'.locals = s.locals
  nextLabel : s'.nextLabel = s.nextLabel
  code : ∃ new, s'.block.code = s.block.code ++ new ∧ ∀ i ∈ new, i.op.isTerminator = false ∧ s'.Takes env i

variable {env : Env} {s s' : State}

theorem Adds.refl (s : State) : Adds env s s :=
  ⟨State.Le.refl s, rfl, rfl, rfl, rfl, rfl, [], by simp, by simp⟩

theorem Adds.trans {s'' : State} (h : Adds env s s') (h' : Adds env s' s'') : Adds env s s'' := by
  obtain ⟨new, hnew, htakes⟩ := h.code
  obtain ⟨new', hnew', htakes'⟩ := h'.code
  refine ⟨h.toLe.trans h'.toLe, h'.closed.trans h.closed, h'.label.trans h.label,
    h'.scopes.trans h.scopes, h'.sameLocals.trans h.sameLocals, h'.nextLabel.trans h.nextLabel,
    new ++ new', by rw [hnew', hnew, List.append_assoc], List.forall_mem_append.mpr ⟨?_, htakes'⟩⟩
  exact fun i hi => ⟨(htakes i hi).1, (htakes i hi).2.mono h'.toLe⟩

theorem Adds.pre (h : Adds env s s') : s.block.code <+: s'.block.code := by
  obtain ⟨new, hnew, -⟩ := h.code
  exact ⟨new, hnew.symm⟩

/-- The names in scope stand for variables of the function, and the open block has only known
instructions. -/
structure State.Sound (s : State) : Prop where
  scopes : ∀ scope ∈ s.scopes, ∀ p ∈ scope, s.Knows (.var p.2)
  code : ∀ i ∈ s.block.code, s.KnowsInstr i

theorem Adds.sound (h : Adds env s s') (hs : s.Sound) : s'.Sound := by
  obtain ⟨new, hnew, htakes⟩ := h.code
  refine ⟨fun scope hscope p hp => ?_, fun i hi => ?_⟩
  · rw [h.scopes] at hscope
    exact State.Knows.mono (hs.scopes scope hscope p hp) h.toLe
  · rw [hnew] at hi
    rcases List.mem_append.mp hi with hi | hi
    · exact (hs.code i hi).mono h.toLe
    · exact (htakes i hi).2.knows

/-! ## Names -/

theorem mem_of_lookupIn {scopes : List Scope} {v : Local} (h : lookupIn scopes name = some v) :
    ∃ scope ∈ scopes, (name, v) ∈ scope := by
  obtain ⟨scope, hscope, hv⟩ := List.exists_of_findSome?_eq_some h
  obtain ⟨before, after, rfl, -⟩ := List.lookup_eq_some_iff.mp hv
  exact ⟨_, hscope, by simp⟩

theorem global_mem_of_globalIn {ns : String} {g : Global} (h : globalIn m ns name = some g) :
    g ∈ m.globals := by
  rw [globalIn] at h
  split at h
  next g' hg =>
    cases h
    split at hg
    · exact absurd hg (by simp)
    · exact (Table.find?_some hg).1
  next => exact (Table.find?_some h).1

theorem func_mem_of_funcIn {ns : String} {f : Func} (h : funcIn m ns name = some f) : f ∈ m.funcs := by
  rw [funcIn] at h
  split at h
  next f' hf =>
    cases h
    split at hf
    · exact absurd hf (by simp)
    · exact (Table.find?_some hf).1
  next => exact (Table.find?_some h).1

/-- Asking for a name changes nothing. -/
theorem lookup_ok {v : Option Local} (h : lookup name s = .ok (v, s')) :
    v = lookupIn s.scopes name ∧ s = s' := by
  have h' : (lookupIn s.scopes name, s) = (v, s') := Except.ok.inj h
  exact ⟨(congrArg Prod.fst h').symm, congrArg Prod.snd h'⟩

theorem lookupGlobal_ok {g : Option Global} (h : lookupGlobal env name s = .ok (g, s')) :
    g = globalIn s.module env.ns name ∧ s = s' := by
  have h' : (globalIn s.module env.ns name, s) = (g, s') := Except.ok.inj h
  exact ⟨(congrArg Prod.fst h').symm, congrArg Prod.snd h'⟩

theorem lookupFunc_ok {f : Option Func} (h : lookupFunc env name s = .ok (f, s')) :
    f = funcIn s.module env.ns name ∧ s = s' := by
  have h' : (funcIn s.module env.ns name, s) = (f, s') := Except.ok.inj h
  exact ⟨(congrArg Prod.fst h').symm, congrArg Prod.snd h'⟩

theorem typeOf_ok {ref : Program.TypeRef} {t : Ty} (h : typeOf env ref s = .ok (t, s')) :
    resolveType env.types s.module env.ns ref = .ok t ∧ s = s' := by
  unfold typeOf at h
  split at h
  next t' ht =>
    cases h
    exact ⟨ht, rfl⟩
  next => exact absurd h (by simp)

end TreeAsm.Lowering
