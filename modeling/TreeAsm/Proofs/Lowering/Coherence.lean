import TreeAsm.Proofs.Lowering.FormsFile
import TreeAsm.Proofs.Lowering.Places

/-!
# Places of expressions are where they are read and written

The address of an expression, its value and an assignment to it come from three different steps of
lowering. They agree about where the expression is: the pointer that the first computes is the address
that the second reads last and that the third writes last (`lowerAddress_coherent`). For a field or an
element the base and the offset are the same operands in all three, and nothing that is computed in
between writes to them again; a name is where the surroundings put it.
-/

namespace TreeAsm.Lowering

open Ir
open Program (Expr)
open Lower (bind_eq bind_ok pure_ok)

variable {α : Type} {env : Env} {s s' : State} {w : World} {σ σ' : Snapshot}

/-! ## The last instructions -/

theorem required_ok {x : Lower (Option Operand)} {v : Operand} :
    required x s = .ok (v, s') ↔ x s = .ok (some v, s') := by
  constructor
  · intro h
    obtain ⟨r, t, hx, h⟩ := bind_ok h
    cases r with
    | none => exact absurd h Lower.fail_ok
    | some w =>
      obtain ⟨rfl, rfl⟩ := pure_ok h
      exact hx
  · intro h
    unfold required
    rw [bind_eq h]
    rfl

variable {name : String} {x : Operand} {p : Place} {t : Temp} {e : Expr} {code : List Instr}
  {r : Option Operand} {pos : Position}

/-- The literal zero is worth zero, whatever its type. -/
theorem value_of_isZero (hzero : isZero x) (σ : Snapshot) : w.value σ x = some 0 := by
  cases x with
  | int value type =>
    obtain rfl : value = 0 := by simpa [isZero] using hzero
    show some (wrapTo _ _ 0) = some 0
    simp [wrapTo]
  | _ => cases hzero

/-- Reading at the address of a symbol. -/
theorem symbol_reads (hptr : w.types.ptrBits = 64) {elem : Ty} (ht : t.type = .ptr elem)
    (name : String) (r : Temp) (σ : Snapshot) :
    w.Reads [⟨.addrOf, some t, [.symbol name]⟩, ⟨.load, some r, [.temp t, .int 0 .u64]⟩] (.temp r) σ
      (w.symbols name) := by
  obtain ⟨σ1, a, hrun, ha, haddr⟩ := (World.addrOf_points hptr ht σ).2 name
  have hreads := (World.load_reads ha (value_of_isZero (x := .int 0 .u64) rfl σ1) r).after hrun
  rwa [Int.add_zero, haddr] at hreads

/-- Writing at the address of a symbol. -/
theorem symbol_writes (hptr : w.types.ptrBits = 64) {elem : Ty} (ht : t.type = .ptr elem)
    (hrun : w.run [⟨.addrOf, some t, [.symbol name]⟩, ⟨.store, none, [.temp t, .int 0 .u64, x]⟩] σ =
      some σ') :
    ∃ σ1 v, w.run [⟨.addrOf, some t, [.symbol name]⟩] σ = some σ1 ∧ w.value σ1 x = some v ∧
      σ' = w.write σ1 (w.symbols name) x.type v := by
  obtain ⟨σ1, a, hpoint, ha, haddr⟩ := (World.addrOf_points hptr ht σ).2 name
  have hstore := (World.run_after hpoint [⟨.store, none, [.temp t, .int 0 .u64, x]⟩]).symm.trans hrun
  obtain ⟨a', b, v, ha', hb, hv, rfl⟩ := World.store_writes hstore
  obtain rfl := Option.some.inj (ha.symm.trans ha')
  obtain rfl := Option.some.inj ((value_of_isZero rfl σ1).symm.trans hb)
  exact ⟨σ1, v, hpoint, hv, by rw [Int.add_zero, haddr]⟩

/-- The address of a place is its base and its offset together. -/
theorem placeAddress_points (hbase : p.base.Fit) (hoffset : coerce env.types p.offset .u64 = p.offset)
    (hplace : placeAddress env p s = .ok (x, s')) :
    ∃ i, s'.block.code = s.block.code ++ [i] ∧ ∀ {w : World} {σ : Snapshot} {a b : Int},
      w.types.ptrBits = 64 → w.value σ p.base = some a → w.value σ p.offset = some b →
      w.Points [i] x σ (BitVec.ofInt 64 (a + b)) := by
  obtain ⟨r, s1, hr, hplace⟩ := bind_ok hplace
  cases hr
  split at hplace
  next hzero =>
    cases hplace
    refine ⟨_, rfl, fun {w σ a b} hptr ha hb => ?_⟩
    obtain rfl := Option.some.inj ((value_of_isZero hzero σ).symm.trans hb)
    rw [Int.add_zero]
    exact World.moveTemp_points hptr rfl hbase ha
  next =>
    cases hplace
    refine ⟨_, rfl, fun {w σ a b} hptr ha hb => ?_⟩
    rw [hoffset]
    exact World.add_points hptr rfl ha hb

theorem convert_total (env : Env) (x : Operand) (t : Ty) (s : State) :
    ∃ y s', convert env x t s = .ok (y, s') := by
  unfold convert
  split
  · exact ⟨_, _, rfl⟩
  · exact ⟨_, _, rfl⟩

theorem storeAt_total (env : Env) (p : Place) (v : Operand) (s : State) :
    ∃ y s', storeAt env p v s = .ok (y, s') := by
  obtain ⟨y, t, hconvert⟩ := convert_total env v p.type s
  unfold storeAt
  rw [bind_eq hconvert]
  exact ⟨_, _, rfl⟩

theorem convert_pre {y : Operand} {t : Ty} (h : convert env x t s = .ok (y, s')) :
    s.block.code <+: s'.block.code := by
  obtain ⟨code, hcode, -⟩ := convert_calm x t s y s' h
  exact ⟨code, hcode.symm⟩

/-- The code of a value and of its store: the value is computed, made to have the type of the place,
and stored. -/
theorem stored_ok {value : Expr} (hsound : s.Sound) (hs : s.Orderly) (h : (do
      let v ← Lower.within "assign" (required (lowerExpr env value))
      return some (← storeAt env p v) : Lower (Option Operand)) s = .ok (r, s')) :
    ∃ v t y s1 between, lowerExpr env value s = .ok (some v, t) ∧
      convert env v p.type t = .ok (y, s1) ∧ r = some y ∧ s1.block.code = s.block.code ++ between ∧
      s'.block.code = s.block.code ++ (between ++ [⟨.store, none, [p.base, p.offset, y]⟩]) := by
  obtain ⟨v, t, hv, h⟩ := bind_ok h
  obtain ⟨y, s2, hstore, h⟩ := bind_ok h
  obtain ⟨rfl, rfl⟩ := pure_ok h
  obtain ⟨z, s1, hconvert, hstore⟩ := bind_ok hstore
  have hv := required_ok.mp (Lower.within_ok hv)
  obtain ⟨between, hbetween⟩ :=
    (lowerExpr_builds env value s hsound hs _ t hv).2.1.pre.trans (convert_pre hconvert)
  obtain ⟨rfl, rfl⟩ := Prod.mk.inj (Except.ok.inj hstore)
  refine ⟨v, t, z, s1, between, hv, hconvert, rfl, hbetween.symm, ?_⟩
  rw [← List.append_assoc, hbetween]

/-- An assignment to a name ends with a move to the variable, or with a store at the address of the
global variable. -/
theorem assignName_ok {v y : Operand} (hassign : assignName env name v s = .ok (y, s')) :
    (∃ u, lookupIn s.scopes name = some u ∧ y = coerce env.types v u.type ∧
      s'.block.code = s.block.code ++ [⟨.move, none, [.var u, y]⟩]) ∨
    (lookupIn s.scopes name = none ∧ ∃ g t s1, globalIn s.module env.ns name = some g ∧
      t.type = .ptr g.type ∧ convert env v g.type s = .ok (y, s1) ∧ s'.block.code = s1.block.code ++
          [⟨.addrOf, some t, [.symbol g.name]⟩, ⟨.store, none, [.temp t, .int 0 .u64, y]⟩]) := by
  obtain ⟨w, s1, h1, hassign⟩ := bind_ok hassign
  obtain ⟨hlookup, rfl⟩ := lookup_ok h1
  cases w with
  | some w =>
    cases hassign
    exact .inl ⟨w, hlookup.symm, rfl, rfl⟩
  | none =>
    obtain ⟨g, s2, h2, hassign⟩ := bind_ok hassign
    obtain ⟨hglobal, rfl⟩ := lookupGlobal_ok h2
    cases g with
    | none => exact absurd hassign Lower.fail_ok
    | some g =>
      obtain ⟨z, s3, hconvert, hassign⟩ := bind_ok hassign
      cases hassign
      exact .inr ⟨hlookup.symm, g, ⟨s3.temps.length, .ptr g.type⟩, s3, hglobal.symm, rfl, hconvert,
        List.append_assoc _ _ _⟩

theorem lookup_eq {v : Option Local} (h : lookupIn s.scopes name = v) : lookup name s = .ok (v, s) := by
  rw [lookup, h]

theorem lookupGlobal_eq {g : Option Global} (h : globalIn s.module env.ns name = g) :
    lookupGlobal env name s = .ok (g, s) := by
  rw [lookupGlobal, h]

/-- A variable is read by moving it. -/
theorem readName_local (env : Env) {v : Local} (hlookup : lookupIn s.scopes name = some v) :
    ∃ t s', t.type = v.type ∧ readName env name s = .ok (.temp t, s') ∧
      s'.block.code = s.block.code ++ [⟨.move, none, [.temp t, .var v]⟩] := by
  unfold readName
  rw [bind_eq (lookup_eq hlookup)]
  exact ⟨⟨s.temps.length, v.type⟩, _, rfl, rfl, rfl⟩

/-- A global variable is read at the address of its symbol. -/
theorem readName_global (hlookup : lookupIn s.scopes name = none) {g : Global}
    (hglobal : globalIn s.module env.ns name = some g) :
    ∃ t r s', t.type = .ptr g.type ∧ r.type = g.type ∧ readName env name s = .ok (.temp r, s') ∧
      s'.block.code = s.block.code ++
        [⟨.addrOf, some t, [.symbol g.name]⟩, ⟨.load, some r, [.temp t, .int 0 .u64]⟩] := by
  unfold readName
  rw [bind_eq (lookup_eq hlookup)]
  dsimp only
  rw [bind_eq (lookupGlobal_eq hglobal)]
  exact ⟨⟨s.temps.length, .ptr g.type⟩, ⟨_, g.type⟩, _, rfl, rfl, rfl, List.append_assoc _ _ _⟩

theorem lowerExpr_ident (pos : Position) (h : readName env name s = .ok (x, s')) :
    lowerExpr env (.ident pos name) s = .ok (some x, s') := by
  rw [lowerExpr, bind_eq h]
  rfl

/-- A name that stands for a variable can be assigned to. -/
theorem assignName_total (v : Operand) (hname : (lookupIn s.scopes name).isSome ∨
      (globalIn s.module env.ns name).isSome) : ∃ y s', assignName env name v s = .ok (y, s') := by
  unfold assignName
  cases hlookup : lookupIn s.scopes name with
  | some w =>
    rw [bind_eq (lookup_eq hlookup)]
    exact ⟨_, _, rfl⟩
  | none =>
    rw [hlookup] at hname
    obtain ⟨g, hg⟩ := Option.isSome_iff_exists.mp (hname.resolve_left (by simp))
    obtain ⟨y, t, hconvert⟩ := convert_total env v g.type s
    rw [bind_eq (lookup_eq hlookup)]
    dsimp only
    rw [bind_eq (lookupGlobal_eq hg)]
    dsimp only
    rw [bind_eq hconvert]
    exact ⟨_, _, rfl⟩

/-- An expression changes neither what is in scope nor the global variables. -/
theorem names_kept (hsound : s.Sound) (hs : s.Orderly) {x : Option Operand}
    (h : lowerExpr env e s = .ok (x, s')) (name : String) :
    lookupIn s'.scopes name = lookupIn s.scopes name ∧
      globalIn s'.module env.ns name = globalIn s.module env.ns name := by
  obtain ⟨-, hadds, -⟩ := lowerExpr_builds env e s hsound hs x s' h
  refine ⟨by rw [hadds.scopes], ?_⟩
  unfold globalIn
  simp only [Module.global?_congr hadds.module.globals]

/-! ## Runs of lowered code -/

/-- Surroundings with the types of a compilation, and a snapshot of when the open block has run so
far. -/
structure Underway (env : Env) (s : State) (w : World) (σ : Snapshot) : Prop where
  types : w.types = env.types
  held : σ.Holds s.block.code

theorem Underway.ptrBits (hunder : Underway env s w σ) (hptr : env.types.ptrBits = 64) :
    w.types.ptrBits = 64 := by
  rw [hunder.types, hptr]

/-- The instructions that follow in the open block have run as well. -/
theorem Underway.next (hunder : Underway env s w σ) (hcode : s'.block.code = s.block.code ++ code)
    (hrun : w.run code σ = some σ') : Underway env s' w σ' := by
  refine ⟨hunder.types, ?_⟩
  rw [hcode]
  exact World.run_holds hunder.held hrun

theorem Underway.value (hunder : Underway env s w σ) (hx : s.Ready x) : ∃ a, w.value σ x = some a := by
  refine World.value_of_fit hx.fit fun t ht => ?_
  obtain ⟨j, hj, hwrites⟩ := hx.has t ht
  exact hunder.held j hj t.id hwrites

/-- What the open block has written stays as it is. -/
theorem value_kept_of_has (hx : s.Has x) (hs' : s'.Orderly) {more : List Instr}
    (hcode : s'.block.code = s.block.code ++ (code ++ more)) (hrun : w.run code σ = some σ') :
    w.value σ' x = w.value σ x := by
  refine World.value_kept (fun t ht i hi => ?_) hrun
  obtain ⟨j, hj, hwrites⟩ := hx t ht
  refine hs'.arranged.written_once ?_ hj hwrites i (List.mem_append_left more hi)
  rw [← hcode]
  exact List.mem_map_of_mem (List.mem_append_right _ (List.mem_singleton_self _))

theorem value_kept_last (hx : s.Has x) (hs' : s'.Orderly)
    (hcode : s'.block.code = s.block.code ++ code) (hrun : w.run code σ = some σ') :
    w.value σ' x = w.value σ x := by
  rw [← List.append_nil code] at hcode
  exact value_kept_of_has hx hs' hcode hrun

/-- A step that neither calls nor divides adds code that goes on to its end. -/
theorem Underway.goes_on {x : Lower α} {Q : α → State → Prop} (hunder : Underway env s w σ)
    (hx : Calm x) (hbuilds : Builds env s x Q) (hsound : s.Sound) (hs : s.Orderly) {a : α}
    (hok : x s = .ok (a, s')) (hcode : s'.block.code = s.block.code ++ code) :
    ∃ σ', w.run code σ = some σ' := by
  obtain ⟨hs', -, -⟩ := hbuilds hsound hs a s' hok
  obtain ⟨added, hadded, hcalm⟩ := hx s a s' hok
  obtain rfl : code = added := List.append_cancel_left (hcode.symm.trans hadded)
  have hopen : s'.block ∈ s'.blocks := List.mem_append_right _ (List.mem_singleton_self _)
  refine World.run_goes_on ?_ (fun i hi => ⟨hs'.forms s'.block hopen i ?_, hcalm i hi⟩) hunder.held
  · rw [← hcode]
    exact hs'.arranged.covered _ (List.mem_map_of_mem hopen)
  · rw [hcode]
    exact List.mem_append_right _ hi

/-! ## Coherence -/

/-- The address of an expression, its value and assignments to it agree about where it is. The code
`address` leaves the pointer in `p`.

* `read`: the expression has a value, and what its code reads last, and gives as the value, is at the
  address that the pointer has. One of them goes on to its end exactly if the other does.
* `accepted`: whether an assignment is accepted depends on the value alone.
* `written`: what an assignment writes last is at the address that the pointer has. -/
structure Agrees (env : Env) (s : State) (e : Expr) (p : Operand) (address : List Instr) :
    Prop where
  read : ∃ x s' code, lowerExpr env e s = .ok (some x, s') ∧ s'.block.code = s.block.code ++ code ∧
    ∀ w σ, Underway env s w σ → ∀ a, w.Points address p σ a ↔ w.Reads code x σ a
  accepted : ∃ t, ∀ pos value, (∃ y s', lowerExpr env (.assign pos e value) s = .ok (y, s')) ↔
      ∃ v s', lowerExpr env value t = .ok (some v, s')
  written : ∀ pos value y s', lowerExpr env (.assign pos e value) s = .ok (y, s') →
    ∃ code, s'.block.code = s.block.code ++ code ∧ ∀ w σ σ', Underway env s w σ → w.run code σ = some σ' →
        ∃ a, w.Points address p σ a ∧ σ'.accesses.head? = some (.write a)

/-- They agree, and if nothing calls or divides, the code goes on to its end. -/
structure Coherent (env : Env) (s : State) (e : Expr) (p : Operand) (address : List Instr) :
    Prop extends Agrees env s e p address where
  total : e.isTotal = true → ∀ w σ, Underway env s w σ → (∃ a, w.Points address p σ a) ∧
    ∀ pos value y s' code, value.isTotal = true → lowerExpr env (.assign pos e value) s = .ok (y, s') →
      s'.block.code = s.block.code ++ code → ∃ σ', w.run code σ = some σ'

/-- Whether something can be assigned to a field or an element depends on the value alone. -/
theorem place_accepted {t : State} (hplace : lowerPlace env e s = .ok (p, t)) (pos : Position)
    (value : Expr) :
    (∃ y s', lowerExpr env (.assign pos e value) s = .ok (y, s')) ↔
      ∃ v s', lowerExpr env value t = .ok (some v, s') := by
  rw [(lowerExpr_of_place hplace).2 pos value]
  constructor
  · rintro ⟨y, s', h⟩
    obtain ⟨v, t', hv, -⟩ := bind_ok h
    exact ⟨v, t', required_ok.mp (Lower.within_ok hv)⟩
  · rintro ⟨v, t', hv⟩
    obtain ⟨y, s', hstore⟩ := storeAt_total env p v t'
    refine ⟨some y, s', ?_⟩
    rw [bind_eq (Lower.within_eq (required_ok.mpr hv)), bind_eq hstore]
    rfl

/-- An assignment to a field or an element computes the place, then the value, and writes to the base
and the offset as they were then. -/
theorem place_written (hsound : s.Sound) (hs : s.Orderly) {value : Expr} {t : State}
    (hplace : lowerPlace env e s = .ok (p, t))
    (hassign : lowerExpr env (.assign pos e value) s = .ok (r, s')) :
    ∃ v t' y s1 between last, lowerExpr env value t = .ok (some v, t') ∧
      convert env v p.type t' = .ok (y, s1) ∧ r = some y ∧ s1.block.code = t.block.code ++ between ∧
      s'.block.code = t.block.code ++ (between ++ [last]) ∧ ∀ {w : World} {σ σ1 σ' : Snapshot},
        w.run between σ = some σ1 → w.run [last] σ1 = some σ' → ∃ a b c,
          w.value σ p.base = some a ∧ w.value σ p.offset = some b ∧ w.value σ1 y = some c ∧
          σ' = w.write σ1 (BitVec.ofInt 64 (a + b)) y.type c := by
  have hs' : s'.Orderly := (lowerExpr_builds env _ s hsound hs r s' hassign).1
  obtain ⟨ht, hadds, hp⟩ := lowerPlace_builds env e s hsound hs p t hplace
  rw [(lowerExpr_of_place hplace).2 pos value] at hassign
  obtain ⟨v, t', y, s1, between, hv, hconvert, hr, hbetween, hcode⟩ :=
    stored_ok (hadds.sound hsound) ht hassign
  refine ⟨v, t', y, s1, between, _, hv, hconvert, hr, hbetween, hcode, fun {w σ σ1 σ'} hrun hlast => ?_⟩
  obtain ⟨a, b, c, ha, hb, hc, hwrite⟩ := World.store_writes hlast
  -- what lies between the place and the store writes to neither of its operands
  rw [value_kept_of_has hp.base.has hs' hcode hrun] at ha
  rw [value_kept_of_has hp.offset.has hs' hcode hrun] at hb
  exact ⟨a, b, c, ha, hb, hc, hwrite⟩

/-- A field or an element is at its base and its offset, whatever is done with it. -/
theorem place_agrees (hptr : env.types.ptrBits = 64) (hsound : s.Sound) (hs : s.Orderly) {t : State}
    (hplace : lowerPlace env e s = .ok (p, t)) (haddr : placeAddress env p t = .ok (x, s')) :
    ∃ address, s'.block.code = s.block.code ++ address ∧ Agrees env s e x address := by
  obtain ⟨-, hadds, hp⟩ := lowerPlace_builds env e s hsound hs p t hplace
  obtain ⟨first, hfirst⟩ := hadds.pre
  obtain ⟨i, hi, hpoints⟩ := placeAddress_points hp.base.fit (lowerPlace_offset hplace) haddr
  refine ⟨first ++ [i], by rw [hi, ← hfirst, List.append_assoc], ?_, ⟨t, place_accepted hplace⟩, ?_⟩
  · refine ⟨_, _, first ++ [⟨.load, some ⟨t.temps.length, p.type⟩, [p.base, p.offset]⟩],
      (lowerExpr_of_place hplace).1, by rw [← List.append_assoc, hfirst],
      fun w σ hunder => World.points_iff_reads first fun σ' hrun => ?_⟩
    have hthere := hunder.next hfirst.symm hrun
    obtain ⟨a, ha⟩ := hthere.value hp.base
    obtain ⟨b, hb⟩ := hthere.value hp.offset
    exact ⟨_, hpoints (hunder.ptrBits hptr) ha hb, World.load_reads ha hb _⟩
  · intro pos value y s' hassign
    obtain ⟨_, _, _, _, between, last, -, -, -, -, hcode, hwritten⟩ :=
      place_written hsound hs hplace hassign
    refine ⟨first ++ (between ++ [last]), by rw [hcode, ← hfirst, List.append_assoc],
      fun w σ σ' hunder hrun => ?_⟩
    rw [World.run_append] at hrun
    obtain ⟨σ1, hplaced, hrun⟩ := Option.bind_eq_some_iff.mp hrun
    rw [World.run_append] at hrun
    obtain ⟨σ2, hbetween, hlast⟩ := Option.bind_eq_some_iff.mp hrun
    obtain ⟨a, b, c, ha, hb, -, rfl⟩ := hwritten hbetween hlast
    exact ⟨_, (hpoints (hunder.ptrBits hptr) ha hb).after hplaced, rfl⟩

/-- For an assignment to a name the value comes first. -/
theorem lowerExpr_assignName (hsound : s.Sound) (hs : s.Orderly) {pos' : Position} {value : Expr}
    (h : lowerExpr env (.assign pos' (.ident pos name) value) s = .ok (r, s')) :
    ∃ v t y code, lowerExpr env value s = .ok (some v, t) ∧ assignName env name v t = .ok (y, s') ∧
      r = some y ∧ t.block.code = s.block.code ++ code := by
  rw [lowerExpr] at h
  obtain ⟨v, t, hv, h⟩ := bind_ok h
  obtain ⟨z, t', hassign, h⟩ := bind_ok h
  obtain ⟨rfl, rfl⟩ := pure_ok h
  have hv := required_ok.mp (Lower.within_ok hv)
  obtain ⟨code, hcode⟩ := (lowerExpr_builds env value s hsound hs _ t hv).2.1.pre
  exact ⟨v, t, z, code, hv, hassign, rfl, hcode.symm⟩

theorem assignName_accepted (hsound : s.Sound) (hs : s.Orderly) (hname : (lookupIn s.scopes name).isSome ∨
      (globalIn s.module env.ns name).isSome) (pos pos' : Position) (value : Expr) :
    (∃ y s', lowerExpr env (.assign pos' (.ident pos name) value) s = .ok (y, s')) ↔
      ∃ v s', lowerExpr env value s = .ok (some v, s') := by
  constructor
  · rintro ⟨y, s', h⟩
    obtain ⟨v, t, _, _, hv, -⟩ := lowerExpr_assignName hsound hs h
    exact ⟨v, t, hv⟩
  · rintro ⟨v, t, hv⟩
    obtain ⟨hscopes, hglobals⟩ := names_kept hsound hs hv name
    rw [← hscopes, ← hglobals] at hname
    obtain ⟨y, s', hassign⟩ := assignName_total v hname
    refine ⟨some y, s', ?_⟩
    rw [lowerExpr, bind_eq (Lower.within_eq (required_ok.mpr hv)), bind_eq hassign]
    rfl

/-- A variable is where the surroundings put it. -/
theorem local_agrees (hptr : env.types.ptrBits = 64) (hsound : s.Sound) (hs : s.Orderly)
    (pos : Position) {v : Local} (hlookup : lookupIn s.scopes name = some v)
    (ht : t.type = .ptr v.type) :
    Agrees env s (.ident pos name) (.temp t) [⟨.addrOf, some t, [.var v]⟩] := by
  refine ⟨?_, ⟨s, fun pos' value => assignName_accepted hsound hs (.inl ?_) pos pos' value⟩, ?_⟩
  · obtain ⟨r, s', hr, hread, hcode⟩ := readName_local env hlookup
    refine ⟨.temp r, s', _, lowerExpr_ident pos hread, hcode,
      fun w σ hunder => World.points_iff_reads [] fun σ' _ => ?_⟩
    exact ⟨w.locals v.index, (World.addrOf_points (hunder.ptrBits hptr) ht σ').1 v,
      World.moveVar_reads σ' hr⟩
  · rw [hlookup]
    rfl
  · intro pos' value y s' hassign
    obtain ⟨x, t', z, code, hx, hassign, -, hcode⟩ := lowerExpr_assignName hsound hs hassign
    obtain ⟨hscopes, -⟩ := names_kept hsound hs hx name
    -- the name is looked up after the value, but stands for the same variable
    rcases assignName_ok hassign with ⟨v', hv', -, hmove⟩ | ⟨hnone, -⟩
    · obtain rfl : v = v' := Option.some.inj (hlookup.symm.trans (hscopes.symm.trans hv'))
      refine ⟨code ++ [⟨.move, none, [.var v, z]⟩], by rw [hmove, hcode, List.append_assoc],
        fun w σ σ' hunder hrun => ?_⟩
      rw [World.run_append] at hrun
      obtain ⟨σ1, -, hrun⟩ := Option.bind_eq_some_iff.mp hrun
      rw [World.run_singleton] at hrun
      obtain ⟨a, -, hrun⟩ := Option.bind_eq_some_iff.mp hrun
      cases hrun
      exact ⟨w.locals v.index, (World.addrOf_points (hunder.ptrBits hptr) ht σ).1 v, rfl⟩
    · rw [hscopes, hlookup] at hnone
      cases hnone

/-- A global variable is where its symbol is. -/
theorem global_agrees (hptr : env.types.ptrBits = 64) (hsound : s.Sound) (hs : s.Orderly)
    (pos : Position) (hlookup : lookupIn s.scopes name = none) {g : Global}
    (hglobal : globalIn s.module env.ns name = some g) (ht : t.type = .ptr g.type) :
    Agrees env s (.ident pos name) (.temp t) [⟨.addrOf, some t, [.symbol g.name]⟩] := by
  refine ⟨?_, ⟨s, fun pos' value => assignName_accepted hsound hs (.inr ?_) pos pos' value⟩, ?_⟩
  · obtain ⟨t', r, s', ht', -, hread, hcode⟩ := readName_global hlookup hglobal
    refine ⟨.temp r, s', _, lowerExpr_ident pos hread, hcode,
      fun w σ hunder => World.points_iff_reads [] fun σ' _ => ?_⟩
    have hptr := hunder.ptrBits hptr
    exact ⟨w.symbols g.name, (World.addrOf_points hptr ht σ').2 g.name, symbol_reads hptr ht' g.name r σ'⟩
  · rw [hglobal]
    rfl
  · intro pos' value y s' hassign
    obtain ⟨x, t', z, code, hx, hassign, -, hcode⟩ := lowerExpr_assignName hsound hs hassign
    obtain ⟨hscopes, hglobals⟩ := names_kept hsound hs hx name
    rcases assignName_ok hassign with ⟨v, hv, -⟩ | ⟨-, g', r, s1, hg, hr, hconvert, hstore⟩
    · rw [hscopes, hlookup] at hv
      cases hv
    · obtain rfl : g = g' := Option.some.inj (hglobal.symm.trans (hglobals.symm.trans hg))
      obtain ⟨converting, hconverting⟩ := convert_pre hconvert
      refine ⟨code ++ converting ++ [⟨.addrOf, some r, [.symbol g.name]⟩,
        ⟨.store, none, [.temp r, .int 0 .u64, z]⟩], by rw [hstore, ← hconverting, hcode]; simp,
        fun w σ σ' hunder hrun => ?_⟩
      have hptr := hunder.ptrBits hptr
      rw [World.run_append] at hrun
      obtain ⟨σ1, -, hrun⟩ := Option.bind_eq_some_iff.mp hrun
      obtain ⟨_, _, -, -, rfl⟩ := symbol_writes hptr hr hrun
      exact ⟨w.symbols g.name, (World.addrOf_points hptr ht σ).2 g.name, rfl⟩

/-- The pointer to an expression, what its value is read from and what an assignment to it writes to
are one place in memory. The state may be any that lowering comes to within a function: it is sound and
orderly at the start (`State.start_wf`, `State.start_orderly`), and stays so. -/
theorem lowerAddress_coherent (hptr : env.types.ptrBits = 64) (hsound : s.Sound) (hs : s.Orderly)
    {e : Expr} {p : Operand} (haddr : lowerAddress env e s = .ok (p, s')) :
    ∃ address, s'.block.code = s.block.code ++ address ∧ Coherent env s e p address := by
  have hagrees : ∃ address, s'.block.code = s.block.code ++ address ∧ Agrees env s e p address := by
    rcases lowerAddress_ok haddr with ⟨pos, name, rfl, hname⟩ | ⟨place, t, hplace, haddr⟩
    · rcases addressOfName_ok hname with ⟨v, t, hv, ht, rfl, hcode⟩ | ⟨hnone, g, t, hg, ht, rfl, hcode⟩
      · exact ⟨_, hcode, local_agrees hptr hsound hs pos hv ht⟩
      · exact ⟨_, hcode, global_agrees hptr hsound hs pos hnone hg ht⟩
    · exact place_agrees hptr hsound hs hplace haddr
  obtain ⟨address, hcode, hagrees⟩ := hagrees
  refine ⟨address, hcode, hagrees, fun he w σ hunder => ⟨?_, ?_⟩⟩
  · have hbuilds := lowerAddress_builds env e s
    obtain ⟨σ', hrun⟩ := hunder.goes_on (lowerAddress_calm env e he) hbuilds hsound hs haddr hcode
    obtain ⟨v, hv⟩ := (hunder.next hcode hrun).value (hbuilds hsound hs p s' haddr).2.2
    exact ⟨_, σ', v, hrun, hv, rfl⟩
  · intro pos value y s'' code hvalue hassign
    have hassigned : (Expr.assign pos e value).isTotal = true := by
      simp [Expr.isTotal, he, hvalue]
    exact hunder.goes_on (lowerExpr_calm env _ hassigned) (lowerExpr_builds env _ s) hsound hs hassign

/-- Rows of items, each of which has a tag and may point to another item. -/
def itemRows : Module :=
  { Module.empty with structTable := .ofList [⟨"item", true, false,
    [⟨"tag", .byte, true⟩, ⟨"other", .ptr (.record "item"), true⟩], some ⟨[0, 8], 16, 8⟩⟩] }

/-- Their types on a machine of 64 bits. -/
def itemEnv : Env := ⟨(Universe.make 64 false).setLayout "item" 16 8, "", .int⟩

/-- A function of a row and a number. -/
def rowFunc : Func :=
  ⟨"f", .int, true, false, [⟨0, "row", .ptr (.record "item"), true⟩, ⟨1, "n", .byte, true⟩], [], []⟩

/-- The tag of the item that the `n`-th item of a row points to: an indirect field of a direct field of
an element. -/
def otherTag : Expr :=
  let p : Position := default
  .field p (.field p (.index p (.ident p "row") (.ident p "n")) "other" false) "tag" true

theorem lowerAddress_coherent_otherTag :
    (State.start itemRows rowFunc).Sound ∧ (State.start itemRows rowFunc).Orderly ∧ ∃ p s' address,
        lowerAddress itemEnv otherTag (State.start itemRows rowFunc) = .ok (p, s') ∧
        s'.block.code = address ∧
        Coherent itemEnv (State.start itemRows rowFunc) otherTag p address := by
  have hlocals : ∀ v ∈ rowFunc.locals, rowFunc.locals[v.index]? = some v := by decide
  have htyped : Typed itemRows := by
    refine ⟨?_, List.forall_mem_nil _, List.forall_mem_nil _, List.forall_mem_nil _, List.forall_mem_nil _⟩
    simp [itemRows, Module.structs, Ty.Proper]
  obtain ⟨hwf, -⟩ := State.start_wf itemEnv htyped (f := rowFunc) (by simp [rowFunc, Ty.Proper]) hlocals
  have hsound := hwf.sound
  have horderly := hwf.orderly
  have hok : (lowerAddress itemEnv otherTag (State.start itemRows rowFunc)).isOk = true := by
    decide +kernel
  obtain ⟨⟨p, s'⟩, haddr⟩ := Outcome.exists_ok hok
  obtain ⟨address, hcode, hcoherent⟩ := lowerAddress_coherent rfl hsound horderly haddr
  exact ⟨hsound, horderly, p, s', address, haddr, hcode, hcoherent⟩

end TreeAsm.Lowering
