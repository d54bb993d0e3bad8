import TreeAsm.Proofs.Ir.Memory
import TreeAsm.Proofs.Lowering.Expr

/-!
# Places of expressions

What stands for a place is a name, a field or an element. For a field or an element its address, its
value and an assignment to it begin alike: a base and an offset are computed (`lowerPlace`), and only
what is then done with them differs. A name has no such beginning; its address is one instruction
(`addressOfName_ok`).

An expression that neither calls nor divides comes to instructions after which the code goes on
(`lowerExpr_calm`).
-/

namespace TreeAsm.Program

/-- Whether the evaluation of an expression always comes to an end: nothing in it calls or
divides. -/
def Expr.isTotal : Expr → Bool
  | .int _ _ | .str _ _ | .ident _ _ => true
  | .binary _ op left right => op != "/" && left.isTotal && right.isTotal
  | .unary _ _ x => x.isTotal
  | .assign _ target value => target.isTotal && value.isTotal
  | .index _ x i => x.isTotal && i.isTotal
  | .field _ x _ _ => x.isTotal
  | .cast _ _ x => x.isTotal
  | .call _ _ _ | .syscall _ _ _ | .foreign _ _ _ _ => false

end TreeAsm.Program

namespace TreeAsm.Lowering

open Ir
open Program (Expr)
open Lower (bind_eq bind_ok fail_ok pure_ok)

variable {α β : Type} {env : Env} {s s' : State}

/-! ## Addresses of names -/

/-- The address of a name is that of a variable in scope, or else that of a global variable. -/
theorem addressOfName_ok {name : String} {x : Operand} (h : addressOfName env name s = .ok (x, s')) :
    (∃ v t, lookupIn s.scopes name = some v ∧ t.type = .ptr v.type ∧ x = .temp t ∧
      s'.block.code = s.block.code ++ [⟨.addrOf, some t, [.var v]⟩]) ∨
    (lookupIn s.scopes name = none ∧ ∃ g t, globalIn s.module env.ns name = some g ∧
      t.type = .ptr g.type ∧ x = .temp t ∧
      s'.block.code = s.block.code ++ [⟨.addrOf, some t, [.symbol g.name]⟩]) := by
  obtain ⟨v, s1, h1, h⟩ := bind_ok h
  obtain ⟨hlookup, rfl⟩ := lookup_ok h1
  cases v with
  | some v =>
    have hread : readName env name s = load (.var v) s := by
      show (lookup name >>= _) s = _
      rw [bind_eq h1]
    simp only [pure_bind] at h
    obtain ⟨y, s2, h2, h⟩ := bind_ok h
    obtain ⟨a, s3, h3, h⟩ := bind_ok h
    rw [hread] at h2
    have htake : (load (.var v) >>= takeAddress) s = .ok (a, s3) := by
      rw [bind_eq h2]
      exact h3
    rw [takeAddress_load] at htake
    cases htake
    obtain ⟨rfl, rfl⟩ := pure_ok h
    exact .inl ⟨v, _, hlookup.symm, rfl, rfl, rfl⟩
  | none =>
    obtain ⟨g, s2, h2, h⟩ := bind_ok h
    obtain ⟨hglobal, rfl⟩ := lookupGlobal_ok h2
    cases g with
    | some g =>
      cases h
      exact .inr ⟨hlookup.symm, g, _, hglobal.symm, rfl, rfl, rfl⟩
    | none =>
      -- what is read is the address of a function, which is no place
      obtain ⟨y, s3, h3, h⟩ := bind_ok h
      obtain ⟨a, s4, h4, h⟩ := bind_ok h
      unfold readName at h3
      rw [bind_eq h1] at h3
      simp only at h3
      rw [bind_eq h2] at h3
      simp only at h3
      obtain ⟨f, s5, h5, h3⟩ := bind_ok h3
      obtain ⟨-, rfl⟩ := lookupFunc_ok h5
      cases f with
      | none => exact absurd h3 fail_ok
      | some f =>
        have htake : (symbolAddress f.name (.ptr .void) >>= takeAddress) s = .ok (a, s4) := by
          rw [bind_eq h3]
          exact h4
        rw [takeAddress_symbolAddress] at htake
        cases htake
        exact absurd h fail_ok

/-! ## Fields and elements -/

/-- The place of a field or an element. -/
def lowerPlace (env : Env) : Expr → Lower Place
  | .field _ x name indirect => do
    let base ← Lower.within s!"field {name}"
      (if indirect then required (lowerExpr env x) else lowerAddress env x)
    fieldPlace env base name indirect
  | .index _ x index => do
    let base ← Lower.within "index base" (required (lowerExpr env x))
    Lower.lift (checkIndexable env.types base)
    let i ← Lower.within "index" (required (lowerExpr env index))
    elementPlace env base i
  | e => Lower.fail (.noAddress e.kind)

variable {x : Lower (Option Operand)} {f : Place → Lower α} {e : Expr}

/-- Something is done with an element once its place is known. -/
theorem atElement_ok {x i : Expr} {a : α} (h : (do
      let base ← Lower.within "index base" (required (lowerExpr env x))
      Lower.lift (checkIndexable env.types base)
      let j ← Lower.within "index" (required (lowerExpr env i))
      let p ← elementPlace env base j
      f p) s = .ok (a, s')) (pos : Position) :
    ∃ p t, lowerPlace env (.index pos x i) s = .ok (p, t) ∧ f p t = .ok (a, s') := by
  obtain ⟨base, s1, hbase, h⟩ := bind_ok h
  obtain ⟨_, s2, hcheck, h⟩ := bind_ok h
  obtain ⟨j, s3, hj, h⟩ := bind_ok h
  obtain ⟨p, s4, hp, h⟩ := bind_ok h
  refine ⟨p, s4, ?_, h⟩
  rw [lowerPlace, bind_eq hbase, bind_eq hcheck, bind_eq hj, hp]

/-- What has an address is a name, or it has a place. -/
theorem lowerAddress_ok {x : Operand} (h : lowerAddress env e s = .ok (x, s')) :
    (∃ pos name, e = .ident pos name ∧ addressOfName env name s = .ok (x, s')) ∨
    ∃ p t, lowerPlace env e s = .ok (p, t) ∧ placeAddress env p t = .ok (x, s') := by
  cases e with
  | ident pos name =>
    exact .inl ⟨pos, name, rfl, h⟩
  | field pos y name indirect =>
    obtain ⟨base, s1, hbase, h⟩ := bind_ok h
    obtain ⟨p, s2, hp, h⟩ := bind_ok h
    refine Or.inr ⟨p, s2, ?_, h⟩
    rw [lowerPlace, bind_eq hbase, hp]
  | index pos y i =>
    exact .inr (atElement_ok h pos)
  | _ =>
    exact absurd h fail_ok

/-- What follows the place of a field or an element: a reading for its value, and for an assignment
the value and a store. -/
theorem lowerExpr_of_place {p : Place} {t : State} (h : lowerPlace env e s = .ok (p, t)) :
    lowerExpr env e s = (do return some (← loadAt p.base p.offset p.type) : Lower (Option Operand)) t ∧
    ∀ pos value, lowerExpr env (.assign pos e value) s = (do
        let v ← Lower.within "assign" (required (lowerExpr env value))
        return some (← storeAt env p v) : Lower (Option Operand)) t := by
  cases e with
  | field _ y name indirect =>
    obtain ⟨base, s1, hbase, hp⟩ := bind_ok h
    refine ⟨?_, fun pos value => ?_⟩
    · rw [lowerExpr, bind_eq hbase, bind_eq hp]
    · rw [lowerExpr, bind_eq hbase, bind_eq hp]
  | index _ y i =>
    obtain ⟨base, s1, hbase, h⟩ := bind_ok h
    obtain ⟨_, s2, hcheck, h⟩ := bind_ok h
    obtain ⟨j, s3, hj, hp⟩ := bind_ok h
    refine ⟨?_, fun pos value => ?_⟩
    · rw [lowerExpr, bind_eq hbase, bind_eq hcheck, bind_eq hj, bind_eq hp]
    · rw [lowerExpr, bind_eq hbase, bind_eq hcheck, bind_eq hj, bind_eq hp]
  | _ =>
    unfold lowerPlace at h
    exact absurd h fail_ok

theorem lowerPlace_builds (env : Env) (e : Expr) (s : State) :
    Builds env s (lowerPlace env e) fun p s' => s'.ReadyPlace env p := by
  unfold lowerPlace
  split
  next y name indirect =>
    refine Builds.bind (Builds.within (base_builds indirect (lowerExpr_builds env y s)
      (lowerAddress_builds env y s)) _) fun base s1 _ hbase => ?_
    exact fieldPlace_builds name indirect hbase
  next y i =>
    refine Builds.bind (Builds.within (required_builds (lowerExpr_builds env y s)) _)
      fun base s1 _ hbase => ?_
    refine Builds.bind checkIndexable_builds ?_
    rintro _ _ - ⟨rfl, hptr⟩
    refine Builds.bind (Builds.within (required_builds (lowerExpr_builds env i s1)) _)
      fun j s2 hadds hj => ?_
    exact elementPlace_builds (hbase.mono hadds) hj hptr
  next => exact Builds.fail

theorem fieldPlace_ok {base : Operand} {name : String} {indirect : Bool} {p : Place}
    (h : fieldPlace env base name indirect s = .ok (p, s')) : ∃ c r,
      s.module.struct? base.type.elem.name = some c ∧ c.fieldOffset name = .ok r ∧
      p = ⟨base, .int r.1 .u64, r.2⟩ := by
  unfold fieldPlace at h
  simp only at h
  split at h
  · exact absurd h fail_ok
  · obtain ⟨_, _, hget, h⟩ := bind_ok h
    obtain ⟨rfl, rfl⟩ := Lower.get_ok hget
    cases hc : s.module.struct? base.type.elem.name with
    | none =>
      rw [hc] at h
      exact absurd h fail_ok
    | some c =>
      rw [hc] at h
      obtain ⟨r, s1, hr, h⟩ := bind_ok h
      exact ⟨c, r, rfl, (Lower.lift_ok hr).1, (pure_ok h).1⟩

/-- How the offset of an element is computed: a number is multiplied at once, an index of bytes is the
offset, and any other is multiplied by an instruction. -/
theorem elementPlace_ok {base index : Operand} {p : Place} (h : elementPlace env base index s = .ok (p, s')) :
    p.base = base ∧ p.type = base.type.elem ∧ ((∃ value type, index = .int value type ∧
          p.offset = .int (value * env.types.size base.type.elem) .u64 ∧ s' = s) ∨
        isLiteral index = false ∧ env.types.size base.type.elem = 1 ∧ p.offset = index ∧ s' = s ∨
        isLiteral index = false ∧ env.types.size base.type.elem ≠ 1 ∧ ∃ r : Temp,
          p.offset = .temp r ∧ r.type = resultType .mul index
            (coerce env.types (.int (env.types.size base.type.elem) .untyped) index.type) ∧
          s'.block.code = s.block.code ++ [⟨.mul, some r, [index,
            coerce env.types (.int (env.types.size base.type.elem) .untyped) index.type]⟩]) := by
  unfold elementPlace at h
  split at h
  next value type =>
    obtain ⟨rfl, rfl⟩ := pure_ok h
    exact ⟨rfl, rfl, .inl ⟨value, type, rfl, rfl, rfl⟩⟩
  next hnumber =>
    have hliteral : isLiteral index = false := by
      cases index with
      | int value type => exact absurd rfl (hnumber value type)
      | _ => rfl
    split at h
    next hone =>
      obtain ⟨rfl, rfl⟩ := pure_ok h
      exact ⟨rfl, rfl, .inr (.inl ⟨hliteral, by simpa using hone, rfl, rfl⟩)⟩
    next hmany =>
      obtain ⟨offset, s1, hmul, h⟩ := bind_ok h
      obtain ⟨rfl, rfl⟩ := pure_ok h
      have hbalance : balance env.types index (.int (env.types.size base.type.elem) .untyped) =
          (index, coerce env.types (.int (env.types.size base.type.elem) .untyped) index.type) := by
        unfold balance
        rw [hliteral]
        rfl
      unfold emitBinary at hmul
      rw [hbalance] at hmul
      obtain ⟨rfl, rfl⟩ := Prod.mk.inj (Except.ok.inj hmul)
      exact ⟨rfl, rfl, .inr (.inr ⟨hliteral, by simpa using hmany, _, rfl, rfl, rfl⟩)⟩

theorem coerce_u64 (u : Universe) (value : Int64) : coerce u (.int value .u64) .u64 = .int value .u64 := by
  show (if isLiteralType u .u64 then Operand.int value .u64 else .int value .u64) = _
  split <;> rfl

/-- The offset of a place is added to its base as it is: if it is a number, it has 64 bits. -/
theorem lowerPlace_offset {p : Place} {t : State} (h : lowerPlace env e s = .ok (p, t)) :
    coerce env.types p.offset .u64 = p.offset := by
  cases e with
  | field _ y name indirect =>
    obtain ⟨base, s1, -, h⟩ := bind_ok h
    obtain ⟨c, r, -, -, rfl⟩ := fieldPlace_ok h
    exact coerce_u64 env.types r.1
  | index _ y i =>
    obtain ⟨base, s1, -, h⟩ := bind_ok h
    obtain ⟨_, s2, -, h⟩ := bind_ok h
    obtain ⟨j, s3, -, h⟩ := bind_ok h
    obtain ⟨-, -, ⟨value, _, -, hoffset, -⟩ | ⟨hliteral, -, hoffset, -⟩ | ⟨-, -, r, hoffset, -⟩⟩ :=
      elementPlace_ok h <;> rw [hoffset]
    · exact coerce_u64 env.types _
    · -- an index of bytes is the offset itself
      cases j with
      | int _ _ => cases hliteral
      | _ => rfl
    · rfl
  | _ =>
    unfold lowerPlace at h
    exact absurd h fail_ok

/-! ## Expressions that neither call nor divide -/

/-- A step adds instructions to the open block after which the code goes on. -/
def Calm (x : Lower α) : Prop :=
  ∀ s a s', x s = .ok (a, s') →
    ∃ code, s'.block.code = s.block.code ++ code ∧ ∀ i ∈ code, i.op.isCalm = true

namespace Calm

variable {x : Lower α}

theorem of_block (h : ∀ s a s', x s = .ok (a, s') → s'.block = s.block) : Calm x :=
  fun s a s' hx => ⟨[], by rw [h s a s' hx, List.append_nil], by simp⟩

theorem pure (a : α) : Calm (pure a : Lower α) := by
  refine of_block fun s b s' h => ?_
  rw [(pure_ok h).2]

theorem fail (cause : Cause) : Calm (Lower.fail cause : Lower α) :=
  of_block fun _ _ _ h => absurd h fail_ok

theorem lift (x : Outcome α) : Calm (Lower.lift x) := by
  refine of_block fun s a s' h => ?_
  rw [(Lower.lift_ok h).2]

theorem within (hx : Calm x) (step : String) : Calm (Lower.within step x) :=
  fun s a s' h => hx s a s' (Lower.within_ok h)

theorem bind {f : α → Lower β} (hx : Calm x) (hf : ∀ a, Calm (f a)) : Calm (x >>= f) := by
  intro s b s'' h
  obtain ⟨a, s', ha, hb⟩ := bind_ok h
  obtain ⟨code, hcode, hcalm⟩ := hx s a s' ha
  obtain ⟨more, hmore, hcalm'⟩ := hf a s' b s'' hb
  exact ⟨code ++ more, by rw [hmore, hcode, List.append_assoc], List.forall_mem_append.mpr ⟨hcalm, hcalm'⟩⟩

theorem emit {op : Opcode} (hop : op.isCalm) (result : Option Temp) (args : List Operand) :
    Calm (emit op result args) := by
  intro s a s' h
  obtain ⟨-, rfl⟩ := Prod.mk.inj (Except.ok.inj h)
  exact ⟨[⟨op, result, args⟩], rfl, by simpa using hop⟩

theorem newTemp (t : Ty) : Calm (newTemp t) := by
  refine of_block fun s a s' h => ?_
  obtain ⟨-, rfl⟩ := Prod.mk.inj (Except.ok.inj h)
  rfl

/-- An instruction with a result in a new temporary. -/
theorem result {op : Opcode} (hop : op.isCalm) (t : Ty) (args : List Operand) : Calm (do
      let r ← Lowering.newTemp t
      Lowering.emit op (some r) args
      return .temp r : Lower Operand) :=
  bind (newTemp t) fun _ => bind (emit hop _ args) fun _ => pure _

/-- A move to a new temporary. -/
theorem moved (t : Ty) (x : Operand) : Calm (do
      let r ← Lowering.newTemp t
      Lowering.emit .move none [.temp r, x]
      return .temp r : Lower Operand) :=
  bind (newTemp t) fun _ => bind (emit rfl _ _) fun _ => pure _

end Calm

theorem lookup_calm (name : String) : Calm (lookup name) := by
  refine Calm.of_block fun s v s' h => ?_
  rw [(lookup_ok h).2]

theorem lookupGlobal_calm (name : String) : Calm (lookupGlobal env name) := by
  refine Calm.of_block fun s g s' h => ?_
  rw [(lookupGlobal_ok h).2]

theorem convert_calm (x : Operand) (t : Ty) : Calm (convert env x t) := by
  unfold convert
  split
  · exact Calm.pure _
  · exact Calm.moved t x

theorem emitBinary_calm {op : Opcode} (hop : op.isCalm) (l r : Operand) : Calm (emitBinary env op l r) :=
  Calm.result hop _ _

theorem readName_calm (name : String) : Calm (readName env name) := by
  refine Calm.bind (lookup_calm name) fun v => ?_
  split
  · exact Calm.moved _ _
  · refine Calm.bind (lookupGlobal_calm name) fun g => ?_
    split
    · exact Calm.bind (Calm.result rfl _ _) fun _ => Calm.result rfl _ _
    · refine Calm.bind (Calm.of_block fun s f s' h => by rw [(lookupFunc_ok h).2]) fun f => ?_
      split
      · exact Calm.result rfl _ _
      · exact Calm.fail _

theorem assignName_calm (name : String) (value : Operand) : Calm (assignName env name value) := by
  refine Calm.bind (lookup_calm name) fun v => ?_
  split
  · exact Calm.bind (Calm.emit rfl _ _) fun _ => Calm.pure _
  · refine Calm.bind (lookupGlobal_calm name) fun g => ?_
    split
    · refine Calm.bind (convert_calm _ _) fun x => Calm.bind (Calm.result rfl _ _) fun a => ?_
      exact Calm.bind (Calm.emit rfl _ _) fun _ => Calm.pure _
    · exact Calm.fail _

theorem addressOfName_calm (name : String) : Calm (addressOfName env name) := by
  intro s x s' h
  rcases addressOfName_ok h with ⟨v, t, -, -, -, hcode⟩ | ⟨-, g, t, -, -, -, hcode⟩
  · exact ⟨_, hcode, by simp [Opcode.isCalm]⟩
  · exact ⟨_, hcode, by simp [Opcode.isCalm]⟩

theorem fieldPlace_calm (base : Operand) (name : String) (indirect : Bool) :
    Calm (fieldPlace env base name indirect) := by
  unfold fieldPlace
  dsimp only
  split
  · exact Calm.fail _
  · refine Calm.bind (Calm.of_block fun s t s' h => by rw [(Lower.get_ok h).2]) fun t => ?_
    split
    · exact Calm.fail _
    · exact Calm.bind (Calm.lift _) fun r => Calm.pure _

theorem elementPlace_calm (base i : Operand) : Calm (elementPlace env base i) := by
  unfold elementPlace
  split
  · exact Calm.pure _
  · dsimp only
    split
    · exact Calm.pure _
    · exact Calm.bind (emitBinary_calm rfl _ _) fun _ => Calm.pure _

theorem placeAddress_calm (p : Place) : Calm (placeAddress env p) := by
  refine Calm.bind (Calm.newTemp _) fun r => ?_
  split
  · exact Calm.bind (Calm.emit rfl _ _) fun _ => Calm.pure _
  · exact Calm.bind (Calm.emit rfl _ _) fun _ => Calm.pure _

theorem storeAt_calm (p : Place) (value : Operand) : Calm (storeAt env p value) :=
  Calm.bind (convert_calm _ _) fun _ => Calm.bind (Calm.emit rfl _ _) fun _ => Calm.pure _

theorem required_calm (hx : Calm x) : Calm (required x) := by
  refine Calm.bind hx fun v => ?_
  split
  · exact Calm.pure _
  · exact Calm.fail _

theorem some_calm {x : Lower Operand} (hx : Calm x) :
    Calm (do return some (← x) : Lower (Option Operand)) :=
  Calm.bind hx fun _ => Calm.pure _

/-- An operator that does not divide. -/
theorem ofOperator_calm {op : String} {code : Opcode} (h : Opcode.ofOperator? op = some code)
    (hop : op ≠ "/") : code.isCalm := by
  unfold Opcode.ofOperator? at h
  split at h <;> first
    | exact absurd rfl hop
    | (obtain rfl := Option.some.inj h; rfl)
    | cases h

/-- The place of a field, and what is done there. -/
theorem atField_calm {y : Lower Operand} (hx : Calm x) (hy : Calm y) (name : String)
    (indirect : Bool) (hf : ∀ p, Calm (f p)) :
    Calm (do
      let base ← Lower.within s!"field {name}" (if indirect then required x else y)
      let p ← fieldPlace env base name indirect
      f p) := by
  refine Calm.bind (Calm.within ?_ _) fun base => Calm.bind (fieldPlace_calm base name indirect) hf
  cases indirect with
  | true => exact required_calm hx
  | false => exact hy

/-- The place of an element, and what is done there. -/
theorem atElement_calm {y : Lower (Option Operand)} (hx : Calm x) (hy : Calm y) (hf : ∀ p, Calm (f p)) :
    Calm (do
      let base ← Lower.within "index base" (required x)
      Lower.lift (checkIndexable env.types base)
      let i ← Lower.within "index" (required y)
      let p ← elementPlace env base i
      f p) := by
  refine Calm.bind (Calm.within (required_calm hx) _) fun base => ?_
  refine Calm.bind (Calm.lift _) fun _ => ?_
  refine Calm.bind (Calm.within (required_calm hy) _) fun i => ?_
  exact Calm.bind (elementPlace_calm base i) hf

/-- The value that is assigned, and the store. -/
theorem stored_calm (hx : Calm x) (p : Place) : Calm (do
      let v ← Lower.within "assign" (required x)
      return some (← storeAt env p v) : Lower (Option Operand)) :=
  Calm.bind (Calm.within (required_calm hx) _) fun v => some_calm (storeAt_calm p v)

mutual

/-- An expression that neither calls nor divides comes to instructions after which the code goes
on. -/
theorem lowerExpr_calm (env : Env) : ∀ e : Expr, e.isTotal → Calm (lowerExpr env e)
  | .int _ value, _ => by
    unfold lowerExpr
    exact Calm.pure _
  | .str _ value, _ => by
    unfold lowerExpr
    refine Calm.bind (Calm.of_block fun s c s' h => ?_) fun _ => Calm.pure _
    obtain ⟨-, rfl⟩ := Prod.mk.inj (Except.ok.inj h)
    rfl
  | .ident _ name, _ => by
    unfold lowerExpr
    exact some_calm (readName_calm name)
  | .binary _ op left right, h => by
    have h : (op ≠ "/" ∧ left.isTotal) ∧ right.isTotal := by
      simpa [Expr.isTotal] using h
    unfold lowerExpr
    split
    · exact Calm.fail _
    next code hcode =>
      refine Calm.bind (Calm.within (required_calm (lowerExpr_calm env left h.1.2)) _) fun l => ?_
      refine Calm.bind (Calm.within (required_calm (lowerExpr_calm env right h.2)) _) fun r => ?_
      exact some_calm (emitBinary_calm (ofOperator_calm hcode h.1.1) l r)
  | .unary _ op x, h => by
    have h : x.isTotal := by simpa [Expr.isTotal] using h
    unfold lowerExpr
    split
    · exact some_calm (lowerAddress_calm env x h)
    · split
      · split
        · exact Calm.pure _
        · refine Calm.bind (required_calm (lowerExpr_calm env x h)) fun v => ?_
          exact some_calm (emitBinary_calm rfl _ _)
      · exact Calm.fail _
  | .assign _ target value, h => by
    obtain ⟨htarget, hvalue⟩ : target.isTotal ∧ value.isTotal := by
      simpa [Expr.isTotal] using h
    have hvalue := lowerExpr_calm env value hvalue
    unfold lowerExpr
    split
    next name =>
      refine Calm.bind (Calm.within (required_calm hvalue) _) fun v => ?_
      exact some_calm (assignName_calm name v)
    next x name indirect =>
      have hx : x.isTotal := by simpa [Expr.isTotal] using htarget
      exact atField_calm (lowerExpr_calm env x hx) (lowerAddress_calm env x hx) name indirect
        (stored_calm hvalue)
    next x i =>
      have hx : x.isTotal ∧ i.isTotal := by simpa [Expr.isTotal] using htarget
      exact atElement_calm (lowerExpr_calm env x hx.1) (lowerExpr_calm env i hx.2) (stored_calm hvalue)
    next => exact Calm.fail _
  | .index _ x i, h => by
    have h : x.isTotal ∧ i.isTotal := by simpa [Expr.isTotal] using h
    unfold lowerExpr
    exact atElement_calm (lowerExpr_calm env x h.1) (lowerExpr_calm env i h.2)
      fun p => some_calm (Calm.result rfl _ _)
  | .field _ x name indirect, h => by
    have h : x.isTotal := by simpa [Expr.isTotal] using h
    unfold lowerExpr
    exact atField_calm (lowerExpr_calm env x h) (lowerAddress_calm env x h) name indirect
      fun p => some_calm (Calm.result rfl _ _)
  | .cast _ type x, h => by
    have h : x.isTotal := by simpa [Expr.isTotal] using h
    unfold lowerExpr
    refine Calm.bind (Calm.within (Calm.of_block fun s t s' h => by rw [(typeOf_ok h).2]) _) fun t => ?_
    refine Calm.bind (Calm.within (Calm.lift _) _) fun _ => ?_
    refine Calm.bind (Calm.within (required_calm (lowerExpr_calm env x h)) _) fun v => ?_
    exact some_calm (Calm.moved t _)
  | .call _ _ _, h | .syscall _ _ _, h | .foreign _ _ _ _, h => by
    cases h

theorem lowerAddress_calm (env : Env) : ∀ e : Expr, e.isTotal → Calm (lowerAddress env e)
  | .ident _ name, _ => by
    unfold lowerAddress
    exact addressOfName_calm name
  | .field _ x name indirect, h => by
    have h : x.isTotal := by simpa [Expr.isTotal] using h
    unfold lowerAddress
    exact atField_calm (lowerExpr_calm env x h) (lowerAddress_calm env x h) name indirect placeAddress_calm
  | .index _ x i, h => by
    have h : x.isTotal ∧ i.isTotal := by simpa [Expr.isTotal] using h
    unfold lowerAddress
    exact atElement_calm (lowerExpr_calm env x h.1) (lowerExpr_calm env i h.2) placeAddress_calm
  | .int _ _, _ | .str _ _, _ | .binary _ _ _ _, _ | .unary _ _ _, _ | .call _ _ _, _
  | .assign _ _ _, _ | .cast _ _ _, _ | .syscall _ _ _, _ | .foreign _ _ _ _, _ => by
    unfold lowerAddress
    exact Calm.fail _

end

end TreeAsm.Lowering
