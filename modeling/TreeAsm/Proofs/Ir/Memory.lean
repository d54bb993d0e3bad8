import TreeAsm.Proofs.Asm.Machine
import TreeAsm.Proofs.Ir.Exec
import TreeAsm.Proofs.Ir.Forms

/-!
# What the intermediate code does in memory

Here variables, global variables and strings have addresses, and what the code reads and writes is
bytes. Moving to or from a variable is an access to memory as much as `load` and `store` are, which
find their address by adding an offset to a base; each of the two is extended by its own type first,
as every value is. Accesses are written down, the latest first. Calls do whatever the surroundings
say (`World`). An instruction after which the code does not simply go on has no outcome: a division
that faults, a call that does not come back, a jump.

Instructions that have the forms of lowered ones, that read only what has been written and that
neither divide nor call always go on (`World.run_goes_on`).
-/

namespace TreeAsm.Ir

theorem wrap_wrap (u : Universe) (t : Ty) (v : Int) : u.wrap t (u.wrap t v) = u.wrap t v :=
  wrapTo_wrapTo Nat.le.refl _ _ v

/-- An access to memory. -/
inductive Access where
  | read (a : BitVec 64)
  | write (a : BitVec 64)
  deriving DecidableEq, Repr

/-- The values of the temporaries that have one, the memory, and the accesses to it so far, the
latest first. -/
structure Snapshot where
  temps : Nat → Option Int
  memory : Asm.Memory
  accesses : List Access

namespace Snapshot

/-- Gives a temporary a value. -/
def setTemp (σ : Snapshot) (id : Nat) (v : Int) : Snapshot :=
  { σ with temps := fun i => if i = id then some v else σ.temps i }

/-- Every temporary that some code writes has a value. -/
def Holds (σ : Snapshot) (code : List Instr) : Prop :=
  ∀ i ∈ code, ∀ id, i.writes id = true → (σ.temps id).isSome = true

end Snapshot

/-- What code runs in: the types, where variables and symbols are, what a string is worth, and what a
call or a system call with some operands returns and leaves in memory, if it comes back. -/
structure World where
  types : Universe
  locals : Nat → BitVec 64
  symbols : String → BitVec 64
  strings : StringConst → Int
  call : Instr → List Int → Asm.Memory → Option (Int × Asm.Memory)

namespace World

variable (w : World)

/-- The value of a type at an address. -/
def contents (memory : Asm.Memory) (a : BitVec 64) (t : Ty) : Int :=
  w.types.wrap t (memory.load (w.types.width t) a).toNat

/-- The value of an operand, if it has one. -/
def value (σ : Snapshot) : Operand → Option Int
  | .temp t => σ.temps t.id
  | .int v t => some (w.types.wrap t v.toInt)
  | .str c => some (w.strings c)
  | _ => none

/-- Reads a value of a type at an address into a temporary. -/
def read (σ : Snapshot) (a : BitVec 64) (type : Ty) (t : Temp) : Snapshot :=
  { σ.setTemp t.id (w.types.wrap t.type (w.contents σ.memory a type)) with
    accesses := .read a :: σ.accesses }

/-- Writes a value as one of a type to an address. -/
def write (σ : Snapshot) (a : BitVec 64) (type : Ty) (v : Int) : Snapshot :=
  { σ with
    memory := σ.memory.store a (BitVec.ofInt (w.types.width type) v)
    accesses := .write a :: σ.accesses }

/-- Gives the temporary of a result, if there is one, its value. -/
def setResult (σ : Snapshot) (result : Option Temp) (v : Int) : Snapshot :=
  match result with
  | none => σ
  | some t => σ.setTemp t.id (w.types.wrap t.type v)

/-- Leaves it to the surroundings what an instruction does with the values of its operands. -/
def leave (i : Instr) (args : List Operand) (σ : Snapshot) : Option Snapshot := do
  let values ← args.mapM (w.value σ)
  let (v, memory) ← w.call i values σ.memory
  return w.setResult { σ with memory } i.result v

/-- What an instruction leaves behind, if the code goes on after it. -/
def act (i : Instr) (σ : Snapshot) : Option Snapshot :=
  match i.op, i.result, i.args with
  | .move, none, [.temp t, .var v] => some (w.read σ (w.locals v.index) v.type t)
  | .move, none, [.temp t, x] => do
    let a ← w.value σ x
    return σ.setTemp t.id (w.types.wrap t.type a)
  | .move, none, [.var v, x] => do
    let a ← w.value σ x
    return w.write σ (w.locals v.index) v.type a
  | .load, some t, [base, offset] => do
    let a ← w.value σ base
    let b ← w.value σ offset
    return w.read σ (BitVec.ofInt 64 (a + b)) t.type t
  | .store, none, [base, offset, x] => do
    let a ← w.value σ base
    let b ← w.value σ offset
    let v ← w.value σ x
    return w.write σ (BitVec.ofInt 64 (a + b)) x.type v
  | .addrOf, some t, [.var v] =>
    some (σ.setTemp t.id (w.types.wrap t.type (w.locals v.index).toNat))
  | .addrOf, some t, [.symbol name] =>
    some (σ.setTemp t.id (w.types.wrap t.type (w.symbols name).toNat))
  | .call, _, .symbol _ :: args => w.leave i args σ
  | .syscall, some _, args => w.leave i args σ
  | op, some t, [x, y] => do
    let a ← w.value σ x
    let b ← w.value σ y
    match compute w.types op x.type y.type t.type a b with
    | .value v => return σ.setTemp t.id v
    | _ => none
  | _, _, _ => none

/-- What instructions one after the other leave behind, if the code goes on after each. -/
def run (code : List Instr) (σ : Snapshot) : Option Snapshot :=
  code.foldlM (fun σ i => w.act i σ) σ

variable {w} {σ σ' : Snapshot} {i : Instr} {code more : List Instr}

theorem run_append (code more : List Instr) (σ : Snapshot) :
    w.run (code ++ more) σ = (w.run code σ).bind (w.run more) := List.foldlM_append

theorem run_cons (i : Instr) (code : List Instr) (σ : Snapshot) :
    w.run (i :: code) σ = (w.act i σ).bind (w.run code) := List.foldlM_cons

theorem run_singleton (i : Instr) (σ : Snapshot) : w.run [i] σ = w.act i σ := by
  rw [run_cons]
  cases w.act i σ <;> rfl

/-! ## Temporaries -/

theorem setTemp_of_ne (σ : Snapshot) {id k : Nat} (hk : k ≠ id) (v : Int) :
    (σ.setTemp id v).temps k = σ.temps k := by
  simp [Snapshot.setTemp, hk]

/-- The results of operations are in the range of their type, unless this has less than two bits. -/
theorem compute_inRange {u : Universe} {op : Opcode} {l r t : Ty} {a b v : Int}
    (h : compute u op l r t a b = .value v) (ht : 1 < u.width t) : u.wrap t v = v := by
  by_cases hcompare : op.isCompare
  · have htruth : ∀ c signed : Bool, wrapTo 2 signed (if c then 1 else 0) = if c then 1 else 0 := by
      decide
    rw [compute_compare u hcompare, Computed.value.injEq] at h
    rw [← h]
    exact wrapTo_of_le ht (htruth _ _)
  · unfold compute at h
    split at h <;> first
      | exact absurd rfl hcompare
      | exact (Computed.value.inj h) ▸ wrap_wrap u t _
      | cases h
      | split at h
    · exact (Computed.value.inj h) ▸ wrap_wrap u t _
    · cases h

/-- The temporaries after an instruction: it gives its target a value in the range of its type and keeps
the others. -/
structure Sets (w : World) (i : Instr) (σ σ' : Snapshot) : Prop where
  target : ∀ id, i.target? = some id → ∃ t v, t.id = id ∧ (i.result = some t ∨ .temp t ∈ i.args) ∧
    σ'.temps id = some v ∧ (1 < w.types.width t.type → w.types.wrap t.type v = v)
  others : ∀ id, i.target? ≠ some id → σ'.temps id = σ.temps id

variable {memory : Asm.Memory} {accesses : List Access}

theorem sets_target {t : Temp} (htarget : i.target? = some t.id)
    (ht : i.result = some t ∨ .temp t ∈ i.args) {v : Int}
    (hv : 1 < w.types.width t.type → w.types.wrap t.type v = v) :
    Sets w i σ ⟨(σ.setTemp t.id v).temps, memory, accesses⟩ := by
  refine ⟨fun id hid => ?_, fun id hid => ?_⟩
  · rw [htarget, Option.some.injEq] at hid
    exact ⟨t, v, hid, ht, if_pos hid.symm, hv⟩
  · exact setTemp_of_ne σ (fun he => hid (by rw [htarget, he])) v

theorem sets_nothing (htarget : i.target? = none) : Sets w i σ ⟨σ.temps, memory, accesses⟩ :=
  ⟨fun id hid => absurd hid (by simp [htarget]), fun _ _ => rfl⟩

theorem leave_sets {args : List Operand} (hresult : i.target? = i.result.map (·.id))
    (hact : w.leave i args σ = some σ') : Sets w i σ σ' := by
  obtain ⟨values, -, hact⟩ := Option.bind_eq_some_iff.mp hact
  obtain ⟨⟨v, memory⟩, -, hact⟩ := Option.bind_eq_some_iff.mp hact
  cases hact
  unfold setResult
  split
  next hnone => exact sets_nothing (by rw [hresult, hnone]; rfl)
  next t hsome =>
    exact sets_target (by rw [hresult, hsome]; rfl) (.inl hsome) fun _ => wrap_wrap _ _ _

/-- An instruction changes the temporary that it writes and no other. -/
theorem act_sets (hact : w.act i σ = some σ') : Sets w i σ σ' := by
  obtain ⟨op, result, args⟩ := i
  unfold act at hact
  -- one case for each way to act, in the order of the definition
  split at hact
  next t v hop hresult hargs =>
    subst hop hresult hargs
    cases hact
    exact sets_target rfl (.inr List.mem_cons_self) fun _ => wrap_wrap _ _ _
  next t x hop hresult hargs =>
    subst hop hresult hargs
    obtain ⟨a, -, hact⟩ := Option.bind_eq_some_iff.mp hact
    cases hact
    exact sets_target rfl (.inr List.mem_cons_self) fun _ => wrap_wrap _ _ _
  next v x hop hresult hargs =>
    subst hop hresult hargs
    obtain ⟨a, -, hact⟩ := Option.bind_eq_some_iff.mp hact
    cases hact
    exact sets_nothing rfl
  next t base offset hop hresult hargs =>
    subst hop hresult hargs
    obtain ⟨a, -, hact⟩ := Option.bind_eq_some_iff.mp hact
    obtain ⟨b, -, hact⟩ := Option.bind_eq_some_iff.mp hact
    cases hact
    exact sets_target rfl (.inl rfl) fun _ => wrap_wrap _ _ _
  next base offset x hop hresult hargs =>
    subst hop hresult hargs
    obtain ⟨a, -, hact⟩ := Option.bind_eq_some_iff.mp hact
    obtain ⟨b, -, hact⟩ := Option.bind_eq_some_iff.mp hact
    obtain ⟨v, -, hact⟩ := Option.bind_eq_some_iff.mp hact
    cases hact
    exact sets_nothing rfl
  next t v hop hresult hargs =>
    subst hop hresult hargs
    cases hact
    exact sets_target rfl (.inl rfl) fun _ => wrap_wrap _ _ _
  next t name hop hresult hargs =>
    subst hop hresult hargs
    cases hact
    exact sets_target rfl (.inl rfl) fun _ => wrap_wrap _ _ _
  next name operands hop hargs =>
    subst hop hargs
    exact leave_sets (by cases result <;> rfl) hact
  next t hop hresult =>
    subst hop hresult
    exact leave_sets rfl hact
  next t x y hresult hargs _ _ _ =>
    subst hresult hargs
    obtain ⟨a, -, hact⟩ := Option.bind_eq_some_iff.mp hact
    obtain ⟨b, -, hact⟩ := Option.bind_eq_some_iff.mp hact
    split at hact
    next v hv =>
      cases hact
      exact sets_target rfl (.inl rfl) (compute_inRange hv)
    next => cases hact
  next => cases hact

/-- A temporary that no instruction writes keeps its value. -/
theorem run_keeps {id : Nat} (hid : ∀ i ∈ code, i.writes id = false)
    (hrun : w.run code σ = some σ') : σ'.temps id = σ.temps id := by
  induction code generalizing σ with
  | nil =>
    cases hrun
    rfl
  | cons i code ih =>
    rw [run_cons] at hrun
    obtain ⟨σ1, hact, hrun⟩ := Option.bind_eq_some_iff.mp hrun
    rw [ih (fun j hj => hid j (List.mem_cons_of_mem _ hj)) hrun]
    refine (act_sets hact).others id fun htarget => ?_
    have hwrites := hid i (List.mem_cons_self ..)
    simp [Instr.writes, htarget] at hwrites

/-- After an instruction its target has a value as well. -/
theorem act_holds (hσ : σ.Holds code) (hact : w.act i σ = some σ') : σ'.Holds (code ++ [i]) := by
  have hsets := act_sets hact
  intro j hj id hid
  by_cases htarget : i.target? = some id
  · obtain ⟨_, v, -, -, hv, -⟩ := hsets.target id htarget
    exact Option.isSome_iff_exists.mpr ⟨v, hv⟩
  · rw [hsets.others id htarget]
    rcases List.mem_append.mp hj with hj | hj
    · exact hσ j hj id hid
    · rw [List.mem_singleton.mp hj] at hid
      exact absurd (by simpa [Instr.writes] using hid) htarget

theorem run_holds (hσ : σ.Holds code) (hrun : w.run more σ = some σ') : σ'.Holds (code ++ more) := by
  induction more generalizing σ code with
  | nil =>
    cases hrun
    rwa [List.append_nil]
  | cons i more ih =>
    rw [run_cons] at hrun
    obtain ⟨σ1, hact, hrun⟩ := Option.bind_eq_some_iff.mp hrun
    rw [List.append_cons]
    exact ih (act_holds hσ hact) hrun

end World

/-! ## Code that goes on -/

/-- Whether the code always goes on after an operation on values. -/
def Opcode.isCalm : Opcode → Bool
  | .move | .add | .sub | .mul | .and | .eq | .ne | .lt | .le | .gt | .ge => true
  | .load | .store | .addrOf => true
  | _ => false

theorem isBinary_ne_move {op : Opcode} (h : op.isBinary) : op ≠ .move := by
  rintro rfl
  cases h

/-- A lowered instruction reads the temporaries among its operands, apart from what it moves to. -/
theorem Instr.Form.readsTemp_of_mem {i : Instr} (h : i.Form) {t : Temp}
    (ht : .temp t ∈ (if i.op = .move then i.args.drop 1 else i.args)) : i.readsTemp t.id := by
  have hreads : i.reads = .ok (if i.op = .move then i.args.drop 1 else i.args) := by
    cases h with
    | binary hop =>
      unfold Instr.reads
      rw [if_neg (isBinary_ne_move hop), if_neg (isBinary_ne_move hop)]
    | _ => rfl
  unfold Instr.readsTemp
  rw [hreads]
  exact List.any_eq_true.mpr ⟨_, ht, by simp [Operand.temp?]⟩

namespace World

variable {w : World} {σ σ' : Snapshot} {i : Instr} {code more : List Instr}

/-- A lowered value is there, if it is a number, a string or a temporary that has one. -/
theorem value_of_fit {x : Operand} (hx : x.Fit)
    (htemp : ∀ t, x = .temp t → (σ.temps t.id).isSome) : ∃ v, w.value σ x = some v := by
  cases x with
  | temp t => exact Option.isSome_iff_exists.mp (htemp t rfl)
  | int v t => exact ⟨_, rfl⟩
  | str c => exact ⟨_, rfl⟩
  | var _ | outer _ _ | symbol _ | label _ => exact absurd hx id

theorem act_moveTemp {x : Operand} (hx : x.Fit) (t : Temp) : w.act ⟨.move, none, [.temp t, x]⟩ σ =
      (w.value σ x).bind fun a => some (σ.setTemp t.id (w.types.wrap t.type a)) := by
  cases x with
  | temp _ | int _ _ | str _ => rfl
  | var _ | outer _ _ | symbol _ | label _ => exact absurd hx id

theorem act_binary {op : Opcode} (hop : op.isBinary) (t : Temp) (x y : Operand) :
    w.act ⟨op, some t, [x, y]⟩ σ = (w.value σ x).bind fun a => (w.value σ y).bind fun b =>
        match compute w.types op x.type y.type t.type a b with
        | .value v => some (σ.setTemp t.id v)
        | _ => none := by
  cases op <;> first
    | rfl
    | cases hop

theorem compute_calm {u : Universe} {op : Opcode} (hop : op.isBinary)
    (hcalm : op.isCalm) (l r t : Ty) (a b : Int) : ∃ v, compute u op l r t a b = .value v := by
  cases op <;> first
    | exact ⟨_, rfl⟩
    | exact absurd hop Bool.false_ne_true
    | cases hcalm

/-- The code goes on after a lowered instruction that neither divides nor calls. -/
theorem act_goes_on (hform : i.Form) (hcalm : i.op.isCalm)
    (hreads : ∀ id, i.readsTemp id → (σ.temps id).isSome) : ∃ σ', w.act i σ = some σ' := by
  have hvalue : ∀ x ∈ (if i.op = .move then i.args.drop 1 else i.args), x.Fit →
      ∃ v, w.value σ x = some v := by
    intro x hx hfit
    refine value_of_fit hfit fun t ht => hreads t.id ?_
    rw [ht] at hx
    exact hform.readsTemp_of_mem hx
  cases hform with
  | @moveTemp t x _ hx =>
    obtain ⟨a, ha⟩ := hvalue x (by simp) hx
    exact ⟨_, by rw [act_moveTemp hx, ha]; rfl⟩
  | loadVar => exact ⟨_, rfl⟩
  | @moveVar v x _ hx =>
    obtain ⟨a, ha⟩ := hvalue x (by simp) hx
    exact ⟨_, by simp only [act, ha]; rfl⟩
  | @binary op t x y hop _ hx hy =>
    have hmove := isBinary_ne_move hop
    obtain ⟨a, ha⟩ := hvalue x (by simp [hmove]) hx
    have hright : ∃ b, w.value σ y = some b := by
      rcases hy with hy | ⟨-, n, rfl⟩
      · exact hvalue y (by simp [hmove]) hy
      · exact ⟨_, rfl⟩
    obtain ⟨b, hb⟩ := hright
    obtain ⟨v, hv⟩ := compute_calm (u := w.types) hop hcalm x.type y.type t.type a b
    exact ⟨_, by rw [act_binary hop, ha, hb, Option.bind_some, Option.bind_some, hv]⟩
  | @load t base offset _ hbase hoffset =>
    obtain ⟨a, ha⟩ := hvalue base (by simp) hbase
    obtain ⟨b, hb⟩ := hvalue offset (by simp) hoffset
    exact ⟨_, by simp only [act, ha, hb]; rfl⟩
  | @store base offset x hbase hoffset hx =>
    obtain ⟨a, ha⟩ := hvalue base (by simp) hbase
    obtain ⟨b, hb⟩ := hvalue offset (by simp) hoffset
    obtain ⟨v, hv⟩ := hvalue x (by simp) hx
    exact ⟨_, by simp only [act, ha, hb, hv]; rfl⟩
  | addrVar => exact ⟨_, rfl⟩
  | addrSymbol => exact ⟨_, rfl⟩
  | call | syscall | retNothing | ret | jump | cjump => cases hcalm

/-- Lowered code that neither divides nor calls goes on to its end, if what it reads has been written
before. -/
theorem run_goes_on (hcovered : Covered (code ++ more))
    (hcode : ∀ i ∈ more, i.Form ∧ i.op.isCalm) (hσ : σ.Holds code) :
    ∃ σ', w.run more σ = some σ' := by
  -- by induction on what is still to run: what has run so far covers the next instruction
  induction more generalizing σ code with
  | nil => exact ⟨σ, rfl⟩
  | cons i more ih =>
    obtain ⟨hform, hcalm⟩ := hcode i (List.mem_cons_self ..)
    have hreads : ∀ id, i.readsTemp id → (σ.temps id).isSome := by
      intro id hid
      obtain ⟨j, hj, hwrites⟩ := hcovered code i more rfl id hid
      exact hσ j hj id hwrites
    obtain ⟨σ1, hact⟩ : ∃ σ1, w.act i σ = some σ1 := act_goes_on hform hcalm hreads
    rw [List.append_cons] at hcovered
    obtain ⟨σ', hrun⟩ := ih hcovered (fun j hj => hcode j (List.mem_cons_of_mem _ hj)) (act_holds hσ hact)
    exact ⟨σ', by rw [run_cons, hact]; exact hrun⟩

end World

/-! ## Pointers -/

/-- On a machine of 64 bits a pointer loses nothing of an address. -/
theorem ofInt_wrap_ptr {u : Universe} (hptr : u.ptrBits = 64) (t : Ty) (v : Int) :
    BitVec.ofInt 64 (u.wrap (.ptr t) v) = BitVec.ofInt 64 v := by
  have hwidth : u.width (.ptr t) = 64 := by
    show u.ptrBits.toInt.toNat = 64
    rw [hptr]
    rfl
  unfold Universe.wrap
  rw [hwidth]
  exact ofInt_wrapTo Nat.le.refl _ v

namespace World

variable {w : World} {σ σ' σ1 : Snapshot} {code more : List Instr} {x y : Operand} {a b : BitVec 64}

/-- Code leaves a pointer to an address in an operand. -/
def Points (w : World) (code : List Instr) (x : Operand) (σ : Snapshot) (a : BitVec 64) : Prop :=
  ∃ σ' v, w.run code σ = some σ' ∧ w.value σ' x = some v ∧ BitVec.ofInt 64 v = a

/-- The last access of code reads at an address, and what is there is left in an operand. -/
def Reads (w : World) (code : List Instr) (x : Operand) (σ : Snapshot) (a : BitVec 64) : Prop :=
  ∃ σ', w.run code σ = some σ' ∧ σ'.accesses.head? = some (.read a) ∧
    w.value σ' x = some (w.contents σ'.memory a x.type)

theorem run_after (hrun : w.run code σ = some σ') (more : List Instr) :
    w.run (code ++ more) σ = w.run more σ' := by
  rw [run_append, hrun]
  rfl

theorem Points.after (hrun : w.run code σ = some σ') (hpoints : w.Points more x σ' a) :
    w.Points (code ++ more) x σ a := by
  obtain ⟨σ2, v, hmore, hv, ha⟩ := hpoints
  exact ⟨σ2, v, by rw [run_after hrun, hmore], hv, ha⟩

theorem Reads.after (hrun : w.run code σ = some σ') (hreads : w.Reads more x σ' a) :
    w.Reads (code ++ more) x σ a := by
  obtain ⟨σ2, hmore, hread, hv⟩ := hreads
  exact ⟨σ2, by rw [run_after hrun, hmore], hread, hv⟩

theorem Points.unique (ha : w.Points code x σ a) (hb : w.Points code x σ b) : a = b := by
  obtain ⟨σ1, v, hrun, hv, rfl⟩ := ha
  obtain ⟨σ2, v', hrun', hv', rfl⟩ := hb
  obtain rfl := Option.some.inj (hrun.symm.trans hrun')
  obtain rfl := Option.some.inj (hv.symm.trans hv')
  rfl

theorem Reads.unique (ha : w.Reads code x σ a) (hb : w.Reads code x σ b) : a = b := by
  obtain ⟨σ1, hrun, hread, -⟩ := ha
  obtain ⟨σ2, hrun', hread', -⟩ := hb
  obtain rfl := Option.some.inj (hrun.symm.trans hrun')
  simpa [hread] using hread'

/-- A pointer and a reading that agree after what they begin with agree. -/
theorem points_iff_reads (first : List Instr) {pointing reading : List Instr}
    (hagree : ∀ σ', w.run first σ = some σ' → ∃ a, w.Points pointing x σ' a ∧ w.Reads reading y σ' a)
    (a : BitVec 64) : w.Points (first ++ pointing) x σ a ↔ w.Reads (first ++ reading) y σ a := by
  -- either side has run what both begin with, and neither can come to a second address
  constructor
  · intro hpoints
    obtain ⟨σ2, v, hrun, -, -⟩ := id hpoints
    rw [run_append] at hrun
    obtain ⟨σ', hfirst, -⟩ := Option.bind_eq_some_iff.mp hrun
    obtain ⟨b, hb, hreads⟩ := hagree σ' hfirst
    rw [hpoints.unique (hb.after hfirst)]
    exact hreads.after hfirst
  · intro hreads
    obtain ⟨σ2, hrun, -, -⟩ := id hreads
    rw [run_append] at hrun
    obtain ⟨σ', hfirst, -⟩ := Option.bind_eq_some_iff.mp hrun
    obtain ⟨b, hb, hread⟩ := hagree σ' hfirst
    rw [hreads.unique (hread.after hfirst)]
    exact hb.after hfirst

/-- An operand keeps its value if no instruction writes to it. -/
theorem value_kept (hx : ∀ t, x = .temp t → ∀ i ∈ code, i.writes t.id = false)
    (hrun : w.run code σ = some σ') : w.value σ' x = w.value σ x := by
  cases x with
  | temp t => exact run_keeps (hx t rfl) hrun
  | _ => rfl

/-! ## Single accesses -/

theorem setTemp_value (σ : Snapshot) (t : Temp) (v : Int) :
    w.value (σ.setTemp t.id v) (.temp t) = some v := by
  simp [value, Snapshot.setTemp]

variable {t : Temp} {elem : Ty} {base offset : Operand}

theorem addrOf_points (hptr : w.types.ptrBits = 64) (ht : t.type = .ptr elem) (σ : Snapshot) :
    (∀ v, w.Points [⟨.addrOf, some t, [.var v]⟩] (.temp t) σ (w.locals v.index)) ∧
    ∀ name, w.Points [⟨.addrOf, some t, [.symbol name]⟩] (.temp t) σ (w.symbols name) := by
  have hpointer : ∀ a : BitVec 64, BitVec.ofInt 64 (w.types.wrap t.type a.toNat) = a := by
    intro a
    rw [ht, ofInt_wrap_ptr hptr, BitVec.ofInt_natCast, BitVec.ofNat_toNat, BitVec.setWidth_eq]
  exact ⟨fun v => ⟨_, _, rfl, setTemp_value σ t _, hpointer _⟩,
    fun name => ⟨_, _, rfl, setTemp_value σ t _, hpointer _⟩⟩

theorem moveTemp_points (hptr : w.types.ptrBits = 64) (ht : t.type = .ptr elem) (hx : x.Fit)
    {a : Int} (ha : w.value σ x = some a) :
    w.Points [⟨.move, none, [.temp t, x]⟩] (.temp t) σ (BitVec.ofInt 64 a) := by
  refine ⟨σ.setTemp t.id (w.types.wrap t.type a), w.types.wrap t.type a, ?_, setTemp_value σ t _, ?_⟩
  · rw [run_singleton, act_moveTemp hx, ha]
    rfl
  · rw [ht, ofInt_wrap_ptr hptr]

theorem add_points (hptr : w.types.ptrBits = 64) (ht : t.type = .ptr elem) {a b : Int}
    (ha : w.value σ x = some a) (hb : w.value σ y = some b) :
    w.Points [⟨.add, some t, [x, y]⟩] (.temp t) σ (BitVec.ofInt 64 (a + b)) := by
  refine ⟨σ.setTemp t.id (w.types.wrap t.type (a + b)), w.types.wrap t.type (a + b), ?_,
    setTemp_value σ t _, ?_⟩
  · rw [run_singleton, act_binary rfl, ha, hb]
    rfl
  · rw [ht, ofInt_wrap_ptr hptr]

theorem read_value (σ : Snapshot) (a : BitVec 64) (t : Temp) : w.value (w.read σ a t.type t) (.temp t) =
      some (w.contents (w.read σ a t.type t).memory a t.type) := by
  show (if t.id = t.id then some _ else _) = _
  rw [if_pos rfl]
  exact congrArg some (wrap_wrap _ _ _)

theorem load_reads {a b : Int} (ha : w.value σ base = some a) (hb : w.value σ offset = some b) (t : Temp) :
    w.Reads [⟨.load, some t, [base, offset]⟩] (.temp t) σ (BitVec.ofInt 64 (a + b)) := by
  refine ⟨w.read σ (BitVec.ofInt 64 (a + b)) t.type t, ?_, rfl, read_value σ _ t⟩
  rw [run_singleton]
  simp only [act, ha, hb]
  rfl

theorem moveVar_reads (σ : Snapshot) {v : Local} (ht : t.type = v.type) :
    w.Reads [⟨.move, none, [.temp t, .var v]⟩] (.temp t) σ (w.locals v.index) := by
  refine ⟨w.read σ (w.locals v.index) t.type t, ?_, rfl, read_value σ _ t⟩
  rw [run_singleton, ht]
  rfl

/-- What a store has written, and where. -/
theorem store_writes (hrun : w.run [⟨.store, none, [base, offset, x]⟩] σ = some σ') :
    ∃ a b v, w.value σ base = some a ∧ w.value σ offset = some b ∧ w.value σ x = some v ∧
      σ' = w.write σ (BitVec.ofInt 64 (a + b)) x.type v := by
  rw [run_singleton] at hrun
  obtain ⟨a, ha, hrun⟩ := Option.bind_eq_some_iff.mp hrun
  obtain ⟨b, hb, hrun⟩ := Option.bind_eq_some_iff.mp hrun
  obtain ⟨v, hv, hrun⟩ := Option.bind_eq_some_iff.mp hrun
  exact ⟨a, b, v, ha, hb, hv, (Option.some.inj hrun).symm⟩

end World

end TreeAsm.Ir
