import TreeAsm.Proofs.Emit.Ends

/-!
# Where control goes after a block

From the label of a block control goes straight through the lines of its instructions to those of the
one that ends it, and from there to the label that this one selects. Lines in between are instructions
like calls and writes through pointers too, whose outcome is left open: they may leave the machine in
any state (`Line.Passes`). All that counts is the state in which control comes to the end of the block,
and that what is stored there between a comparison and its jump leaves the flags alone.

The value of a condition is what the records of emission say (`Told`): the number that it is known to
be, or what is in its register or slot.
-/

namespace TreeAsm

namespace Asm

/-- An instruction that copies an operand. -/
def Line.isCopy : Line → Bool
  | .ins op _ => op.isCopy
  | _ => false

/-- An instruction that moves an operand. -/
def Line.isMove : Line → Bool
  | .ins op _ => op.isMove
  | _ => false

/-- Control goes on after an instruction as the machine does it. Where that is left open the state may
be any, but a copy keeps the flags. -/
def Line.Passes (x : Line) (m m' : Machine) : Prop :=
  x.exec m = .next m' ∨ x.exec m = .stuck ∧ x.isStraight = true ∧ (x.isCopy = true → m'.flags = m.flags)

/-- Control goes from the first of some lines to the one after the last. -/
def Through : List Line → Machine → Machine → Prop
  | [], m, m' => m = m'
  | x :: xs, m, m' => ∃ m1, x.Passes m m1 ∧ Through xs m1 m'

/-- From the first of some lines control comes to a label before any other. -/
inductive Arrives : List Line → Machine → String → Prop
  | label {l : String} {rest : List Line} {m : Machine} : Arrives (.label l :: rest) m l
  | next {x : Line} {rest : List Line} {m m' : Machine} {l : String} (hx : x.isIns = true)
      (hpass : x.Passes m m') (hrest : Arrives rest m' l) : Arrives (x :: rest) m l
  | jump {x : Line} {rest : List Line} {m m' : Machine} {l : String}
      (hx : x.exec m = .goto l m') : Arrives (x :: rest) m l

section

variable {m m' : Machine} {l l' : String} {x : Line} {xs rest : List Line} {op : Mnemonic}
  {args : List Operand}

/-! ## Lines that the next line follows -/

/-- Only jumps have targets. -/
theorem Effect.Targets.isJump (h : (effect op args).Targets l) : op ∈ [Mnemonic.jmp, .je, .jne] := by
  unfold Effect.Targets effect at h
  split at h
  all_goals first
    | exact List.mem_of_elem_eq_true rfl
    | (rcases h with h | h <;> first | cases h | (split at h <;> cases h))

theorem Line.exec_ne_goto (h : x.isStraight) : x.exec m ≠ .goto l m' := by
  cases x with
  | ins op args =>
    intro hgoto
    have hjump := (Machine.exec_targets hgoto).1.isJump
    simp only [List.mem_cons, List.not_mem_nil, or_false] at hjump
    rcases hjump with rfl | rfl | rfl <;> cases h
  | _ => nofun

/-- Control that comes through straight lines comes to the line after them first. -/
theorem arrives_straight (hxs : ∀ x ∈ xs, x.isStraight) :
    Arrives (xs ++ rest) m l ↔ ∃ m', Through xs m m' ∧ Arrives rest m' l := by
  induction xs generalizing m with
  | nil =>
    constructor
    · exact fun h => ⟨m, rfl, h⟩
    · rintro ⟨m', rfl, h⟩
      exact h
  | cons x xs ih =>
    have hx := hxs x (List.mem_cons_self ..)
    have ih := fun m => ih (m := m) fun y hy => hxs y (List.mem_cons_of_mem _ hy)
    constructor
    · intro h
      cases h with
      | label => cases hx
      | next _ hpass hrest =>
        obtain ⟨m', hthrough, harrives⟩ := (ih _).mp hrest
        exact ⟨m', ⟨_, hpass, hthrough⟩, harrives⟩
      | jump hgoto => exact absurd hgoto (Line.exec_ne_goto hx)
    · rintro ⟨m', ⟨m1, hpass, hthrough⟩, harrives⟩
      exact .next (Line.isIns_of_isStraight hx) hpass ((ih m1).mpr ⟨m', hthrough, harrives⟩)

theorem Operand.write_flags {w : Nat} {v : BitVec w} {d : Operand} (h : d.write m v = some m') :
    m'.flags = m.flags := by
  cases d with
  | reg r =>
    change (if width r.bits = w then some (m.setReg r.reg v) else none) = some m' at h
    split at h
    · cases h
      rfl
    · cases h
  | mem y =>
    change (if width y.bits = w then (y.address m).map fun a => m.setMem a v else none) = some m' at h
    split at h
    · obtain ⟨a, -, rfl⟩ := Option.map_eq_some_iff.mp h
      rfl
    · cases h
  | _ => cases h

/-- A move is done, or the machine does not have it; a copy keeps the flags. -/
theorem exec_move (hop : op.isMove) (args : List Operand) (m : Machine) : m.exec op args = .stuck ∨
      ∃ m', m.exec op args = .next m' ∧ (op.isCopy → m'.flags = m.flags) := by
  have hdone : ∀ {c : Bool} {o : Option Machine}, (∀ m', o = some m' → op.isCopy → m'.flags = m.flags) →
      (if c then Exit.stuck else .ofOption o) = .stuck ∨
        ∃ m', (if c then Exit.stuck else .ofOption o) = .next m' ∧ (op.isCopy → m'.flags = m.flags) := by
    intro c o ho
    cases c with
    | true => exact .inl rfl
    | false =>
      cases o with
      | none => exact .inl rfl
      | some m' => exact .inr ⟨m', rfl, ho m' rfl⟩
  have hextend : ∀ {c : Bool} {d s : Operand}, (if c then Exit.stuck else .ofOption
      (m.extend op d s)) = .stuck ∨ ∃ m', (if c then Exit.stuck else .ofOption
        (m.extend op d s)) = .next m' ∧ (op.isCopy → m'.flags = m.flags) := by
    intro c d s
    refine hdone fun m' hm' _ => ?_
    obtain ⟨signed, -, hm'⟩ := Option.bind_eq_some_iff.mp hm'
    obtain ⟨v, -, hm'⟩ := Option.bind_eq_some_iff.mp hm'
    exact Operand.write_flags hm'
  have hone : ∀ d, (∀ f, condition op f = none) → m.setIf op d = none := by
    intro d hcondition
    unfold Machine.setIf
    cases m.flags with
    | none => rfl
    | some f =>
      show (condition op f).bind _ = none
      rw [hcondition]
      rfl
  cases op with
  | mov =>
    match args with
    | [d, s] =>
      refine hdone fun m' hm' _ => ?_
      unfold Machine.copy at hm'
      split at hm'
      all_goals
        obtain ⟨v, -, hm'⟩ := Option.bind_eq_some_iff.mp hm'
        exact Operand.write_flags hm'
    | [d] => exact .inl (congrArg Exit.ofOption (hone d fun _ => rfl))
    | [] | _ :: _ :: _ :: _ => exact .inl rfl
  | xor =>
    match args with
    | [d, s] => exact hdone fun m' _ hcopy => absurd hcopy (by decide)
    | [d] => exact .inl (congrArg Exit.ofOption (hone d fun _ => rfl))
    | [] | _ :: _ :: _ :: _ => exact .inl rfl
  | lea =>
    match args with
    | [d] => exact .inl (congrArg Exit.ofOption (hone d fun _ => rfl))
    | [] | _ :: _ :: _ => exact .inl rfl
  | movsx | movsxd | movzx =>
    match args with
    | [] => exact .inl rfl
    | [d] =>
      have hnone := congrArg Exit.ofOption (hone d fun _ => rfl)
      cases d <;> exact .inl hnone
    | [d, s] =>
      cases d with
      | reg d => exact hextend
      | _ => exact .inl rfl
    | d :: _ :: _ :: _ => cases d <;> exact .inl rfl
  | _ => cases hop

/-- Control can go through moves from any state. -/
theorem through_moves (hxs : ∀ x ∈ xs, x.isMove) (m : Machine) : ∃ m', Through xs m m' := by
  induction xs generalizing m with
  | nil => exact ⟨m, rfl⟩
  | cons x xs ih =>
    have hpass : ∃ m1, x.Passes m m1 := by
      have hx := hxs x (List.mem_cons_self ..)
      cases x with
      | ins op args =>
        rcases exec_move hx args m with hstuck | ⟨m1, hm1, -⟩
        · exact ⟨m, .inr ⟨hstuck, Line.isStraight_of_isMove hx, fun _ => rfl⟩⟩
        · exact ⟨m1, .inl hm1⟩
      | _ => cases hx
    obtain ⟨m1, hm1⟩ := hpass
    obtain ⟨m', hm'⟩ := ih (fun y hy => hxs y (List.mem_cons_of_mem _ hy)) m1
    exact ⟨m', m1, hm1, hm'⟩

/-- After moves control is where it comes to from all states that they may leave. -/
theorem arrives_moves {P : Prop} (hxs : ∀ x ∈ xs, x.isMove)
    (h : ∀ m', Through xs m m' → (Arrives rest m' l ↔ P)) : Arrives (xs ++ rest) m l ↔ P := by
  have hstraight : ∀ x ∈ xs, x.isStraight := by
    intro x hx
    have hmove := hxs x hx
    cases x with
    | ins op args => exact Line.isStraight_of_isMove hmove
    | _ => cases hmove
  rw [arrives_straight hstraight]
  constructor
  · rintro ⟨m', hthrough, harrives⟩
    exact (h m' hthrough).mp harrives
  · intro hP
    obtain ⟨m', hthrough⟩ := through_moves hxs m
    exact ⟨m', hthrough, (h m' hthrough).mpr hP⟩

/-- Copies keep the flags. -/
theorem Through.flags (hxs : ∀ x ∈ xs, x.isCopy) (h : Through xs m m') : m'.flags = m.flags := by
  induction xs generalizing m with
  | nil => exact congrArg Machine.flags (Eq.symm h)
  | cons x xs ih =>
    obtain ⟨m1, hpass, hrest⟩ := h
    have hx := hxs x (List.mem_cons_self ..)
    refine (ih (fun y hy => hxs y (List.mem_cons_of_mem _ hy)) hrest).trans ?_
    rcases hpass with hnext | ⟨-, -, hkept⟩
    · cases x with
      | ins op args =>
        rcases exec_move (Mnemonic.isMove_of_isCopy hx) args m with hstuck | ⟨m', hm', hflags⟩
        · cases hstuck.symm.trans hnext
        · cases hm'.symm.trans hnext
          exact hflags hx
      | _ => cases hx
    · exact hkept hx

/-! ## Lines that the machine runs -/

theorem arrives_label : Arrives (.label l' :: rest) m l ↔ l = l' := by
  constructor
  · intro h
    cases h with
    | label => rfl
    | next hx _ _ => cases hx
    | jump hx => cases hx
  · rintro rfl
    exact .label

theorem arrives_of_next (hxs : ∀ x ∈ xs, x.isIns) (h : runLines xs m = .next m') :
    Arrives (xs ++ rest) m l ↔ Arrives rest m' l := by
  induction xs generalizing m with
  | nil =>
    cases h
    exact Iff.rfl
  | cons x xs ih =>
    have hx := hxs x (List.mem_cons_self ..)
    rw [runLines] at h
    cases hexec : x.exec m with
    | next m1 =>
      rw [hexec] at h
      rw [← ih (fun y hy => hxs y (List.mem_cons_of_mem _ hy)) h]
      constructor
      · intro harrives
        cases harrives with
        | label => cases hx
        | next _ hpass hrest =>
          rcases hpass with hnext | ⟨hstuck, -⟩
          · cases hexec.symm.trans hnext
            exact hrest
          · cases hexec.symm.trans hstuck
        | jump hgoto => cases hexec.symm.trans hgoto
      · exact .next hx (.inl hexec)
    | goto _ _ | fault | stuck =>
      rw [hexec] at h
      cases h

theorem arrives_of_goto (hx : x.isIns) (h : runLines [x] m = .goto l' m') :
    Arrives (x :: rest) m l ↔ l = l' := by
  have hexec : x.exec m = .goto l' m' := by
    rw [runLines] at h
    cases hexec : x.exec m with
    | next m1 =>
      rw [hexec] at h
      cases h
    | goto _ _ | fault | stuck =>
      rw [hexec] at h
      exact h
  constructor
  · intro harrives
    cases harrives with
    | label => cases hx
    | next _ hpass _ =>
      rcases hpass with hnext | ⟨hstuck, -⟩
      · cases hexec.symm.trans hnext
      · cases hexec.symm.trans hstuck
    | jump hgoto =>
      cases hexec.symm.trans hgoto
      rfl
  · rintro rfl
    exact .jump hexec

end

end Asm

namespace Emit

open Asm (Arrives Carries Line Reg Through runLines)
open Ir
open Emitter (bind_ok)

/-! ## Conditions -/

/-- The number that an operand is known to be. -/
def knownValue (s : State) : Ir.Operand → Option Int64
  | .int value _ => some value
  | .temp t => (s.const? t.id).map (·.value)
  | _ => none

/-- The value of a temporary by the records of emission: the number that it is known to be, or what
its register or slot carries. -/
def TempTold (env : Env) (s : State) (m : Asm.Machine) (a : Int) (t : Temp) : Prop :=
  match s.const? t.id, s.bound? t.id with
  | some c, _ => c.value.toInt = a
  | none, some r => env.types.isScalar t.type = true ∧
      Carries m (.reg ⟨r, workBits env.types t.type⟩) (isSigned t.type) a
  | none, none => env.types.isScalar t.type = true ∧ Carries m (.mem (tempSlot env t)) (isSigned t.type) a

/-- The value of a number, a temporary or a variable. Other operands have none. -/
def Told (env : Env) (s : State) (m : Asm.Machine) (a : Int) : Ir.Operand → Prop
  | .int value _ => value.toInt = a
  | .temp t => TempTold env s m a t
  | .var v => env.types.isScalar v.type = true ∧ ∃ disp, env.frame.localSlot? v = some disp ∧
      Carries m (.mem (slot disp (env.types.bits v.type))) (isSigned v.type) a
  | _ => False

section

variable {env : Env} {s : State} {m : Asm.Machine} {x : Ir.Operand} {a : Int}

theorem constOf_quiet (s : State) (x : Ir.Operand) : constOf x s = ⟨[], .ok (knownValue s x, s)⟩ := by
  cases x <;> rfl

theorem Told.known (h : Told env s m a x) {c : Int64} (hc : knownValue s x = some c) :
    (c != 0) = (a != 0) := by
  have hvalue : c.toInt = a := by
    cases x with
    | int value type =>
      cases hc
      exact h
    | temp t =>
      obtain ⟨const, hconst, rfl⟩ := Option.map_eq_some_iff.mp hc
      change TempTold env s m a t at h
      unfold TempTold at h
      rw [hconst] at h
      exact h
    | _ => cases hc
  have hzero : c = 0 ↔ a = 0 := by
    rw [← hvalue, ← Int64.toInt_inj]
    exact Iff.rfl
  rw [Bool.eq_iff_iff, bne_iff_ne, bne_iff_ne, Ne, Ne, hzero]

/-- No register is taken for the instruction at hand. -/
def Idle (env : Env) (s : State) : Prop := (Setting.loose env 0 fun _ => True).Working 0 s

theorem readTemp_told {t : Temp} (hs : Idle env s) (h : TempTold env s m a t)
    (hconst : s.const? t.id = none) :
    Runs False (readTemp env t) s m fun op _ m' =>
      op.isImm = false ∧ Carries m' op (isSigned t.type) a := by
  have hwork := workBits_isWork env.types t.type
  unfold TempTold at h
  rw [hconst] at h
  refine runs_constAt ?_
  rw [hconst]
  have hscalar : env.types.isScalar t.type := by
    cases hr : s.bound? t.id <;> rw [hr] at h <;> exact h.1
  refine runs_within (checkScalar_eq hscalar) ?_
  cases hbound : s.bound[t.id]? with
  | none => exact runs_noBound hbound
  | some o =>
    refine runs_boundAt hbound ?_
    have ho : s.bound? t.id = o := by rw [State.bound?, hbound]; rfl
    rw [ho] at h
    cases o with
    | some r => exact Runs.pure ⟨rfl, h.2⟩
    | none =>
      have husable : (Asm.Operand.mem (tempSlot env t)).Usable := ⟨isWidth_of_scalar hscalar, rfl⟩
      refine runs_takeSpare (Runs.pure ⟨rfl, h.2⟩) fun r p hp => ?_
      have hfree : r ∈ s.pool.free := by
        rw [take_free (takeSpare_eq hp).1]
        exact List.mem_cons_self
      have hscratch : r ∈ Asm.SysV.scratch := hs.1.holds.stock.subset (List.mem_append_left _ hfree)
      refine Runs.bind (Q := fun _ _ m' => (m'.regs r).setWidth (Asm.width (workBits env.types t.type))
            = BitVec.ofInt (Asm.width (workBits env.types t.type)) a)
        (Runs.within (runs_moveReg (general_of_scratch hscratch) hwork husable h.2
          fun m' _ hvalue => hvalue) _) ?_
      intro _ s' m' hvalue
      exact runs_modify (Runs.pure ⟨rfl, hvalue, InRange.atWork hscalar h.2.2⟩)

/-- What is read for a condition carries its value, and it is no number. -/
theorem condition_runs (hs : Idle env s) (h : Told env s m a x) (hopen : knownValue s x = none) :
    Runs False (operand env x) s m fun op _ m' =>
      op.isImm = false ∧ Carries m' op (isSigned x.type) a := by
  cases x with
  | temp t => exact readTemp_told hs h (Option.map_eq_none_iff.mp hopen)
  | var v =>
    obtain ⟨hscalar, disp, hdisp, hcarries⟩ := h
    have hslot : operand env (.var v) = pure (.mem (slot disp (env.types.bits v.type))) := by
      rw [operand_slot hdisp, scalarBits_eq hscalar]
    rw [hslot]
    exact Runs.pure ⟨rfl, hcarries⟩
  | int value type => cases hopen
  | _ => exact h.elim

/-! ## Ends of blocks -/

/-- The label after block `k`: that of the next block, or that of the end of the function. -/
def labelAfter (f : Func) (k : Nat) : String := ((f.blocks[k + 1]?).map (·.label)).getD endLabel

theorem labelAfter_of_index {f : Func} {k : Nat} {l : String}
    (h : f.blockIndex? l = some (k + 1)) : labelAfter f k = l := by
  obtain ⟨hlt, hlabel, -⟩ := List.findIdx?_eq_some_iff_getElem.mp h
  rw [labelAfter, List.getElem?_eq_getElem hlt]
  exact beq_iff_eq.mp hlabel

theorem labelAfter_of_last {f : Func} {k : Nat} (h : k + 1 = f.blocks.length) :
    labelAfter f k = endLabel := by
  rw [labelAfter, List.getElem?_eq_none (by omega)]
  rfl

variable {bi : Nat} {i : Instr} {p : Unit × State} {after : List Line} {l : String}

/-- A jump, or nothing if it is left out. -/
theorem arrives_jumpLine (c : Bool) (l' : String)
    (hafter : Arrives after m l ↔ l = labelAfter env.func bi) :
    Arrives ((Emitter.onlyIf c (Emitter.ins .jmp [.label l']) s).lines ++ after) m l
      ↔ l = if c then l' else labelAfter env.func bi := by
  cases c with
  | true => exact Asm.arrives_of_goto rfl (rfl : _ = Asm.Exit.goto l' m)
  | false => exact hafter

/-- What is stored at the end of a block is copied. -/
theorem flush_copies (hs : Idle env s) (h : (flush env bi s).result = .ok p) :
    ∀ x ∈ (flush env bi s).lines, x.isCopy :=
  (flush_keeps (σ := .loose env 0 fun x => x.isCopy) Setting.loose_ready
    (fun _ _ hop => hop) bi).uses.lines_of_ok rfl hs h

theorem flush_moves (hs : Idle env s) (h : (flush env bi s).result = .ok p) :
    ∀ x ∈ (flush env bi s).lines, x.isMove :=
  (flush_keeps (σ := .loose env 0 fun x => x.isMove) Setting.loose_ready
    (fun _ _ => Asm.Mnemonic.isMove_of_isCopy) bi).uses.lines_of_ok rfl hs h

variable {o : Option String}

theorem arrives_jump (hs : Idle env s) (h : (emitJump env bi i s).result = .ok p)
    (htarget : i.target = .ok o) (hafter : ∀ m, Arrives after m l ↔ l = labelAfter env.func bi) :
    Arrives ((emitJump env bi i s).lines ++ after) m l ↔ l = o.getD "" := by
  have hemit : emitJump env bi i s = (do
      flush env bi
      (env.func.blockIndex? (o.getD "")).elim (Emitter.fail (.noLabel (o.getD ""))) fun ti =>
        Emitter.onlyIf (ti != bi + 1) (Emitter.ins .jmp [.label (o.getD "")])) s := by
    have hlabel : Emitter.lift i.target s = ⟨[], .ok (o, s)⟩ := by
      rw [htarget]
      rfl
    refine (bind_quiet hlabel).trans ?_
    cases env.func.blockIndex? (o.getD "") <;> rfl
  rw [hemit] at h ⊢
  obtain ⟨_, s1, hflush, hjump, hlines⟩ := bind_ok h
  rw [hlines, List.append_assoc]
  refine Asm.arrives_moves (flush_moves hs hflush) fun m' _ => ?_
  cases hindex : env.func.blockIndex? (o.getD "") with
  | none =>
    rw [hindex] at hjump
    cases hjump
  | some ti =>
    refine (arrives_jumpLine _ _ (hafter m')).trans ?_
    by_cases hnext : ti = bi + 1
    · rw [if_neg (by simp [hnext]), labelAfter_of_index (hindex.trans (congrArg some hnext))]
    · rw [if_pos (by simp [hnext])]

theorem arrives_ret (hs : Idle env s)
    (h : (emitRet env bi (bi + 1 == env.func.blocks.length) i s).result = .ok p)
    (hafter : ∀ m, Arrives after m l ↔ l = labelAfter env.func bi) :
    Arrives ((emitRet env bi (bi + 1 == env.func.blocks.length) i s).lines ++ after) m l
      ↔ l = endLabel := by
  obtain ⟨_, s1, hreturn, hrest, hlines⟩ := bind_ok h
  obtain ⟨_, s2, hflush, -, hmore⟩ := bind_ok hrest
  have huses : Uses (.loose env 0 fun x => x.isMove) 0 (returnValue env i.args)
      (returnValue env i.args) (fun _ => 0) fun _ _ => True :=
    returnValue_uses Setting.loose_ready (fun _ _ hop => hop) (fun x _ => Setting.loose_reads x)
      fun h => h.elim
  have hvalue : ∀ x ∈ (returnValue env i.args s).lines, x.isMove :=
    huses.lines_of_ok rfl hs hreturn
  have hs1 : Idle env s1 := ((huses.gives rfl hs).of_ok hreturn).1
  have hsplit : (emitRet env bi (bi + 1 == env.func.blocks.length) i s).lines
      = (returnValue env i.args s).lines ++ ((flush env bi s1).lines ++ (Emitter.onlyIf
        (!(bi + 1 == env.func.blocks.length)) (Emitter.ins .jmp [.label endLabel]) s2).lines) :=
    hlines.trans (congrArg _ hmore)
  rw [hsplit, List.append_assoc, List.append_assoc]
  refine Asm.arrives_moves hvalue fun m' _ =>
    Asm.arrives_moves (flush_moves hs1 hflush) fun m'' _ => ?_
  refine (arrives_jumpLine _ _ (hafter m'')).trans ?_
  by_cases hlast : bi + 1 = env.func.blocks.length
  · rw [if_neg (by simp [hlast]), labelAfter_of_last hlast]
  · rw [if_pos (by simp [hlast])]

/-- A conditional jump goes where the value of its condition says. -/
theorem arrives_cjump (hs : Idle env s) (h : (emitCJump env bi i s).result = .ok p)
    (hx : i.args[0]? = some x) (htarget : i.target = .ok o) {n : Int64} {ty : Ty}
    (hn : i.args[2]? = some (.int n ty)) (htold : Told env s m a x)
    (hafter : ∀ m, Arrives after m l ↔ l = labelAfter env.func bi) :
    Arrives ((emitCJump env bi i s).lines ++ after) m l
      ↔ l = if (a != 0) == (n == 1) then o.getD "" else labelAfter env.func bi := by
  have harg : ∀ {j : Nat} {y : Ir.Operand}, i.args[j]? = some y → argOf i j s = ⟨[], .ok (y, s)⟩ := by
    intro j y hy
    show Emitter.lift (i.arg j) s = _
    rw [Instr.arg, hy]
    rfl
  have hemit : emitCJump env bi i s = ((knownValue s x).elim (do
        let op ← Emitter.within "condition" (operand env x)
        Emitter.ins .cmp [op, .imm ⟨0, op.size, false⟩]
        flush env bi
        Emitter.ins (if n == 1 then .jne else .je) [.label (o.getD "")]) fun c => do
        flush env bi
        Emitter.onlyIf ((c != 0) == (n == 1)) (Emitter.ins .jmp [.label (o.getD "")]) :
      Emitter Unit) s := by
    have hlabel : Emitter.lift i.target s = ⟨[], .ok (o, s)⟩ := by
      rw [htarget]
      rfl
    refine (bind_quiet (harg hx)).trans ((bind_quiet hlabel).trans
      ((bind_quiet (harg hn)).trans ((bind_quiet (constOf_quiet s x)).trans ?_)))
    cases knownValue s x <;> rfl
  rw [hemit] at h ⊢
  cases hknown : knownValue s x with
  | some c =>
    rw [hknown] at h
    obtain ⟨_, s1, hflush, -, hlines⟩ := bind_ok h
    rw [Option.elim_some, hlines, List.append_assoc, htold.known hknown]
    exact Asm.arrives_moves (flush_moves hs hflush) fun m' _ => arrives_jumpLine _ _ (hafter m')
  | none =>
    rw [hknown] at h
    obtain ⟨op, s1, hread, hrest, hlines⟩ := bind_ok h
    obtain ⟨_, s2, hcmp, hrest, hmore⟩ := bind_ok hrest
    obtain ⟨_, s3, hflush, hjump, hlast⟩ := bind_ok hrest
    have hsplit : _ ++ after = _ := congrArg (· ++ after)
      (hlines.trans (congrArg _ (hmore.trans (congrArg _ hlast))))
    rw [Option.elim_none, hsplit, List.append_assoc, List.append_assoc, List.append_assoc,
      Emitter.ins_lines hcmp, Emitter.ins_lines hjump]
    have huses := (operand_uses (σ := .loose env 0 fun y => y.isIns) (n := 0)
      Setting.loose_ready (fun _ _ _ => rfl) (Setting.loose_reads x)).within "condition"
    have hins : ∀ y ∈ (Emitter.within "condition" (operand env x) s).lines, y.isIns :=
      huses.lines_of_ok rfl hs hread
    have hs2 : Idle env s2 := by
      obtain rfl : s2 = s1 := (Emitter.write_ok hcmp).2
      exact ((huses.gives rfl hs).of_ok hread).1
    have hmeets := (condition_runs hs htold hknown).within "condition" op s1 hread
    cases hrun : runLines (Emitter.within "condition" (operand env x) s).lines m with
    | next m1 =>
      rw [hrun] at hmeets
      obtain ⟨himm, hcarries⟩ := hmeets
      obtain ⟨f, hcompare, hzero⟩ := compareZero_runs himm hcarries
      rw [Asm.arrives_of_next hins hrun, Asm.arrives_of_next (by simp [Line.isIns]) hcompare]
      refine Asm.arrives_moves (flush_moves hs2 hflush) fun m' hthrough => ?_
      -- what is stored in between leaves the flags of the comparison
      have hflags : m'.flags = some f := hthrough.flags (flush_copies hs2 hflush)
      have hbranch := jumpIf_runs hflags (n == 1) (o.getD "")
      rw [hzero] at hbranch
      cases htaken : (!(a == 0)) == (n == 1) with
      | true =>
        rw [htaken] at hbranch
        have hne : ((a != 0) == (n == 1)) := htaken
        rw [hne]
        exact Asm.arrives_of_goto rfl hbranch
      | false =>
        rw [htaken] at hbranch
        have hne : ((a != 0) == (n == 1)) = false := htaken
        rw [hne, Asm.arrives_of_next (by simp [Line.isIns]) hbranch]
        exact hafter m'
    | goto _ _ | fault | stuck =>
      rw [hrun] at hmeets
      exact hmeets.elim

/-- The label that the end of block `k` selects: the target of a jump, that of a conditional jump or the
next label by the value of the condition, the end of the function for a return, and the next label if
nothing ends the block. -/
inductive Selects (env : Env) (s : State) (m : Asm.Machine) (k : Nat) : List Instr → String → Prop
  | none : Selects env s m k [] (labelAfter env.func k)
  | jump {i : Instr} {o : Option String} (hop : i.op = .jump) (htarget : i.target = .ok o) :
      Selects env s m k [i] (o.getD "")
  | ret {i : Instr} (hop : i.op = .ret) : Selects env s m k [i] endLabel
  | cjump {i : Instr} {x : Ir.Operand} {o : Option String} {n : Int64} {ty : Ty} {a : Int}
      (hop : i.op = .cjump) (hx : i.args[0]? = some x) (htarget : i.target = .ok o)
      (hn : i.args[2]? = some (.int n ty)) (htold : Told env s m a x) :
      Selects env s m k [i] (if (a != 0) == (n == 1) then o.getD "" else labelAfter env.func k)

theorem releaseScratches_quiet (rs : List Reg) : Quiet (releaseScratches rs) := by
  induction rs with
  | nil => exact .pure ()
  | cons r rs ih => exact ((release_quiet r).within _).bind fun _ => ih

theorem releaseTemps_quiet (bi : Nat) (rest : List Instr) (ts : List Temp) :
    Quiet (releaseTemps env bi rest ts) := by
  induction ts with
  | nil => exact .pure ()
  | cons t ts ih =>
    refine Quiet.bind ((boundAt_quiet t.id).bind fun o => ?_) fun _ => ih
    cases o with
    | none => exact .pure ()
    | some r => exact .ite (.pure ()) (unbind_quiet t.id r)

/-- The lines of an instruction are those of its operation; registers are given back without any. -/
theorem emitNext_lines {rest : List Instr} (h : (emitNext env bi i rest s).result = .ok p) :
    ∃ q, (emitOp env bi (bi + 1 == env.func.blocks.length && rest.isEmpty) i
        { s with scratches := [] }).result = .ok q ∧
      (emitNext env bi i rest s).lines = (emitOp env bi
        (bi + 1 == env.func.blocks.length && rest.isEmpty) i { s with scratches := [] }).lines := by
  obtain ⟨_, s1, hinstr, -, hlines⟩ := bind_ok h
  obtain ⟨_, _, hmodify, hrest, hmore⟩ := bind_ok hinstr
  cases hmodify
  obtain ⟨_, s2, hop, -, hlast⟩ := bind_ok hrest
  refine ⟨_, hop, ?_⟩
  have hrelease : (releaseScratches s2.scratches s2).lines = [] := releaseScratches_quiet _ s2
  rw [releaseTemps_quiet bi rest (mentioned i) s1, List.append_nil] at hlines
  exact hlines.trans (hmore.trans (hlast.trans ((congrArg _ hrelease).trans (List.append_nil _))))

/-- From the end of a block control comes to the label that it selects. -/
theorem arrives_ending (hs : Settled env s) {label : String} {code : List Instr} {l' : String}
    (h : (emitCode env bi label code s).result = .ok p) (hselects : Selects env s m bi code l')
    (hafter : ∀ m, Arrives after m l ↔ l = labelAfter env.func bi) :
    Arrives ((emitCode env bi label code s).lines ++ after) m l ↔ l = l' := by
  have hlast : ∀ {i : Instr} {l' : String}, (emitCode env bi label [i] s).result = .ok p →
      (∀ {q : Unit × State},
        (emitOp env bi (bi + 1 == env.func.blocks.length) i { s with scratches := [] }).result = .ok q →
        (Arrives ((emitOp env bi (bi + 1 == env.func.blocks.length) i
          { s with scratches := [] }).lines ++ after) m l ↔ l = l')) →
      (Arrives ((emitCode env bi label [i] s).lines ++ after) m l ↔ l = l') := by
    intro i l' h hop
    obtain ⟨_, s1, hnext, -, hlines⟩ := bind_ok h
    obtain ⟨q, hq, hsplit⟩ := emitNext_lines (Asm.Text.within_ok hnext)
    have hcode : (emitCode env bi label [i] s).lines = (emitNext env bi i [] s).lines :=
      hlines.trans (List.append_nil _)
    have hend : (bi + 1 == env.func.blocks.length && ([] : List Instr).isEmpty)
        = (bi + 1 == env.func.blocks.length) := Bool.and_true _
    rw [hend] at hq hsplit
    rw [hcode, hsplit]
    exact hop hq
  have hidle : Idle env { s with scratches := [] } := ⟨hs.congr rfl rfl, Nat.le_refl 0⟩
  cases hselects with
  | none => exact hafter m
  | jump hop htarget =>
    refine hlast h fun hq => ?_
    unfold emitOp at hq ⊢
    rw [hop] at hq ⊢
    exact arrives_jump hidle hq htarget hafter
  | ret hop =>
    refine hlast h fun hq => ?_
    unfold emitOp at hq ⊢
    rw [hop] at hq ⊢
    exact arrives_ret hidle hq hafter
  | cjump hop hx htarget hn htold =>
    refine hlast h fun hq => ?_
    unfold emitOp at hq ⊢
    rw [hop] at hq ⊢
    exact arrives_cjump hidle hq hx htarget hn htold hafter

end

/-! ## Blocks -/

/-- What ends a block, if there is something: the code from the first terminator on. -/
def ending (code : List Instr) : List Instr := code.dropWhile fun i => !i.op.isTerminator

section

variable {env : Env} {s : State} {bi : Nat} {label : String} {p : Unit × State}

theorem allows_straight {i : Instr} (hterm : i.op.isTerminator = false) (hlabel : i.op ≠ .label) :
    Allows (fun l => l.isStraight) i := by
  refine ⟨fun _ h => h, fun hop => ?_, fun hop => ?_, fun hop => absurd hop hlabel⟩
  · rw [hop] at hterm
    cases hterm
  · rcases hop with hop | hop <;> rw [hop] at hterm <;> cases hterm

variable {code : List Instr} {m : Asm.Machine} {last : List Line}

/-- Control goes straight to the end of a block. -/
theorem emitCode_ending (hlabels : ∀ i ∈ code, i.op ≠ .label) (hreached : Reached env bi code s)
    (h : (emitCode env bi label code s).result = .ok p) :
    ∃ body s1, Reached env bi (ending code) s1 ∧ (∀ x ∈ body, x.isStraight) ∧
      (emitCode env bi label (ending code) s1).result = .ok p ∧ (emitCode env bi label code s).lines
        = body ++ (emitCode env bi label (ending code) s1).lines := by
  induction code generalizing s with
  | nil => exact ⟨[], s, hreached, fun _ hx => absurd hx List.not_mem_nil, h, rfl⟩
  | cons i rest ih =>
    cases hterm : i.op.isTerminator with
    | true =>
      have hhere : ending (i :: rest) = i :: rest := List.dropWhile_cons_of_neg (by simp [hterm])
      rw [hhere]
      exact ⟨[], s, hreached, fun _ hx => absurd hx List.not_mem_nil, h, rfl⟩
    | false =>
      have hlater : ending (i :: rest) = ending rest := List.dropWhile_cons_of_pos (by simp [hterm])
      rw [hlater]
      obtain ⟨_, s1, hnext, hrest, hlines⟩ := bind_ok h
      have hallows := allows_straight hterm (hlabels i List.mem_cons_self)
      obtain ⟨body, s2, hs2, hbody, hend, hmore⟩ :=
        ih (fun j hj => hlabels j (List.mem_cons_of_mem _ hj))
          (.instr hreached (Asm.Text.within_ok hnext)) hrest
      refine ⟨(emitNext env bi i rest s).lines ++ body, s2, hs2, fun x hx => ?_, hend, ?_⟩
      · rcases List.mem_append.mp hx with hx | hx
        · exact (emitNext_loose env bi hallows rest).lines_of_ok rfl hreached.settled
            (Asm.Text.within_ok hnext) x hx
        · exact hbody x hx
      · rw [List.append_assoc, ← hmore]
        exact hlines

/-- The lines of blocks are those of each block, one after the other, and each block is reached. -/
theorem emitBlocks_at {blocks : List Block} {k : Nat} {b : Block}
    (hblocks : env.func.blocks.drop bi = blocks)
    (hfirst : ∀ c, blocks.head? = some c → Reached env bi c.code s)
    (h : (emitBlocks env bi blocks s).result = .ok p) (hk : blocks[k]? = some b) :
    ∃ before s1 s2, Reached env (bi + k) b.code s1 ∧ (emitBlock env (bi + k) b s1).result = .ok ((), s2) ∧
      (emitBlocks env (bi + k + 1) (blocks.drop (k + 1)) s2).result = .ok p ∧
      (emitBlocks env bi blocks s).lines = before ++ ((emitBlock env (bi + k) b s1).lines ++
        (emitBlocks env (bi + k + 1) (blocks.drop (k + 1)) s2).lines) := by
  induction blocks generalizing bi k s with
  | nil => cases hk
  | cons c rest ih =>
    obtain ⟨_, s1, hc, hrest, hlines⟩ := bind_ok h
    cases k with
    | zero =>
      obtain rfl : c = b := Option.some.inj hk
      exact ⟨[], s, s1, hfirst c rfl, hc, hrest, hlines⟩
    | succ k =>
      have hdrop : env.func.blocks.drop (bi + 1) = rest := by
        rw [← List.drop_drop, hblocks]
        rfl
      have hnext : ∀ c', rest.head? = some c' → Reached env (bi + 1) c'.code s1 := by
        intro c' hc'
        obtain ⟨⟨t, ht, hend⟩, -⟩ := (emitBlock_reached (hfirst c rfl)).of_ok hc
        refine .block ht ?_ hend ?_
        · rw [← List.head?_drop, hblocks]
          rfl
        · rw [← List.head?_drop, hdrop, hc']
      obtain ⟨before, s2, s3, hreached, hb, hafter, hmore⟩ := ih hdrop hnext hrest hk
      have hshift : bi + 1 + k = bi + (k + 1) := by omega
      rw [hshift] at hreached hb hafter hmore
      refine ⟨(emitBlock env bi c s).lines ++ before, s2, s3, hreached, hb, hafter, ?_⟩
      rw [List.append_assoc, List.drop_succ_cons, ← hmore]
      exact hlines

/-- After a block comes the label of the next one, or that of the end. -/
theorem arrives_after {l : String}
    (h : (emitBlocks env (bi + 1) (env.func.blocks.drop (bi + 1)) s).result = .ok p)
    (hlast : ∀ m, Arrives last m l ↔ l = endLabel) :
    Arrives ((emitBlocks env (bi + 1) (env.func.blocks.drop (bi + 1)) s).lines ++ last) m l
      ↔ l = labelAfter env.func bi := by
  rw [labelAfter, ← List.head?_drop]
  cases hblocks : env.func.blocks.drop (bi + 1) with
  | nil => exact hlast m
  | cons b rest =>
    rw [hblocks] at h
    obtain ⟨_, s1, -, -, hlines⟩ := bind_ok h
    have hlabel : (emitBlocks env (bi + 1) (b :: rest) s).lines = .label b.label :: _ := hlines
    rw [hlabel]
    exact Asm.arrives_label

/-- Control goes through the lines of a block to its end, and from there to the label that the end
selects. -/
theorem arrives_block {b : Block} (hreached : Reached env bi b.code s)
    (hlabels : ∀ i ∈ b.code, i.op ≠ .label) (h : (emitBlock env bi b s).result = .ok p)
    (hlast : ∀ m l, Arrives last m l ↔ l = labelAfter env.func bi) :
    ∃ body rest s1 q, (emitBlock env bi b s).lines ++ last = .label b.label :: (body ++ rest) ∧
      Reached env bi (ending b.code) s1 ∧
      (emitCode env bi b.label (ending b.code) s1).result = .ok q ∧
      (∀ m l, Arrives (body ++ rest) m l ↔ ∃ m', Through body m m' ∧ Arrives rest m' l) ∧
      ∀ m l, Selects env s1 m bi (ending b.code) l → ∀ l', Arrives rest m l' ↔ l' = l := by
  obtain ⟨_, _, hwrite, hrest, hlines⟩ := bind_ok h
  cases hwrite
  obtain ⟨_, s2, hcode, hend, hmore⟩ := bind_ok hrest
  obtain ⟨body, s1, hs1, hbody, hending, hsplit⟩ := emitCode_ending hlabels hreached hcode
  have hmoves : ∀ x ∈ (endBlock env bi b s2).lines, x.isMove :=
    (endBlock_loose env (fun _ _ hop => hop) bi b).lines_of_ok rfl
      ((emitCode_reached b.label hreached).of_ok hcode).1.settled hend
  refine ⟨body, (emitCode env bi b.label (ending b.code) s1).lines ++
    ((endBlock env bi b s2).lines ++ last), s1, _, ?_, hs1, hending,
    fun m l => Asm.arrives_straight hbody, fun m l hselects l' => ?_⟩
  · have hblock : (emitBlock env bi b s).lines = .label b.label ::
        ((emitCode env bi b.label b.code s).lines ++ (endBlock env bi b s2).lines) :=
      hlines.trans (congrArg _ hmore)
    rw [hblock, hsplit, List.cons_append, List.append_assoc, List.append_assoc]
  · exact arrives_ending hs1.settled hending hselects fun m =>
      Asm.arrives_moves hmoves fun m' _ => hlast m' l'

/-- If only the last instruction may end a block, nothing or one instruction ends it. -/
theorem ending_cases (h : ∀ i ∈ code.dropLast, i.op.isTerminator = false) :
    ending code = [] ∨ ∃ i, i.op.isTerminator ∧ ending code = [i] := by
  induction code with
  | nil => exact .inl rfl
  | cons i rest ih =>
    cases hterm : i.op.isTerminator with
    | true =>
      have hlast : rest = [] := by
        by_contra hrest
        rw [List.dropLast_cons_of_ne_nil hrest] at h
        exact absurd (h i List.mem_cons_self) (by simp [hterm])
      refine Or.inr ⟨i, hterm, ?_⟩
      rw [hlast]
      exact List.dropWhile_cons_of_neg (by simp [hterm])
    | false =>
      have hlater : ending (i :: rest) = ending rest := List.dropWhile_cons_of_pos (by simp [hterm])
      rw [hlater]
      refine ih fun j hj => h j ?_
      rw [List.dropLast_cons_of_ne_nil (by rintro rfl; cases hj)]
      exact List.mem_cons_of_mem _ hj

/-- The condition by which the end of a block selects. -/
def condition? : List Instr → Option Ir.Operand
  | [i] => if i.op = .cjump then i.args[0]? else none
  | _ => none

/-- What ends a block selects a label, if its condition has a value. -/
theorem exists_selects (hcode : code = [] ∨ ∃ i, i.op.isTerminator ∧ code = [i])
    (h : (emitCode env bi label code s).result = .ok p)
    (hvalue : ∀ x, condition? code = some x → ∃ a, Told env s m a x) :
    ∃ l, Selects env s m bi code l := by
  have harg : ∀ {i : Instr} {n : Nat} {x : Ir.Operand} {t t' : State},
      (argOf i n t).result = .ok (x, t') → i.args[n]? = some x := by
    intro i n x t t' hx
    obtain ⟨hx, -⟩ := Emitter.lift_ok hx
    unfold Instr.arg at hx
    split at hx
    next y hy =>
      cases hx
      exact hy
    next => cases hx
  rcases hcode with rfl | ⟨i, hterm, rfl⟩
  · exact ⟨_, .none⟩
  obtain ⟨_, _, hnext, -, -⟩ := bind_ok h
  obtain ⟨q, hop, -⟩ := emitNext_lines (Asm.Text.within_ok hnext)
  unfold emitOp at hop
  cases hi : i.op with
  | ret => exact ⟨_, .ret hi⟩
  | jump =>
    rw [hi] at hop
    obtain ⟨o, _, htarget, -, -⟩ := bind_ok hop
    exact ⟨_, .jump hi (Emitter.lift_ok htarget).1⟩
  | cjump =>
    rw [hi] at hop
    obtain ⟨x, _, hx, hop, -⟩ := bind_ok hop
    obtain ⟨o, _, htarget, hop, -⟩ := bind_ok hop
    obtain ⟨y, _, hy, hop, -⟩ := bind_ok hop
    obtain ⟨a, ha⟩ := hvalue x ((if_pos hi).trans (harg hx))
    cases y with
    | int n type => exact ⟨_, .cjump hi (harg hx) (Emitter.lift_ok htarget).1 (harg hy) ha⟩
    | _ => cases hop
  | _ =>
    rw [hi] at hterm
    cases hterm

end

/-- Where control goes from the label of a block: straight through the lines of its instructions to its
end, and from there to the label that the end selects and to no other. The end selects one whenever its
condition, if there is one, has a value. -/
theorem emitFunc_control {u : Universe} {mod : Module} {f : Func} {isEntry : Bool}
    {lines : List Line} (h : emitFunc u mod f isEntry = .ok lines)
    (hlabels : ∀ b ∈ f.blocks, ∀ i ∈ b.code, i.op ≠ .label)
    (hends : ∀ b ∈ f.blocks, ∀ i ∈ b.code.dropLast, i.op.isTerminator = false)
    {k : Nat} {b : Block} (hk : f.blocks[k]? = some b) :
    ∃ env room s₁ s₂ s before body rest, Laid u mod f isEntry lines env room s₁ s₂ ∧
      Reached env k (ending b.code) s ∧ lines = before ++ .label b.label :: (body ++ rest) ∧
      (∀ m l, Arrives (body ++ rest) m l ↔ ∃ m', Through body m m' ∧ Arrives rest m' l) ∧
      (∀ m, (∀ x, condition? (ending b.code) = some x → ∃ a, Told env s m a x) →
        ∃ l, Selects env s m k (ending b.code) l) ∧
      ∀ m l, Selects env s m k (ending b.code) l → ∀ l', Arrives rest m l' ↔ l' = l := by
  obtain ⟨env, room, s₁, s₂, hlaid⟩ := emitFunc_laid h
  have hmem : b ∈ f.blocks := List.mem_of_getElem? hk
  obtain rfl : env.func = f := hlaid.func
  have hfirst : ∀ c, env.func.blocks.head? = some c → Reached env 0 c.code s₁ := fun c hc =>
    .first hlaid.params (List.head?_eq_getElem? ▸ hc)
  obtain ⟨start, t₁, t₂, hreached, hblock, hlater, hlines⟩ :=
    emitBlocks_at List.drop_zero hfirst hlaid.blocks hk
  rw [Nat.zero_add] at hreached hblock hlater hlines
  have hlast : ∀ m l, Arrives (Asm.leaveLines endLabel env.frame.saved room ++ lastLines isEntry) m l
      ↔ l = endLabel := fun m l => Asm.arrives_label
  obtain ⟨body, rest, s, q, hsplit, hs, hending, hthrough, harrives⟩ :=
    arrives_block hreached (hlabels b hmem) hblock fun m l => arrives_after hlater (hlast · l)
  refine ⟨env, room, s₁, s₂, s, Asm.entryLines env.func.name env.frame.saved room ++
    ((emitParams env 0 env.func.params (State.start env.func)).lines ++ start), body, rest, hlaid, hs,
    ?_, hthrough, fun m => exists_selects (ending_cases (hends b hmem)) hending, harrives⟩
  rw [← hsplit, hlaid.parts, hlines]
  simp only [List.append_assoc]

/-- A function that goes by a condition to one of two returns. -/
def asking (x : Ir.Operand) : Func :=
  ⟨"f", .int, true, false, [⟨0, "c", .int, true⟩], [], [
    ⟨".L0", [⟨.cjump, none, [x, .label ".L2", .int 0 .bool]⟩]⟩,
    ⟨".L1", [⟨.ret, none, [.int 1 .int]⟩]⟩,
    ⟨".L2", [⟨.ret, none, [.int 2 .int]⟩]⟩]⟩

def blankMachine : Asm.Machine := ⟨fun _ => 0, fun _ => 0, none⟩

/-- Asked for its parameter, which is zero, the function goes to its last block. -/
theorem asking_parameter : ∃ lines before body rest,
    emitFunc (Universe.make 64 false) Module.empty (asking (.var ⟨0, "c", .int, true⟩)) false = .ok lines ∧
    lines = before ++ .label ".L0" :: (body ++ rest) ∧
    ∀ l, Arrives rest blankMachine l ↔ l = ".L2" := by
  obtain ⟨lines, hlines⟩ : ∃ lines, emitFunc (Universe.make 64 false) Module.empty
      (asking (.var ⟨0, "c", .int, true⟩)) false = .ok lines := ⟨_, rfl⟩
  obtain ⟨env, room, s₁, s₂, s, before, body, rest, hlaid, -, hsplit, -, -, harrives⟩ :=
    emitFunc_control (k := 0) hlines (by decide) (by decide) rfl
  refine ⟨lines, before, body, rest, hlines, hsplit, fun l => ?_⟩
  have htold : Told env s blankMachine 0 (.var ⟨0, "c", .int, true⟩) := by
    obtain ⟨saved, hframe⟩ := hlaid.frame
    have hload : ∀ p, blankMachine.mem.load 32 p = BitVec.ofInt 32 0 := fun p => by
      simp [blankMachine, Asm.Memory.load, Asm.Memory.loadBytes]
    have hrange : wrapTo 32 true 0 = 0 := by decide
    rw [Told, hlaid.types, hframe]
    exact ⟨rfl, _, rfl, ⟨_, rfl, hload _⟩, hrange⟩
  have hselects := Selects.cjump (k := 0) (o := some ".L2") (n := 0) (i := ⟨.cjump, none,
    [.var ⟨0, "c", .int, true⟩, .label ".L2", .int 0 .bool]⟩) rfl rfl rfl rfl htold
  exact harrives _ _ hselects l

/-- Asked for a string, the function compares an address with zero, which no machine can do as it is written,
so that the next label is open. -/
theorem asking_string : ∃ lines before rest,
    emitFunc (Universe.make 64 false) Module.empty (asking (.str ⟨"hi", "str0", .ptr .byte⟩)) false
      = .ok lines ∧
    lines = before ++ .label ".L0" :: rest ∧
    ∀ m, Arrives rest m ".L1" ∧ Arrives rest m ".L2" := by
  refine ⟨_, Asm.entryLines "f" [] 16 ++
    [.ins .mov [.mem ⟨some .rbp, none, -8, 32, "", false⟩, .reg ⟨.rdi, 32⟩]], _, rfl, rfl, ?_⟩
  intro m
  have hopen : ∀ zero, (Line.ins .cmp [.ptr "str0" true, .imm ⟨0, 64, false⟩]).Passes m
      { m with flags := some ⟨zero, false, false, false⟩ } :=
    fun zero => .inr ⟨rfl, rfl, nofun⟩
  constructor
  · exact .next rfl (hopen false) (.next rfl (.inl rfl) .label)
  · exact .next rfl (hopen true) (.jump rfl)

end Emit

end TreeAsm
