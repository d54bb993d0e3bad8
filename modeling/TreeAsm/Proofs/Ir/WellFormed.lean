import TreeAsm.Ir.Dump
import TreeAsm.Liveness.Func
import TreeAsm.Proofs.Ir.Lookup
import TreeAsm.Proofs.Outcome

/-!
# Well-formed modules

A module is well formed if every function with a body is a graph of blocks that can be followed from
label to label, if its instructions refer only to what the function and the module own, and if every
struct is laid out.

Main statements: a well-formed module can be printed (`Module.dump_ok`), and the liveness of every
function of it can be computed (`Liveness.analyze_ok`). Both are a matter of the checks that the
printer and the analysis make on the way: an opcode that is known, an offset for every field, a
block for every label.
-/

namespace TreeAsm.Ir

/-- A name that stands for a function or for a global variable of a module. -/
def Module.Names (m : Module) (name : String) : Prop :=
  name ∈ m.funcs.map (·.name) ∨ name ∈ m.globals.map (·.name)

/-- An operand that belongs to a module and to the variables and temporaries of a function: each
variable and each temporary is the entry at its own number. -/
def Operand.Known (m : Module) (locals : List Local) (temps : List Temp) : Operand → Prop
  | .temp t => temps[t.id]? = some t
  | .var v => locals[v.index]? = some v
  | .outer _ _ => False
  | .int _ _ => True
  | .str s => s ∈ m.strings
  | .symbol name => m.Names name
  | .label _ => True

/-- An instruction with a known operation, the right operands for a move, and nothing but known
operands and a known result. -/
structure Instr.Known (m : Module) (locals : List Local) (temps : List Temp) (i : Instr) :
    Prop where
  valid : i.op.isValid = true
  move : i.op = .move → ∃ dst src, i.args = [dst, src]
  args : ∀ x ∈ i.args, x.Known m locals temps
  result : ∀ t, i.result = some t → temps[t.id]? = some t

/-- An instruction that jumps, if at all, to one of some labels. -/
def Instr.JumpsInto (labels : List String) (i : Instr) : Prop :=
  i.op = .jump ∨ i.op = .cjump → ∃ l ∈ labels, i.target = .ok (some l)

/-- A block that ends with the only instruction of it that decides where control goes. -/
structure Block.Sealed (b : Block) : Prop where
  ends : b.isTerminated = true
  before : ∀ i ∈ b.code.dropLast, i.op.isTerminator = false

/-- A function whose blocks form a graph: a first block, different labels, each block with one way
out at its end, every jump to a block of the function, and a next block for the last conditional
jump. -/
structure Func.WellFormed (m : Module) (f : Func) : Prop where
  entry : f.blocks ≠ []
  labels : (f.blocks.map (·.label)).Nodup
  closed : ∀ b ∈ f.blocks, b.Sealed
  jumps : ∀ b ∈ f.blocks, ∀ i ∈ b.code, i.JumpsInto (f.blocks.map (·.label))
  last : ∀ b, f.blocks.getLast? = some b → ∀ i, b.code.getLast? = some i → i.op ≠ .cjump
  code : ∀ b ∈ f.blocks, ∀ i ∈ b.code, i.Known m f.locals f.temps

/-- A module in which everything that is referred to is there. -/
structure Module.WellFormed (m : Module) : Prop where
  funcs : ∀ f ∈ m.funcs, f.external = false → f.WellFormed m
  inits : ∀ g ∈ m.globals, ∀ s, g.init = some (.str s) → s ∈ m.strings
  structs : ∀ s ∈ m.structs, ∃ l, s.layout? = some l ∧ l.offsets.length = s.fields.length

/-- A function stays well formed in a module that has at least the same names and strings. -/
theorem Func.WellFormed.mono {m m' : Module} {f : Func} (h : f.WellFormed m)
    (hnames : ∀ n, m.Names n → m'.Names n) (hstrings : ∀ c ∈ m.strings, c ∈ m'.strings) :
    f.WellFormed m' := by
  refine ⟨h.entry, h.labels, h.closed, h.jumps, h.last, ?_⟩
  intro b hb i hi
  obtain ⟨hvalid, hmove, hargs, hresult⟩ := h.code b hb i hi
  refine ⟨hvalid, hmove, ?_, hresult⟩
  intro x hx
  have hknown := hargs x hx
  cases x with
  | str c => exact hstrings c hknown
  | symbol name => exact hnames name hknown
  | _ => exact hknown

/-! ## Printing -/

theorem Struct.dumpFields_ok (u : Universe) (l : Layout) :
    ∀ (fields : List Field) (i : Nat), i + fields.length ≤ l.offsets.length →
      ∃ text, Struct.dumpFields u l i fields = .ok text := by
  intro fields
  induction fields with
  | nil => intro i _; exact ⟨"", rfl⟩
  | cons f fields ih =>
    intro i hi
    rw [List.length_cons] at hi
    obtain ⟨rest, hrest⟩ := ih (i + 1) (by omega)
    obtain ⟨off, hoff⟩ : ∃ off, l.offsets[i]? = some off :=
      ⟨_, List.getElem?_eq_getElem (by omega)⟩
    rw [Struct.dumpFields, hoff]
    simp only [hrest]
    exact ⟨_, rfl⟩

theorem Struct.dump_ok (u : Universe) {s : Struct} {l : Layout} (hl : s.layout? = some l)
    (hlen : l.offsets.length = s.fields.length) : ∃ text, s.dump u = .ok text := by
  obtain ⟨fields, hfields⟩ := Struct.dumpFields_ok u l s.fields 0 (by omega)
  have hlayout : s.layout = .ok l := by rw [Struct.layout, hl]
  rw [Struct.dump, hlayout]
  simp only [bind, Except.bind, hfields]
  exact ⟨_, rfl⟩

theorem Block.dumpCode_ok (u : Universe) (label : String) :
    ∀ (code : List Instr), (∀ i ∈ code, i.op.isValid) → ∃ text, Block.dumpCode u label code = .ok text := by
  intro code
  induction code with
  | nil => intro _; exact ⟨"", rfl⟩
  | cons i code ih =>
    intro h
    obtain ⟨rest, hrest⟩ := ih fun j hj => h j (List.mem_cons_of_mem _ hj)
    rw [Block.dumpCode, if_pos (h i (List.mem_cons_self ..)), hrest]
    exact ⟨_, rfl⟩

theorem Block.dumpAll_ok (u : Universe) :
    ∀ (blocks : List Block), (∀ b ∈ blocks, ∀ i ∈ b.code, i.op.isValid) →
      ∃ text, Block.dumpAll u blocks = .ok text := by
  intro blocks
  induction blocks with
  | nil => intro _; exact ⟨"", rfl⟩
  | cons b blocks ih =>
    intro h
    obtain ⟨code, hcode⟩ := Block.dumpCode_ok u b.label b.code (h b (List.mem_cons_self ..))
    obtain ⟨rest, hrest⟩ := ih fun c hc => h c (List.mem_cons_of_mem _ hc)
    rw [Block.dumpAll, hcode, hrest]
    exact ⟨_, rfl⟩

theorem Func.dump_ok (u : Universe) {f : Func}
    (h : f.external = false → ∀ b ∈ f.blocks, ∀ i ∈ b.code, i.op.isValid) :
    ∃ text, f.dump u = .ok text := by
  rw [Func.dump]
  cases hext : f.external with
  | true => exact ⟨_, rfl⟩
  | false =>
    obtain ⟨blocks, hblocks⟩ := Block.dumpAll_ok u f.blocks (h hext)
    simp only [Bool.false_eq_true, if_false, hblocks]
    exact ⟨_, rfl⟩

namespace Module

theorem dumpStructs_ok (u : Universe) : ∀ (structs : List Struct) (out : String),
      (∀ s ∈ structs, ∃ l, s.layout? = some l ∧ l.offsets.length = s.fields.length) →
      ∃ text, dumpStructs u out structs = .ok text := by
  intro structs
  induction structs with
  | nil => intro out _; exact ⟨out, rfl⟩
  | cons s structs ih =>
    intro out h
    obtain ⟨l, hl, hlen⟩ := h s (List.mem_cons_self ..)
    obtain ⟨part, hpart⟩ := Struct.dump_ok u hl hlen
    rw [dumpStructs, hpart]
    exact ih (appendPart out part) fun t ht => h t (List.mem_cons_of_mem _ ht)

theorem dumpFuncs_ok (u : Universe) : ∀ (funcs : List Func) (out : String),
      (∀ f ∈ funcs, f.external = false → ∀ b ∈ f.blocks, ∀ i ∈ b.code, i.op.isValid) →
      ∃ text, dumpFuncs u out funcs = .ok text := by
  intro funcs
  induction funcs with
  | nil => intro out _; exact ⟨out, rfl⟩
  | cons f funcs ih =>
    intro out h
    obtain ⟨part, hpart⟩ := Func.dump_ok u (h f (List.mem_cons_self ..))
    rw [dumpFuncs, hpart]
    exact ih (appendPart out part) fun g hg => h g (List.mem_cons_of_mem _ hg)

/-- A well-formed module can be printed. -/
theorem dump_ok {m : Module} (h : m.WellFormed) (u : Universe) (out : String) :
    ∃ text, m.dump u out = .ok text := by
  obtain ⟨structs, hstructs⟩ := dumpStructs_ok u m.structs out h.structs
  rw [dump, hstructs]
  exact dumpFuncs_ok u m.funcs _ fun f hf hext b hb i hi =>
    ((h.funcs f hf hext).code b hb i hi).valid

end Module

end TreeAsm.Ir

/-! ## Liveness -/

namespace TreeAsm.Liveness

open Ir

variable {f : Func} {m : Module} {locals : List Local} {temps : List Temp}

/-- Reads and writes of a known instruction can be told. -/
theorem reads_written_ok {i : Instr} (h : i.Known m locals temps) :
    (∃ xs, i.reads = .ok xs) ∧ ∃ t, i.written = .ok t := by
  by_cases hop : i.op = .move
  · obtain ⟨dst, src, hargs⟩ := h.move hop
    constructor
    · rw [Instr.reads, if_pos hop, hargs]
      exact ⟨_, rfl⟩
    · rw [Instr.written]
      cases hres : i.result with
      | some t => exact ⟨_, rfl⟩
      | none =>
        have harg : i.arg 0 = .ok dst := by rw [Instr.arg, hargs]; rfl
        simp only [if_pos hop, harg]
        exact ⟨_, rfl⟩
  · constructor
    · rw [Instr.reads, if_neg hop]
      exact ⟨_, rfl⟩
    · rw [Instr.written]
      cases i.result with
      | some t => exact ⟨_, rfl⟩
      | none => simp only [if_neg hop]; exact ⟨_, rfl⟩

theorem useDefFrom_ok : ∀ (code : List Instr) (use defs : BitSet), (∀ i ∈ code, i.Known m locals temps) →
      ∃ r, useDefFrom use defs code = .ok r := by
  intro code
  induction code with
  | nil => intro use defs _; exact ⟨_, rfl⟩
  | cons i code ih =>
    intro use defs h
    obtain ⟨⟨xs, hxs⟩, t, ht⟩ := reads_written_ok (h i (List.mem_cons_self ..))
    rw [useDefFrom, hxs, ht]
    exact ih _ _ fun j hj => h j (List.mem_cons_of_mem _ hj)

theorem nextBlock_lt {i k : Nat} (h : k ∈ nextBlock f i) : k < f.blocks.length := by
  rw [nextBlock] at h
  split at h
  next hlt =>
    rw [List.mem_singleton] at h
    omega
  next => cases h

/-- A label of a block is found, at the place of some block. -/
theorem blockIndex_of_mem {l : String} (h : l ∈ f.blocks.map (·.label)) :
    ∃ k, f.blockIndex? l = some k ∧ k < f.blocks.length := by
  obtain ⟨b, hb, hbl⟩ := List.mem_map.mp h
  rw [Func.blockIndex?]
  cases hfind : f.blocks.findIdx? fun b => b.label == l with
  | none =>
    rw [List.findIdx?_eq_none_iff] at hfind
    have := hfind b hb
    rw [beq_eq_false_iff_ne] at this
    exact absurd hbl this
  | some k =>
    obtain ⟨hk, -⟩ := List.findIdx?_eq_some_iff_getElem.mp hfind
    exact ⟨k, rfl, hk⟩

/-- Control goes from a block only to blocks of the function. -/
theorem successors_ok {b : Block} (i : Nat) (h : ∀ i ∈ b.code, i.JumpsInto (f.blocks.map (·.label)))
    : ∃ succ, successors f i b = .ok succ ∧ ∀ k ∈ succ, k < f.blocks.length := by
  rw [successors]
  cases hlast : b.code.getLast? with
  | none => exact ⟨_, rfl, fun k hk => nextBlock_lt hk⟩
  | some last =>
    by_cases hret : last.op = .ret
    · simp only [if_pos hret]
      exact ⟨[], rfl, by simp⟩
    · simp only [if_neg hret]
      by_cases hjump : last.op = .jump ∨ last.op = .cjump
      · obtain ⟨l, hl, htarget⟩ := h last (List.mem_of_getLast? hlast) hjump
        obtain ⟨k, hk, hlt⟩ := blockIndex_of_mem hl
        rw [if_pos (by simpa using hjump), htarget]
        simp only [bind, Except.bind, Option.getD_some, hk]
        split
        next =>
          refine ⟨_, rfl, ?_⟩
          intro j hj
          rcases List.mem_cons.mp hj with rfl | hj
          · exact hlt
          · exact nextBlock_lt (List.mem_filter.mp hj).1
        next =>
          refine ⟨_, rfl, ?_⟩
          intro j hj
          rw [List.mem_singleton] at hj
          omega
      · rw [if_neg (by simpa using hjump)]
        exact ⟨_, rfl, fun k hk => nextBlock_lt hk⟩

/-- The liveness of a function of a well-formed module can be computed. -/
theorem analyze_ok (hjumps : ∀ b ∈ f.blocks, ∀ i ∈ b.code, i.JumpsInto (f.blocks.map (·.label)))
    (hcode : ∀ b ∈ f.blocks, ∀ i ∈ b.code, i.Known m f.locals f.temps) :
    ∃ r, analyze f = .ok r := by
  obtain ⟨succs, hsuccs, hlen, hbound⟩ :=
    Outcome.mapM_ok (f := fun p : Block × Nat => successors f p.2 p.1)
      (P := fun succ => ∀ k ∈ succ, k < f.blocks.length) f.blocks.zipIdx (by
        intro p hp
        exact successors_ok p.2 (hjumps p.1 (List.fst_mem_of_mem_zipIdx hp)))
  rw [List.length_zipIdx] at hlen
  obtain ⟨facts, hfacts, hflen, hfbound⟩ :=
    Outcome.mapM_ok (f := fun p : Block × List Nat => do
        let r ← useDef p.1
        return Facts.start r.1 r.2 p.2)
      (P := fun x : Facts => ∀ k ∈ x.succ, k < f.blocks.length) (f.blocks.zip succs) (by
        intro p hp
        obtain ⟨r, hr⟩ := useDefFrom_ok p.1.code ∅ ∅ (hcode p.1 (List.of_mem_zip hp).1)
        refine ⟨Facts.start r.1 r.2 p.2, ?_, hbound p.2 (List.of_mem_zip hp).2⟩
        rw [useDef, hr]
        rfl)
  have heq : equations f = .ok facts := by
    rw [equations, hsuccs]
    exact hfacts
  have hlength : facts.length = f.blocks.length := by
    rw [hflen, List.length_zip, hlen, Nat.min_self]
  rw [analyze, heq]
  simp only [bind, Except.bind]
  rw [solve, if_pos]
  · exact ⟨_, rfl⟩
  · rw [List.all_eq_true]
    intro x hx
    rw [List.all_eq_true]
    intro k hk
    rw [hlength]
    exact decide_eq_true (hfbound x hx k hk)

end TreeAsm.Liveness
