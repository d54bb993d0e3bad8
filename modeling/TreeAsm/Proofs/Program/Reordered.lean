import Mathlib.Data.List.Perm.Basic
import TreeAsm.Program.OfNode

/-!
# Documents with their entries in another order

The parts of a statement or an expression are looked up by their keys, so the order in which a mapping
lists its entries does not matter for them (`Lookups`). It matters in two places. What a mapping is read
as is decided by the first of its keys that names a kind, and some have two: the `var` of an outside
variable is a kind of statement too. And where a list of arguments, parameters, fields or arms is
expected, the keys and values of a mapping are taken for the list, in turn.

`Reordered` relates two documents that differ in the order of entries and in positions, but agree in
these two places; what a node is read as (`Reading`) tells where that is. For a node that is read for
its text only (`plain`) entries may change places freely.
-/

namespace TreeAsm

/-- Two outcomes that both fail, or that succeed with related values. -/
def Outcome.Same {α : Type} (R : α → α → Prop) : Outcome α → Outcome α → Prop
  | .ok a, .ok b => R a b
  | .error _, .error _ => True
  | _, _ => False

theorem Outcome.Same.bind {α β : Type} {R : α → α → Prop} {S : β → β → Prop} {x y : Outcome α}
    {f g : α → Outcome β} (h : Outcome.Same R x y)
    (hfg : ∀ a b, R a b → Outcome.Same S (f a) (g b)) : Outcome.Same S (x >>= f) (y >>= g) := by
  cases x with
  | ok a =>
    cases y with
    | ok b => exact hfg a b h
    | error e => exact h.elim
  | error d =>
    cases y with
    | ok b => exact h.elim
    | error e => exact trivial

namespace Program

open Yaml (Node)
open Outcome (Same)

/-! ## Trees without positions -/

mutual

/-- An expression without its positions. -/
def Expr.unplaced : Expr → Expr
  | .int _ value => .int default value
  | .str _ value => .str default value
  | .ident _ name => .ident default name
  | .binary _ op left right => .binary default op left.unplaced right.unplaced
  | .unary _ op x => .unary default op x.unplaced
  | .call _ callee args => .call default callee (Expr.unplacedAll args)
  | .assign _ target value => .assign default target.unplaced value.unplaced
  | .index _ x i => .index default x.unplaced i.unplaced
  | .field _ x name indirect => .field default x.unplaced name indirect
  | .cast _ type x => .cast default type x.unplaced
  | .syscall _ number args => .syscall default number.unplaced (Expr.unplacedAll args)
  | .foreign _ callee ret args => .foreign default callee ret (Expr.unplacedAll args)

/-- Expressions without their positions. -/
def Expr.unplacedAll : List Expr → List Expr
  | [] => []
  | x :: xs => x.unplaced :: Expr.unplacedAll xs

end

/-- A field without its position. -/
def FieldDecl.unplaced (f : FieldDecl) : FieldDecl := { f with pos := default }

mutual

/-- A statement without its positions. -/
def Stmt.unplaced : Stmt → Stmt
  | .block body => .block body.unplaced
  | .space _ name body => .space default name (Stmt.unplacedAll body)
  | .func _ name isPublic params ret body =>
    .func default name isPublic params ret (Block.unplaced? body)
  | .outside _ name isVar params ret => .outside default name isVar params ret
  | .struct _ name isPublic packed fields =>
    .struct default name isPublic packed (fields.map FieldDecl.unplaced)
  | .var _ name type init => .var default name type (init.map Expr.unplaced)
  | .set _ name op value => .set default name op value.unplaced
  | .cond _ arms otherwise => .cond default (Arm.unplacedAll arms) (Block.unplaced? otherwise)
  | .while _ cond body => .while default cond.unplaced (Block.unplaced? body)
  | .for _ var start stop step body =>
    .for default var start.unplaced stop.unplaced (step.map Expr.unplaced) (Block.unplaced? body)
  | .call _ callee args => .call default callee (Expr.unplacedAll args)
  | .expr _ x => .expr default x.unplaced
  | .return _ value => .return default (value.map Expr.unplaced)

/-- Statements without their positions. -/
def Stmt.unplacedAll : List Stmt → List Stmt
  | [] => []
  | s :: ss => s.unplaced :: Stmt.unplacedAll ss

/-- A block without its positions. -/
def Block.unplaced : Block → Block
  | .mk _ stmts => .mk default (Stmt.unplacedAll stmts)

/-- A block without its positions, if there is one. -/
def Block.unplaced? : Option Block → Option Block
  | none => none
  | some b => some b.unplaced

/-- An arm without its positions. -/
def Arm.unplaced : Arm → Arm
  | .mk cond body => .mk cond.unplaced (Block.unplaced? body)

/-- Arms without their positions. -/
def Arm.unplacedAll : List Arm → List Arm
  | [] => []
  | a :: as => a.unplaced :: Arm.unplacedAll as

end

/-! ## Documents with their entries in another order -/

/-- What a node of a document is read as: a statement, an expression or an arm of a conditional, a list
of these, a list of parameters or fields, or for its text and its own entries only. -/
inductive Reading where
  | stmts | stmt | exprs | expr | arms | arm | records | plain
  deriving DecidableEq, Repr

namespace Reading

/-- What the items of a sequence are read as. -/
def item : Reading → Reading
  | stmts => stmt
  | exprs => expr
  | arms => arm
  | _ => plain

/-- What the value at a key of a mapping is read as. -/
def value : Reading → (key : String) → Reading
  | stmt, "body" | stmt, "then" | stmt, "else" | arm, "then" => stmts
  | stmt, "elif" => arms
  | stmt, "params" | stmt, "fields" => records
  | stmt, "args" | expr, "args" => exprs
  | stmt, "init" | stmt, "value" | stmt, "if" | stmt, "while" | stmt, "from" | stmt, "to"
  | stmt, "step" | stmt, "return" | stmt, "expr" | arm, "cond" => expr
  | expr, "l" | expr, "r" | expr, "x" | expr, "assign" | expr, "value" | expr, "index" | expr, "at"
  | expr, "of" | expr, "syscall" => expr
  | _, _ => plain

/-- Whether the keys and values of a mapping are read in turn, as if they were items. -/
def inTurn : Reading → Bool
  | exprs | arms | records => true
  | _ => false

end Reading

/-- No two entries have keys that read the same. Keys that are collections read as nothing. -/
def DistinctKeys (entries : List (Node × Node)) : Prop :=
  entries.Pairwise fun e f => e.1.text = f.1.text → e.1.text = ""

/-- The first key that names a kind is the same, where a kind is looked for. -/
def SameKind : Reading → (entries entries' : List (Node × Node)) → Prop
  | .stmt, entries, entries' =>
    (entries.findSome? fun e => StmtKind.ofKey? e.1.text)
      = entries'.findSome? fun e => StmtKind.ofKey? e.1.text
  | .expr, entries, entries' =>
    (entries.findSome? fun e => ExprKind.ofKey? e.1.text)
      = entries'.findSome? fun e => ExprKind.ofKey? e.1.text
  | _, _, _ => True

mutual

/-- Two documents that agree but for positions and for the order of entries. -/
inductive Reordered : Reading → Node → Node → Prop
  | scalar {r : Reading} {p p' : Position} {tag value : String} :
    Reordered r (.scalar p tag value) (.scalar p' tag value)
  | sequence {r : Reading} {p p' : Position} {tag : String} {items items' : List Node} :
    Itemwise r.item items items' → Reordered r (.sequence p tag items) (.sequence p' tag items')
  /-- Entries may change places, unless that changes the kind. -/
  | mapping {r : Reading} {p p' : Position} {tag : String}
    {entries shuffled entries' : List (Node × Node)} :
    r.inTurn = false → DistinctKeys entries → entries.Perm shuffled →
    Entrywise r shuffled entries' → SameKind r entries entries' →
    Reordered r (.mapping p tag entries) (.mapping p' tag entries')
  /-- Entries that are taken for items stay where they are. -/
  | inTurn {r : Reading} {p p' : Position} {tag : String} {entries entries' : List (Node × Node)} :
    r.inTurn = true →
    Itemwise r.item (contentOf (.mapping p tag entries)) (contentOf (.mapping p' tag entries')) →
    Reordered r (.mapping p tag entries) (.mapping p' tag entries')
  | link {r : Reading} {p p' : Position} {name : String} {target target' : Node} {inside : Bool} :
    Reordered .plain target target' →
    Reordered r (.link p name target inside) (.link p' name target' inside)

/-- Nodes that agree one by one. -/
inductive Itemwise : Reading → List Node → List Node → Prop
  | nil {r : Reading} : Itemwise r [] []
  | cons {r : Reading} {n n' : Node} {rest rest' : List Node} :
    Reordered r n n' → Itemwise r rest rest' → Itemwise r (n :: rest) (n' :: rest')

/-- Entries that agree one by one. -/
inductive Entrywise : Reading → List (Node × Node) → List (Node × Node) → Prop
  | nil {r : Reading} : Entrywise r [] []
  | cons {r : Reading} {k k' v v' : Node} {rest rest' : List (Node × Node)} :
    Reordered .plain k k' → Reordered (r.value k.text) v v' → Entrywise r rest rest' →
    Entrywise r ((k, v) :: rest) ((k', v') :: rest')

end

section

variable {r : Reading} {n n' : Node}

theorem Reordered.text_eq (h : Reordered r n n') : n.text = n'.text := by
  cases h <;> rfl

theorem Reordered.isNull_eq (h : Reordered r n n') : n.isNull = n'.isNull := by
  cases h <;> rfl

/-- What is read in turn agrees one by one. -/
theorem Reordered.content (h : Reordered r n n') (hr : r.inTurn) :
    Itemwise r.item (contentOf n) (contentOf n') := by
  cases h with
  | scalar => exact .nil
  | sequence hitems => exact hitems
  | mapping hr' =>
    rw [hr] at hr'
    cases hr'
  | inTurn _ hitems => exact hitems
  | link => exact .nil

end

/-! ## Lookups -/

/-- No node on either side, or two nodes that agree. -/
def Alike (r : Reading) : Option Node → Option Node → Prop
  | none, none => True
  | some v, some v' => Reordered r v v'
  | _, _ => False

/-- The same keys have values, and these agree. The empty text is no key. -/
def Lookups (r : Reading) (entries entries' : List (Node × Node)) : Prop :=
  ∀ key, key ≠ "" → Alike (r.value key) (valueAt key entries) (valueAt key entries')

theorem valueAt_cons (key : String) (e : Node × Node) (rest : List (Node × Node)) :
    valueAt key (e :: rest) = if e.1.text = key then some e.2 else valueAt key rest := by
  unfold valueAt
  rw [List.find?_cons]
  by_cases hkey : e.1.text = key
  · rw [if_pos hkey, beq_iff_eq.mpr hkey]
    rfl
  · rw [if_neg hkey, beq_eq_false_iff_ne.mpr hkey]

variable {entries shuffled entries' : List (Node × Node)} {key : String} {r : Reading}

theorem DistinctKeys.perm (h : DistinctKeys entries) (hperm : entries.Perm shuffled) :
    DistinctKeys shuffled :=
  hperm.pairwise h fun hef hfe => hfe.trans (hef hfe.symm)

/-- If keys are distinct, it does not matter where an entry stands. -/
theorem valueAt_perm (hperm : entries.Perm shuffled) (h : DistinctKeys entries) (hkey : key ≠ "") :
    valueAt key entries = valueAt key shuffled := by
  induction hperm with
  | nil => rfl
  | cons e _ ih => rw [valueAt_cons, valueAt_cons, ih (List.pairwise_cons.mp h).2]
  | swap e f rest =>
    -- at most one of the two entries has the key, so the first match stays the same
    have hdistinct := (List.pairwise_cons.mp h).1 e List.mem_cons_self
    rw [valueAt_cons, valueAt_cons, valueAt_cons, valueAt_cons]
    by_cases he : e.1.text = key
    · have hf : f.1.text ≠ key := fun hf => hkey (hf ▸ hdistinct (hf.trans he.symm))
      rw [if_pos he, if_neg hf, if_pos he]
    · rw [if_neg he, if_neg he]
  | trans h1 _ ih1 ih2 => exact (ih1 h).trans (ih2 (h.perm h1))

theorem Entrywise.valueAt (h : Entrywise r entries entries') :
    Alike (r.value key) (valueAt key entries) (valueAt key entries') := by
  induction entries generalizing entries' with
  | nil =>
    cases h
    exact trivial
  | cons e rest ih =>
    cases h with
    | @cons _ k k' v v' _ _ hk hv hrest =>
      rw [valueAt_cons, valueAt_cons, ← hk.text_eq]
      by_cases hkey : k.text = key
      · rw [if_pos hkey, if_pos hkey]
        exact hkey ▸ hv
      · rw [if_neg hkey, if_neg hkey]
        exact ih hrest

theorem lookups_of_perm (hdistinct : DistinctKeys entries) (hperm : entries.Perm shuffled)
    (hentries : Entrywise r shuffled entries') : Lookups r entries entries' := by
  intro key hkey
  rw [valueAt_perm hperm hdistinct hkey]
  exact hentries.valueAt

/-- The nodes in a mapping are the keys and values of its entries. -/
theorem mem_contentOf_of_valueAt {p : Position} {tag : String} {v : Node}
    (h : valueAt key entries = some v) : v ∈ contentOf (.mapping p tag entries) := by
  obtain ⟨e, he, rfl⟩ := Option.map_eq_some_iff.mp h
  exact List.mem_flatMap.mpr ⟨e, List.mem_of_find?_eq_some he, by simp⟩

/-- Looking for the first entry with a key is looking for its value. -/
theorem eq_elim_valueAt {α : Type} {g : List (Node × Node) → α} {d : α} {f : Node → α} (hnil : g [] = d)
    (hcons : ∀ k v rest, g ((k, v) :: rest) = if k.text == key then f v else g rest)
    (entries : List (Node × Node)) : g entries = (valueAt key entries).elim d f := by
  induction entries with
  | nil => exact hnil
  | cons e rest ih =>
    rw [hcons, valueAt_cons, ih]
    by_cases hkey : e.1.text = key
    · rw [if_pos hkey, if_pos (beq_iff_eq.mpr hkey)]
      rfl
    · rw [if_neg hkey, if_neg (by simpa using hkey)]

namespace Lookups

variable {r : Reading} {entries entries' : List (Node × Node)} {key : String}
  (h : Lookups r entries entries') (hkey : key ≠ "")
include h hkey

/-- What holds of no node on either side, and of two nodes that agree, holds of the values at a key. -/
theorem values {P : Option Node → Option Node → Prop} (hnone : P none none)
    (hsome : ∀ v v', valueAt key entries = some v → Reordered (r.value key) v v' →
      P (some v) (some v')) : P (valueAt key entries) (valueAt key entries') := by
  have halike := h key hkey
  revert halike
  cases hv : valueAt key entries <;> cases valueAt key entries' <;> intro halike
  · exact hnone
  · exact halike.elim
  · exact halike.elim
  · exact hsome _ _ hv halike

theorem text : textOf (valueAt key entries) = textOf (valueAt key entries') :=
  h.values (P := fun o o' => textOf o = textOf o') hkey rfl fun _ _ _ hv => hv.text_eq

theorem flag : flagOf (valueAt key entries) = flagOf (valueAt key entries') := by
  rw [flagOf, flagOf, h.text hkey]

theorem type : TypeRef.ofNode? (valueAt key entries) = TypeRef.ofNode? (valueAt key entries') := by
  refine h.values (P := fun o o' => TypeRef.ofNode? o = TypeRef.ofNode? o') hkey rfl ?_
  intro v v' _ hv
  rw [TypeRef.ofNode?, TypeRef.ofNode?, hv.text_eq]

/-- What is read from the values at a key is the same if it is the same from nodes that agree. -/
theorem elim {α : Type} {R : α → α → Prop} {d d' : Outcome α} {f f' : Node → Outcome α} (hd : Same R d d')
    (hf : ∀ v v', valueAt key entries = some v → Reordered (r.value key) v v' → Same R (f v) (f' v')) :
    Same R ((valueAt key entries).elim d f) ((valueAt key entries').elim d' f') :=
  h.values (P := fun o o' => Same R (o.elim d f) (o'.elim d' f')) hkey hd hf

end Lookups

/-- What is read from nodes that agree one by one is the same one by one. -/
theorem mapM_same {α : Type} {R : α → α → Prop} {f f' : Node → Outcome α} {items items' : List Node}
    (h : Itemwise r items items')
    (hf : ∀ n ∈ items, ∀ n', Reordered r n n' → Same R (f n) (f' n')) :
    Same (List.Forall₂ R) (items.mapM f) (items'.mapM f') := by
  induction items generalizing items' with
  | nil =>
    cases h
    exact List.Forall₂.nil
  | cons n rest ih =>
    cases h with
    | cons hn hrest =>
      rw [List.mapM_cons, List.mapM_cons]
      refine (hf n List.mem_cons_self _ hn).bind fun a b hab => ?_
      refine (ih hrest fun m hm => hf m (List.mem_cons_of_mem _ hm)).bind fun as bs habs => ?_
      exact List.Forall₂.cons hab habs

/-- What holds of a node if it holds of all nodes in it holds of every node. -/
theorem content_induction {P : Node → Prop} (h : ∀ n, (∀ m ∈ contentOf n, P m) → P n) (n : Node) : P n := by
  have hsize : ∀ m ∈ contentOf n, sizeOf m < sizeOf n := by
    intro m hm
    cases n with
    | scalar p tag v => cases hm
    | link p name target inside => cases hm
    | sequence p tag items =>
      have hlt := List.sizeOf_lt_of_mem (show m ∈ items from hm)
      simp only [Node.sequence.sizeOf_spec]
      omega
    | mapping p tag entries =>
      obtain ⟨⟨k, v⟩, he, hm⟩ := List.mem_flatMap.mp hm
      have hlt := List.sizeOf_lt_of_mem he
      simp only [Prod.mk.sizeOf_spec] at hlt
      simp only [Node.mapping.sizeOf_spec]
      rcases List.mem_pair.mp hm with rfl | rfl <;> omega
  exact h n fun m hm => content_induction h m
termination_by sizeOf n
decreasing_by exact hsize m hm

end Program

end TreeAsm
