import TreeAsm.Proofs.Program.Reordered

/-!
# The order of keys in a program

From documents that agree but for positions and for the order of entries (`Reordered`) the same program
is read, but for positions, or both are refused. For each form of a statement or an expression its kind
is the same and its parts are looked up by their keys; the rest is induction on what a node contains.
Where the order decides a kind or the order of a list, different programs are read (`order_decides`).
-/

namespace TreeAsm.Program

open Yaml (Node)
open Outcome (Same)
open Expr (listOfEntry listOfNode ofEntry ofNode)

/-! ## Expressions -/

/-- The same expression but for positions. -/
def SameExpr (x y : Expr) : Prop := x.unplaced = y.unplaced

/-- The same expression but for positions, or none. -/
def SameExpr? (x y : Option Expr) : Prop := x.map Expr.unplaced = y.map Expr.unplaced

theorem unplacedAll_eq {xs ys : List Expr} (h : List.Forall₂ SameExpr xs ys) :
    Expr.unplacedAll xs = Expr.unplacedAll ys := by
  induction h with
  | nil => rfl
  | cons hxy _ ih => exact congrArg₂ List.cons hxy ih

theorem Expr.ofEntry_eq (file key : String) (entries : List (Node × Node)) : ofEntry file key entries
      = (valueAt key entries).elim (.fail (.missingExpression file)) (ofNode file) :=
  eq_elim_valueAt (by rw [ofEntry]) (fun k v rest => by rw [ofEntry]) entries

theorem Expr.listOfEntry_eq (file key : String) (entries : List (Node × Node)) :
    listOfEntry file key entries = (valueAt key entries).elim (.ok []) (listOfNode file) :=
  eq_elim_valueAt (by rw [listOfEntry]) (fun k v rest => by rw [listOfEntry]) entries

theorem Expr.ofItems_eq (file : String) (items : List Node) :
    Expr.ofItems file items = items.mapM (ofNode file) := by
  induction items with
  | nil => rw [Expr.ofItems]; rfl
  | cons n rest ih => rw [Expr.ofItems, List.mapM_cons, ih]

/-- A list of expressions is read from the nodes in a node. -/
theorem Expr.listOfNode_eq (file : String) (n : Node) :
    listOfNode file n = (contentOf n).mapM (ofNode file) := by
  cases n with
  | scalar p tag v => rw [listOfNode] <;> simp [contentOf, pure, Except.pure]
  | link p name target inside => rw [listOfNode] <;> simp [contentOf, pure, Except.pure]
  | sequence p tag items => rw [listOfNode, Expr.ofItems_eq, contentOf]
  | mapping p tag entries =>
    rw [listOfNode, contentOf]
    induction entries with
    | nil => rw [Expr.ofPairs]; rfl
    | cons e rest ih =>
      rw [Expr.ofPairs, ih]
      simp

/-- Reading gives the same from a node, whether for an expression or for a list of them. -/
structure ExprStable (file : String) (n : Node) : Prop where
  one : ∀ n', Reordered .expr n n' → Same SameExpr (ofNode file n) (ofNode file n')
  all : ∀ n', Reordered .exprs n n' → Same (List.Forall₂ SameExpr) (listOfNode file n) (listOfNode file n')

section

variable {file : String} {r : Reading} {key : String} {entries entries' : List (Node × Node)}
  {p p' : Position} {tag : String}

theorem Expr.ofEntry_same (ih : ∀ v, valueAt key entries = some v → ExprStable file v)
    (h : Lookups r entries entries') (hkey : key ≠ "") (hread : r.value key = .expr) :
    Same SameExpr (ofEntry file key entries) (ofEntry file key entries') := by
  rw [Expr.ofEntry_eq, Expr.ofEntry_eq]
  refine h.elim hkey trivial fun v v' hv hvv' => ?_
  exact (ih v hv).one v' (hread ▸ hvv')

theorem Expr.listOfEntry_same (ih : ∀ v, valueAt key entries = some v → ExprStable file v)
    (h : Lookups r entries entries') (hkey : key ≠ "") (hread : r.value key = .exprs) :
    Same (List.Forall₂ SameExpr) (listOfEntry file key entries) (listOfEntry file key entries') := by
  rw [Expr.listOfEntry_eq, Expr.listOfEntry_eq]
  refine h.elim hkey List.Forall₂.nil fun v v' hv hvv' => ?_
  exact (ih v hv).all v' (hread ▸ hvv')

theorem Expr.ofScalar_same (file tag value : String) (p p' : Position) :
    Same SameExpr (Expr.ofScalar file p tag value) (Expr.ofScalar file p' tag value) := by
  unfold Expr.ofScalar
  split
  · split
    · exact rfl
    · exact trivial
  · split
    · exact rfl
    · split
      · exact rfl
      · exact trivial

/-- A mapping gives the same expression if its kind and its lookups are the same. -/
theorem Expr.ofMapping_same (ih : ∀ m ∈ contentOf (.mapping p tag entries), ExprStable file m)
    (hkind : SameKind .expr entries entries') (h : Lookups .expr entries entries') :
    Same SameExpr (ofNode file (.mapping p tag entries)) (ofNode file (.mapping p' tag entries')) := by
  have expr : ∀ {key}, key ≠ "" → Reading.value .expr key = .expr → Same SameExpr
      (ofEntry file key entries) (ofEntry file key entries') :=
    fun hkey hread => Expr.ofEntry_same (fun v hv => ih v (mem_contentOf_of_valueAt hv)) h hkey hread
  have args := Expr.listOfEntry_same (fun v hv => ih v (mem_contentOf_of_valueAt hv)) h
    (show "args" ≠ "" by decide) rfl
  rw [ofNode, ofNode, ← hkind]
  -- one case for each kind, with its parts in the order in which they are read, since the first that is
  -- missing ends the reading
  split
  · exact congrArg (Expr.str default) (h.text (by decide))
  · refine (expr (by decide) rfl).bind fun l l' hl => (expr (by decide) rfl).bind fun x x' hx => ?_
    show Expr.binary default _ _ _ = Expr.binary default _ _ _
    rw [hl, hx, h.text (by decide)]
  · refine (expr (by decide) rfl).bind fun x x' hx => ?_
    show Expr.unary default _ _ = Expr.unary default _ _
    rw [hx, h.text (by decide)]
  · refine args.bind fun xs xs' hxs => ?_
    show Expr.call default _ _ = Expr.call default _ _
    rw [unplacedAll_eq hxs, h.text (by decide)]
  · refine (expr (by decide) rfl).bind fun t t' ht => (expr (by decide) rfl).bind fun x x' hx => ?_
    show Expr.assign default _ _ = Expr.assign default _ _
    rw [ht, hx]
  · refine (expr (by decide) rfl).bind fun x x' hx => (expr (by decide) rfl).bind fun i i' hi => ?_
    show Expr.index default _ _ = Expr.index default _ _
    rw [hx, hi]
  · refine (expr (by decide) rfl).bind fun x x' hx => ?_
    show Expr.field default _ _ _ = Expr.field default _ _ _
    rw [hx, h.text (by decide), h.flag (by decide)]
  · refine (expr (by decide) rfl).bind fun x x' hx => ?_
    show Expr.cast default _ _ = Expr.cast default _ _
    rw [hx, h.type (by decide)]
  · refine (expr (by decide) rfl).bind fun x x' hx => args.bind fun xs xs' hxs => ?_
    show Expr.syscall default _ _ = Expr.syscall default _ _
    rw [hx, unplacedAll_eq hxs]
  · refine args.bind fun xs xs' hxs => ?_
    show Expr.foreign default _ _ _ = Expr.foreign default _ _ _
    rw [unplacedAll_eq hxs, h.text (by decide), h.type (by decide)]
  · exact trivial

end

theorem exprStable (file : String) (n : Node) : ExprStable file n := by
  refine content_induction (P := ExprStable file) (fun n ih => ⟨fun n' h => ?_, fun n' h => ?_⟩) n
  · cases h with
    | scalar =>
      rw [ofNode, ofNode]
      exact Expr.ofScalar_same file _ _ _ _
    | sequence =>
      rw [ofNode, ofNode]
      exact trivial
    | mapping _ hdistinct hperm hentries hkind =>
      exact Expr.ofMapping_same ih hkind (lookups_of_perm hdistinct hperm hentries)
    | inTurn hr => cases hr
    | link =>
      rw [ofNode, ofNode]
      exact trivial
  · rw [Expr.listOfNode_eq, Expr.listOfNode_eq]
    exact mapM_same (h.content rfl) fun m hm => (ih m hm).one

section

variable {file : String} {r : Reading} {key : String} {entries entries' : List (Node × Node)}

theorem Lookups.expr (h : Lookups r entries entries') (hkey : key ≠ "") (hread : r.value key = .expr) :
    Same SameExpr (ofEntry file key entries) (ofEntry file key entries') :=
  Expr.ofEntry_same (fun v _ => exprStable file v) h hkey hread

theorem Lookups.exprs (h : Lookups r entries entries') (hkey : key ≠ "") (hread : r.value key = .exprs) :
    Same (List.Forall₂ SameExpr) (listOfEntry file key entries) (listOfEntry file key entries') :=
  Expr.listOfEntry_same (fun v _ => exprStable file v) h hkey hread

theorem Lookups.expr? (h : Lookups r entries entries') (hkey : key ≠ "") (hread : r.value key = .expr) :
    Same SameExpr? (Expr.ofEntry? file key entries) (Expr.ofEntry? file key entries') := by
  have hread? : ∀ es, Expr.ofEntry? file key es = (valueAt key es).elim (.ok none) fun n =>
      if n.isNull then .ok none else do return some (← ofNode file n) := by
    intro es
    unfold Expr.ofEntry?
    cases valueAt key es <;> rfl
  rw [hread?, hread?]
  refine h.elim hkey rfl fun v v' _ hv => ?_
  rw [hread] at hv
  rw [← hv.isNull_eq]
  split
  · exact rfl
  · exact ((exprStable file v).one v' hv).bind fun x x' hx => congrArg some hx

end

/-! ## Statements -/

/-- The same statement but for positions. -/
def SameStmt (s t : Stmt) : Prop := s.unplaced = t.unplaced

/-- The same arm of a conditional but for positions. -/
def SameArm (a b : Arm) : Prop := a.unplaced = b.unplaced

/-- The same block but for positions, or none. -/
def SameBlock? (b c : Option Block) : Prop := Block.unplaced? b = Block.unplaced? c

theorem stmts_unplacedAll_eq {ss ts : List Stmt} (h : List.Forall₂ SameStmt ss ts) :
    Stmt.unplacedAll ss = Stmt.unplacedAll ts := by
  induction h with
  | nil => rfl
  | cons hst _ ih => exact congrArg₂ List.cons hst ih

theorem arms_unplacedAll_eq {as bs : List Arm} (h : List.Forall₂ SameArm as bs) :
    Arm.unplacedAll as = Arm.unplacedAll bs := by
  induction h with
  | nil => rfl
  | cons hab _ ih => exact congrArg₂ List.cons hab ih

theorem Stmt.listOfEntry_eq (file key : String) (entries : List (Node × Node)) :
    Stmt.listOfEntry file key entries = (valueAt key entries).elim (.ok []) (Stmt.listOfNode file) :=
  eq_elim_valueAt (by rw [Stmt.listOfEntry]) (fun k v rest => by rw [Stmt.listOfEntry]) entries

theorem Block.ofEntry?_eq (file key : String) (entries : List (Node × Node)) :
    Block.ofEntry? file key entries = (valueAt key entries).elim (.ok none) fun v => do
      return some (.mk v.pos (← Stmt.listOfNode file v)) :=
  eq_elim_valueAt (by rw [Block.ofEntry?]) (fun k v rest => by rw [Block.ofEntry?]) entries

theorem Arm.listOfEntry_eq (file key : String) (entries : List (Node × Node)) :
    Arm.listOfEntry file key entries = (valueAt key entries).elim (.ok []) (Arm.listOfNode file) :=
  eq_elim_valueAt (by rw [Arm.listOfEntry]) (fun k v rest => by rw [Arm.listOfEntry]) entries

theorem Stmt.ofItems_eq (file : String) (items : List Node) :
    Stmt.ofItems file items = items.mapM (Stmt.ofNode file) := by
  induction items with
  | nil => rw [Stmt.ofItems]; rfl
  | cons n rest ih => rw [Stmt.ofItems, List.mapM_cons, ih]

theorem Arm.ofItems_eq (file : String) (items : List Node) :
    Arm.ofItems file items = items.mapM (Arm.ofNode file) := by
  induction items with
  | nil => rw [Arm.ofItems]; rfl
  | cons n rest ih => rw [Arm.ofItems, List.mapM_cons, ih]

/-- A list of arms is read from the nodes in a node. -/
theorem Arm.listOfNode_eq (file : String) (n : Node) :
    Arm.listOfNode file n = (contentOf n).mapM (Arm.ofNode file) := by
  cases n with
  | scalar p tag v => rw [Arm.listOfNode] <;> simp [contentOf, pure, Except.pure]
  | link p name target inside => rw [Arm.listOfNode] <;> simp [contentOf, pure, Except.pure]
  | sequence p tag items => rw [Arm.listOfNode, Arm.ofItems_eq, contentOf]
  | mapping p tag entries =>
    rw [Arm.listOfNode, contentOf]
    induction entries with
    | nil => rw [Arm.ofPairs]; rfl
    | cons e rest ih =>
      rw [Arm.ofPairs, ih]
      simp

section

variable {file : String} {r : Reading} {key : String} {entries entries' : List (Node × Node)}

theorem Lookups.params (file : String) (h : Lookups r entries entries') (hkey : key ≠ "")
    (hread : r.value key = .records) :
    Same Eq (Param.listOfNode file (valueAt key entries))
      (Param.listOfNode file (valueAt key entries')) := by
  have hlist : ∀ o, Param.listOfNode file o
      = o.elim (.ok []) fun n => (contentOf n).mapM (Param.ofNode file) := by
    intro o
    cases o <;> rfl
  rw [hlist, hlist, ← List.forall₂_eq_eq_eq]
  refine h.elim hkey List.Forall₂.nil fun v v' _ hv => ?_
  rw [hread] at hv
  refine mapM_same (hv.content rfl) fun n _ n' hn => ?_
  cases hn with
  | mapping _ hdistinct hperm hentries =>
    have hlook := lookups_of_perm hdistinct hperm hentries
    show Param.mk _ _ = Param.mk _ _
    rw [hlook.text (by decide), hlook.type (by decide)]
  | inTurn hr => cases hr
  | _ => exact trivial

theorem FieldDecl.ofNode_same {n n' : Node} (h : Reordered .plain n n') :
    (FieldDecl.ofNode n).unplaced = (FieldDecl.ofNode n').unplaced := by
  cases h with
  | mapping _ hdistinct hperm hentries =>
    have hlook := lookups_of_perm hdistinct hperm hentries
    show FieldDecl.mk default (textOf (valueAt "name" _)) (TypeRef.ofNode? (valueAt "type" _))
      (flagOf (valueAt "public" _)) = FieldDecl.mk default (textOf (valueAt "name" _))
      (TypeRef.ofNode? (valueAt "type" _)) (flagOf (valueAt "public" _))
    rw [hlook.text (by decide), hlook.type (by decide), hlook.flag (by decide)]
  | inTurn hr => cases hr
  | _ => rfl

theorem Lookups.fields (h : Lookups r entries entries') (hkey : key ≠ "") (hread : r.value key = .records) :
    (FieldDecl.listOfNode (valueAt key entries)).map FieldDecl.unplaced
      = (FieldDecl.listOfNode (valueAt key entries')).map FieldDecl.unplaced := by
  have hitems : ∀ {items items' : List Node}, Itemwise .plain items items' →
      (items.map FieldDecl.ofNode).map FieldDecl.unplaced
        = (items'.map FieldDecl.ofNode).map FieldDecl.unplaced := by
    intro items
    induction items with
    | nil =>
      intro items' hitems
      cases hitems
      rfl
    | cons n rest ih =>
      intro items' hitems
      cases hitems with
      | cons hn hrest => exact congrArg₂ List.cons (FieldDecl.ofNode_same hn) (ih hrest)
  refine h.values (P := fun o o' => (FieldDecl.listOfNode o).map FieldDecl.unplaced
    = (FieldDecl.listOfNode o').map FieldDecl.unplaced) hkey rfl fun v v' _ hv => ?_
  rw [hread] at hv
  exact hitems (hv.content rfl)

end

/-- Reading gives the same from a node, for statements, for arms and for lists of them. -/
structure StmtStable (file : String) (n : Node) : Prop where
  one : ∀ n', Reordered .stmt n n' → Same SameStmt (Stmt.ofNode file n) (Stmt.ofNode file n')
  all : ∀ n', Reordered .stmts n n' →
    Same (List.Forall₂ SameStmt) (Stmt.listOfNode file n) (Stmt.listOfNode file n')
  arm : ∀ n', Reordered .arm n n' → Same SameArm (Arm.ofNode file n) (Arm.ofNode file n')
  arms : ∀ n', Reordered .arms n n' →
    Same (List.Forall₂ SameArm) (Arm.listOfNode file n) (Arm.listOfNode file n')

section

variable {file : String} {r : Reading} {key : String} {entries entries' : List (Node × Node)}
  {p p' : Position} {tag : String}

section

variable (ih : ∀ m ∈ contentOf (.mapping p tag entries), StmtStable file m)
include ih

theorem Stmt.listOfEntry_same (h : Lookups r entries entries') (hkey : key ≠ "") (hread : r.value key = .stmts) :
    Same (List.Forall₂ SameStmt) (Stmt.listOfEntry file key entries)
      (Stmt.listOfEntry file key entries') := by
  rw [Stmt.listOfEntry_eq, Stmt.listOfEntry_eq]
  refine h.elim hkey List.Forall₂.nil fun v v' hv hvv' => ?_
  exact (ih v (mem_contentOf_of_valueAt hv)).all v' (hread ▸ hvv')

theorem Block.ofEntry?_same (h : Lookups r entries entries') (hkey : key ≠ "") (hread : r.value key = .stmts) :
    Same SameBlock? (Block.ofEntry? file key entries) (Block.ofEntry? file key entries') := by
  rw [Block.ofEntry?_eq, Block.ofEntry?_eq]
  refine h.elim hkey rfl fun v v' hv hvv' => ?_
  refine ((ih v (mem_contentOf_of_valueAt hv)).all v' (hread ▸ hvv')).bind fun ss ss' hss => ?_
  show some (Block.mk default _) = some (Block.mk default _)
  rw [stmts_unplacedAll_eq hss]

theorem Arm.listOfEntry_same (h : Lookups r entries entries') (hkey : key ≠ "") (hread : r.value key = .arms) :
    Same (List.Forall₂ SameArm) (Arm.listOfEntry file key entries) (Arm.listOfEntry file key entries') := by
  rw [Arm.listOfEntry_eq, Arm.listOfEntry_eq]
  refine h.elim hkey List.Forall₂.nil fun v v' hv hvv' => ?_
  exact (ih v (mem_contentOf_of_valueAt hv)).arms v' (hread ▸ hvv')

/-- A mapping gives the same statement if its kind and its lookups are the same. -/
theorem Stmt.ofMapping_same (hkind : SameKind .stmt entries entries') (h : Lookups .stmt entries entries') :
    Same SameStmt (Stmt.ofNode file (.mapping p tag entries))
      (Stmt.ofNode file (.mapping p' tag entries')) := by
  have block : ∀ {key}, key ≠ "" → Reading.value .stmt key = .stmts → Same SameBlock?
      (Block.ofEntry? file key entries) (Block.ofEntry? file key entries') :=
    fun hkey hread => Block.ofEntry?_same ih h hkey hread
  have params := h.params file (show "params" ≠ "" by decide) rfl
  rw [Stmt.ofNode, Stmt.ofNode, ← hkind]
  split
  · refine (Stmt.listOfEntry_same ih h (by decide) rfl).bind fun ss ss' hss => ?_
    show Stmt.space default _ _ = Stmt.space default _ _
    rw [stmts_unplacedAll_eq hss, h.text (by decide)]
  · refine params.bind fun ps ps' hps => (block (by decide) rfl).bind fun b b' hb => ?_
    show Stmt.func default _ _ _ _ _ = Stmt.func default _ _ _ _ _
    rw [hps, hb, h.text (by decide), h.flag (by decide), h.type (by decide)]
  · refine params.bind fun ps ps' hps => ?_
    show Stmt.outside default _ _ _ _ = Stmt.outside default _ _ _ _
    -- the key of the type depends on the flag, which is the same on both sides
    rw [hps, h.text (by decide), h.flag (by decide), h.type (by split <;> decide)]
  · show Stmt.struct default _ _ _ _ = Stmt.struct default _ _ _ _
    rw [h.text (by decide), h.flag (by decide), h.flag (by decide), h.fields (by decide) rfl]
  · refine (h.expr? (by decide) rfl).bind fun x x' hx => ?_
    show Stmt.var default _ _ _ = Stmt.var default _ _ _
    rw [hx, h.text (by decide), h.type (by decide)]
  · refine (h.expr (by decide) rfl).bind fun x x' hx => ?_
    show Stmt.set default _ _ _ = Stmt.set default _ _ _
    rw [hx, h.text (by decide), setOperator, setOperator, h.text (by decide)]
  · refine (h.expr (by decide) rfl).bind fun c c' hc => (block (by decide) rfl).bind fun b b' hb => ?_
    refine (Arm.listOfEntry_same ih h (by decide) rfl).bind fun as as' has => ?_
    refine (block (by decide) rfl).bind fun e e' he => ?_
    show Stmt.cond default (Arm.mk _ _ :: _) _ = Stmt.cond default (Arm.mk _ _ :: _) _
    rw [hc, hb, arms_unplacedAll_eq has, he]
  · refine (h.expr (by decide) rfl).bind fun c c' hc => (block (by decide) rfl).bind fun b b' hb => ?_
    show Stmt.while default _ _ = Stmt.while default _ _
    rw [hc, hb]
  · refine (h.expr (by decide) rfl).bind fun x x' hx => (h.expr (by decide) rfl).bind fun y y' hy => ?_
    refine (h.expr? (by decide) rfl).bind fun z z' hz => (block (by decide) rfl).bind fun b b' hb => ?_
    show Stmt.for default _ _ _ _ _ = Stmt.for default _ _ _ _ _
    rw [hx, hy, hz, hb, h.text (by decide)]
  · refine (h.exprs (by decide) rfl).bind fun xs xs' hxs => ?_
    show Stmt.call default _ _ = Stmt.call default _ _
    rw [unplacedAll_eq hxs, h.text (by decide)]
  · refine (h.expr? (by decide) rfl).bind fun x x' hx => ?_
    exact congrArg (Stmt.return default) hx
  · refine (h.expr (by decide) rfl).bind fun x x' hx => ?_
    exact congrArg (Stmt.expr default) hx
  · exact trivial

theorem Arm.ofMapping_same (h : Lookups .arm entries entries') :
    Same SameArm (Arm.ofNode file (.mapping p tag entries))
      (Arm.ofNode file (.mapping p' tag entries')) := by
  rw [Arm.ofNode, Arm.ofNode]
  refine (h.expr (by decide) rfl).bind fun c c' hc => ?_
  refine (Block.ofEntry?_same ih h (by decide) rfl).bind fun b b' hb => ?_
  show Arm.mk _ _ = Arm.mk _ _
  rw [hc, hb]

end

end

theorem stmtStable (file : String) (n : Node) : StmtStable file n := by
  refine content_induction (P := StmtStable file)
    (fun n ih => ⟨fun n' h => ?_, fun n' h => ?_, fun n' h => ?_, fun n' h => ?_⟩) n
  · cases h with
    | mapping _ hdistinct hperm hentries hkind =>
      exact Stmt.ofMapping_same ih hkind (lookups_of_perm hdistinct hperm hentries)
    | inTurn hr => cases hr
    | _ =>
      rw [Stmt.ofNode, Stmt.ofNode]
      exact trivial
  · cases h with
    | sequence hitems =>
      rw [Stmt.listOfNode, Stmt.listOfNode, Stmt.ofItems_eq, Stmt.ofItems_eq]
      exact mapM_same hitems fun m hm => (ih m hm).one
    | scalar =>
      rw [Stmt.listOfNode, Stmt.listOfNode]
      split
      · exact List.Forall₂.nil
      · exact trivial
    | inTurn hr => cases hr
    | _ =>
      rw [Stmt.listOfNode, Stmt.listOfNode]
      exact trivial
  · cases h with
    | mapping _ hdistinct hperm hentries hkind =>
      exact Arm.ofMapping_same ih (lookups_of_perm hdistinct hperm hentries)
    | inTurn hr => cases hr
    | _ =>
      exact trivial
  · rw [Arm.listOfNode_eq, Arm.listOfNode_eq]
    exact mapM_same (h.content rfl) fun m hm => (ih m hm).arm

/-! ## Programs -/

/-- The same program but for positions is read from both documents, or both are refused. -/
def ReadAlike (file : String) (n n' : Node) : Prop :=
  Same (fun ss ss' => Stmt.unplacedAll ss = Stmt.unplacedAll ss') (Stmt.listOfNode file n)
    (Stmt.listOfNode file n')

/-- The order of entries does not matter where it decides neither a kind nor the order of a list. -/
theorem reordered_readAlike (file : String) {n n' : Node} (h : Reordered .stmts n n') :
    ReadAlike file n n' := by
  have hsame := (stmtStable file n).all n' h
  unfold ReadAlike
  revert hsame
  cases Stmt.listOfNode file n <;> cases Stmt.listOfNode file n' <;> intro hsame
  · exact trivial
  · exact hsame.elim
  · exact hsame.elim
  · exact stmts_unplacedAll_eq hsame

/-- A scalar that is a word. -/
def word (text : String) : Node := .scalar default "!!str" text

/-- A document that is a list of one mapping. -/
def single (entries : List (Node × Node)) : Node :=
  .sequence default "!!seq" [.mapping default "!!map" entries]

/-- A function that sets a variable to a sum. -/
def addition : Node :=
  single [(word "func", word "f"), (word "body", single [(word "set", word "x"),
    (word "value", .mapping default "!!map"
      [(word "op", word "+"), (word "l", word "a"), (word "r", word "b")])])]

/-- The same function with the entries of every mapping in another order. -/
def shuffledAddition : Node :=
  single [(word "body", single [(word "value", .mapping default "!!map"
      [(word "l", word "a"), (word "op", word "+"), (word "r", word "b")]),
    (word "set", word "x")]), (word "func", word "f")]

theorem reordered_readAlike_addition : Reordered .stmts addition shuffledAddition ∧
    ReadAlike "sum.yaml" addition shuffledAddition := by
  have hword : ∀ {r : Reading} {s : String}, Reordered r (word s) (word s) := .scalar
  have hvalue : Reordered .expr
      (.mapping default "!!map" [(word "op", word "+"), (word "l", word "a"), (word "r", word "b")])
      (.mapping default "!!map" [(word "l", word "a"), (word "op", word "+"), (word "r", word "b")]) :=
    .mapping rfl (by simp [DistinctKeys, word, Node.text]) (.swap _ _ _)
      (.cons hword hword (.cons hword hword (.cons hword hword .nil))) rfl
  have hset : Reordered .stmts (single [(word "set", word "x"), (word "value", .mapping default "!!map"
        [(word "op", word "+"), (word "l", word "a"), (word "r", word "b")])])
      (single [(word "value", .mapping default "!!map"
        [(word "l", word "a"), (word "op", word "+"), (word "r", word "b")]), (word "set", word "x")]) :=
    .sequence (.cons (.mapping rfl (by simp [DistinctKeys, word, Node.text]) (.swap _ _ _)
      (.cons hword hvalue (.cons hword hword .nil)) rfl) .nil)
  have hfunc : Reordered .stmts addition shuffledAddition :=
    .sequence (.cons (.mapping rfl (by simp [DistinctKeys, word, Node.text]) (.swap _ _ _)
      (.cons hword hset (.cons hword hword .nil)) rfl) .nil)
  exact ⟨hfunc, reordered_readAlike "sum.yaml" hfunc⟩

/-- Two documents that differ only in the order of entries, but in what is read from them too. -/
def ReadApart (n n' : Node) : Prop := Reordered .plain n n' ∧ ¬ ReadAlike "" n n'

/-- Two entries change places. -/
theorem reordered_swap {k l : String} {v v' w w' : Node} (hkl : k ≠ l) (hv : Reordered .plain v v')
    (hw : Reordered .plain w w') :
    Reordered .plain (.mapping default "!!map" [(word k, v), (word l, w)])
      (.mapping default "!!map" [(word l, w'), (word k, v')]) := by
  refine .mapping rfl ?_ (.swap _ _ _) (.cons .scalar hw (.cons .scalar hv .nil)) trivial
  refine List.pairwise_pair.mpr fun hsame => absurd hsame ?_
  exact hkl

/-- The order of entries matters in a statement with two keys that name a kind, as an outside variable
has them, and in a mapping that stands for a list. It also matters for keys that read the same, even if
their tags differ. -/
theorem order_decides : ReadApart (single [(word "return", word "a"), (word "expr", word "b")])
      (single [(word "expr", word "b"), (word "return", word "a")]) ∧
    ReadApart (single [(word "extern", word "e"), (word "var", word "true")])
      (single [(word "var", word "true"), (word "extern", word "e")]) ∧
    ReadApart (single [(word "args", .mapping default "!!map" [(word "a", word "b"), (word "c", word "d")]),
        (word "call", word "f")])
      (single [(word "call", word "f"),
        (word "args", .mapping default "!!map" [(word "c", word "d"), (word "a", word "b")])]) ∧
    ¬ ReadAlike "" (single [(word "return", word "a"), (.scalar default "!other" "return", word "b")])
      (single [(.scalar default "!other" "return", word "b"), (word "return", word "a")]) := by
  have hsingle : ∀ {es es' : List (Node × Node)},
      Reordered .plain (.mapping default "!!map" es) (.mapping default "!!map" es') →
      Reordered .plain (single es) (single es') := fun h => .sequence (.cons h .nil)
  refine ⟨⟨hsingle (reordered_swap (by decide) .scalar .scalar), fun h => ?_⟩,
    ⟨hsingle (reordered_swap (by decide) .scalar .scalar), fun h => ?_⟩,
    ⟨hsingle (reordered_swap (by decide) (reordered_swap (by decide) .scalar .scalar) .scalar),
      fun h => ?_⟩, fun h => ?_⟩
  · have h : [Stmt.return default (some (.ident default "a"))] = [.expr default (.ident default "b")] := h
    simp at h
  · have h : [Stmt.outside default "e" true [] ⟨"", 0⟩] = [.var default "true" ⟨"", 0⟩ none] := h
    simp at h
  · have h : [Stmt.call default "f" [.ident default "a", .ident default "b", .ident default "c",
        .ident default "d"]] = [.call default "f" [.ident default "c", .ident default "d",
        .ident default "a", .ident default "b"]] := h
    simp at h
  · have h : [Stmt.return default (some (.ident default "a"))]
        = [.return default (some (.ident default "b"))] := h
    simp at h

end TreeAsm.Program
