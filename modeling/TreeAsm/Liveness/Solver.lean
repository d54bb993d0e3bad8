import TreeAsm.BitSet

/-!
# Liveness equations

A temporary is live at the end of a block if it is live at the start of some successor, and live at
the start if the block reads it before writing it, or if it is live at the end and not written.
The equations are solved from a worklist: of the blocks waiting, the last one is visited next.
-/

namespace TreeAsm.Liveness

/-- What is known of a block: the temporaries it reads before writing them, those it writes, those
live at its start and end, and its neighbours in the flow of control. -/
structure Facts where
  use : BitSet
  defs : BitSet
  liveIn : BitSet
  liveOut : BitSet
  succ : List Nat
  pred : List Nat
  deriving Inhabited

/-- A block about which nothing has been found out. -/
def Facts.start (use defs : BitSet) (succ : List Nat) : Facts := ⟨use, defs, ∅, ∅, succ, []⟩

/-- Adds block `i` to the predecessors of block `j`. -/
def addEdge (i : Nat) (bs : List Facts) (j : Nat) : List Facts :=
  bs.modify j fun b => { b with pred := b.pred ++ [i] }

/-- Adds blocks to the predecessors of their successors, edge by edge. -/
def addEdges (bs : List Facts) : List (Facts × Nat) → List Facts :=
  List.foldl (fun bs (b, i) => b.succ.foldl (addEdge i) bs) bs

/-- The blocks with their predecessors. -/
def linked (bs : List Facts) : List Facts := addEdges (bs.map fun b => { b with pred := [] }) bs.zipIdx

/-- Puts a block into a worklist, which is kept in descending order; one that waits already stays
where it is. -/
def enqueue (i : Nat) : List Nat → List Nat
  | [] => [i]
  | j :: rest => if i > j then i :: j :: rest else if i = j then j :: rest else j :: enqueue i rest

/-- The worklist of all of `n` blocks. -/
def allQueued : (n : Nat) → List Nat
  | 0 => []
  | n + 1 => n :: allQueued n

/-- What is live at the start of a block if `out` is live at its end. -/
def Facts.transfer (b : Facts) (out : BitSet) : BitSet := (out.subtract b.defs).union b.use

/-- What is live at the end of a block, by its successors and what was known before. -/
def Facts.join (bs : List Facts) (b : Facts) : BitSet :=
  b.succ.foldl (fun out s => match bs[s]? with
    | some x => out.union x.liveIn
    | none => out) b.liveOut

/-- The state of the solver: the blocks, the worklist and the number of visits. -/
structure Search where
  blocks : List Facts
  queue : List Nat
  visits : Nat

/-- Visits block `i`. If more is live at its start than was known, its predecessors wait again. -/
def Search.visit (s : Search) (i : Nat) : Search :=
  match s.blocks[i]? with
  | none => { s with visits := s.visits + 1 }
  | some b =>
    let out := b.join s.blocks
    let live := b.transfer out
    if live.equal b.liveIn then
      ⟨s.blocks.set i { b with liveOut := out }, s.queue, s.visits + 1⟩
    else
      ⟨s.blocks.set i { b with liveOut := out, liveIn := live },
        b.pred.foldl (fun q p => enqueue p q) s.queue, s.visits + 1⟩

/-- Visits blocks until none waits, at most `fuel` times. -/
def Search.run : (fuel : Nat) → Search → Search
  | 0, s => s
  | fuel + 1, s =>
    match s.queue with
    | [] => s
    | i :: queue => run fuel ({ s with queue := queue }.visit i)

/-- The number of edges between blocks. -/
def edgeCount (bs : List Facts) : Nat := (bs.flatMap (·.succ)).length

/-- A bound on the number of temporaries that can be live anywhere. -/
def tempBound (bs : List Facts) : Nat :=
  (bs.flatMap fun b => b.use.toList ++ b.liveIn.toList ++ b.liveOut.toList).length

/-- More visits than the solver can make: each block is visited once, and once more for each change
at a successor, which happens at most once per temporary and once at the first visit. -/
def visitBound (bs : List Facts) : Nat := bs.length + edgeCount bs * (tempBound bs + 1)

/-- Solves the equations. Gives the blocks, linked to their predecessors, and the number of visits.
Every successor must be a block. -/
def solve (bs : List Facts) : Outcome (List Facts × Nat) :=
  if bs.all fun b => b.succ.all (· < bs.length) then
    let s := Search.run (visitBound bs) ⟨linked bs, allQueued bs.length, 0⟩
    .ok (s.blocks, s.visits)
  else .crash

end TreeAsm.Liveness
