import FlowGraph.Func.Reachable

/-! Reachability questions over a snapshot of the live edges of a graph. Later changes of the
graph do not show in it. -/

namespace FlowGraph

structure Reach where
  /-- The blocks of the snapshot, in breadth-first order from its entry. -/
  blocks : List BlockRef
  /-- Successors inside the snapshot. A self edge never changes reachability and is left out. -/
  edges : List (BlockRef × List BlockRef)
deriving DecidableEq, Repr

namespace Reach

/-- A snapshot of the blocks reachable from an entry. -/
def ofEntry (fn : Func) (entry : BlockRef) : Reach :=
  let blocks := fn.reachable entry
  ⟨blocks, blocks.map fun p => (p, (fn.successors p).filter fun q => q ∈ blocks ∧ q ≠ p)⟩

def has (g : Reach) (b : BlockRef) : Bool := b ∈ g.blocks

def size (g : Reach) : Nat := g.blocks.length

def successors (g : Reach) (b : BlockRef) : List BlockRef := (g.edges.lookup b).getD []

/-- The blocks of the snapshot that a block of it leads to, itself included. -/
def walk (g : Reach) (b : BlockRef) : List BlockRef :=
  if g.has b then bfs g.successors (g.blocks.filter (· ≠ b)) [b] else []

def pathExists (g : Reach) (x y : BlockRef) : Bool := y ∈ g.walk x

/-- What a block leads to, ordered by the numbers that the blocks have now. -/
def reachable (g : Reach) (fn : Func) (b : BlockRef) : List BlockRef :=
  (g.walk b).mergeSort fun x y => (fn.block x).id ≤ (fn.block y).id

end Reach

end FlowGraph
