import FlowGraph.Func

/-! A depth-first walk over the blocks reachable from an entry. Visitors see every block and
every operation, and may change the graph. The successors of an operation are read when its
visitors are done with it, so a visitor that redirects edges steers the walk. -/

namespace FlowGraph

/-- What is called on the way. A missing entry is announced before the walk breaks off. -/
structure VisitorIn (m : Type → Type) [Monad m] where
  enterBlock : Option BlockRef → m Unit := fun _ => pure ()
  enterOp : OpRef → BlockRef → m Unit := fun _ _ => pure ()
  leaveBlock : BlockRef → m Unit := fun _ => pure ()

/-- A visitor that works on a state. -/
abbrev Visitor (σ : Type) := VisitorIn (Action σ)

namespace Visitor

variable {σ : Type}

section

variable {m : Type → Type} [Monad m] [MonadStateOf σ m]

/-- Shows the operations of a block to all visitors, one operation after the other, and
gathers the live blocks that each refers to afterwards. -/
def visitOps (graph : σ → Func) (vs : List (VisitorIn m)) (b : BlockRef) :
    List OpRef → m (List BlockRef)
  | [] => pure []
  | o :: rest => do
    vs.forM fun v => v.enterOp o b
    let fn := graph (← get)
    let next := (fn.op o).blocks.filter fn.isLive
    return next ++ (← visitOps graph vs b rest)

/-- Visits one block and gives the blocks to go on with, in order. -/
def visitBlock (graph : σ → Func) (vs : List (VisitorIn m)) (b : BlockRef) :
    m (List BlockRef) := do
  vs.forM fun v => v.enterBlock (some b)
  let next ← visitOps graph vs b ((graph (← get)).block b).ops
  vs.forM fun v => v.leaveBlock b
  return next

end

/-- Walks from the blocks of the stack, the first one on top. -/
def walkFrom (graph : σ → Func) (vs : List (Visitor σ)) (unvisited stack : List BlockRef) :
    Action σ Unit :=
  match stack with
  | [] => pure ()
  | b :: rest =>
    if hb : b ∈ unvisited then do
      let next ← visitBlock graph vs b
      walkFrom graph vs (unvisited.erase b) (next.filter (· ∈ unvisited.erase b) ++ rest)
    else walkFrom graph vs unvisited rest
termination_by (unvisited.length, stack.length)
decreasing_by
  · have := List.length_erase_of_mem hb
    have := List.length_pos_of_mem hb
    exact Prod.Lex.left _ _ (by omega)
  · exact Prod.Lex.right _ (by simp)

/-- Walks from an entry, which is entered even if it is eliminated. -/
def walk (graph : σ → Func) (vs : List (Visitor σ)) : Option BlockRef → Action σ Unit
  | none => do
    vs.forM fun v => v.enterBlock none
    throw .missingBlock
  | some entry => do
    let fn := graph (← get)
    walkFrom graph vs (List.range fn.blocks.length) [entry]

end Visitor

end FlowGraph
