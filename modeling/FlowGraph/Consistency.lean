import FlowGraph.Reach

/-! Agreement of parent lists and edges. In a consistent graph every edge between live
reachable blocks has its source among the parents of its target, every live reachable parent
has such an edge, no parent is listed twice, and no edge leads to an eliminated block. -/

namespace FlowGraph

inductive Violation where
  | noEntry
  | duplicateParent (parent : Int)
  | parentWithoutEdge (parent : Int)
  | edgeToEliminated (target : Int)
  | unregisteredParent (target : Int)
deriving DecidableEq, Repr

def Violation.reason : Violation → Text
  | noEntry => "function has no entry block"
  | duplicateParent id => "duplicated parent " ++ blockName id
  | parentWithoutEdge id => "parent " ++ blockName id ++ " has no edge to this block"
  | edgeToEliminated id => "edge to eliminated block " ++ blockName id
  | unregisteredParent id => "not registered as a parent of " ++ blockName id

/-- A violation and the block where it was found, by its number. -/
structure VerifyError where
  func : Text
  block : Int
  violation : Violation
deriving DecidableEq, Repr

def VerifyError.message (e : VerifyError) : Text :=
  "VerifyError(" ++ e.func ++ ", " ++ blockName e.block ++ "): " ++ e.violation.reason

namespace Func

/-- The first violation among the parents of a block. A missing parent cannot be looked at. -/
def checkParents (fn : Func) (g : Reach) (b : BlockRef) (seen : List (Option BlockRef)) :
    List (Option BlockRef) → Except Fault (Option Violation)
  | [] => .ok none
  | none :: _ => .error .missingBlock
  | some p :: rest =>
    if some p ∈ seen then .ok (some (.duplicateParent (fn.block p).id))
    else if fn.isLive p && g.has p && !fn.targets p (some b) then
      .ok (some (.parentWithoutEdge (fn.block p).id))
    else checkParents fn g b (some p :: seen) rest

/-- The first violation among the successors of a block. -/
def checkSuccessors (fn : Func) (b : BlockRef) : List BlockRef → Option Violation
  | [] => none
  | q :: rest =>
    if !fn.isLive q then some (.edgeToEliminated (fn.block q).id)
    else if !(fn.block q).hasParent (some b) then some (.unregisteredParent (fn.block q).id)
    else checkSuccessors fn b rest

/-- The first violation at a block. An eliminated block is not checked. -/
def checkBlock (fn : Func) (g : Reach) (b : BlockRef) : Except Fault (Option Violation) := do
  if !fn.isLive b then return none
  match ← fn.checkParents g b [] (fn.block b).parents with
  | some v => return some v
  | none => return fn.checkSuccessors b (fn.successors b)

def checkBlocks (fn : Func) (g : Reach) : List BlockRef → Except Fault (Option VerifyError)
  | [] => .ok none
  | b :: rest => do
    match ← fn.checkBlock g b with
    | some v => return some ⟨fn.name, (fn.block b).id, v⟩
    | none => checkBlocks fn g rest

/-- Looks for a violation among the blocks reachable from the entry, in the order of their
numbers. -/
def verify (fn : Func) : Except Fault (Option VerifyError) :=
  match fn.entry with
  | none => .ok (some ⟨fn.name, 0, .noEntry⟩)
  | some entry =>
    let g := Reach.ofEntry fn entry
    fn.checkBlocks g (g.reachable fn entry)

end Func

end FlowGraph
