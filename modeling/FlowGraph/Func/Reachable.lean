import FlowGraph.Func

/-! Breadth-first search, and the blocks that control can reach. Eliminated blocks are never
entered, except an entry that is eliminated itself. -/

namespace FlowGraph

/-- Breadth-first order of the queue and of all that is reached from it through `unseen`.
What is put into the queue leaves `unseen`. -/
def bfs (succ : BlockRef → List BlockRef) (unseen queue : List BlockRef) : List BlockRef :=
  match queue with
  | [] => []
  | b :: rest =>
    let fresh := (succ b).filter (· ∈ unseen)
    b :: bfs succ (unseen.removeAll fresh) (rest ++ fresh)
termination_by (unseen.length, queue.length)
decreasing_by
  by_cases h : (succ b).filter (· ∈ unseen) = []
  · simp [h, Prod.lex_def, List.removeAll]
  · obtain ⟨x, hx⟩ := List.exists_mem_of_ne_nil _ h
    have hmem : x ∈ unseen := by simpa using (List.mem_filter.mp hx).2
    exact Prod.Lex.left _ _ (List.length_filter_lt_length_iff_exists.mpr
      ⟨x, hmem, by simpa using List.mem_filter.mp hx⟩)

namespace Func

/-- The successors that control may enter. -/
def liveSuccessors (fn : Func) (b : BlockRef) : List BlockRef :=
  (fn.successors b).filter fn.isLive

/-- The blocks reachable from an entry in breadth-first order, the entry first. -/
def reachable (fn : Func) (entry : BlockRef) : List BlockRef :=
  bfs fn.liveSuccessors ((List.range fn.blocks.length).filter (· ≠ entry)) [entry]

/-- The same from a reference that may be missing. -/
def reachableFrom (fn : Func) : Option BlockRef → Except Fault (List BlockRef)
  | none => .error .missingBlock
  | some b => .ok (fn.reachable b)

end Func

end FlowGraph
