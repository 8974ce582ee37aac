import FlowGraph.Func
import FlowGraph.Stats

/-! What a pass works on. -/

namespace FlowGraph

/-- A function, and the counters that the work on it moves. -/
structure Work where
  fn : Func
  stats : Stats := {}
deriving DecidableEq, Repr, Inhabited

namespace Work

/-- Replaces the function by what the change makes of it. -/
def modifyFn (w : Work) (f : Func → Func) : Work := { w with fn := f w.fn }

end Work

end FlowGraph
